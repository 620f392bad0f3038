import FiberServer.Artifact.Tables
import FiberServer.Library.Program

/-!
# `mysqlop_soci.cpp`, `FastDFSUtil` and `ChunkManager` as operations

`Op` is what a servlet calls.  A function of `mysqlop_soci.cpp` is a program over
SQL statements; the answer of a statement is `none` when it throws, which each
function catches.  `SociMgr`, FastDFS and the chunk files are single calls.
-/

namespace FiberServer

/-- The places where a request takes a connection. -/
inductive Use
  | token
  | check
  | rows
  deriving DecidableEq, Repr

/-- Calls that are not SQL; `connect` is `SociMgr::get`, with a mark of its place. -/
inductive External
  | connect (use : Use)
  | uploadSmallFile (content : Bytes)
  | uploadBigFile (file_path : Str)
  | deleteFile (file_id : Str)
  | getUploadedChunks (username md5 : Str)
  | mkdirTask (username md5 : Str)
  | saveChunk (tmp_file_path username md5 : Str) (index : Int)
  | saveChunkContent (content : Bytes) (username md5 : Str) (index : Int)
  | isAllChunksReady (username md5 : Str) (total_chunks : Int)
  | mergeChunks (username md5 : Str) (total_chunks : Int)
  | rmTask (username md5 : Str)
  deriving DecidableEq, Repr

abbrev External.Answer : External → Type
  | .uploadSmallFile _ => Option Str
  | .uploadBigFile _ => Option Str
  | .getUploadedChunks _ _ => List Int
  | .mergeChunks _ _ _ => Str
  | _ => Bool

/-- One step of a request. -/
inductive Call
  | sql (st : Statement)
  | ext (e : External)
  deriving DecidableEq, Repr

abbrev Call.Answer : Call → Type
  | .sql st => Option st.Answer
  | .ext e => e.Answer

abbrev Sql (α : Type) := Prog Call Call.Answer α

/-- Send a statement. -/
def send (st : Statement) : Sql (Option st.Answer) :=
  Prog.perform (Call.sql st)

namespace artifact_info

def EnsureArtifactTable : Sql Bool := do
  let r ← send .createTable
  return r.isSome

def GetArtifact (c : Coordinate) : Sql (Option ArtifactInfo) := do
  let ensured ← EnsureArtifactTable
  if ensured then
    let row ← send (.selectArtifact c)
    return row.getD none
  else return none

/-- `CreateArtifact` from the answer of its `GetArtifact` on. -/
def insertUnlessExisting (artifact : ArtifactInfo) : Option ArtifactInfo → Sql Bool
  | some existing => return existing.checksum == artifact.checksum
  | none => do
    let r ← send (.insertArtifact artifact)
    return r.isSome

def CreateArtifact (artifact : ArtifactInfo) : Sql Bool := do
  let ensured ← EnsureArtifactTable
  if ensured then
    let existing ← GetArtifact artifact.coordinate
    insertUnlessExisting artifact existing
  else return false

def DeleteArtifact (c : Coordinate) : Sql Bool := do
  let ensured ← EnsureArtifactTable
  if ensured then
    let r ← send (.deleteArtifact c)
    return r.isSome
  else return false

end artifact_info

namespace file_info

def ExistsByMd5AndUser (md5 user : Str) : Sql Bool := do
  let r ← send (.selectFile user md5)
  return r.getD false

def CreateFile (f : FileInfo) : Sql Bool := do
  let r ← send (.insertFile f)
  return r.isSome

def DeleteFileRecordByUserAndFilename (user filename : Str) : Sql Bool := do
  let r ← send (.deleteFile user filename)
  return r.isSome

end file_info

namespace file_shared

def ExistsByMd5 (md5 : Str) : Sql Bool := do
  let r ← send (.selectShared md5)
  return (r.getD none).isSome

def GetFileIdByMd5 (md5 : Str) : Sql Str := do
  let r ← send (.selectShared md5)
  return ((r.getD none).map FileShared.file_id).getD []

def CreateShared (md5 file_id : Str) (file_size : Int) : Sql Bool := do
  let r ← send (.insertShared ⟨md5, file_id, file_size, 1⟩)
  return r.isSome

def IncrementRef (md5 : Str) : Sql Bool := do
  let r ← send (.incrementRef md5)
  return r.isSome

def DecrementRef (md5 : Str) : Sql Int := do
  let r ← send (.decrementRef md5)
  if r.isSome then
    let row ← send (.selectShared md5)
    return ((row.getD none).map FileShared.ref_count).getD (-1)
  else return -1

def DeleteShared (md5 : Str) : Sql Bool := do
  let r ← send (.deleteShared md5)
  return r.isSome

end file_shared

namespace project_token

/-- `ValidateToken` with the hash that it computes from the token. -/
def ValidateToken (sha1 : Str → Str) (project_name token : Str) : Sql Bool := do
  if project_name = [] ∨ token = [] then return false
  else
    let ensured ← send .createTable
    if ensured.isSome then
      let r ← send (.selectToken project_name (sha1 token))
      return r.getD false
    else return false

end project_token

/-! ### Operations -/

/-- What a servlet calls. -/
inductive Op
  | ValidateToken (project_name token : Str)
  | GetArtifact (c : Coordinate)
  | CreateArtifact (artifact : ArtifactInfo)
  | DeleteArtifact (c : Coordinate)
  | ExistsByMd5AndUser (md5 user : Str)
  | CreateFile (f : FileInfo)
  | DeleteFileRecordByUserAndFilename (user filename : Str)
  | ExistsByMd5 (md5 : Str)
  | GetFileIdByMd5 (md5 : Str)
  | CreateShared (md5 file_id : Str) (file_size : Int)
  | IncrementRef (md5 : Str)
  | DecrementRef (md5 : Str)
  | DeleteShared (md5 : Str)
  | begin
  | commit
  | rollback
  | ext (e : External)
  deriving DecidableEq, Repr

abbrev Op.Answer : Op → Type
  | .GetArtifact _ => Option ArtifactInfo
  | .GetFileIdByMd5 _ => Str
  | .DecrementRef _ => Int
  | .ext e => e.Answer
  | _ => Bool

/-- The statements of an operation. -/
def Op.prog (sha1 : Str → Str) : (op : Op) → Sql op.Answer
  | .ValidateToken project_name token => project_token.ValidateToken sha1 project_name token
  | .GetArtifact c => artifact_info.GetArtifact c
  | .CreateArtifact artifact => artifact_info.CreateArtifact artifact
  | .DeleteArtifact c => artifact_info.DeleteArtifact c
  | .ExistsByMd5AndUser md5 user => file_info.ExistsByMd5AndUser md5 user
  | .CreateFile f => file_info.CreateFile f
  | .DeleteFileRecordByUserAndFilename user filename =>
    file_info.DeleteFileRecordByUserAndFilename user filename
  | .ExistsByMd5 md5 => file_shared.ExistsByMd5 md5
  | .GetFileIdByMd5 md5 => file_shared.GetFileIdByMd5 md5
  | .CreateShared md5 file_id file_size => file_shared.CreateShared md5 file_id file_size
  | .IncrementRef md5 => file_shared.IncrementRef md5
  | .DecrementRef md5 => file_shared.DecrementRef md5
  | .DeleteShared md5 => file_shared.DeleteShared md5
  | .begin => do
    let r ← send .begin
    return r.isSome
  | .commit => do
    let r ← send .commit
    return r.isSome
  | .rollback => do
    let r ← send .rollback
    return r.isSome
  | .ext e => Prog.perform (Call.ext e)

/-- A servlet before its operations are taken apart. -/
abbrev Servlet (α : Type) := Prog Op Op.Answer α

def call (op : Op) : Servlet op.Answer := Prog.perform op

end FiberServer
