import FiberServer.Artifact.Metadata

/-!
# The tables

The columns that the modelled statements read or write, the statements, and what
each of them does to the tables.  Strings are compared exactly and fit into their
columns.  The unique keys of `001_schema.sql` reject a row: the coordinate of an
artifact and the `file_md5` of a shared file.
-/

namespace FiberServer

/-- The unique key of `artifact_info`. -/
structure Coordinate where
  project_name : Str
  version : Str
  build_no : Str
  artifact_name : Str
  deriving DecidableEq, Repr

structure ArtifactInfo where
  project_name : Str
  version : Str
  build_no : Str
  artifact_name : Str
  checksum : Str
  file_id : Str
  size : Int
  artifact_type : Str
  branch : Str
  commit_id : Str
  deriving DecidableEq, Repr

def ArtifactInfo.coordinate (a : ArtifactInfo) : Coordinate :=
  ⟨a.project_name, a.version, a.build_no, a.artifact_name⟩

structure FileInfo where
  md5 : Str
  file_id : Str
  owner : Str
  filename : Str
  size : Int
  type : Str
  deriving DecidableEq, Repr

structure FileShared where
  file_md5 : Str
  file_id : Str
  file_size : Int
  ref_count : Int
  deriving DecidableEq, Repr

structure ProjectToken where
  project_name : Str
  token_hash : Str
  status : Int
  deriving DecidableEq, Repr

structure Tables where
  artifact_info : List ArtifactInfo
  file_info : List FileInfo
  file_shared : List FileShared
  project_token : List ProjectToken
  deriving DecidableEq, Repr

/-- The statements of the modelled functions; `createTable` is a `CREATE TABLE IF
NOT EXISTS`, of `artifact_info` or of `project_token`. -/
inductive Statement
  | createTable
  | selectArtifact (c : Coordinate)
  | insertArtifact (a : ArtifactInfo)
  | deleteArtifact (c : Coordinate)
  | selectFile (owner md5 : Str)
  | insertFile (f : FileInfo)
  | deleteFile (owner filename : Str)
  | selectShared (md5 : Str)
  | insertShared (s : FileShared)
  | incrementRef (md5 : Str)
  | decrementRef (md5 : Str)
  | deleteShared (md5 : Str)
  | selectToken (project_name token_hash : Str)
  | begin
  | commit
  | rollback
  deriving DecidableEq, Repr

/-- What a statement that succeeds gives back. -/
abbrev Statement.Answer : Statement → Type
  | .selectArtifact _ => Option ArtifactInfo
  | .selectFile _ _ => Bool
  | .selectShared _ => Option FileShared
  | .selectToken _ _ => Bool
  | _ => Unit

namespace Tables

def artifact (db : Tables) (c : Coordinate) : Option ArtifactInfo :=
  db.artifact_info.find? fun a => a.coordinate = c

def shared (db : Tables) (md5 : Str) : Option FileShared :=
  db.file_shared.find? fun s => s.file_md5 = md5

/-- `UPDATE file_shared SET ref_count = … WHERE file_md5 = :md5`. -/
def updateRef (db : Tables) (md5 : Str) (f : Int → Int) : Tables :=
  { db with file_shared := db.file_shared.map fun s =>
      if s.file_md5 = md5 then { s with ref_count := f s.ref_count } else s }

/-- What a statement does; `none` when a unique key rejects it. -/
def apply (db : Tables) : (st : Statement) → Option (st.Answer × Tables)
  | .selectArtifact c => some (db.artifact c, db)
  | .insertArtifact a =>
    if (db.artifact a.coordinate).isSome then none
    else some ((), { db with artifact_info := db.artifact_info ++ [a] })
  | .deleteArtifact c =>
    some ((), { db with artifact_info := db.artifact_info.filter fun a => a.coordinate ≠ c })
  | .selectFile owner md5 =>
    some (db.file_info.any fun f => f.owner = owner ∧ f.md5 = md5, db)
  | .insertFile f => some ((), { db with file_info := db.file_info ++ [f] })
  | .deleteFile owner filename =>
    some ((), { db with file_info := db.file_info.filter fun f =>
      ¬ (f.owner = owner ∧ f.filename = filename) })
  | .selectShared md5 => some (db.shared md5, db)
  | .insertShared s =>
    if (db.shared s.file_md5).isSome then none
    else some ((), { db with file_shared := db.file_shared ++ [s] })
  | .incrementRef md5 => some ((), db.updateRef md5 (· + 1))
  | .decrementRef md5 =>
    some ((), db.updateRef md5 fun n => if 0 < n then n - 1 else n)
  | .deleteShared md5 =>
    some ((), { db with file_shared := db.file_shared.filter fun s => s.file_md5 ≠ md5 })
  | .selectToken project_name token_hash =>
    some (db.project_token.any fun t =>
      t.project_name = project_name ∧ t.token_hash = token_hash ∧ t.status = 1, db)
  | .createTable => some ((), db)
  | .begin => some ((), db)
  | .commit => some ((), db)
  | .rollback => some ((), db)

end Tables

end FiberServer
