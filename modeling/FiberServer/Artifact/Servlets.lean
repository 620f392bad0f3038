import FiberServer.Artifact.Mysqlop

/-!
# The four writing servlets

Each servlet is a program over `Op`.  `none` stands for an exception that leaves
`handle`; a lambda that is submitted to the database executor ends with `none`
when it throws.  What a response says apart from its code and its message, and
the performance log, are left out, except for the chunk plan.
-/

namespace FiberServer

/-- What `handle` returns with what it puts into the body. -/
structure Response where
  ret : Int
  code : Nat
  msg : String
  totalChunks : Option Int
  uploadedChunks : List Int
  deriving DecidableEq, Repr

/-- `return code == 0 ? 0 : -1` with a body of a code and a message. -/
def reply (ret : Int) (code : Nat) (msg : String) : Response := ⟨ret, code, msg, none, []⟩

/-- The path of a request and the token that `GetArtifactToken` finds in it. -/
structure Access where
  path : Str
  token : Str
  deriving DecidableEq, Repr

def IsArtifactWritePath (path : Str) : Bool :=
  path ∈ ["/api/artifacts/precheck", "/api/artifacts/upload/direct",
    "/api/artifacts/upload/chunk", "/api/artifacts/delete"].map String.toList

/-- `RequireArtifactToken`: the response, if the request is refused. -/
def RequireArtifactToken (access : Access) (owner : Str) : Servlet (Option Response) := do
  if !IsArtifactWritePath access.path then return none
  else if access.token = [] then return some (reply (-1) 1 "artifact token required")
  else
    let mysql ← call (.ext (.connect .token))
    if !mysql then return some (reply (-1) 1 "mysql connection error")
    else
      let valid ← call (.ValidateToken owner access.token)
      if !valid then return some (reply (-1) 1 "invalid artifact token")
      else return none

def ArtifactMetadata.coordinate (m : ArtifactMetadata) : Coordinate :=
  ⟨m.owner, m.version, m.build_no, m.artifact_name⟩

def BuildArtifactInfo (m : ArtifactMetadata) (file_id : Str) : ArtifactInfo where
  project_name := m.owner
  version := m.version
  build_no := m.build_no
  artifact_name := m.artifact_name
  checksum := m.checksum
  file_id := file_id
  size := m.size
  artifact_type := m.type
  branch := m.branch
  commit_id := m.commit_id

/-! ### `soci::transaction` -/

/-- `tr.rollback()` and `return result`.  When it throws, the destructor of `tr`
rolls back once more. -/
def rollbackWith {α : Type} (result : α) : Servlet (Option α) := do
  let ok ← call .rollback
  if ok then return some result
  else
    let _ ← call .rollback
    return none

/-- `tr.commit()` and `return result`. -/
def commitWith {α : Type} (result : α) : Servlet (Option α) := do
  let ok ← call .commit
  if ok then return some result
  else
    let _ ← call .rollback
    return none

/-! ### What the two uploads share -/

/-- The check of the coordinate before anything is stored: the response of a
request that stops here. -/
def coordinateCheck (m : ArtifactMetadata) : Servlet (Option Response) := do
  let mysql ← call (.ext (.connect .check))
  if !mysql then return some (reply (-1) 1 "mysql connection error")
  else
    let artifact ← call (.GetArtifact m.coordinate)
    match artifact with
    | none => return none
    | some a =>
      if a.checksum = m.checksum then return some (reply 0 0 "artifact already exists")
      else return some (reply (-1) 1 "artifact checksum conflict")

/-- The token and, in artifact mode, the coordinate: the response of a request that
is not admitted. -/
def admission (access : Access) (m : ArtifactMetadata) : Servlet (Option Response) := do
  let refused ← RequireArtifactToken access m.owner
  match refused with
  | some r => return some r
  | none => if m.artifact_mode then coordinateCheck m else return none

/-- The arguments of `CreateFile`. -/
def fileRow (m : ArtifactMetadata) (file_id type : Str) : FileInfo where
  md5 := m.checksum
  file_id := file_id
  owner := m.owner
  filename := m.storage_name
  size := m.size
  type := type

structure DbResult where
  ok : Bool
  message : String
  deriving DecidableEq, Repr

/-- The end of the transactions that add rows: the artifact, in artifact mode, and
the commit. -/
def recordAndCommit {α : Type} (m : ArtifactMetadata) (file_id : Str) (failure success : α) :
    Servlet (Option α) := do
  if m.artifact_mode then
    let recorded ← call (.CreateArtifact (BuildArtifactInfo m file_id))
    if !recorded then rollbackWith failure else commitWith success
  else commitWith success

/-- The submitted lambda: the transaction of an upload. -/
def storeUpload (m : ArtifactMetadata) (file_id : Str) : Servlet (Option DbResult) := do
  let mysql ← call (.ext (.connect .rows))
  if !mysql then return some ⟨false, "mysql connection error"⟩
  else
    let begun ← call .begin
    if !begun then return none
    else
      let created ← call (.CreateFile (fileRow m file_id m.type))
      if !created then rollbackWith ⟨false, "create file record failed"⟩
      else
        let shared ← call (.CreateShared m.checksum file_id m.size)
        if !shared then rollbackWith ⟨false, "create shared file record failed"⟩
        else recordAndCommit m file_id ⟨false, "create artifact metadata failed"⟩ ⟨true, ""⟩

/-! ### `UploadServlet` -/

namespace UploadServlet

structure DbResult where
  code : Nat
  message : String
  deriving DecidableEq, Repr

/-- The branch of a checksum that the project already has. -/
def instantExisting (m : ArtifactMetadata) : Servlet (Option DbResult) := do
  if m.artifact_mode then
    let file_id ← call (.GetFileIdByMd5 m.checksum)
    if file_id = [] then return some ⟨3, "create artifact metadata failed"⟩
    else
      let recorded ← call (.CreateArtifact (BuildArtifactInfo m file_id))
      if !recorded then return some ⟨3, "create artifact metadata failed"⟩
      else return some ⟨0, "instant upload success"⟩
  else return some ⟨0, "instant upload success"⟩

/-- The branch of a checksum that another project has. -/
def instantShared (m : ArtifactMetadata) : Servlet (Option DbResult) := do
  let file_id ← call (.GetFileIdByMd5 m.checksum)
  let begun ← call .begin
  if !begun then return none
  else
    let incremented ← call (.IncrementRef m.checksum)
    if !incremented then rollbackWith ⟨3, "instant upload db transaction failed"⟩
    else
      let created ← call (.CreateFile (fileRow m file_id []))
      if !created then rollbackWith ⟨3, "instant upload db transaction failed"⟩
      else
        recordAndCommit m file_id ⟨3, "create artifact metadata failed"⟩
          ⟨0, "instant upload success"⟩

/-- From the look at the existing files on; `direct` is 1. -/
def instant (m : ArtifactMetadata) : Servlet (Option DbResult) := do
  let owned ← call (.ExistsByMd5AndUser m.checksum m.owner)
  if owned then instantExisting m
  else
    let shared ← call (.ExistsByMd5 m.checksum)
    if shared then instantShared m else return some ⟨1, ""⟩

/-- The submitted lambda. -/
def precheck (m : ArtifactMetadata) : Servlet (Option DbResult) := do
  let mysql ← call (.ext (.connect .rows))
  if !mysql then return some ⟨3, "mysql connection error"⟩
  else if m.artifact_mode then
    let artifact ← call (.GetArtifact m.coordinate)
    match artifact with
    | some a =>
      if a.checksum = m.checksum then return some ⟨0, "artifact already exists"⟩
      else return some ⟨3, "artifact checksum conflict"⟩
    | none => instant m
  else instant m

/-- The number of chunks in a plan; `none` for a division by zero. -/
def totalChunks (size chunk_sizes : Int) : Option Int :=
  if chunk_sizes = 0 then none
  else some (TypeUtil.wrap 32 ((size + chunk_sizes - 1).tdiv chunk_sizes))

/-- What is answered when there is nothing to reuse. -/
def plan (chunk_sizes : Int) (m : ArtifactMetadata) : Servlet Response := do
  let uploadedChunks ← call (.ext (.getUploadedChunks m.owner m.checksum))
  if m.size ≤ chunk_sizes then return reply 0 1 "direct upload"
  else
    let _ ← call (.ext (.mkdirTask m.owner m.checksum))
    return ⟨0, 2, "chunk upload", totalChunks m.size chunk_sizes, uploadedChunks⟩

/-- From the result of the transaction on. -/
def respond (chunk_sizes : Int) (m : ArtifactMetadata) :
    Option DbResult → Servlet (Option Response)
  | none => return some (reply (-1) 3 "internal error")
  | some r =>
    if r.code = 0 then return some (reply 0 0 r.message)
    else if r.code = 3 then return some (reply (-1) 3 r.message)
    else do
      let response ← plan chunk_sizes m
      return some response

/-- `body` is what `JsonUtil::FromString` makes of the body. -/
def handle (chunk_sizes : Int) (access : Access) (body : Option Json) :
    Servlet (Option Response) := do
  match body with
  | some (.object members) =>
    let m := ArtifactMetadata.FromJson members
    if m.owner = [] ∨ m.checksum = [] ∨ m.size ≤ 0 then
      return some (reply (-1) 3 "project_name, checksum, size required")
    else
      let refused ← RequireArtifactToken access m.owner
      match refused with
      | some r => return some r
      | none =>
        let db_result ← precheck m
        respond chunk_sizes m db_result
  | _ => return some (reply (-1) 3 "json parse error")

end UploadServlet

/-! ### `DirUploadServlet` -/

namespace DirUploadServlet

/-- Give the content to FastDFS. -/
def receive (fileContent : Bytes) : Servlet (Response ⊕ Str) := do
  if fileContent = [] then return .inl (reply (-1) 1 "empty file content")
  else
    let uploaded ← call (.ext (.uploadSmallFile fileContent))
    match uploaded with
    | none => return .inl (reply (-1) 1 "upload file failed")
    | some file_id => return .inr file_id

/-- The rows of the file in FastDFS.  Nothing is caught here. -/
def store (m : ArtifactMetadata) (file_id : Str) : Servlet (Option Response) := do
  let db_result ← storeUpload m file_id
  match db_result with
  | none => return none
  | some r =>
    if r.ok then return some (reply 0 0 "success") else return some (reply (-1) 1 r.message)

/-- `params` is the parsed query. -/
def handle (access : Access) (params : Str → Option Str) (body : Bytes) :
    Servlet (Option Response) := do
  let m := ArtifactMetadata.FromParams params
  if m.owner = [] ∨ m.checksum = [] ∨ m.size ≤ 0 ∨ m.type = [] then
    return some (reply (-1) 1 "project_name, checksum, size, artifact_type required")
  else
    let refused ← admission access m
    match refused with
    | some r => return some r
    | none =>
      let received ← receive body
      match received with
      | .inl r => return some r
      | .inr file_id => store m file_id

end DirUploadServlet

/-! ### `ChunkUploadServlet` -/

/-- A chunk: `getParam`, the header `X-File-Path`, what `JsonUtil::FromString`
makes of a header `X-Chunk-Meta` that is not empty, and the body. -/
structure ChunkRequest where
  param : Str → Str
  file_path : Str
  meta_header : Option Json
  body : Bytes

namespace ChunkUploadServlet

/-- The parameters that are looked up. -/
def queryKeys : List Str :=
  ["project_name", "project", "namespace", "username", "user", "checksum", "md5",
    "artifact_name", "filename", "file_name", "artifact_type", "type", "version", "build_no",
    "size"].map String.toList

def queryParams (param : Str → Str) (key : Str) : Option Str :=
  if key ∈ queryKeys ∧ param key ≠ [] then some (param key) else none

def orElse (s s' : Str) : Str := if s = [] then s' else s

/-- Fill the fields that the parameters left empty from the header. -/
def fillFrom (m h : ArtifactMetadata) : ArtifactMetadata where
  owner := orElse m.owner h.owner
  checksum := orElse m.checksum h.checksum
  artifact_name := orElse m.artifact_name h.artifact_name
  storage_name := orElse m.storage_name h.storage_name
  type := orElse m.type h.type
  version := orElse m.version h.version
  build_no := orElse m.build_no h.build_no
  branch := orElse m.branch h.branch
  commit_id := orElse m.commit_id h.commit_id
  size := if m.size ≤ 0 then h.size else m.size
  artifact_mode := m.artifact_mode || h.artifact_mode

structure Chunk where
  request_meta : ArtifactMetadata
  total_chunks : Int
  chunk_index : Int
  deriving DecidableEq, Repr

def withHeader (c : Chunk) (members : Str → Option Value) : Chunk where
  request_meta := fillFrom c.request_meta (ArtifactMetadata.FromJson members)
  total_chunks :=
    if c.total_chunks ≤ 0 then JsonUtil.GetInt32 members "total_chunks".toList 0
    else c.total_chunks
  chunk_index :=
    if c.chunk_index < 0 then JsonUtil.GetInt32 members "chunk_index".toList (-1)
    else c.chunk_index

/-- The metadata of a chunk; `none` when jsoncpp throws. -/
def chunkMeta (r : ChunkRequest) : Option Chunk :=
  let c : Chunk :=
    ⟨ArtifactMetadata.FromParams (queryParams r.param),
      (TypeUtil.lexicalCastInt (r.param "total_chunks".toList)).getD 0,
      (TypeUtil.lexicalCastInt (r.param "chunk_index".toList)).getD (-1)⟩
  match r.meta_header with
  | none => some c
  | some (.object members) => some (withHeader c members)
  | some .null => some (withHeader c fun _ => none)
  | some .other => none

def saveChunk (c : Chunk) (file_path : Str) (body : Bytes) : Servlet Bool :=
  let m := c.request_meta
  if file_path ≠ [] then call (.ext (.saveChunk file_path m.owner m.checksum c.chunk_index))
  else call (.ext (.saveChunkContent body m.owner m.checksum c.chunk_index))

/-- Save the chunk and, when it was the last one, merge the chunks: the merged file. -/
def collect (c : Chunk) (file_path : Str) (body : Bytes) : Servlet (Response ⊕ Str) := do
  let m := c.request_meta
  let saved ← saveChunk c file_path body
  if !saved then return .inl (reply (-1) 1 "save chunk failed")
  else
    let ready ← call (.ext (.isAllChunksReady m.owner m.checksum c.total_chunks))
    if !ready then
      return .inl (reply 0 0 s!"chunk {c.chunk_index + 1}/{c.total_chunks} uploaded")
    else
      let merged_path ← call (.ext (.mergeChunks m.owner m.checksum c.total_chunks))
      if merged_path = [] then return .inl (reply (-1) 1 "merge chunks failed")
      else return .inr merged_path

/-- Give the merged file to FastDFS. -/
def receive (c : Chunk) (file_path : Str) (body : Bytes) : Servlet (Response ⊕ Str) := do
  let collected ← collect c file_path body
  match collected with
  | .inl r => return .inl r
  | .inr merged_path =>
    let uploaded ← call (.ext (.uploadBigFile merged_path))
    match uploaded with
    | none => return .inl (reply (-1) 1 "upload to fastdfs failed")
    | some file_id => return .inr file_id

/-- The rows of the file in FastDFS, and the end of the task directory. -/
def store (m : ArtifactMetadata) (file_id : Str) : Servlet (Option Response) := do
  let db_result ← storeUpload m file_id
  match db_result with
  | none => return some (reply (-1) 1 "internal error")
  | some r =>
    if r.ok then
      let _ ← call (.ext (.rmTask m.owner m.checksum))
      return some (reply 0 2 "success")
    else return some (reply (-1) 1 r.message)

def handle (access : Access) (r : ChunkRequest) : Servlet (Option Response) := do
  match chunkMeta r with
  | none => return some (reply (-1) 1 "internal error")
  | some c =>
    let m := c.request_meta
    if m.owner = [] ∨ m.checksum = [] ∨ m.size ≤ 0 ∨ c.chunk_index < 0 ∨ m.type = []
        ∨ c.total_chunks ≤ 0 then
      return some (reply (-1) 1
        "project_name, checksum, size, chunk_index, artifact_type, total_chunks required")
    else
      let refused ← admission access m
      match refused with
      | some r => return some r
      | none =>
        let received ← receive c r.file_path r.body
        match received with
        | .inl r => return some r
        | .inr file_id => store m file_id

end ChunkUploadServlet

/-! ### `DeleteFileServlet` -/

namespace DeleteFileServlet

structure DbResult where
  ok : Bool
  delete_physical : Bool
  file_id : Str
  message : String
  deriving DecidableEq, Repr

def failed (message : String) : DbResult := ⟨false, false, [], message⟩

/-- After the row of the artifact: the file record, the reference, the commit. -/
def releaseFile (m : ArtifactMetadata) (artifact : ArtifactInfo) : Servlet (Option DbResult) := do
  let fileDeleted ← call (.DeleteFileRecordByUserAndFilename m.owner m.storage_name)
  if !fileDeleted then rollbackWith (failed "delete file record failed")
  else
    let ref ← call (.DecrementRef artifact.checksum)
    if ref < 0 then rollbackWith (failed "decrement shared ref failed")
    else if ref = 0 then
      let sharedDeleted ← call (.DeleteShared artifact.checksum)
      if !sharedDeleted then rollbackWith (failed "delete shared record failed")
      else commitWith ⟨true, true, artifact.file_id, ""⟩
    else commitWith ⟨true, false, artifact.file_id, ""⟩

/-- The transaction, for the artifact that was found. -/
def deleteArtifact (m : ArtifactMetadata) (artifact : ArtifactInfo) :
    Servlet (Option DbResult) := do
  let begun ← call .begin
  if !begun then return none
  else
    let deleted ← call (.DeleteArtifact m.coordinate)
    if !deleted then rollbackWith (failed "delete artifact metadata failed")
    else releaseFile m artifact

/-- The submitted lambda. -/
def deleteRows (m : ArtifactMetadata) : Servlet (Option DbResult) := do
  let mysql ← call (.ext (.connect .rows))
  if !mysql then return some (failed "mysql connection error")
  else
    let artifact ← call (.GetArtifact m.coordinate)
    match artifact with
    | none => return some (failed "artifact not found")
    | some a => deleteArtifact m a

/-- From the result of the transaction on.  What `deleteFile` answers is not looked
at. -/
def respond : Option DbResult → Servlet (Option Response)
  | none => return some (reply (-1) 1 "internal error")
  | some r =>
    if !r.ok then return some (reply (-1) 1 r.message)
    else if r.delete_physical then do
      let _ ← call (.ext (.deleteFile r.file_id))
      return some (reply 0 0 "success")
    else return some (reply 0 0 "success")

def handle (access : Access) (body : Option Json) : Servlet (Option Response) := do
  match body with
  | none => return some (reply (-1) 1 "parse body failed")
  | some json =>
    match ArtifactMetadata.ofJson json with
    | none => return some (reply (-1) 1 "internal error")
    | some m =>
      if m.owner = [] ∨ m.storage_name = [] then
        return some (reply (-1) 1 "project_name and artifact_name are required")
      else
        let refused ← RequireArtifactToken access m.owner
        match refused with
        | some r => return some r
        | none =>
          let db_result ← deleteRows m
          respond db_result

end DeleteFileServlet

/-! ### Requests -/

def UploadServlet.path : Str := "/api/artifacts/precheck".toList

def DirUploadServlet.path : Str := "/api/artifacts/upload/direct".toList

def ChunkUploadServlet.path : Str := "/api/artifacts/upload/chunk".toList

def DeleteFileServlet.path : Str := "/api/artifacts/delete".toList

/-- A request to one of the writing servlets, with the token that it carries. -/
inductive Request
  | precheck (token : Str) (body : Option Json)
  | direct (token : Str) (params : Str → Option Str) (body : Bytes)
  | chunk (token : Str) (r : ChunkRequest)
  | delete (token : Str) (body : Option Json)

/-- The servlets at their paths, as `HttpServer` adds them. -/
def Request.handle (chunk_sizes : Int) : Request → Servlet (Option Response)
  | .precheck token body => UploadServlet.handle chunk_sizes ⟨UploadServlet.path, token⟩ body
  | .direct token params body => DirUploadServlet.handle ⟨DirUploadServlet.path, token⟩ params body
  | .chunk token r => ChunkUploadServlet.handle ⟨ChunkUploadServlet.path, token⟩ r
  | .delete token body => DeleteFileServlet.handle ⟨DeleteFileServlet.path, token⟩ body

end FiberServer
