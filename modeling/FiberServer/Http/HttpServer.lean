import FiberServer.Http.Request
import FiberServer.Artifact.Store
import Mathlib.Data.Char
import Mathlib.Data.List.Lex

/-!
# `HttpServer`

`ServletDispatch` with the routes of `HttpServer`, and the servlets that do not
write artifacts.  A servlet is a program over `HttpOp`: the operations of the
writing servlets, the queries, and the change of a token.  Columns that no response
contains are left out, and so are the counters in the body of `StatusServlet`.
-/

namespace FiberServer

/-! ### `ServletDispatch` -/

/-- `m_datas` is a map; `m_globs` is searched in its order. -/
structure ServletDispatch (α : Type) where
  m_datas : List (Str × α)
  m_globs : List (Str × α)
  m_default : α

namespace ServletDispatch

variable {α : Type}

def addServlet (d : ServletDispatch α) (uri : Str) (slt : α) : ServletDispatch α :=
  { d with m_datas := (d.m_datas.filter fun p => p.1 ≠ uri) ++ [(uri, slt)] }

def addGlobServlet (d : ServletDispatch α) (uri : Str) (slt : α) : ServletDispatch α :=
  { d with m_globs := (d.m_globs.eraseP fun p => p.1 = uri) ++ [(uri, slt)] }

/-- `fnmatch` is the function of the C library, true for a match. -/
def getMatchedServlet (fnmatch : Str → Str → Bool) (d : ServletDispatch α) (uri : Str) : α :=
  match d.m_datas.find? fun p => p.1 = uri with
  | some p => p.2
  | none =>
    match d.m_globs.find? fun p => fnmatch p.1 uri with
    | some p => p.2
    | none => d.m_default

end ServletDispatch

inductive ServletName
  | StatusServlet
  | UploadServlet
  | DirUploadServlet
  | ChunkUploadServlet
  | MyFilesServlet
  | Md5Servlet
  | DownloadServlet
  | DeleteFileServlet
  | ArtifactTokenServlet
  | ArtifactQueryServlet
  | NotFoundServlet
  deriving DecidableEq, Repr

/-- The routes that the constructor adds. -/
def HttpServer.m_dispatch : ServletDispatch ServletName :=
  (⟨[], [], .NotFoundServlet⟩ : ServletDispatch ServletName)
    |>.addServlet "/api/status".toList .StatusServlet
    |>.addServlet "/api/artifacts/precheck".toList .UploadServlet
    |>.addServlet "/api/artifacts/upload/direct".toList .DirUploadServlet
    |>.addServlet "/api/artifacts/upload/chunk".toList .ChunkUploadServlet
    |>.addServlet "/api/artifacts/list".toList .MyFilesServlet
    |>.addServlet "/api/artifacts/checksum".toList .Md5Servlet
    |>.addGlobServlet "/api/artifacts/download".toList .DownloadServlet
    |>.addServlet "/api/artifacts/delete".toList .DeleteFileServlet
    |>.addServlet "/api/artifacts/token".toList .ArtifactTokenServlet
    |>.addServlet "/api/artifacts/latest".toList .ArtifactQueryServlet
    |>.addServlet "/api/artifacts/versions".toList .ArtifactQueryServlet
    |>.addServlet "/api/artifacts/builds".toList .ArtifactQueryServlet

/-! ### Queries -/

/-- The functions of `artifact_info` that the other servlets call. -/
inductive Lookup
  | GetArtifactsByProject (project_name : Str) (offset limit : Int)
  | GetLatestArtifact (project_name : Str)
  | GetVersionsByProject (project_name : Str)
  | GetBuildsByVersion (project_name version : Str)
  deriving DecidableEq, Repr

abbrev Lookup.Answer : Lookup → Type
  | .GetArtifactsByProject _ _ _ => List ArtifactInfo
  | .GetLatestArtifact _ => Option ArtifactInfo
  | .GetVersionsByProject _ => List Str
  | .GetBuildsByVersion _ _ => List Str

/-- What is returned when a statement throws. -/
def Lookup.nothing : (l : Lookup) → l.Answer
  | .GetArtifactsByProject _ _ _ => []
  | .GetLatestArtifact _ => none
  | .GetVersionsByProject _ => []
  | .GetBuildsByVersion _ _ => []

/-- `SELECT DISTINCT … ORDER BY … DESC`. -/
def distinctDesc (l : List Str) : List Str :=
  l.eraseDups.mergeSort fun s s' => decide (s' ≤ s)

/-- The rows are in the order of their ids. -/
def Tables.lookup (db : Tables) : (l : Lookup) → l.Answer
  | .GetArtifactsByProject project_name offset limit =>
    ((db.artifact_info.filter fun a => a.project_name = project_name).reverse.drop
      offset.toNat).take limit.toNat
  | .GetLatestArtifact project_name =>
    (db.artifact_info.filter fun a => a.project_name = project_name).getLast?
  | .GetVersionsByProject project_name =>
    distinctDesc ((db.artifact_info.filter fun a => a.project_name = project_name).map
      ArtifactInfo.version)
  | .GetBuildsByVersion project_name version =>
    distinctDesc ((db.artifact_info.filter fun a =>
      a.project_name = project_name ∧ a.version = version).map ArtifactInfo.build_no)

/-- `INSERT … ON DUPLICATE KEY UPDATE` of a token. -/
def Tables.upsertToken (db : Tables) (project_name token_hash : Str) : Tables :=
  { db with project_token :=
      if db.project_token.any fun t => t.project_name = project_name then
        db.project_token.map fun t =>
          if t.project_name = project_name then { t with token_hash := token_hash, status := 1 }
          else t
      else db.project_token ++ [⟨project_name, token_hash, 1⟩] }

/-- What the servlets of a server call. -/
inductive HttpOp
  | servlet (op : Op)
  | lookup (l : Lookup)
  | CreateOrUpdateToken (project_name token : Str)
  deriving DecidableEq, Repr

abbrev HttpOp.Answer : HttpOp → Type
  | .servlet op => op.Answer
  | .lookup l => l.Answer
  | .CreateOrUpdateToken _ _ => Bool

abbrev HttpServlet (α : Type) := Prog HttpOp HttpOp.Answer α

/-- Both `lookup` and `CreateOrUpdateToken` first run a `CREATE TABLE`. -/
def performHttp (env : Env) (fates : HttpOp → Nat → Fate) : (op : HttpOp) → World → op.Answer × World
  | .servlet op, w => performOp env (fun op => fates (.servlet op)) op w
  | .lookup l, w =>
    let f := fates (.lookup l)
    (if f 0 = .ok ∧ f 1 = .ok then w.db.lookup l else l.nothing, w.createTable (f 0))
  | .CreateOrUpdateToken project_name token, w =>
    let f := fates (.CreateOrUpdateToken project_name token)
    if project_name = [] ∨ token = [] then (false, w)
    else if f 0 = .ok ∧ f 1 = .ok then
      (true, w.commit.setDb (w.db.upsertToken project_name (env.sha1 token)))
    else (false, w.createTable (f 0))

/-! ### The servlets -/

/-- What a response contains apart from its status. -/
inductive Body
  | response (r : Response)
  | artifacts (offset limit : Int) (artifacts : List ArtifactInfo)
  | artifact (artifact : Option ArtifactInfo)
  | versions (versions : List Str)
  | builds (builds : List Str)
  | redirect (file_id download_name : Str)
  | scheduler
  | notFound
  deriving DecidableEq, Repr

structure HttpResponse where
  m_status : Nat
  m_body : Body
  deriving DecidableEq, Repr

/-- A body of a code and a message. -/
def answer (ret : Int) (code : Nat) (msg : String) : HttpServlet (Option HttpResponse) :=
  pure (some ⟨200, .response (reply ret code msg)⟩)

def found (body : Body) : HttpServlet (Option HttpResponse) := pure (some ⟨200, body⟩)

def ask (op : HttpOp) : HttpServlet op.Answer := Prog.perform op

def SociMgr.get : HttpServlet Bool := ask (.servlet (.ext (.connect .rows)))

/-- A writing servlet as a servlet of the server. -/
def writing (p : Servlet (Option Response)) : HttpServlet (Option HttpResponse) := do
  let r ← p.map HttpOp.servlet
  return r.map fun r => ⟨200, .response r⟩

section

variable (FromString : Str → Option Json)

def ArtifactTokenServlet.handle (request : HttpRequest) : HttpServlet (Option HttpResponse) := do
  match FromString request.getBody with
  | some (.object members) =>
    let m := ArtifactMetadata.FromJson members
    let token := JsonUtil.GetString members "token".toList
    if m.owner = [] ∨ token = [] then answer (-1) 1 "project_name and token are required"
    else
      let mysql ← SociMgr.get
      if !mysql then answer (-1) 1 "create artifact token failed"
      else
        let ok ← ask (.CreateOrUpdateToken m.owner token)
        if !ok then answer (-1) 1 "create artifact token failed" else answer 0 0 "success"
  | _ => answer (-1) 1 "json parse error"

def Md5Servlet.handle (request : HttpRequest) : HttpServlet (Option HttpResponse) := do
  match FromString request.getBody with
  | some (.object members) =>
    let m := ArtifactMetadata.FromJson members
    if m.owner = [] ∨ m.checksum = [] then
      answer (-1) 3 "project_name and checksum are required"
    else
      let mysql ← SociMgr.get
      if !mysql then answer (-1) 3 "mysql connection error"
      else
        let exists_by_md5 ← ask (.servlet (.ExistsByMd5 m.checksum))
        if exists_by_md5 then answer 0 0 "instant upload success"
        else answer 0 2 "file not exists, need upload"
  | _ => answer (-1) 3 "json parse error"

def MyFilesServlet.handle (request : HttpRequest) : HttpServlet (Option HttpResponse) := do
  match FromString request.getBody with
  | some (.object members) =>
    let m := ArtifactMetadata.FromJson members
    if m.owner = [] then answer 0 1 "project_name is required"
    else
      let offset := JsonUtil.GetInt32 members "offset".toList 0
      let limit := JsonUtil.GetInt32 members "limit".toList 100
      let offset := if offset < 0 then 0 else offset
      let limit := if limit ≤ 0 then 100 else if 1000 < limit then 1000 else limit
      let mysql ← SociMgr.get
      if !mysql then answer 0 1 "mysql connection error"
      else
        let artifacts ← ask (.lookup (.GetArtifactsByProject m.owner offset limit))
        found (.artifacts offset limit artifacts)
  | _ => answer 0 1 "json parse error"

attribute [local instance] lawfulBEq_str

def ArtifactQueryServlet.collectParams (request : HttpRequest) (key : Str) : Option Str :=
  let keys := ["project_name", "project", "namespace", "username", "user", "version", "build_no",
    "artifact_name"].map String.toList
  if key ∈ keys ∧ request.getParam key ≠ [] then some (request.getParam key) else none

def ArtifactQueryServlet.metadataFromRequest (request : HttpRequest) : ArtifactMetadata :=
  let m := ArtifactMetadata.FromParams (collectParams request)
  if m.owner ≠ [] then m
  else
    match FromString request.getBody with
    | some (.object members) => ArtifactMetadata.FromJson members
    | _ => m

def ArtifactQueryServlet.handle (request : HttpRequest) : HttpServlet (Option HttpResponse) := do
  let m := metadataFromRequest FromString request
  let path := request.m_path
  if m.owner = [] then answer 0 1 "project_name is required"
  else if path = "/api/artifacts/builds".toList ∧ m.version = [] then
    answer 0 1 "version is required"
  else
    let mysql ← SociMgr.get
    if !mysql then answer 0 1 "mysql connection error"
    else if path = "/api/artifacts/latest".toList then
      let latest ← ask (.lookup (.GetLatestArtifact m.owner))
      found (.artifact latest)
    else if path = "/api/artifacts/versions".toList then
      let versions ← ask (.lookup (.GetVersionsByProject m.owner))
      found (.versions versions)
    else if path = "/api/artifacts/builds".toList then
      let builds ← ask (.lookup (.GetBuildsByVersion m.owner m.version))
      found (.builds builds)
    else answer 0 0 "success"

def DownloadServlet.handle (request : HttpRequest) : HttpServlet (Option HttpResponse) := do
  let m := ArtifactMetadata.FromParams (parseQuery request.m_query)
  let mysql ← SociMgr.get
  if !mysql then return some ⟨500, .response (reply 0 1 "db error")⟩
  else
    let artifact ← ask (.servlet (.GetArtifact m.coordinate))
    match artifact with
    | none => return some ⟨404, .response (reply 0 1 "file not found")⟩
    | some a =>
      if a.file_id = [] then return some ⟨404, .response (reply 0 1 "file not found")⟩
      else found (.redirect ('/' :: a.file_id) a.artifact_name)

/-! ### The server -/

namespace HttpRequest

/-- What the writing servlets are given of a request. -/
def access (request : HttpRequest) : Access := ⟨request.m_path, request.GetArtifactToken⟩

def chunk (request : HttpRequest) : ChunkRequest where
  param := request.getParam
  file_path := request.getHeader "X-File-Path".toList
  meta_header :=
    if request.getHeader "X-Chunk-Meta".toList = [] then none
    else FromString (request.getHeader "X-Chunk-Meta".toList)
  body := request.m_body

end HttpRequest

/-- The `handle` of each servlet. -/
def ServletName.handle (chunk_sizes : Int) (request : HttpRequest) :
    ServletName → HttpServlet (Option HttpResponse)
  | .StatusServlet => found .scheduler
  | .UploadServlet =>
    writing (UploadServlet.handle chunk_sizes request.access (FromString request.getBody))
  | .DirUploadServlet =>
    writing (DirUploadServlet.handle request.access (parseQuery request.m_query) request.m_body)
  | .ChunkUploadServlet =>
    writing (ChunkUploadServlet.handle request.access (request.chunk FromString))
  | .MyFilesServlet => MyFilesServlet.handle FromString request
  | .Md5Servlet => Md5Servlet.handle FromString request
  | .DownloadServlet => DownloadServlet.handle request
  | .DeleteFileServlet =>
    writing (DeleteFileServlet.handle request.access (FromString request.getBody))
  | .ArtifactTokenServlet => ArtifactTokenServlet.handle FromString request
  | .ArtifactQueryServlet => ArtifactQueryServlet.handle FromString request
  | .NotFoundServlet => pure (some ⟨404, .notFound⟩)

/-- `ServletDispatch::handle`. -/
def HttpServer.handle (fnmatch : Str → Str → Bool) (chunk_sizes : Int) (request : HttpRequest) :
    HttpServlet (Option HttpResponse) :=
  (HttpServer.m_dispatch.getMatchedServlet fnmatch request.m_path).handle FromString chunk_sizes
    request

/-- A request on its own connection, as `serve` for the writing servlets. -/
def HttpServer.serve (fnmatch : Str → Str → Bool) (env : Env) (fates : HttpOp → Nat → Fate)
    (request : HttpRequest) (s : Store) : Option HttpResponse × Store :=
  let r := (HttpServer.handle FromString fnmatch env.chunk_sizes request).run
    (performHttp env fates) s.idle
  (r.1, r.2.rollback.toStore)

end

end FiberServer
