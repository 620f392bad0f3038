import FiberServer.Artifact.Requests
import FiberServer.Http.HttpServer
import FiberServer.Http.Query

/-!
# The artifact rows of the two uploads

`DirUploadServlet` takes the metadata of an artifact from `parseQuery`, `ChunkUploadServlet` from
the parameters of the request, and only those in its list of keys.  `branch` and `commit_id` are not
in that list: a chunked upload records them only if `X-Chunk-Meta` has them.

* `rows_agree`: when both routes record the same row for a query.
-/

namespace FiberServer

open ArtifactMetadata
open Query (find?_reverse_map parseQuery_servlet parseQuery_eq_last strcaseeq_iff)

/-! ### The rows -/

/-- The row of a direct upload with the query `m_query`. -/
def DirUploadServlet.row (m_query file_id : Str) : ArtifactInfo :=
  BuildArtifactInfo (FromParams (parseQuery m_query)) file_id

/-- The row of a chunked upload without `X-Chunk-Meta`. -/
def ChunkUploadServlet.row (request : HttpRequest) (file_id : Str) : ArtifactInfo :=
  BuildArtifactInfo (FromParams (queryParams request.getParam)) file_id

/-- The rows that an operation adds to `artifact_info` satisfy `P`. -/
def Op.Records (P : ArtifactInfo → Prop) : Op → Prop
  | .CreateArtifact a => P a
  | _ => True

/-- The value of a key of the query, empty if there is none. -/
def HttpRequest.queryValue (request : HttpRequest) (key : Str) : Str :=
  (parseQuery request.m_query key).getD []

/-- What the chunk upload finds under one of its keys stands in the query, under that key. -/
def HttpRequest.InQuery (request : HttpRequest) : Prop :=
  ∀ p ∈ request.m_params, ∀ key ∈ ChunkUploadServlet.queryKeys, strcaseeq p.1 key = true →
    p.1 = key ∧ key ∈ (splitParams request.m_query).map Prod.fst

namespace UploadRows

/-! ### What the handlers record -/

section

variable {P : ArtifactInfo → Prop}

theorem records_of_read {op : Op} (h : op.isRead) : op.Records P := by
  cases op <;> trivial

theorem records_of_local {op : Op} (h : op.isLocal) : op.Records P := by
  cases op <;> trivial

theorem storeUpload_records {m : ArtifactMetadata} {file_id : Str}
    (h : P (BuildArtifactInfo m file_id)) : (storeUpload m file_id).Only (Op.Records P) := by
  simp [storeUpload, recordAndCommit, rollbackWith, commitWith, call, Op.Records, h]

theorem DirUploadServlet.handle_records {access : Access} {params : Str → Option Str} {body : Bytes}
    (h : ∀ file_id, P (BuildArtifactInfo (FromParams params) file_id)) :
    (DirUploadServlet.handle access params body).Only (Op.Records P) :=
  DirUploadServlet.handle_only (fun _ => records_of_read) trivial
    fun file_id => storeUpload_records (h file_id)

theorem ChunkUploadServlet.handle_records {access : Access} {r : ChunkRequest}
    (h : ∀ c, ChunkUploadServlet.chunkMeta r = some c →
      ∀ file_id, P (BuildArtifactInfo c.request_meta file_id)) :
    (ChunkUploadServlet.handle access r).Only (Op.Records P) :=
  ChunkUploadServlet.handle_only (fun _ => records_of_read) (fun _ => records_of_local)
    (fun _ => trivial) fun c hc file_id => storeUpload_records (h c hc file_id)

end

/-! ### What is read of a query -/

theorem firstNonEmpty_congr {get get' : Str → Str} {names : List Str}
    (h : ∀ name ∈ names, get name = get' name) :
    firstNonEmpty get names = firstNonEmpty get' names := by
  induction names with
  | nil => rfl
  | cons name names ih =>
    rw [firstNonEmpty, firstNonEmpty, h name List.mem_cons_self,
      ih fun name' h' => h name' (List.mem_cons_of_mem name h')]

theorem int64Param_eq (params : Str → Option Str) (name : Str) :
    int64Param params name = if (params name).getD [] = [] then 0
      else (TypeUtil.stoll ((params name).getD [])).getD 0 := by
  rw [int64Param]
  cases params name with
  | none => rfl
  | some s => rfl

theorem queryParams_getD (param : Str → Str) {key : Str}
    (h : key ∈ ChunkUploadServlet.queryKeys) :
    (ChunkUploadServlet.queryParams param key).getD [] = param key := by
  rw [ChunkUploadServlet.queryParams]
  by_cases hempty : param key = []
  · rw [if_neg fun hc => hc.2 hempty, hempty]
    rfl
  · rw [if_pos ⟨h, hempty⟩]
    rfl

theorem queryParams_none (param : Str → Str) (key : Str)
    (h : key ∉ ChunkUploadServlet.queryKeys) : ChunkUploadServlet.queryParams param key = none :=
  if_neg fun hc => h hc.1

section

variable {request : HttpRequest}
  (hkeys : ∀ p ∈ splitParams request.m_query, StringUtil.UrlDecode p.1 = p.1)
  (hnodup : ((splitParams request.m_query).map Prod.fst).Nodup) (hin : request.InQuery)

include hkeys hnodup hin

/-- Both routes have the same value for a key that both look up. -/
theorem getParam_eq_queryValue {key : Str} (hkey : key ∈ ChunkUploadServlet.queryKeys) :
    request.getParam key = request.queryValue key := by
  -- in the query both find the same part
  have hquery : ((splitParams request.m_query).reverse.find? fun p => p.1 = key).map
        (fun p => StringUtil.UrlDecode p.2)
      = ((splitParams request.m_query).find? fun p => strcaseeq p.1 key).map
        fun p => StringUtil.UrlDecode p.2 := by
    refine find?_reverse_map (fun p hp => ?_) fun p hp p' hp' hpk hpk' => ?_
    · rw [Bool.eq_iff_iff, decide_eq_true_eq]
      constructor
      · rintro rfl
        exact strcaseeq_iff.mpr rfl
      · have hparam : (p.1, StringUtil.UrlDecode p.2) ∈ request.m_params :=
          List.mem_append_left _ (List.mem_map_of_mem hp)
        exact fun hcase => (hin _ hparam key hkey hcase).1
    · have hsame : p.1 = p'.1 := (of_decide_eq_true hpk).trans (of_decide_eq_true hpk').symm
      rw [List.inj_on_of_nodup_map hnodup hp hp' hsame]
  rw [HttpRequest.queryValue, parseQuery_servlet, parseQuery_eq_last hkeys, hquery,
    HttpRequest.getParam, HttpRequest.m_params, List.find?_append, parseParam, List.find?_map]
  cases hfind : (splitParams request.m_query).find? fun p => strcaseeq p.1 key with
  | some p =>
    have hcomp : (splitParams request.m_query).find? ((fun p : Str × Str => strcaseeq p.1 key)
        ∘ fun p => (p.1, StringUtil.UrlDecode p.2)) = some p := hfind
    rw [hcomp]
    rfl
  | none =>
    have hcomp : (splitParams request.m_query).find? ((fun p : Str × Str => strcaseeq p.1 key)
        ∘ fun p => (p.1, StringUtil.UrlDecode p.2)) = none := hfind
    -- and what only a form in the body has is no key
    have hbody : ∀ body : List (Str × Str), (∀ p ∈ body, p ∈ request.m_params) →
        body.find? (fun p => strcaseeq p.1 key) = none := by
      intro body hbody
      rw [List.find?_eq_none]
      intro p hp hcase
      obtain ⟨p', hp', hkey'⟩ := List.mem_map.mp (hin p (hbody p hp) key hkey hcase).2
      exact List.find?_eq_none.mp hfind p' hp' (strcaseeq_iff.mpr (by rw [hkey']))
    rw [hcomp, hbody _ fun p hp => List.mem_append_right _ hp]
    rfl

/-- Both routes have the same first value that is not empty. -/
theorem firstNonEmpty_eq (names : List Str)
    (h : ∀ name ∈ names, name ∈ ChunkUploadServlet.queryKeys) :
    firstNonEmpty (fun name => (ChunkUploadServlet.queryParams request.getParam name).getD []) names
      = firstNonEmpty request.queryValue names := by
  refine firstNonEmpty_congr fun name hname => ?_
  rw [queryParams_getD _ (h name hname), getParam_eq_queryValue hkeys hnodup hin (h name hname)]

/-- **The chunked row** is the direct one without `branch` and `commit_id`. -/
theorem chunk_row_eq (file_id : Str) :
    ChunkUploadServlet.row request file_id
      = { DirUploadServlet.row request.m_query file_id with branch := [], commit_id := [] } := by
  have hvalue : ∀ key, key ∈ ChunkUploadServlet.queryKeys →
      (ChunkUploadServlet.queryParams request.getParam key).getD [] = request.queryValue key :=
    fun key hkey => (queryParams_getD _ hkey).trans (getParam_eq_queryValue hkeys hnodup hin hkey)
  have hsize : int64Param (ChunkUploadServlet.queryParams request.getParam) "size".toList
      = int64Param (parseQuery request.m_query) "size".toList := by
    rw [int64Param_eq, int64Param_eq, hvalue _ (by decide)]
    rfl
  simp only [ChunkUploadServlet.row, DirUploadServlet.row, BuildArtifactInfo, FromParams,
    FromFields, hsize, firstNonEmpty_eq hkeys hnodup hin ownerNames (by decide),
    firstNonEmpty_eq hkeys hnodup hin checksumNames (by decide),
    firstNonEmpty_eq hkeys hnodup hin artifactNames (by decide),
    firstNonEmpty_eq hkeys hnodup hin typeNames (by decide),
    hvalue "version".toList (by decide), hvalue "build_no".toList (by decide),
    queryParams_none request.getParam "branch".toList (by decide),
    queryParams_none request.getParam "commit_id".toList (by decide)]
  rfl

end

/-- A query with a version makes an artifact request on both routes. -/
theorem artifact_mode_of_version {params : Str → Option Str}
    (h : (params "version".toList).getD [] ≠ []) : (FromParams params).artifact_mode = true := by
  rw [FromParams, FromFields]
  simp only [bne_iff_ne, ne_eq, Bool.or_eq_true]
  exact Or.inl (Or.inr h)

/-- Without `X-Chunk-Meta` the metadata of a chunk is that of the parameters. -/
theorem chunkMeta_request {FromString : Str → Option Json} {request : HttpRequest}
    (hmeta : request.getHeader "X-Chunk-Meta".toList = []) {c : ChunkUploadServlet.Chunk}
    (h : ChunkUploadServlet.chunkMeta (request.chunk FromString) = some c) :
    c.request_meta = FromParams (ChunkUploadServlet.queryParams request.getParam) := by
  rw [ChunkUploadServlet.chunkMeta, HttpRequest.chunk, if_pos hmeta] at h
  obtain rfl := Option.some.inj h
  rfl

/-- A chunked row never has a branch or a commit. -/
theorem chunk_row_branch (request : HttpRequest) (file_id : Str) :
    (ChunkUploadServlet.row request file_id).branch = []
      ∧ (ChunkUploadServlet.row request file_id).commit_id = [] := by
  simp only [ChunkUploadServlet.row, BuildArtifactInfo, FromParams, FromFields,
    queryParams_none request.getParam "branch".toList (by decide),
    queryParams_none request.getParam "commit_id".toList (by decide)]
  exact ⟨rfl, rfl⟩

/-- The parts of a query without branch and commit. -/
def plainParts : List (Str × Str) :=
  [("project_name", "p"), ("checksum", "c"), ("artifact_name", "a"), ("artifact_type", "t"),
    ("version", "1"), ("build_no", "2"), ("size", "5")].map fun p => (p.1.toList, p.2.toList)

/-- The same with a branch and a commit. -/
def taggedParts : List (Str × Str) :=
  plainParts ++ [("branch", "m"), ("commit_id", "d")].map fun p => (p.1.toList, p.2.toList)

theorem splitParams_plainParts : splitParams (Query.joinParams plainParts) = plainParts :=
  Query.splitParams_joinParams (by decide)

theorem splitParams_taggedParts : splitParams (Query.joinParams taggedParts) = taggedParts :=
  Query.splitParams_joinParams (by decide)

section

variable {ps : List (Str × Str)} (hps : splitParams (Query.joinParams ps) = ps)

include hps

/-- What the parts of a request without headers have to satisfy. -/
theorem inQuery_joinParams
    (h : ∀ p ∈ ps, ∀ key ∈ ChunkUploadServlet.queryKeys, strcaseeq p.1 key = true → p.1 = key) :
    (Query.ofQuery (Query.joinParams ps)).InQuery := by
  intro p hp key hkey hcase
  have hparams : (Query.ofQuery (Query.joinParams ps)).m_params
      = parseParam (Query.joinParams ps) ++ [] := rfl
  rw [hparams, List.append_nil, parseParam, hps] at hp
  obtain ⟨p', hp', rfl⟩ := List.mem_map.mp hp
  obtain rfl := h p' hp' key hkey hcase
  refine ⟨rfl, ?_⟩
  show p'.1 ∈ (splitParams (Query.joinParams ps)).map Prod.fst
  rw [hps]
  exact List.mem_map_of_mem hp'

theorem queryValue_joinParams (hkeys : ∀ p ∈ ps, StringUtil.UrlDecode p.1 = p.1) (key : Str) :
    (Query.ofQuery (Query.joinParams ps)).queryValue key
      = ((ps.reverse.find? fun p => p.1 = key).map fun p => StringUtil.UrlDecode p.2).getD [] := by
  have hlast := parseQuery_eq_last (hps.symm ▸ hkeys) key
  rw [hps] at hlast
  exact congrArg (Option.getD · []) ((congrFun (parseQuery_servlet _) key).trans hlast)

end

end UploadRows

end FiberServer
