import FiberServer.Artifact.StorageNames
import FiberServer.Http.HttpServer
import FiberServer.Http.Response
import FiberServer.Http.UploadRows

/-!
# The headers of a download

The name of an artifact goes from the request of an upload into its row, and from there into the
header `Content-Disposition` of every download.  The comment in `DownloadServlet::handle` says that
the name is encoded for the URL; it is not.

* `Labelled`: the names in the rows are names that uploads have declared, and the files have ids
  that FastDFS has given.
* `download_intact_iff`: the head of a download consists of the lines that were set if and only if
  the name has no line feed.
-/

namespace FiberServer

open Transition (Along exec)

variable {env : Env} {fates : Fates} {s t : Store}

/-- What `handleClient` and `DownloadServlet::handle` make of the response; `server` is the name of
the server, and `file_id` has a slash in front. -/
def DownloadServlet.response (server : Str) (version : UInt8) (close : Bool)
    (file_id download_name : Str) : http.HttpResponse :=
  (http.HttpResponse.new version close)
    |>.setHeader "Server".toList server
    |>.setHeader "X-Accel-Redirect".toList file_id
    |>.setHeader "Content-Type".toList "application/octet-stream".toList
    |>.setHeader "Content-Disposition".toList
      ("attachment; filename*=UTF-8''".toList ++ download_name)

/-- A receiver of the text finds the status line and the line of each header, and no body. -/
def DownloadServlet.Intact (r : http.HttpResponse) : Prop :=
  Lines.head '\r' '\n' r.dump = some (r.statusLine :: r.fieldLines, r.m_body)

/-! ### The rows -/

/-- The artifacts have names of `P` and files that FastDFS has given. -/
structure Labelled (env : Env) (P : Str → Prop) (s : Store) : Prop where
  names : ∀ a ∈ s.db.artifact_info, P a.artifact_name
  issued : Issued env s

theorem labelled_of_empty {P : Str → Prop} (h : s.Empty) : Labelled env P s where
  names := by
    rw [h.artifact_info]
    exact fun _ ha => absurd ha List.not_mem_nil
  issued := issued_of_empty h

/-- A delete adds no artifact. -/
theorem DeleteFileServlet.Outcome.artifact_info {m : ArtifactMetadata} {a : ArtifactInfo}
    {d : Option DbResult} {db : Tables} (h : Outcome fates s m a d db) :
    db.artifact_info.Sublist s.db.artifact_info := by
  cases h with
  | kept r hr h => exact .refl _
  | deleted h hf =>
    rw [Tables.release]
    split_ifs <;> exact List.filter_sublist
  | torn r hr db h hf hdb hkept =>
    rw [hdb]
    exact List.filter_sublist

theorem artifact_info_of_delete (token : Str) (body : Option Json) :
    (serve env fates (.delete token body) s).2.db.artifact_info.Sublist s.db.artifact_info := by
  obtain ⟨r, t, hrun, hcases⟩ :=
    DeleteFileServlet.handle_cases env fates s ⟨DeleteFileServlet.path, token⟩ body
  rw [serve_eq hrun]
  obtain ⟨-, rfl, -⟩ | ⟨m, a, d, db, -, hout, hanswers⟩ := hcases
  · exact .refl _
  · rw [hanswers.db]
    exact hout.artifact_info

/-- The name that a request declares for an artifact. -/
def Request.Names (req : Request) (name : Str) : Prop :=
  req.isDelete = false ∧ ∃ m, req.metadata = some m ∧ m.artifact_name = name

theorem Labelled.serve {P : Str → Prop} (h : Labelled env P s) {x : Fates × Request}
    (hx : ∀ name, x.2.Names name → P name) : Labelled env P (serve env x.1 x.2 s).2 := by
  refine ⟨fun a ha => ?_, h.issued.registers (registers env x.1 s x.2)⟩
  obtain ⟨fates, req⟩ := x
  cases hdelete : req.isDelete with
  | true =>
    cases req with
    | delete token body => exact h.names a ((artifact_info_of_delete token body).subset ha)
    | _ => exact nomatch hdelete
  | false =>
    obtain hdb | ⟨m, -, hm, hadds⟩ := serve_addsFor env fates s hdelete
    · exact h.names a (hdb ▸ ha)
    · obtain hold | ⟨-, hcoordinate⟩ := hadds.artifact a ha
      · exact h.names a hold
      · have hname : a.artifact_name = m.artifact_name :=
          congrArg Coordinate.artifact_name hcoordinate
        exact hx _ ⟨hdelete, m, hm, hname.symm⟩

/-- **Every name in the rows was declared** by a request of the run. -/
theorem labelled_of_exec (hempty : s.Empty) {xs : List (Fates × Request)}
    (hrun : exec (serveStep env) s xs = some t) :
    Labelled env (fun name => ∃ x ∈ xs, x.2.Names name) t := by
  refine Transition.along_invariant (C := fun _ x => x ∈ xs) ?_ (labelled_of_empty hempty)
    (Along.of_forall fun _ hx => hx) hrun
  rintro u x u' hu hx hstep
  obtain rfl := Option.some.inj hstep
  exact hu.serve fun name hname => ⟨x, hx, hname⟩

/-! ### The answer -/

/-- A download names the file and the artifact of a row. -/
theorem DownloadServlet.handle_redirect {hfates : HttpOp → Nat → Fate} {request : HttpRequest}
    {file_id name : Str}
    (h : ((DownloadServlet.handle request).run (performHttp env hfates) s.idle).1
      = some ⟨200, .redirect file_id name⟩) :
    ∃ a ∈ s.db.artifact_info, file_id = '/' :: a.file_id ∧ name = a.artifact_name := by
  simp only [DownloadServlet.handle, SociMgr.get, ask, found, Prog.run_bind, Prog.run_perform,
    performHttp, performOp_connect, Prog.run_ite, performOp_GetArtifact] at h
  split at h
  · exact absurd h (by simp)
  · rw [Tables.readArtifact] at h
    split_ifs at h
    · cases ha : s.db.artifact (ArtifactMetadata.FromParams (parseQuery request.m_query)).coordinate
        with
      | none => simp [ha] at h
      | some a =>
        rw [ha] at h
        simp only [Prog.run_ite, Prog.run_pure] at h
        split_ifs at h
        · exact absurd h (by simp)
        · obtain ⟨rfl, rfl⟩ : '/' :: a.file_id = file_id ∧ a.artifact_name = name := by
            simpa using h
          exact ⟨a, (artifact_eq_some ha).1, rfl, rfl⟩
    · exact absurd h (by simp)

/-! ### The lines -/

namespace DownloadServlet

open http.HeaderMap (put_nil put_behind put_before)

variable {server file_id name : Str} {version : UInt8} {close : Bool}

/-- The headers in their order. -/
theorem entries_response : (response server version close file_id name).m_headers.entries
    = [("Content-Disposition".toList, "attachment; filename*=UTF-8''".toList ++ name),
      ("Content-Type".toList, "application/octet-stream".toList), ("Server".toList, server),
      ("X-Accel-Redirect".toList, file_id)] := by
  have hless : CaseInsensitiveLess "Server".toList "X-Accel-Redirect".toList = true
      ∧ CaseInsensitiveLess "Server".toList "Content-Type".toList = false
      ∧ CaseInsensitiveLess "Content-Type".toList "Server".toList = true
      ∧ CaseInsensitiveLess "Content-Type".toList "Content-Disposition".toList = false
      ∧ CaseInsensitiveLess "Content-Disposition".toList "Content-Type".toList = true := by
    decide
  obtain ⟨h₁, h₂, h₃, h₄, h₅⟩ := hless
  unfold response
  rw [http.HttpResponse.entries_setHeader, http.HttpResponse.entries_setHeader,
    http.HttpResponse.entries_setHeader, http.HttpResponse.entries_setHeader,
    http.HttpResponse.entries_new, put_nil, put_behind h₁, put_nil, put_before h₂ h₃,
    put_before h₄ h₅]

theorem written_response : (response server version close file_id name).written
    = (response server version close file_id name).m_headers.entries := by
  rw [http.HttpResponse.written, entries_response]
  have hnames : ∀ key ∈ ["Content-Disposition", "Content-Type", "Server", "X-Accel-Redirect"].map
      String.toList, (!strcaseeq key "connection".toList) = true := by decide
  refine List.filter_eq_self.mpr fun x hx => hnames x.1 ?_
  exact List.mem_map_of_mem (f := Prod.fst) hx

/-- The head is what was set if and only if the three values have no line feed. -/
theorem intact_iff : Intact (response server version close file_id name)
    ↔ '\n' ∉ server ∧ '\n' ∉ file_id ∧ '\n' ∉ name := by
  rw [Intact, http.HttpResponse.head_dump_iff rfl List.not_mem_nil, written_response,
    entries_response]
  have hcookies : ∀ c ∈ (response server version close file_id name).m_cookies, '\n' ∉ c :=
    fun _ hc => absurd hc List.not_mem_nil
  have htexts : '\n' ∉ "attachment; filename*=UTF-8''".toList ∧ '\n' ∉ "Content-Disposition".toList
      ∧ '\n' ∉ "Content-Type".toList ∧ '\n' ∉ "application/octet-stream".toList
      ∧ '\n' ∉ "Server".toList ∧ '\n' ∉ "X-Accel-Redirect".toList := by decide
  obtain ⟨hattachment, hdisposition, htype, hstream, hserver, hredirect⟩ := htexts
  rw [and_iff_left hcookies]
  simp only [List.forall_mem_cons, List.mem_append, not_or]
  constructor
  · rintro ⟨⟨-, -, hname⟩, -, ⟨-, hs⟩, ⟨-, hid⟩, -⟩
    exact ⟨hs, hid, hname⟩
  · rintro ⟨hs, hid, hname⟩
    exact ⟨⟨hdisposition, hattachment, hname⟩, ⟨htype, hstream⟩, ⟨hserver, hs⟩, ⟨hredirect, hid⟩,
      fun _ h => absurd h List.not_mem_nil⟩

end DownloadServlet

/-- **Downloads after a run** of uploads, prechecks and deletes from empty tables, when neither the
ids of FastDFS nor the name of the server have a line feed: the name is one that a request has
declared, and the head of the answer is what was set if and only if that name has no line feed. -/
theorem download_intact_iff (hid : ∀ k, '\n' ∉ env.newFileId k) {server : Str}
    (hserver : '\n' ∉ server) (hempty : s.Empty) {xs : List (Fates × Request)}
    (hrun : exec (serveStep env) s xs = some t) {hfates : HttpOp → Nat → Fate}
    {request : HttpRequest} {file_id name : Str}
    (hanswer : ((DownloadServlet.handle request).run (performHttp env hfates) t.idle).1
      = some ⟨200, .redirect file_id name⟩) (version : UInt8) (close : Bool) :
    (∃ x ∈ xs, x.2.Names name)
      ∧ (DownloadServlet.Intact (DownloadServlet.response server version close file_id name)
        ↔ '\n' ∉ name) := by
  have hrows := labelled_of_exec hempty hrun
  obtain ⟨a, ha, rfl, rfl⟩ := DownloadServlet.handle_redirect hanswer
  have hfile : '\n' ∉ '/' :: a.file_id := by
    have hsize : (a.file_id, a.size) ∈ t.db.sizes :=
      List.mem_append_right _ (List.mem_map_of_mem (f := fun a => (a.file_id, a.size)) ha)
    rw [List.mem_cons, not_or]
    refine ⟨by decide, ?_⟩
    rcases hrows.issued.sizes _ hsize with hnil | ⟨k, -, hk⟩
    · rw [show a.file_id = [] from hnil]
      exact List.not_mem_nil
    · rw [show a.file_id = env.newFileId k from hk]
      exact hid k
  refine ⟨hrows.names a ha, ?_⟩
  rw [DownloadServlet.intact_iff, and_iff_right hserver, and_iff_right hfile]

/-! ### A name with a header in it -/

/-- The parts of a query that names an artifact; `name` is encoded. -/
def namedParts (name : String) : List (Str × Str) :=
  [("project_name", "p"), ("checksum", "c"), ("artifact_name", name), ("artifact_type", "t"),
    ("version", "1"), ("build_no", "2"), ("size", "1")].map fun p => (p.1.toList, p.2.toList)

def namedQuery (name : String) : Str := Query.joinParams (namedParts name)

/-- A direct upload of one byte with that query. -/
def namedUpload (name : String) : Fates × Request :=
  (allOk, .direct "t".toList (parseQuery (namedQuery name)) [0])

/-- What is found in the query. -/
def namedParams (name : String) (key : Str) : Option Str :=
  let m := (namedParts name).map fun p => (StringUtil.UrlDecode p.1, StringUtil.UrlDecode p.2)
  (m.reverse.find? fun p => p.1 = key).map Prod.snd

theorem parseQuery_namedQuery {name : String} (h : ∀ p ∈ namedParts name, '=' ∉ p.1 ∧ '&' ∉ p.2) :
    parseQuery (namedQuery name) = namedParams name := by
  funext key
  rw [parseQuery, namedQuery, Query.splitParams_joinParams h]
  rfl

/-- The download of an artifact that is in its row with a file. -/
theorem DownloadServlet.handle_of_artifact {hfates : HttpOp → Nat → Fate} {request : HttpRequest}
    {a : ArtifactInfo} (hsql : ∀ op k, hfates op k = .ok)
    (ha : s.db.artifact (ArtifactMetadata.FromParams (parseQuery request.m_query)).coordinate
      = some a) (hfile : a.file_id ≠ []) :
    ((DownloadServlet.handle request).run (performHttp env hfates) s.idle).1
      = some ⟨200, .redirect ('/' :: a.file_id) a.artifact_name⟩ := by
  simp [DownloadServlet.handle, SociMgr.get, ask, found, performHttp, performOp_connect,
    performOp_GetArtifact, Tables.readArtifact, hsql, ha, hfile]

/-- The tables after that upload. -/
def namedStore (name : String) : Store :=
  (serve sampleEnv allOk (.direct "t".toList (namedParams name) [0]) sampleStore).2

/-- Such an upload is a run, and the download with the same query finds its row. -/
theorem named_download {name : String} {a : ArtifactInfo}
    (h : ∀ p ∈ namedParts name, '=' ∉ p.1 ∧ '&' ∉ p.2)
    (ha : (namedStore name).db.artifact
      (ArtifactMetadata.FromParams (namedParams name)).coordinate = some a)
    (hfile : a.file_id ≠ []) :
    exec (serveStep sampleEnv) sampleStore [namedUpload name] = some (namedStore name)
      ∧ ((DownloadServlet.handle (Query.ofQuery (namedQuery name))).run
          (performHttp sampleEnv fun _ _ => .ok) (namedStore name).idle).1
        = some ⟨200, .redirect ('/' :: a.file_id) a.artifact_name⟩ := by
  constructor
  · rw [namedUpload, parseQuery_namedQuery h]
    rfl
  · refine DownloadServlet.handle_of_artifact (fun _ _ => rfl) ?_ hfile
    rw [show (Query.ofQuery (namedQuery name)).m_query = namedQuery name from rfl,
      parseQuery_namedQuery h]
    exact ha

/-- The row that it adds. -/
def DownloadServlet.row (name : String) : ArtifactInfo :=
  BuildArtifactInfo (ArtifactMetadata.FromParams (namedParams name))
    (sampleEnv.newFileId 0)

theorem artifact_plain : (namedStore "a").db.artifact
      (ArtifactMetadata.FromParams (namedParams "a")).coordinate
    = some (DownloadServlet.row "a") := by
  decide +kernel

/-- A line feed and the line of a cookie behind it. -/
def headerName : String := "a%0D%0ASet-Cookie:%20s=1"

theorem artifact_header : (namedStore headerName).db.artifact
    (ArtifactMetadata.FromParams (namedParams headerName)).coordinate
      = some (DownloadServlet.row headerName) := by
  decide +kernel

theorem sampleEnv_newFileId (k : Nat) : '\n' ∉ sampleEnv.newFileId k := by
  intro h
  rcases List.mem_append.mp h with h | h
  · exact absurd h (by decide)
  · exact absurd (List.eq_of_mem_replicate h) (by decide)

theorem empty_sampleStore : sampleStore.Empty := ⟨rfl, rfl, rfl, rfl⟩

/-- A plain name comes back whole. -/
theorem download_intact_iff_plain :
    DownloadServlet.Intact (DownloadServlet.response "sylar/1.0.0".toList 0x11 false
      ('/' :: sampleEnv.newFileId 0) ['a']) := by
  obtain ⟨hrun, hanswer⟩ := named_download (by decide) artifact_plain (List.cons_ne_nil _ _)
  have hserver : '\n' ∉ "sylar/1.0.0".toList := by decide
  have hiff := (download_intact_iff sampleEnv_newFileId hserver empty_sampleStore hrun hanswer 0x11
    false).2
  have hname : (DownloadServlet.row "a").artifact_name = ['a'] := by decide +kernel
  rw [hname] at hiff
  exact hiff.mpr (by decide)

/-- The name is accepted, and its download has one line more. -/
theorem name_forges_header :
    exec (serveStep sampleEnv) sampleStore [namedUpload headerName] = some (namedStore headerName)
      ∧ (serve sampleEnv allOk (namedUpload headerName).2 sampleStore).1.map Response.ret = some 0
      ∧ ((DownloadServlet.handle (Query.ofQuery (namedQuery headerName))).run
          (performHttp sampleEnv fun _ _ => .ok) (namedStore headerName).idle).1
        = some ⟨200, .redirect ('/' :: sampleEnv.newFileId 0) "a\r\nSet-Cookie: s=1".toList⟩
      ∧ ¬ DownloadServlet.Intact (DownloadServlet.response "sylar/1.0.0".toList 0x11 false
        ('/' :: sampleEnv.newFileId 0) "a\r\nSet-Cookie: s=1".toList) := by
  have hparts : ∀ p ∈ namedParts headerName, '=' ∉ p.1 ∧ '&' ∉ p.2 := by decide
  obtain ⟨hrun, hanswer⟩ := named_download hparts artifact_header (List.cons_ne_nil _ _)
  have hname : (DownloadServlet.row headerName).artifact_name
      = "a\r\nSet-Cookie: s=1".toList := by decide +kernel
  rw [hname] at hanswer
  refine ⟨hrun, ?_, hanswer, ?_⟩
  · rw [namedUpload, parseQuery_namedQuery hparts]
    decide +kernel
  · rw [DownloadServlet.intact_iff]
    rintro ⟨-, -, hline⟩
    exact hline (by decide)

end FiberServer
