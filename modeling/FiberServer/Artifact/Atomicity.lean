import FiberServer.Artifact.Requests

/-!
# Requests that answer with an error

* `atomic_iff`: a request that answers with an error leaves the tables as they were
  exactly when it does not fail after a `CREATE TABLE` has closed its transaction.
* `recordFailure_not_atomic`: a direct upload whose `INSERT` of the artifact fails.
-/

namespace FiberServer

open FileSystem

variable {env : Env} {fates : Fates}

/-- The rows of the three tables are the same. -/
def SameRows (db db' : Tables) : Prop :=
  db'.artifact_info = db.artifact_info ∧ db'.file_info = db.file_info
    ∧ db'.file_shared = db.file_shared

theorem SameRows.of_eq {db db' : Tables} (h : db' = db) : SameRows db db' := by
  subst h
  exact ⟨rfl, rfl, rfl⟩

/-- If the request answers with an error, it leaves the tables as they were. -/
def AtomicOnError (env : Env) (fates : Fates) (s : Store) (req : Request) : Prop :=
  ∀ r, (serve env fates req s).1 = some r → r.ret = -1 →
    SameRows s.db (serve env fates req s).2.db

/-- The request fails after the `CREATE TABLE` of a helper has closed its
transaction.  A direct upload that fails at `COMMIT` or at `ROLLBACK` answers
nothing. -/
def Torn (env : Env) (fates : Fates) (s : Store) : Request → Prop
  | .precheck token body => ∃ m file_id,
      UploadServlet.Looks env fates s ⟨UploadServlet.path, token⟩ body m
      ∧ UploadServlet.Shares env fates s m file_id
      ∧ WritesShare fates m file_id ∧ RecordTorn fates s.db m file_id
  | .direct token params body => ∃ file_id,
      let m := ArtifactMetadata.FromParams params
      DirUploadServlet.Reaches env fates s ⟨DirUploadServlet.path, token⟩ m body file_id
      ∧ UploadTorn fates s.db m file_id
      ∧ ¬ Records fates s.db (BuildArtifactInfo m file_id) ∧ fates .rollback 0 = .ok
  | .chunk token r => ∃ c file_id,
      ChunkUploadServlet.Reaches env fates s ⟨ChunkUploadServlet.path, token⟩ r c file_id
      ∧ UploadTorn fates s.db c.request_meta file_id
  | .delete token body => ∃ m a,
      DeleteFileServlet.Finds env fates s ⟨DeleteFileServlet.path, token⟩ body m a
      ∧ DeletesArtifact fates m
      ∧ ¬ FinishesDelete fates (s.db.removeArtifact m.coordinate) m a

/-- A request whose answer and tables are known. -/
theorem atomicOnError_of_serve {s s' : Store} {req : Request} {r : Option Response}
    (h : serve env fates req s = (r, s')) :
    AtomicOnError env fates s req ↔ ∀ x, r = some x → x.ret = -1 → SameRows s.db s'.db := by
  unfold AtomicOnError
  rw [h]

/-! ### One servlet at a time -/

theorem recordArtifact_of_not_records {db : Tables} {a : ArtifactInfo} (h : ¬ Records fates db a) :
    db.recordArtifact fates a = db := by
  rw [Tables.recordArtifact, if_neg fun hi => h (.inr hi)]

theorem removeArtifact_ne {db : Tables} {c : Coordinate} {a : ArtifactInfo}
    (h : db.artifact c = some a) : (db.removeArtifact c).artifact_info ≠ db.artifact_info := by
  intro heq
  have hc : a.coordinate = c := by simpa using List.find?_some h
  have hkept := List.filter_eq_self.mp heq a (List.mem_of_find?_eq_some h)
  simp [hc] at hkept

theorem precheck_atomic_iff (env : Env) (fates : Fates) (s : Store) (token : Str)
    (body : Option Json) :
    AtomicOnError env fates s (.precheck token body)
      ↔ ¬ Torn env fates s (.precheck token body) := by
  obtain ⟨r, s', hrun, -, -, hcases⟩ := UploadServlet.handle_cases env fates s ⟨UploadServlet.path, token⟩ body
  rw [atomicOnError_of_serve (serve_eq hrun)]
  obtain ⟨hdb, hnone⟩ | ⟨m, d, hlooks, hout, hret⟩ := hcases
  · exact iff_of_true (fun _ _ _ => .of_eq hdb) fun ⟨m, _, h, _⟩ => hnone m h
  generalize hdb : s'.db = db at hout ⊢
  cases hout with
  | kept r hreuse hshare =>
    refine iff_of_true (fun _ _ _ => .of_eq rfl) ?_
    rintro ⟨m', file_id, hlooks', hsh, hw, ht⟩
    obtain rfl := hlooks.eq hlooks'
    exact (hshare file_id hsh).2 ⟨hw, ht⟩
  | reused x file_id h hcode =>
    refine iff_of_true ?_ ?_
    · rintro _ ⟨⟩ hr
      obtain ⟨h0, -⟩ | ⟨-, hrec⟩ := hcode
      · exact absurd (hret.mp hr x rfl) (by simp [h0])
      · exact .of_eq (recordArtifact_of_not_records hrec)
    · rintro ⟨m', file_id', hlooks', hsh, -, -⟩
      obtain rfl := hlooks.eq hlooks'
      exact nomatch h.owned.symm.trans hsh.unowned
  | shared x file_id h hcode hw ht =>
    refine iff_of_true ?_ ?_
    · rintro _ ⟨⟩ hr
      exact absurd (hret.mp hr x rfl) (by simp [hcode])
    · rintro ⟨m', file_id', hlooks', hsh, -, ht'⟩
      obtain rfl := hlooks.eq hlooks'
      obtain rfl : file_id' = file_id := hsh.file.symm.trans h.file
      exact ht ht'
  | torn _ file_id h hcode hw ht =>
    refine iff_of_false (fun hsame => ?_) fun hn => hn ⟨m, file_id, hlooks, h, hw, ht⟩
    exact file_info_addShare_ne (hsame r rfl (hret.mpr hcode)).2.1

theorem direct_atomic_iff (env : Env) (fates : Fates) (s : Store) (token : Str)
    (params : Str → Option Str) (body : Bytes) :
    AtomicOnError env fates s (.direct token params body)
      ↔ ¬ Torn env fates s (.direct token params body) := by
  obtain ⟨r, s', hrun, hcases⟩ :=
    DirUploadServlet.handle_cases env fates s ⟨DirUploadServlet.path, token⟩ params body
  rw [atomicOnError_of_serve (serve_eq hrun)]
  obtain ⟨hquiet, hnone⟩ | ⟨file_id, d, hreaches, -, hout, rfl⟩ := hcases
  · exact iff_of_true (fun _ _ _ => .of_eq hquiet.1) fun ⟨file_id, h, _⟩ => hnone file_id h
  have only : ∀ {file_id'}, DirUploadServlet.Reaches env fates s
      ⟨DirUploadServlet.path, token⟩ (ArtifactMetadata.FromParams params) body file_id' → file_id' = file_id :=
    fun h => Sum.inr.inj (h.received.symm.trans hreaches.received)
  generalize hdb : s'.db = db at hout ⊢
  cases hout with
  | kept x hx h =>
    refine iff_of_true (fun _ _ _ => .of_eq rfl) ?_
    rintro ⟨file_id', hreaches', ht, -⟩
    obtain rfl := only hreaches'
    exact h ht
  | stored hw ht =>
    refine iff_of_true ?_ ?_
    · rintro _ ⟨⟩ hr
      exact absurd hr (by decide)
    · rintro ⟨file_id', hreaches', ht', -⟩
      obtain rfl := only hreaches'
      exact ht ht'.2
  | torn _ hx h hsome =>
    cases d with
    | none =>
      refine iff_of_true (fun _ hr => nomatch hr) ?_
      rintro ⟨file_id', hreaches', -, hn⟩
      obtain rfl := only hreaches'
      exact hsome.mpr hn rfl
    | some x =>
      refine iff_of_false (fun hsame => file_info_addUpload_ne (hsame _ rfl ?_).2.1)
        fun hn => hn ⟨file_id, hreaches, h, hsome.mp (Option.some_ne_none x)⟩
      simp [hx x rfl, reply]

theorem chunk_atomic_iff (env : Env) (fates : Fates) (s : Store) (token : Str)
    (r : ChunkRequest) :
    AtomicOnError env fates s (.chunk token r) ↔ ¬ Torn env fates s (.chunk token r) := by
  obtain ⟨resp, s', hrun, hcases⟩ :=
    ChunkUploadServlet.handle_cases env fates s ⟨ChunkUploadServlet.path, token⟩ r
  rw [atomicOnError_of_serve (serve_eq hrun)]
  obtain ⟨hquiet, hnone⟩ | ⟨c, file_id, d, hreaches, -, hout, hret⟩ := hcases
  · exact iff_of_true (fun _ _ _ => .of_eq hquiet.1) fun ⟨c, file_id, h, _⟩ => hnone c file_id h
  have only : ∀ {c' file_id'}, ChunkUploadServlet.Reaches env fates s
      ⟨ChunkUploadServlet.path, token⟩ r c' file_id' →
      c' = c ∧ file_id' = file_id := by
    intro c' file_id' h
    obtain rfl : c' = c := Option.some.inj (h.chunk.symm.trans hreaches.chunk)
    exact ⟨rfl, Sum.inr.inj (h.received.symm.trans hreaches.received)⟩
  generalize hdb : s'.db = db at hout ⊢
  cases hout with
  | kept x hx h =>
    refine iff_of_true (fun _ _ _ => .of_eq rfl) ?_
    rintro ⟨c', file_id', hreaches', ht⟩
    obtain ⟨rfl, rfl⟩ := only hreaches'
    exact h ht
  | stored hw ht =>
    refine iff_of_true ?_ ?_
    · rintro _ ⟨⟩ hr
      rw [hret] at hr
      exact absurd hr (by decide)
    · rintro ⟨c', file_id', hreaches', ht'⟩
      obtain ⟨rfl, rfl⟩ := only hreaches'
      exact ht ht'.2
  | torn _ hx h hsome =>
    refine iff_of_false (fun hsame => file_info_addUpload_ne (hsame _ rfl ?_).2.1)
      fun hn => hn ⟨c, file_id, hreaches, h⟩
    rw [hret]
    cases d with
    | none => rfl
    | some x => simp [hx x rfl]

theorem delete_atomic_iff (env : Env) (fates : Fates) (s : Store) (token : Str)
    (body : Option Json) :
    AtomicOnError env fates s (.delete token body) ↔ ¬ Torn env fates s (.delete token body) := by
  obtain ⟨r, s', hrun, hcases⟩ :=
    DeleteFileServlet.handle_cases env fates s ⟨DeleteFileServlet.path, token⟩ body
  rw [atomicOnError_of_serve (serve_eq hrun)]
  obtain ⟨-, rfl, hnone⟩ | ⟨m, a, d, db, hfinds, hout, hr⟩ := hcases
  · exact iff_of_true (fun _ _ _ => .of_eq rfl) fun ⟨m, a, h, _⟩ => hnone m a h
  rw [hr.db, Store.setDb_db]
  cases hout with
  | kept x hx h =>
    refine iff_of_true (fun _ _ _ => .of_eq rfl) ?_
    rintro ⟨m', a', hfinds', hd, -⟩
    obtain ⟨rfl, rfl⟩ := hfinds.eq hfinds'
    exact h hd
  | deleted h hf =>
    refine iff_of_true ?_ ?_
    · rintro _ ⟨⟩ hret
      rw [hr.ret] at hret
      exact absurd hret (by simp)
    · rintro ⟨m', a', hfinds', -, hf'⟩
      obtain ⟨rfl, rfl⟩ := hfinds.eq hfinds'
      exact hf' hf
  | torn _ hx db h hf hdb hkept =>
    refine iff_of_false (fun hsame => ?_) fun hn => hn ⟨m, a, hfinds, h, hf⟩
    have hret : r.ret = -1 := by
      rw [hr.ret]
      cases d with
      | none => rfl
      | some x => simp [hx x rfl]
    exact removeArtifact_ne hfinds.artifact (hdb.symm.trans (hsame r rfl hret).1)

/-- **Atomicity.** A request that answers with an error leaves the tables as they were
exactly when it does not fail after its transaction has been closed by a `CREATE
TABLE`. -/
theorem atomic_iff (env : Env) (fates : Fates) (s : Store) (req : Request) :
    AtomicOnError env fates s req ↔ ¬ Torn env fates s req := by
  cases req with
  | precheck token body => exact precheck_atomic_iff env fates s token body
  | direct token params body => exact direct_atomic_iff env fates s token params body
  | chunk token r => exact chunk_atomic_iff env fates s token r
  | delete token body => exact delete_atomic_iff env fates s token body

/-! ### A direct upload whose `INSERT` fails -/

/-- The hash is that of the token `t`. -/
def sampleEnv : Env where
  tmp_path := "/tmp/uploadfiles".toList
  cwd := []
  chunk_sizes := 5242880
  sha1 := fun _ => "8efd86fb78a56a5145ed7739dcb00c78581c5375".toList
  newFileId := fun n => "group1/M00/".toList ++ List.replicate n '0'
  back := id

/-- Empty tables and a project with the token `t`. -/
def sampleStore : Store where
  db := ⟨[], [], [], [⟨"p".toList, sampleEnv.sha1 "t".toList, 1⟩]⟩
  files := []
  uploads := 0
  fs := ∅

def sampleParams (key : Str) : Option Str :=
  if key = "project_name".toList then some "p".toList
  else if key = "version".toList then some "1".toList
  else if key = "build_no".toList then some "1".toList
  else if key = "artifact_name".toList then some "a".toList
  else if key = "checksum".toList then some "c".toList
  else if key = "artifact_type".toList then some "bin".toList
  else if key = "size".toList then some "1".toList
  else none

def sampleUpload : Request :=
  .direct "t".toList sampleParams [0]

/-- Only the `INSERT` of an artifact fails, with an error of the server. -/
def insertFails : Fates
  | .CreateArtifact _, 3 => .error
  | _, _ => .ok

/-- The answer is an error, but the file record and the shared file stay. -/
theorem recordFailure_not_atomic : ¬ AtomicOnError sampleEnv insertFails sampleStore sampleUpload := by
  intro h
  have hrows := h (reply (-1) 1 "create artifact metadata failed") (by decide +kernel) rfl
  exact absurd hrows.2.1 (by decide +kernel)

end FiberServer
