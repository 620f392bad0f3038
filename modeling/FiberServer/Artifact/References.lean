import FiberServer.Artifact.Authorization
import FiberServer.Artifact.Effects

/-!
# The files of the artifacts

Where every SQL statement is carried out, a request does one of a few things to the
tables: `Uploads`, `Prechecks` and `Tables.without` say which.  A precheck that finds its
checksum with its own project records the artifact and takes no reference.

* `Filed`: every artifact has the row of its checksum, and every row a file of its own.
  Uploads and prechecks keep it; a delete does where the references cover the artifacts.
* `Tables.Counted`: how the references of a checksum relate to its artifacts.
-/

namespace FiberServer

variable {env : Env} {fates : Fates} {s s' : Store}

/-- SQL statements do what they say. -/
def SqlOk (fates : Fates) : Prop := ∀ op n, (∀ e, op ≠ .ext e) → fates op n = .ok

/-- A request with the fates of its calls. -/
def serveStep (env : Env) (s : Store) (x : Fates × Request) : Option Store :=
  some (serve env x.1 x.2 s).2

/-- Nothing is stored; there may be tokens and chunks. -/
structure Store.Empty (s : Store) : Prop where
  artifact_info : s.db.artifact_info = []
  file_info : s.db.file_info = []
  file_shared : s.db.file_shared = []
  files : s.files = []

/-- How many artifacts have the checksum. -/
def Tables.artifactsOf (db : Tables) (md5 : Str) : Nat :=
  db.artifact_info.countP fun a => a.checksum = md5

/-- A precheck for a new artifact of a checksum that its project has: the artifact is
recorded and no reference is taken. -/
structure Tables.ReusedBy (db : Tables) (env : Env) (token : Str) (m : ArtifactMetadata) : Prop where
  mode : m.artifact_mode
  enabled : db.Enabled env.sha1 m.owner token
  unrecorded : db.artifact m.coordinate = none
  owned : ∃ f ∈ db.file_info, f.owner = m.owner ∧ f.md5 = m.checksum

/-! ### Counting -/

theorem artifactsOf_addArtifact (db : Tables) (a : ArtifactInfo) (md5 : Str) :
    (db.addArtifact a).artifactsOf md5
      = db.artifactsOf md5 + if a.checksum = md5 then 1 else 0 := by
  show (db.artifact_info ++ [a]).countP _ = _
  rw [List.countP_append, List.countP_singleton]
  simp only [decide_eq_true_iff]
  rfl

/-- One row of a key is taken out. -/
theorem countP_filter_key {α β : Type*} [DecidableEq β] {key : α → β} {p : α → Bool} {a : α} :
    ∀ {l : List α}, (l.map key).Nodup → a ∈ l →
      l.countP p = (l.filter fun x => key x ≠ key a).countP p + if p a then 1 else 0 := by
  intro l
  induction l with
  | nil => intro _ ha; exact absurd ha List.not_mem_nil
  | cons b l ih =>
    intro hl ha
    obtain ⟨hb, hl⟩ := List.nodup_cons.mp hl
    rcases List.mem_cons.mp ha with rfl | ha
    · have hall : (l.filter fun x => key x ≠ key a) = l := by
        rw [List.filter_eq_self]
        intro x hx
        have hne : key x ≠ key a := fun h => hb (h ▸ List.mem_map_of_mem hx)
        simpa using hne
      rw [List.filter_cons_of_neg (by simp), hall, List.countP_cons]
    · have hne : key b ≠ key a := fun h => hb (h ▸ List.mem_map_of_mem ha)
      rw [List.filter_cons_of_pos (by simpa using hne), List.countP_cons, List.countP_cons, ih hl ha]
      omega

theorem artifactsOf_removeArtifact {db : Tables} (h : Keyed db) {c : Coordinate} {a : ArtifactInfo}
    (ha : db.artifact c = some a) (md5 : Str) :
    db.artifactsOf md5
      = (db.removeArtifact c).artifactsOf md5 + if a.checksum = md5 then 1 else 0 := by
  obtain ⟨hmem, rfl⟩ := artifact_eq_some ha
  have hcount := countP_filter_key (p := fun a : ArtifactInfo => decide (a.checksum = md5))
    h.coordinates hmem
  simp only [decide_eq_true_iff] at hcount
  exact hcount

theorem artifactsOf_eq_zero {db : Tables} {md5 : Str}
    (h : ∀ a ∈ db.artifact_info, a.checksum ≠ md5) : db.artifactsOf md5 = 0 := by
  rw [Tables.artifactsOf, List.countP_eq_zero]
  intro a ha
  simpa using h a ha

/-! ### References -/

theorem shared_updateRef (db : Tables) (md5 md5' : Str) (f : Int → Int) :
    (db.updateRef md5 f).shared md5' = (db.shared md5').map fun sh =>
      if sh.file_md5 = md5 then { sh with ref_count := f sh.ref_count } else sh := by
  rw [Tables.shared, Tables.updateRef, List.find?_map]
  have hkey : ((fun sh : FileShared => decide (sh.file_md5 = md5')) ∘ fun sh =>
      if sh.file_md5 = md5 then { sh with ref_count := f sh.ref_count } else sh)
      = fun sh => decide (sh.file_md5 = md5') := by
    funext sh
    by_cases h : sh.file_md5 = md5 <;> simp [h]
  rw [hkey]
  rfl

/-- A row after the references of a checksum were changed. -/
theorem mem_file_shared_updateRef {db : Tables} {md5 : Str} {f : Int → Int} {x : FileShared} :
    x ∈ (db.updateRef md5 f).file_shared ↔ ∃ sh ∈ db.file_shared,
      (if sh.file_md5 = md5 then { sh with ref_count := f sh.ref_count } else sh) = x :=
  List.mem_map

/-- `ref_count` after `DecrementRef`. -/
def decremented (n : Int) : Int := if 0 < n then n - 1 else n

theorem refAfter_of_shared {db : Tables} {md5 : Str} {sh : FileShared}
    (h : db.shared md5 = some sh) : db.refAfter md5 = decremented sh.ref_count := by
  rw [Tables.refAfter, Tables.refCount, Tables.decrement, shared_updateRef, h]
  simp [(shared_eq_some h).2, decremented]

/-- The tables after a delete. -/
def Tables.without (db : Tables) (m : ArtifactMetadata) (a : ArtifactInfo) : Tables :=
  (db.removeArtifact m.coordinate).release m a

theorem artifact_info_without (db : Tables) (m : ArtifactMetadata) (a : ArtifactInfo) :
    (db.without m a).artifact_info
      = db.artifact_info.filter fun x => x.coordinate ≠ m.coordinate := by
  unfold Tables.without Tables.release
  split_ifs <;> rfl

theorem mem_artifact_info_without {db : Tables} {m : ArtifactMetadata} {a x : ArtifactInfo} :
    x ∈ (db.without m a).artifact_info ↔ x ∈ db.artifact_info ∧ x.coordinate ≠ m.coordinate := by
  simp [artifact_info_without]

theorem file_shared_without (db : Tables) (m : ArtifactMetadata) (a : ArtifactInfo) :
    (db.without m a).file_shared
      = if db.refAfter a.checksum = 0
        then (db.decrement a.checksum).file_shared.filter fun sh => sh.file_md5 ≠ a.checksum
        else (db.decrement a.checksum).file_shared := by
  show ((db.removeArtifact m.coordinate).release m a).file_shared = _
  unfold Tables.release
  show (if db.refAfter a.checksum = 0 then _ else _ : Tables).file_shared = _
  split_ifs <;> rfl

theorem mem_file_shared_without {db : Tables} {m : ArtifactMetadata} {a : ArtifactInfo}
    {x : FileShared} :
    x ∈ (db.without m a).file_shared ↔ ∃ sh ∈ db.file_shared,
      (db.refAfter a.checksum = 0 → sh.file_md5 ≠ a.checksum)
      ∧ (if sh.file_md5 = a.checksum then { sh with ref_count := decremented sh.ref_count }
          else sh) = x := by
  have hmd5 : ∀ sh : FileShared, (if sh.file_md5 = a.checksum
      then { sh with ref_count := decremented sh.ref_count } else sh).file_md5 = sh.file_md5 := by
    intro sh
    split_ifs <;> rfl
  rw [file_shared_without]
  split_ifs with hzero
  · rw [List.mem_filter, Tables.decrement, mem_file_shared_updateRef]
    constructor
    · rintro ⟨⟨sh, hsh, rfl⟩, hne⟩
      refine ⟨sh, hsh, fun _ => ?_, rfl⟩
      rw [decide_eq_true_iff] at hne
      exact (hmd5 sh).symm.trans_ne hne
    · rintro ⟨sh, hsh, hne, rfl⟩
      refine ⟨⟨sh, hsh, rfl⟩, ?_⟩
      rw [decide_eq_true_iff]
      exact (hmd5 sh).trans_ne (hne hzero)
  · rw [Tables.decrement, mem_file_shared_updateRef]
    exact ⟨fun ⟨sh, hsh, hx⟩ => ⟨sh, hsh, fun h => absurd h hzero, hx⟩,
      fun ⟨sh, hsh, _, hx⟩ => ⟨sh, hsh, hx⟩⟩

theorem mem_file_shared_addShare {db : Tables} {m : ArtifactMetadata} {file_id : Str}
    {x : FileShared} :
    x ∈ (db.addShare m file_id).file_shared ↔ ∃ sh ∈ db.file_shared,
      (if sh.file_md5 = m.checksum then { sh with ref_count := sh.ref_count + 1 } else sh) = x :=
  mem_file_shared_updateRef (f := (· + 1))

theorem links_without (db : Tables) (m : ArtifactMetadata) (a : ArtifactInfo) :
    List.Sublist (db.without m a).links db.links := by
  have hdec : (db.decrement a.checksum).links = db.links := links_updateRef db a.checksum _
  rw [Tables.links, file_shared_without, ← hdec]
  split_ifs
  · exact List.filter_sublist.map _
  · exact List.Sublist.refl _

theorem md5s_eq (db : Tables) : db.file_shared.map FileShared.file_md5 = db.links.map Prod.fst := by
  rw [Tables.links, List.map_map]
  rfl

theorem fileIds_eq (db : Tables) :
    db.file_shared.map FileShared.file_id = db.links.map Prod.snd := by
  rw [Tables.links, List.map_map]
  rfl

theorem Keyed.without {db : Tables} (h : Keyed db) (m : ArtifactMetadata) (a : ArtifactInfo) :
    Keyed (db.without m a) := by
  constructor
  · rw [artifact_info_without]
    exact h.coordinates.sublist (List.filter_sublist.map _)
  · rw [md5s_eq]
    have hmd5s := h.md5s
    rw [md5s_eq] at hmd5s
    exact hmd5s.sublist ((links_without db m a).map _)

theorem artifactsOf_without {db : Tables} (h : Keyed db) {m : ArtifactMetadata} {a : ArtifactInfo}
    (ha : db.artifact m.coordinate = some a) (md5 : Str) :
    db.artifactsOf md5 = (db.without m a).artifactsOf md5 + if a.checksum = md5 then 1 else 0 := by
  have hrows : (db.without m a).artifactsOf md5
      = (db.removeArtifact m.coordinate).artifactsOf md5 := by
    unfold Tables.without Tables.release
    split_ifs <;> rfl
  rw [hrows]
  exact artifactsOf_removeArtifact h ha md5

/-! ### What a request does -/

/-- The artifact of a request, in artifact mode. -/
def Tables.recorded (db : Tables) (m : ArtifactMetadata) (file_id : Str) : Tables :=
  if m.artifact_mode then db.addArtifact (BuildArtifactInfo m file_id) else db

/-- What an upload does. -/
inductive Uploads (env : Env) (s : Store) (m : ArtifactMetadata) (r : Option Response)
    (s' : Store) : Prop
  | quiet (h : Quiet s s')
  | received (file_id : Str) (h : Took env s s' file_id) (hr : ∀ x, r = some x → x.ret ≠ 0)
  | stored (file_id : Str) (h : Took env s (s'.setDb s.db) file_id) (howner : m.owner ≠ [])
      (hfree : m.artifact_mode → s.db.artifact m.coordinate = none)
      (hfresh : s.db.shared m.checksum = none)
      (hdb : s'.db = (s.db.addUpload m file_id).recorded m file_id)

/-- The project has the checksum. -/
def Tables.Owns (db : Tables) (m : ArtifactMetadata) : Prop :=
  ∃ f ∈ db.file_info, f.owner = m.owner ∧ f.md5 = m.checksum

/-- What a precheck does. -/
inductive Prechecks (env : Env) (s : Store) (token : Str) (m : ArtifactMetadata) (s' : Store) : Prop
  | quiet (h : Quiet s s')
  | shared (sh : FileShared) (h : Quiet s (s'.setDb s.db)) (howner : m.owner ≠ [])
      (hfree : m.artifact_mode → s.db.artifact m.coordinate = none) (howns : ¬ s.db.Owns m)
      (hsh : s.db.shared m.checksum = some sh)
      (hdb : s'.db = (s.db.addShare m sh.file_id).recorded m sh.file_id)
  | reused (sh : FileShared) (h : Quiet s (s'.setDb s.db)) (howner : m.owner ≠ [])
      (hr : s.db.ReusedBy env token m) (hsh : s.db.shared m.checksum = some sh)
      (hdb : s'.db = s.db.addArtifact (BuildArtifactInfo m sh.file_id))

/-- `CreateArtifact` records the artifact of a free coordinate. -/
theorem recordArtifact_of_free {db : Tables} {a : ArtifactInfo} (hsql : SqlOk fates)
    (h : db.artifact a.coordinate = none) : db.recordArtifact fates a = db.addArtifact a := by
  have hok : ∀ n, fates (.CreateArtifact a) n = .ok := fun n => hsql _ n (by simp)
  rw [Tables.recordArtifact, if_pos]
  simp [Tables.insertsArtifact, hok, h]

theorem artifact_of_get {c : Coordinate} (hsql : SqlOk fates)
    (h : asks env fates s (call (.GetArtifact c)) = none) : s.db.artifact c = none := by
  rw [asks, call, Prog.run_perform, performOp_GetArtifact, Tables.readArtifact,
    if_pos ⟨hsql _ _ (by simp), hsql _ _ (by simp)⟩] at h
  exact h

/-- The coordinate of an upload that is admitted is free. -/
theorem artifact_of_admission {access : Access} {m : ArtifactMetadata} (hsql : SqlOk fates)
    (h : asks env fates s (admission access m) = none) (hmode : m.artifact_mode) :
    s.db.artifact m.coordinate = none := by
  have htoken := run_of_read env fates s (RequireArtifactToken_read access m.owner)
  rw [admission_token h] at htoken
  rw [asks, admission, Prog.run_bind, htoken] at h
  simp only [hmode, if_true, coordinateCheck, call, Prog.run_bind, Prog.run_perform,
    performOp_connect, performOp_GetArtifact, Prog.run_ite, Prog.run_pure] at h
  split_ifs at h
  rw [Tables.readArtifact, if_pos ⟨hsql _ _ (by simp), hsql _ _ (by simp)⟩] at h
  cases hc : s.db.artifact m.coordinate with
  | none => rfl
  | some a =>
    rw [hc] at h
    simp only [Prog.run_ite, Prog.run_pure] at h
    split_ifs at h

theorem enabled_of_admitted {access : Access} {owner : Str} (hpath : IsArtifactWritePath access.path)
    (h : asks env fates s (RequireArtifactToken access owner) = none) :
    s.db.Enabled env.sha1 owner access.token := by
  unfold asks RequireArtifactToken at h
  simp only [call, Prog.run_ite, Prog.run_bind, Prog.run_perform, Prog.run_pure, hpath,
    performOp_connect] at h
  split_ifs at h with hfalse _ _ hinvalid
  · exact absurd hfalse (by decide)
  · have hvalid : (performOp env fates (.ValidateToken owner access.token) s.idle).1 = true := by
      simpa using hinvalid
    exact enabled_of_valid hvalid

/-- The rows of an upload. -/
theorem UploadOutcome.uploads {m : ArtifactMetadata} {file_id : Str} {d : Option DbResult}
    {r : Option Response} (hsql : SqlOk fates) (ht : Took env s (s'.setDb s.db) file_id)
    (howner : m.owner ≠ []) (hfree : m.artifact_mode → s.db.artifact m.coordinate = none)
    (hr : ∀ x, r = some x → x.ret = 0 → ∃ y, d = some y ∧ y.ok = true)
    (hout : UploadOutcome fates s.db m file_id d s'.db) : Uploads env s m r s' := by
  have hrecord : m.artifact_mode →
      (s.db.addUpload m file_id).recordArtifact fates (BuildArtifactInfo m file_id)
        = (s.db.addUpload m file_id).addArtifact (BuildArtifactInfo m file_id) :=
    fun hmode => recordArtifact_of_free hsql (hfree hmode)
  generalize hdb : s'.db = db at hout
  cases hout with
  | kept d hd hn =>
    refine .received file_id ⟨hdb, ht.2⟩ fun x hx hret => ?_
    obtain ⟨y, hy, hok⟩ := hr x hx hret
    exact absurd (hd y hy) (by simp [hok])
  | stored hw ht' =>
    refine .stored file_id ht howner hfree hw.fresh ?_
    rw [hdb, Tables.stored, Tables.recorded]
    split_ifs with hmode
    · exact hrecord hmode
    · rfl
  | torn d hd ht' hsome =>
    refine .stored file_id ht howner hfree ht'.1.fresh ?_
    rw [hdb, Tables.recorded, if_pos ht'.2.1]
    exact hrecord ht'.2.1

/-- The rows of a precheck. -/
theorem UploadServlet.Outcome.prechecks {token : Str} {m : ArtifactMetadata}
    {d : Option UploadServlet.DbResult} (hsql : SqlOk fates) (hfiles : s'.files = s.files)
    (huploads : s'.uploads = s.uploads) (howner : m.owner ≠ [])
    (henabled : s.db.Enabled env.sha1 m.owner token)
    (hfree : m.artifact_mode → s.db.artifact m.coordinate = none)
    (hout : UploadServlet.Outcome env fates s m d s'.db) : Prechecks env s token m s' := by
  have hquiet : Quiet s (s'.setDb s.db) := ⟨rfl, hfiles, huploads⟩
  have hget : ∀ {file_id}, asks env fates s (call (.GetFileIdByMd5 m.checksum)) = file_id →
      file_id = ((s.db.shared m.checksum).map FileShared.file_id).getD [] := by
    intro file_id h
    rw [asks, call, Prog.run_perform, performOp_GetFileIdByMd5,
      if_pos (hsql (.GetFileIdByMd5 m.checksum) 0 (by simp))] at h
    exact h.symm
  have howns : asks env fates s (call (.ExistsByMd5AndUser m.checksum m.owner)) = true
      ↔ s.db.Owns m := by
    rw [asks, call, Prog.run_perform, performOp_ExistsByMd5AndUser,
      hsql (.ExistsByMd5AndUser m.checksum m.owner) 0 (by simp)]
    simp [Tables.Owns]
  -- the two ends of a transaction leave the same rows
  have hshares : ∀ {file_id}, UploadServlet.Shares env fates s m file_id →
      s'.db = (s.db.addShare m file_id).recorded m file_id → Prechecks env s token m s' := by
    intro file_id hs hdb
    have hexists := hs.shared
    rw [asks, call, Prog.run_perform, performOp_ExistsByMd5] at hexists
    simp only [Store.idle_db, Bool.and_eq_true] at hexists
    obtain ⟨sh, hsh⟩ := Option.isSome_iff_exists.mp hexists.2
    have hid := hget hs.file
    rw [hsh] at hid
    obtain rfl : file_id = sh.file_id := hid
    refine .shared sh hquiet howner hfree (fun h => ?_) hsh hdb
    exact Bool.noConfusion (hs.unowned.symm.trans (howns.mpr h))
  have hrecord : ∀ {file_id}, m.artifact_mode →
      (s.db.addShare m file_id).recordArtifact fates (BuildArtifactInfo m file_id)
        = (s.db.addShare m file_id).recorded m file_id := by
    intro file_id hmode
    rw [Tables.recorded, if_pos hmode]
    exact recordArtifact_of_free hsql (hfree hmode)
  generalize hdb : s'.db = db at hout
  cases hout with
  | kept d hreuse hshare => exact .quiet ⟨hdb, hfiles, huploads⟩
  | reused d file_id h hcode =>
    have hid := hget h.file
    cases hsh : s.db.shared m.checksum with
    | none =>
      rw [hsh] at hid
      exact absurd hid h.nonempty
    | some sh =>
      rw [hsh] at hid
      obtain rfl : file_id = sh.file_id := hid
      refine .reused sh hquiet howner ⟨h.mode, henabled, hfree h.mode, howns.mp h.owned⟩ hsh ?_
      rw [hdb]
      exact recordArtifact_of_free hsql (hfree h.mode)
  | shared d file_id h hcode hw ht =>
    refine hshares h ?_
    rw [hdb, Tables.sharing]
    split_ifs with hmode
    · exact hrecord hmode
    · rw [Tables.recorded, if_neg hmode]
  | torn d file_id h hcode hw ht =>
    refine hshares h ?_
    rw [hdb]
    exact hrecord ht.1

theorem direct_uploads (env : Env) (s : Store) (hsql : SqlOk fates) (token : Str)
    (params : Str → Option Str) (body : Bytes) :
    let r := serve env fates (.direct token params body) s
    Uploads env s (ArtifactMetadata.FromParams params) r.1 r.2 := by
  obtain ⟨r, s', hrun, hcases⟩ :=
    DirUploadServlet.handle_cases env fates s ⟨DirUploadServlet.path, token⟩ params body
  rw [serve_eq hrun]
  obtain ⟨hquiet, -⟩ | ⟨file_id, d, hreaches, htook, hout, rfl⟩ := hcases
  · exact .quiet hquiet
  · refine hout.uploads hsql htook (fun h => hreaches.fields (.inl h))
      (artifact_of_admission hsql hreaches.admitted) fun x hx hret => ?_
    obtain ⟨y, rfl, rfl⟩ := Option.map_eq_some_iff.mp hx
    refine ⟨y, rfl, ?_⟩
    by_contra hok
    simp [hok, reply] at hret

theorem chunk_uploads (env : Env) (s : Store) (hsql : SqlOk fates) (token : Str)
    (r : ChunkRequest) :
    let x := serve env fates (.chunk token r) s
    Quiet s x.2 ∨ ∃ c, ChunkUploadServlet.chunkMeta r = some c
      ∧ Uploads env s c.request_meta x.1 x.2 := by
  obtain ⟨resp, s', hrun, hcases⟩ :=
    ChunkUploadServlet.handle_cases env fates s ⟨ChunkUploadServlet.path, token⟩ r
  rw [serve_eq hrun]
  obtain ⟨hquiet, -⟩ | ⟨c, file_id, d, hreaches, htook, hout, hresp⟩ := hcases
  · exact .inl hquiet
  · refine .inr ⟨c, hreaches.chunk, hout.uploads hsql htook (fun h => hreaches.fields (.inl h))
      (artifact_of_admission hsql hreaches.admitted) fun x hx hret => ?_⟩
    obtain rfl := Option.some.inj hx
    rw [hresp] at hret
    split_ifs at hret with hok
    obtain ⟨y, hy, hok⟩ := Option.any_eq_true _ _ |>.mp hok
    exact ⟨y, hy, hok⟩

theorem precheck_prechecks (env : Env) (s : Store) (hsql : SqlOk fates) (token : Str)
    (body : Option Json) :
    let r := serve env fates (.precheck token body) s
    Quiet s r.2 ∨ ∃ members, body = some (.object members)
      ∧ Prechecks env s token (ArtifactMetadata.FromJson members) r.2 := by
  obtain ⟨r, s', hrun, hfiles, huploads, hcases⟩ :=
    UploadServlet.handle_cases env fates s ⟨UploadServlet.path, token⟩ body
  rw [serve_eq hrun]
  obtain ⟨hdb, -⟩ | ⟨m, d, hlooks, hout, -⟩ := hcases
  · exact .inl ⟨hdb, hfiles, huploads⟩
  · obtain ⟨members, hbody, rfl⟩ := hlooks.body
    exact .inr ⟨members, hbody, hout.prechecks hsql hfiles huploads
      (fun h => hlooks.fields (.inl h)) (enabled_of_admitted rfl hlooks.admitted)
      fun hmode => artifact_of_get hsql (hlooks.unrecorded hmode)⟩

/-! ### Rows of files -/

/-- Every artifact has the row of its checksum, and every row has a file of its own. -/
structure Filed (env : Env) (s : Store) : Prop where
  keyed : Keyed s.db
  fileIds : (s.db.file_shared.map FileShared.file_id).Nodup
  taken : ∀ sh ∈ s.db.file_shared,
    sh.file_id ∈ s.files.map Prod.fst ∧ ∃ k < s.uploads, sh.file_id = env.newFileId k
  linked : ∀ a ∈ s.db.artifact_info,
    ∃ sh ∈ s.db.file_shared, sh.file_md5 = a.checksum ∧ sh.file_id = a.file_id
  positive : ∀ sh ∈ s.db.file_shared, 1 ≤ sh.ref_count

namespace Filed

theorem of_empty (h : s.Empty) : Filed env s where
  keyed := ⟨by simp [h.artifact_info], by simp [h.file_shared]⟩
  fileIds := by simp [h.file_shared]
  taken := by simp [h.file_shared]
  linked := by simp [h.artifact_info]
  positive := by simp [h.file_shared]

/-- The row of the checksum of an artifact. -/
theorem shared (h : Filed env s) {a : ArtifactInfo} (ha : a ∈ s.db.artifact_info) :
    ∃ sh ∈ s.db.file_shared, s.db.shared a.checksum = some sh ∧ sh.file_md5 = a.checksum
      ∧ sh.file_id = a.file_id := by
  obtain ⟨sh, hsh, hmd5, hid⟩ := h.linked a ha
  exact ⟨sh, hsh, hmd5 ▸ h.keyed.shared hsh, hmd5, hid⟩

theorem artifactsOf_of_fresh (h : Filed env s) {md5 : Str} (hfresh : s.db.shared md5 = none) :
    s.db.artifactsOf md5 = 0 := by
  apply artifactsOf_eq_zero
  intro a ha hmd5
  obtain ⟨sh, hsh, hmd5', -⟩ := h.linked a ha
  exact shared_eq_none_iff.mp hfresh sh hsh (hmd5'.trans hmd5)

/-- FastDFS may have got files. -/
theorem more (h : Filed env s) (hdb : s'.db = s.db)
    (hfiles : ∀ id ∈ s.files.map Prod.fst, id ∈ s'.files.map Prod.fst)
    (huploads : s.uploads ≤ s'.uploads) : Filed env s' := by
  refine ⟨hdb ▸ h.keyed, hdb ▸ h.fileIds, fun sh hsh => ?_, hdb ▸ h.linked, hdb ▸ h.positive⟩
  rw [hdb] at hsh
  obtain ⟨hmem, k, hk, hid⟩ := h.taken sh hsh
  exact ⟨hfiles _ hmem, k, Nat.lt_of_lt_of_le hk huploads, hid⟩

theorem quiet (h : Filed env s) (hq : Quiet s s') : Filed env s' :=
  h.more hq.1 (fun _ hid => hq.2.1.symm ▸ hid) (Nat.le_of_eq hq.2.2.symm)

theorem took {file_id : Str} (h : Filed env s) (ht : Took env s s' file_id) : Filed env s' := by
  obtain ⟨hdb, -, huploads, content, hfiles⟩ := ht
  refine h.more hdb (fun id hid => ?_) (by omega)
  rw [hfiles, List.map_append]
  exact List.mem_append_left _ hid

theorem addArtifact {a : ArtifactInfo} {sh : FileShared} (h : Filed env s)
    (hsh : sh ∈ s.db.file_shared) (hmd5 : sh.file_md5 = a.checksum) (hid : sh.file_id = a.file_id)
    (hfree : s.db.artifact a.coordinate = none) : Filed env (s.setDb (s.db.addArtifact a)) := by
  refine ⟨Recorded.keyed (.inr ⟨rfl, hfree⟩) h.keyed, h.fileIds, h.taken, fun x hx => ?_, h.positive⟩
  rcases List.mem_append.mp hx with hx | hx
  · exact h.linked x hx
  · rw [List.mem_singleton.mp hx]
    exact ⟨sh, hsh, hmd5, hid⟩

/-- The artifact of a request is recorded with the row of its checksum. -/
theorem recorded {m : ArtifactMetadata} {sh : FileShared} {file_id : Str} (h : Filed env s)
    (hsh : sh ∈ s.db.file_shared) (hmd5 : sh.file_md5 = m.checksum) (hid : sh.file_id = file_id)
    (hfree : m.artifact_mode → s.db.artifact m.coordinate = none) :
    Filed env (s.setDb (s.db.recorded m file_id)) := by
  rw [Tables.recorded]
  split_ifs with hmode
  · exact h.addArtifact (a := BuildArtifactInfo m file_id) hsh hmd5 hid (hfree hmode)
  · exact h

theorem addUpload {m : ArtifactMetadata} {file_id : Str} (h : Filed env s)
    (hfresh : s.db.shared m.checksum = none) (hmem : file_id ∈ s.files.map Prod.fst)
    (hk : ∃ k < s.uploads, file_id = env.newFileId k)
    (hnew : ∀ sh ∈ s.db.file_shared, sh.file_id ≠ file_id) :
    Filed env (s.setDb (s.db.addUpload m file_id)) := by
  have hrow : ∀ sh ∈ (s.db.addUpload m file_id).file_shared,
      sh ∈ s.db.file_shared ∨ sh = ⟨m.checksum, file_id, m.size, 1⟩ := by
    intro sh hsh
    rcases List.mem_append.mp hsh with hsh | hsh
    · exact .inl hsh
    · exact .inr (List.mem_singleton.mp hsh)
  refine ⟨h.keyed.addUpload file_id hfresh, ?_, fun sh hsh => ?_, fun a ha => ?_, fun sh hsh => ?_⟩
  · show ((s.db.file_shared ++ [_]).map FileShared.file_id).Nodup
    rw [List.map_append, List.nodup_append]
    refine ⟨h.fileIds, List.nodup_singleton _, ?_⟩
    rintro id hid id' hid' rfl
    obtain ⟨sh, hsh, rfl⟩ := List.mem_map.mp hid
    exact hnew sh hsh (List.mem_singleton.mp hid')
  · rcases hrow sh hsh with hsh | rfl
    · exact h.taken sh hsh
    · exact ⟨hmem, hk⟩
  · obtain ⟨sh, hsh, hlink⟩ := h.linked a ha
    exact ⟨sh, List.mem_append_left _ hsh, hlink⟩
  · rcases hrow sh hsh with hsh | rfl
    · exact h.positive sh hsh
    · exact Int.le_refl 1

theorem addShare (h : Filed env s) (m : ArtifactMetadata) (file_id : Str) :
    Filed env (s.setDb (s.db.addShare m file_id)) := by
  have hlinks : (s.db.addShare m file_id).links = s.db.links :=
    links_updateRef s.db m.checksum (· + 1)
  refine ⟨h.keyed.addShare m file_id, ?_, fun x hx => ?_, fun a ha => ?_, fun x hx => ?_⟩
  · have hids := h.fileIds
    rw [fileIds_eq] at hids
    rw [Store.setDb_db, fileIds_eq, hlinks]
    exact hids
  · obtain ⟨sh, hsh, rfl⟩ := mem_file_shared_addShare.mp hx
    have htaken := h.taken sh hsh
    split_ifs <;> exact htaken
  · obtain ⟨sh, hsh, hmd5, hid⟩ := h.linked a ha
    refine ⟨_, mem_file_shared_addShare.mpr ⟨sh, hsh, rfl⟩, ?_⟩
    split_ifs <;> exact ⟨hmd5, hid⟩
  · obtain ⟨sh, hsh, rfl⟩ := mem_file_shared_addShare.mp hx
    have hpositive := h.positive sh hsh
    split_ifs
    · exact Int.le_add_of_nonneg_right (by decide) |>.trans' hpositive
    · exact hpositive

theorem uploads {m : ArtifactMetadata} {r : Option Response}
    (hnew : Function.Injective env.newFileId) (h : Filed env s) (hu : Uploads env s m r s') :
    Filed env s' := by
  cases hu with
  | quiet hq => exact h.quiet hq
  | received file_id ht hr => exact h.took ht
  | stored file_id ht howner hfree hfresh hdb =>
    have htook := h.took ht
    obtain ⟨-, hid, huploads, content, hfiles⟩ := ht
    have hadd : Filed env ((s'.setDb s.db).setDb (s.db.addUpload m file_id)) := by
      refine htook.addUpload hfresh ?_ ⟨s.uploads, by omega, hid⟩ fun sh hsh heq => ?_
      · rw [hfiles, List.map_append]
        exact List.mem_append_right _ (List.mem_singleton.mpr rfl)
      · -- the ids of the rows were chosen before
        obtain ⟨k, hk, hsh'⟩ := (h.taken sh hsh).2
        have heq' := hnew ((hsh'.symm.trans heq).trans hid)
        omega
    have hrow : (⟨m.checksum, file_id, m.size, 1⟩ : FileShared)
        ∈ (s.db.addUpload m file_id).file_shared :=
      List.mem_append_right _ (List.mem_singleton.mpr rfl)
    refine (hadd.recorded hrow rfl rfl hfree).more hdb (fun _ hid => hid) (Nat.le_refl _)

theorem prechecks {token : Str} {m : ArtifactMetadata} (h : Filed env s)
    (hp : Prechecks env s token m s') : Filed env s' := by
  cases hp with
  | quiet hq => exact h.quiet hq
  | shared sh hq howner hfree howns hsh hdb =>
    obtain ⟨hmem, hmd5⟩ := shared_eq_some hsh
    have hadd := (h.quiet hq).addShare m sh.file_id
    have hrow : { sh with ref_count := sh.ref_count + 1 }
        ∈ (s.db.addShare m sh.file_id).file_shared :=
      mem_file_shared_addShare.mpr ⟨sh, hmem, if_pos hmd5⟩
    exact (hadd.recorded hrow hmd5 rfl hfree).more hdb (fun _ hid => hid) (Nat.le_refl _)
  | reused sh hq howner hr hsh hdb =>
    obtain ⟨hmem, hmd5⟩ := shared_eq_some hsh
    exact ((h.quiet hq).addArtifact (a := BuildArtifactInfo m sh.file_id) hmem hmd5 rfl
      hr.unrecorded).more hdb (fun _ hid => hid) (Nat.le_refl _)

end Filed

/-! ### Counts -/

/-- The references of every checksum relate to its artifacts. -/
def Tables.Counted (R : Nat → Int → Prop) (db : Tables) : Prop :=
  ∀ sh ∈ db.file_shared, R (db.artifactsOf sh.file_md5) sh.ref_count

section

variable {R : Nat → Int → Prop} {m : ArtifactMetadata} {file_id : Str}

theorem artifactsOf_recorded (db : Tables) (m : ArtifactMetadata) (file_id md5 : Str) :
    (db.recorded m file_id).artifactsOf md5
      = db.artifactsOf md5 + if m.artifact_mode ∧ m.checksum = md5 then 1 else 0 := by
  rw [Tables.recorded]
  by_cases hmode : m.artifact_mode
  · rw [if_pos hmode, artifactsOf_addArtifact]
    simp only [hmode, true_and]
    rfl
  · rw [if_neg hmode, if_neg fun h => hmode h.1, Nat.add_zero]

theorem file_shared_recorded (db : Tables) (m : ArtifactMetadata) (file_id : Str) :
    (db.recorded m file_id).file_shared = db.file_shared := by
  rw [Tables.recorded]
  split_ifs <;> rfl

theorem Tables.Counted.stored (h : s.db.Counted R) (hf : Filed env s)
    (hfresh : s.db.shared m.checksum = none) (hone : R (if m.artifact_mode then 1 else 0) 1) :
    ((s.db.addUpload m file_id).recorded m file_id).Counted R := by
  intro sh hsh
  rw [file_shared_recorded] at hsh
  rw [artifactsOf_recorded]
  show R (s.db.artifactsOf sh.file_md5 + _) _
  rcases List.mem_append.mp hsh with hsh | hsh
  · have hne : m.checksum ≠ sh.file_md5 := fun heq => shared_eq_none_iff.mp hfresh sh hsh heq.symm
    rw [if_neg fun hx => hne hx.2]
    exact h sh hsh
  · obtain rfl := List.mem_singleton.mp hsh
    rw [hf.artifactsOf_of_fresh hfresh, Nat.zero_add]
    simpa using hone

theorem Tables.Counted.shared (h : s.db.Counted R)
    (hstep : ∀ {n k}, R n k → R (n + if m.artifact_mode then 1 else 0) (k + 1)) :
    ((s.db.addShare m file_id).recorded m file_id).Counted R := by
  intro x hx
  rw [file_shared_recorded] at hx
  obtain ⟨sh, hsh, rfl⟩ := mem_file_shared_addShare.mp hx
  rw [artifactsOf_recorded]
  show R (s.db.artifactsOf _ + _) _
  have hsh' := h sh hsh
  by_cases hmd5 : sh.file_md5 = m.checksum
  · rw [if_pos hmd5]
    simpa [hmd5] using hstep hsh'
  · rw [if_neg hmd5, if_neg fun hx => hmd5 hx.2.symm]
    exact hsh'

/-- An artifact goes with its reference. -/
theorem Tables.Counted.without {a : ArtifactInfo} (h : s.db.Counted R) (hk : Keyed s.db)
    (ha : s.db.artifact m.coordinate = some a) (hpositive : ∀ sh ∈ s.db.file_shared, 1 ≤ sh.ref_count)
    (hstep : ∀ {n k}, R (n + 1) k → R n (k - 1)) : (s.db.without m a).Counted R := by
  intro x hx
  obtain ⟨y, hy, hne, rfl⟩ := mem_file_shared_without.mp hx
  have hy' := h y hy
  rw [artifactsOf_without hk ha] at hy'
  by_cases hymd5 : y.file_md5 = a.checksum
  · have hpos := hpositive y hy
    rw [if_pos hymd5.symm] at hy'
    simp only [if_pos hymd5, decremented, if_pos (show (0 : Int) < y.ref_count by omega)]
    exact hstep hy'
  · rw [if_neg (Ne.symm hymd5)] at hy'
    rw [if_neg hymd5]
    exact hy'

end

/-! ### Deletes -/

theorem Filed.refAfter {a : ArtifactInfo} {sh : FileShared} (h : Filed env s)
    (hsh : s.db.shared a.checksum = some sh) : s.db.refAfter a.checksum = sh.ref_count - 1 := by
  have hpos := h.positive sh (shared_eq_some hsh).1
  rw [refAfter_of_shared hsh, decremented, if_pos (by omega)]

/-- A row that a delete keeps has a reference left. -/
theorem Keyed.positive_without {db : Tables} (hk : Keyed db)
    (h : ∀ sh ∈ db.file_shared, 1 ≤ sh.ref_count) {m : ArtifactMetadata} {a : ArtifactInfo} :
    ∀ sh ∈ (db.without m a).file_shared, 1 ≤ sh.ref_count := by
  intro x hx
  obtain ⟨y, hy, hne, rfl⟩ := mem_file_shared_without.mp hx
  have hpos := h y hy
  by_cases hmd5 : y.file_md5 = a.checksum
  · have hafter := refAfter_of_shared (hmd5 ▸ hk.shared hy)
    have hkept : db.refAfter a.checksum ≠ 0 := fun hzero => hne hzero hmd5
    simp only [if_pos hmd5]
    rw [decremented, if_pos (by omega)] at hafter ⊢
    omega
  · rw [if_neg hmd5]
    exact hpos

/-- The file goes with the last reference, which is that of the last artifact. -/
theorem Filed.without {m : ArtifactMetadata} {a : ArtifactInfo} (h : Filed env s)
    (hc : s.db.Counted fun n k => (n : Int) ≤ k) (ha : s.db.artifact m.coordinate = some a)
    (hdb : s'.db = s.db.without m a) (huploads : s'.uploads = s.uploads)
    (hfiles : ∀ id ∈ s.files.map Prod.fst, (s.db.refAfter a.checksum = 0 → id ≠ a.file_id) →
      id ∈ s'.files.map Prod.fst) : Filed env s' := by
  obtain ⟨sh, hsh, hfound, hmd5, hid⟩ := h.shared (artifact_eq_some ha).1
  have hcount := hc sh hsh
  rw [hmd5] at hcount
  have hafter := h.refAfter hfound
  refine ⟨hdb ▸ h.keyed.without m a, ?_, fun x hx => ?_, fun x hx => ?_, fun x hx => ?_⟩
  · have hids := h.fileIds
    rw [fileIds_eq] at hids
    rw [hdb, fileIds_eq]
    exact hids.sublist ((links_without s.db m a).map _)
  · rw [hdb] at hx
    obtain ⟨y, hy, hne, rfl⟩ := mem_file_shared_without.mp hx
    have hyid : (if y.file_md5 = a.checksum then { y with ref_count := decremented y.ref_count }
        else y).file_id = y.file_id := by
      split_ifs <;> rfl
    rw [hyid, huploads]
    refine ⟨hfiles _ (h.taken y hy).1 fun hzero heq => ?_, (h.taken y hy).2⟩
    -- two rows do not have the same file
    have hysh : y = sh := List.inj_on_of_nodup_map h.fileIds hy hsh (heq.trans hid.symm)
    exact hne hzero (hysh ▸ hmd5)
  · rw [hdb] at hx ⊢
    obtain ⟨y, hy, hymd5, hyid⟩ := h.linked x (mem_artifact_info_without.mp hx).1
    refine ⟨_, mem_file_shared_without.mpr ⟨y, hy, fun hzero heq => ?_, rfl⟩, ?_⟩
    · -- the last reference was that of the only artifact
      have hpos : 0 < (s.db.without m a).artifactsOf a.checksum := by
        rw [Tables.artifactsOf, List.countP_pos_iff]
        exact ⟨x, hx, by simpa using hymd5.symm.trans heq⟩
      have hsum := artifactsOf_without h.keyed ha a.checksum
      rw [if_pos rfl] at hsum
      omega
    · split_ifs <;> exact ⟨hymd5, hyid⟩
  · rw [hdb] at hx
    exact h.keyed.positive_without h.positive x hx

/-- The delete of an artifact whose checksum has its row is carried out. -/
theorem DeleteFileServlet.Outcome.deleted_of_shared {m : ArtifactMetadata} {a : ArtifactInfo}
    {d : Option DeleteFileServlet.DbResult} {db : Tables} (hsql : SqlOk fates)
    (href : 0 ≤ s.db.refAfter a.checksum) (hout : DeleteFileServlet.Outcome fates s m a d db) :
    d = some ⟨true, decide (s.db.refAfter a.checksum = 0), a.file_id, ""⟩
      ∧ db = s.db.without m a := by
  have hdeletes : DeletesArtifact fates m :=
    ⟨hsql _ _ (by simp), hsql _ _ (by simp), hsql _ _ (by simp)⟩
  have hfinishes : FinishesDelete fates (s.db.removeArtifact m.coordinate) m a :=
    ⟨hsql _ _ (by simp), hsql _ _ (by simp), hsql _ _ (by simp), href,
      fun _ => hsql _ _ (by simp), hsql _ _ (by simp)⟩
  cases hout with
  | kept r hr hn => exact absurd hdeletes hn
  | deleted hd hf => exact ⟨rfl, rfl⟩
  | torn r hr db hd hf hdb hkept => exact absurd hfinishes hf

end FiberServer
