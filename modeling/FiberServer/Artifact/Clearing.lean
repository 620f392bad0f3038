import FiberServer.Artifact.Dangling
import Mathlib.Data.List.Forall2

/-!
# Deleting every artifact

What is left when each artifact is deleted once.

* `delete_spec`: when a delete succeeds and what it does then.
* `clears_iff`: every order of deletes succeeds and leaves nothing exactly when the books
  balance before, and which uploads keep them balanced.
* `reuse_not_cleared`: two artifacts of one project with the same checksum.
-/

namespace FiberServer

open Transition (exec Along)

variable {env : Env} {fates : Fates} {s s' : Store}

/-- The request is answered with a success. -/
def Succeeds (env : Env) (s : Store) (x : Fates × Request) : Prop :=
  ∃ r, (serve env x.1 x.2 s).1 = some r ∧ r.ret = 0

/-- Requests one after the other, with their answers. -/
def serveAll (env : Env) : Store → List (Fates × Request) → List (Option Response) × Store
  | s, [] => ([], s)
  | s, x :: xs =>
    let r := serve env x.1 x.2 s
    (r.1 :: (serveAll env r.2 xs).1, (serveAll env r.2 xs).2)

/-- A precheck or an upload that succeeds. -/
structure UploadSucceeds (env : Env) (s : Store) (x : Fates × Request) : Prop where
  sql : SqlOk x.1
  kind : x.2.isDelete = false
  succeeds : Succeeds env s x

/-- A delete for the coordinate, with a token that the server accepts; every call is carried
out. -/
structure Deletes (env : Env) (db : Tables) (x : Fates × Request) (c : Coordinate) : Prop where
  ok : ∀ op n, x.1 op n = .ok
  request : ∃ token json m, x.2 = .delete token (some json) ∧ ArtifactMetadata.ofJson json = some m
    ∧ m.coordinate = c ∧ token ≠ [] ∧ db.Enabled env.sha1 m.owner token

/-- Every delete succeeds, and nothing is left. -/
def Clears (env : Env) (s : Store) (ds : List (Fates × Request)) : Prop :=
  (∀ r ∈ (serveAll env s ds).1, ∃ x, r = some x ∧ x.ret = 0) ∧ (serveAll env s ds).2.Empty

/-- The `storage_name` of a request for the artifact. -/
def ArtifactInfo.storage_name (a : ArtifactInfo) : Str :=
  ArtifactMetadata.BuildStorageName a.artifact_name a.version a.build_no

/-- A delete can name the artifact. -/
def ArtifactInfo.Named (a : ArtifactInfo) : Prop := a.project_name ≠ [] ∧ a.storage_name ≠ []

/-- The books balance: every artifact has a name and the row of its checksum, the references
of a checksum are its artifacts, and a file record is that of an artifact. -/
structure Tables.Balanced (db : Tables) : Prop where
  covered : ∀ a ∈ db.artifact_info, ∃ sh ∈ db.file_shared, sh.file_md5 = a.checksum
  counted : db.Counted fun n k => (n : Int) = k
  recorded : ∀ f ∈ db.file_info,
    ∃ a ∈ db.artifact_info, a.project_name = f.owner ∧ a.storage_name = f.filename
  named : ∀ a ∈ db.artifact_info, a.Named

/-- The metadata of an artifact that is filed under the name a delete looks for. -/
structure ArtifactMetadata.Countable (m : ArtifactMetadata) : Prop where
  mode : m.artifact_mode
  nonempty : m.storage_name ≠ []
  name : m.storage_name = BuildStorageName m.artifact_name m.version m.build_no

/-- What the request adds to the tables is that of an artifact, and it takes a reference. -/
def Counts (env : Env) (s : Store) : Request → Prop
  | .precheck token (some (.object members)) =>
    let m := ArtifactMetadata.FromJson members
    ¬ s.db.ReusedBy env token m
      ∧ (m.Countable ∨ s.db.shared m.checksum = none ∨ s.db.Owns m)
  | .precheck _ _ => True
  | .direct _ params _ => (ArtifactMetadata.FromParams params).Countable
  | .chunk _ r => ∀ c, ChunkUploadServlet.chunkMeta r = some c → c.request_meta.Countable
  | .delete _ _ => False

/-! ### The state that is deleted from -/

/-- What the tables say about the files in FastDFS, whatever the counts are. -/
structure Stocked (s : Store) : Prop where
  keyed : Keyed s.db
  consistent : ∀ a ∈ s.db.artifact_info, ∀ sh ∈ s.db.file_shared, sh.file_md5 = a.checksum →
    sh.file_id = a.file_id
  positive : ∀ sh ∈ s.db.file_shared, 1 ≤ sh.ref_count
  files : ∀ f ∈ s.files, ∃ sh ∈ s.db.file_shared, sh.file_id = f.1

/-! ### One delete -/

/-- The metadata of a delete is that of the artifact. -/
structure Names (m : ArtifactMetadata) (a : ArtifactInfo) : Prop where
  coordinate : m.coordinate = a.coordinate
  owner : m.owner = a.project_name
  name : m.storage_name = a.storage_name

/-- The artifact is taken out, and its file with the last reference. -/
structure Cleared (s : Store) (m : ArtifactMetadata) (a : ArtifactInfo) (s' : Store) : Prop where
  db : s'.db = s.db.without m a
  files : s'.files = s.files.filter fun f => ¬ (s.db.refAfter a.checksum = 0 ∧ f.1 = a.file_id)

theorem refAfter_of_none {db : Tables} {md5 : Str} (h : db.shared md5 = none) :
    db.refAfter md5 = -1 := by
  rw [Tables.refAfter, Tables.refCount, Tables.decrement, shared_updateRef, h]
  rfl

theorem storage_name_of_json {json : Json} {m : ArtifactMetadata}
    (h : ArtifactMetadata.ofJson json = some m) :
    m.storage_name = ArtifactMetadata.BuildStorageName m.artifact_name m.version m.build_no := by
  cases json with
  | object members =>
    obtain rfl := Option.some.inj h
    rfl
  | null =>
    obtain rfl := Option.some.inj h
    rfl
  | other => exact nomatch h

theorem file_info_without (db : Tables) (m : ArtifactMetadata) (a : ArtifactInfo) :
    (db.without m a).file_info
      = db.file_info.filter fun f => ¬ (f.owner = m.owner ∧ f.filename = m.storage_name) := by
  unfold Tables.without Tables.release
  split_ifs <;> rfl

theorem mem_file_info_without {db : Tables} {m : ArtifactMetadata} {a : ArtifactInfo}
    {f : FileInfo} : f ∈ (db.without m a).file_info
      ↔ f ∈ db.file_info ∧ ¬ (f.owner = m.owner ∧ f.filename = m.storage_name) := by
  rw [file_info_without, List.mem_filter, decide_eq_true_iff]

theorem admitted_of_enabled {access : Access} {owner : Str} (hok : ∀ op n, fates op n = .ok)
    (howner : owner ≠ []) (htoken : access.token ≠ [])
    (henabled : s.db.Enabled env.sha1 owner access.token) :
    asks env fates s (RequireArtifactToken access owner) = none := by
  obtain ⟨row, hrow, hp, hhash, hstatus⟩ := henabled
  have hvalid : (performOp env fates (.ValidateToken owner access.token) s.idle).1 = true := by
    rw [performOp_ValidateToken, Tables.validToken]
    simp only [hok, Bool.and_eq_true, bne_iff_ne, beq_self_eq_true, List.any_eq_true,
      decide_eq_true_eq]
    exact ⟨⟨⟨⟨howner, htoken⟩, trivial⟩, trivial⟩, row, hrow, hp, hhash, hstatus⟩
  simp only [asks, RequireArtifactToken, call, Prog.run_ite, Prog.run_bind, Prog.run_perform,
    Prog.run_pure, performOp_connect, hok, hvalid, htoken, beq_self_eq_true, Bool.not_true,
    Bool.false_eq_true, if_false]
  split_ifs <;> rfl

theorem names_of_coordinate {m : ArtifactMetadata} {a : ArtifactInfo} {json : Json}
    (hm : ArtifactMetadata.ofJson json = some m) (hc : m.coordinate = a.coordinate) : Names m a := by
  have howner : m.owner = a.project_name := congrArg Coordinate.project_name hc
  refine ⟨hc, howner, ?_⟩
  injection hc with _ hversion hbuild hname
  rw [storage_name_of_json hm, ArtifactInfo.storage_name, hversion, hbuild, hname]

/-- A delete that succeeds has carried out all its statements. -/
theorem DeleteFileServlet.Outcome.of_ret {m : ArtifactMetadata} {a : ArtifactInfo}
    {d : Option DeleteFileServlet.DbResult} {db : Tables} {r : Response}
    (hout : DeleteFileServlet.Outcome fates s m a d db)
    (hans : DeleteFileServlet.Answers fates (s.setDb db) s' d r) (hret : r.ret = 0) :
    FinishesDelete fates (s.db.removeArtifact m.coordinate) m a ∧ s'.db = s.db.without m a := by
  rw [hans.ret] at hret
  have hok : d.any DeleteFileServlet.DbResult.ok = true := by
    by_contra hfailed
    rw [if_neg hfailed] at hret
    exact absurd hret (by decide)
  obtain ⟨x, rfl, hx⟩ := Option.any_eq_true _ _ |>.mp hok
  cases hout with
  | kept _ hd hn => exact nomatch (hd x rfl).symm.trans hx
  | deleted hd hfin => exact ⟨hfin, hans.db⟩
  | torn _ hd db hdel hfin hdb hkept => exact nomatch (hd x rfl).symm.trans hx

/-- A delete that found its artifact succeeds if the checksum has a row, and takes the artifact
out of the tables. -/
theorem DeleteFileServlet.Outcome.clears (h : Stocked s) (hok : ∀ op n, fates op n = .ok)
    {m : ArtifactMetadata} {a : ArtifactInfo} {d : Option DeleteFileServlet.DbResult} {db : Tables}
    {r : Response} (hout : DeleteFileServlet.Outcome fates s m a d db)
    (hans : DeleteFileServlet.Answers fates (s.setDb db) s' d r) :
    (r.ret = 0 ↔ ∃ sh ∈ s.db.file_shared, sh.file_md5 = a.checksum)
      ∧ (r.ret = 0 → Cleared s m a s') := by
  have hsql : SqlOk fates := fun op n _ => hok op n
  cases hsh : s.db.shared a.checksum with
  | none =>
    have hnone : ¬ ∃ sh ∈ s.db.file_shared, sh.file_md5 = a.checksum :=
      fun ⟨sh, hmem, hmd5⟩ => shared_eq_none_iff.mp hsh sh hmem hmd5
    have hret : r.ret ≠ 0 := by
      intro hret
      -- the count that is read back is that of no row
      have href : 0 ≤ s.db.refAfter a.checksum := (hout.of_ret hans hret).1.ref
      rw [refAfter_of_none hsh] at href
      exact absurd href (by decide)
    exact ⟨iff_of_false hret hnone, fun h0 => absurd h0 hret⟩
  | some sh =>
    obtain ⟨hmem, hmd5⟩ := shared_eq_some hsh
    have hpos := h.positive sh hmem
    have hafter := refAfter_of_shared hsh
    rw [decremented, if_pos (by omega)] at hafter
    obtain ⟨rfl, rfl⟩ := hout.deleted_of_shared hsql (by omega)
    have hret : r.ret = 0 := hans.ret
    refine ⟨iff_of_true hret ⟨sh, hmem, hmd5⟩, fun _ => ⟨hans.db, ?_⟩⟩
    rw [hans.files]
    refine List.filter_congr fun f _ => ?_
    rw [DeleteFileServlet.removes]
    by_cases hzero : s.db.refAfter a.checksum = 0
    · rw [if_pos ⟨rfl, decide_eq_true hzero, hok _ _⟩]
      simp only [hzero, true_and, ne_eq, Option.some.injEq]
    · rw [if_neg fun hrm => hzero (of_decide_eq_true hrm.2.1)]
      simp [hzero]

/-- **The delete of an artifact**: when it succeeds, and what it does then. -/
theorem delete_spec (h : Stocked s) {x : Fates × Request} {a : ArtifactInfo}
    (ha : a ∈ s.db.artifact_info) (hx : Deletes env s.db x a.coordinate) :
    (Succeeds env s x ↔ a.Named ∧ ∃ sh ∈ s.db.file_shared, sh.file_md5 = a.checksum)
      ∧ (Succeeds env s x → ∃ m, Names m a ∧ Cleared s m a (serve env x.1 x.2 s).2) := by
  obtain ⟨fates, req⟩ := x
  obtain ⟨hok, token, json, m, rfl, hm, hc, htoken, henabled⟩ := hx
  have hnames := names_of_coordinate hm hc
  have hfound : s.db.artifact m.coordinate = some a := hc ▸ h.keyed.artifact ha
  obtain ⟨r, s', hrun, hcases⟩ :=
    DeleteFileServlet.handle_cases env fates s ⟨DeleteFileServlet.path, token⟩ (some json)
  have hserve : serve env fates (.delete token (some json)) s = (some r, s') := serve_eq hrun
  have hsucceeds : Succeeds env s (fates, .delete token (some json)) ↔ r.ret = 0 := by
    rw [Succeeds, hserve]
    exact ⟨fun ⟨r', hr', hret⟩ => Option.some.inj hr' ▸ hret, fun hret => ⟨r, rfl, hret⟩⟩
  rw [hsucceeds, hserve]
  obtain ⟨hret, rfl, hnone⟩ | ⟨m', a', d, db, hfinds, hout, hanswers⟩ := hcases
  · -- it would have found the artifact if it had a name
    have hnamed : ¬ a.Named := by
      rintro ⟨hp, hs⟩
      refine hnone m a ⟨⟨json, rfl, hm⟩, ?_, ?_, hok _ _, ?_⟩
      · rw [hnames.owner, hnames.name]
        exact not_or.mpr ⟨hp, hs⟩
      · exact admitted_of_enabled hok (hnames.owner ▸ hp) htoken henabled
      · rw [asks, call, Prog.run_perform, performOp_GetArtifact, Tables.readArtifact,
          if_pos ⟨hok _ _, hok _ _⟩]
        exact hfound
    have hret' : r.ret ≠ 0 := by rw [hret]; decide
    exact ⟨iff_of_false hret' fun hn => hnamed hn.1, fun h0 => absurd h0 hret'⟩
  · obtain ⟨json', hjson, hm'⟩ := hfinds.body
    cases hjson
    obtain rfl := Option.some.inj (hm'.symm.trans hm)
    obtain rfl := Option.some.inj (hfinds.artifact.symm.trans hfound)
    have hnamed : a'.Named := by
      have hfields := not_or.mp hfinds.fields
      rw [hnames.owner, hnames.name] at hfields
      exact hfields
    obtain ⟨hiff, hcleared⟩ := hout.clears h hok hanswers
    exact ⟨by rw [hiff, and_iff_right hnamed], fun hret => ⟨m', hnames, hcleared hret⟩⟩

/-! ### All deletes -/

theorem Stocked.clear {m : ArtifactMetadata} {a : ArtifactInfo} (h : Stocked s)
    (ha : a ∈ s.db.artifact_info) (hs : Cleared s m a s') : Stocked s' := by
  obtain ⟨hdb, hfiles⟩ := hs
  have hid : ∀ y : FileShared, (if y.file_md5 = a.checksum
      then { y with ref_count := decremented y.ref_count } else y).file_id = y.file_id := by
    intro y
    split_ifs <;> rfl
  refine ⟨hdb ▸ h.keyed.without m a, fun x hx y hy hmd5 => ?_, fun y hy => ?_, fun f hf => ?_⟩
  · rw [hdb] at hx hy
    obtain ⟨sh, hsh, -, rfl⟩ := mem_file_shared_without.mp hy
    rw [hid]
    refine h.consistent x (mem_artifact_info_without.mp hx).1 sh hsh ?_
    rw [← hmd5]
    split_ifs <;> rfl
  · rw [hdb] at hy
    exact h.keyed.positive_without h.positive y hy
  · rw [hfiles, List.mem_filter, decide_eq_true_iff] at hf
    obtain ⟨sh, hsh, hshid⟩ := h.files f hf.1
    rw [hdb]
    refine ⟨_, mem_file_shared_without.mpr ⟨sh, hsh, fun hzero hmd5 => ?_, rfl⟩, (hid sh).trans hshid⟩
    exact hf.2 ⟨hzero, hshid.symm.trans (h.consistent a ha sh hsh hmd5)⟩

theorem checksum_decremented (y : FileShared) (md5 : Str) :
    (if y.file_md5 = md5 then { y with ref_count := decremented y.ref_count } else y).file_md5
      = y.file_md5 := by
  split_ifs <;> rfl

section

variable {m : ArtifactMetadata} {a : ArtifactInfo}

/-- The rest of the books of balanced tables. -/
theorem Tables.Balanced.without (h : s.db.Balanced) (hs : Stocked s) (ha : a ∈ s.db.artifact_info)
    (hm : Names m a) : (s.db.without m a).Balanced := by
  have hfound : s.db.artifact m.coordinate = some a := hm.coordinate ▸ hs.keyed.artifact ha
  refine ⟨fun x hx => ?_, ?_, fun f hf => ?_, fun x hx => ?_⟩
  · obtain ⟨y, hy, hmd5⟩ := h.covered x (mem_artifact_info_without.mp hx).1
    refine ⟨_, mem_file_shared_without.mpr ⟨y, hy, fun hzero heq => ?_, rfl⟩,
      (checksum_decremented y _).trans hmd5⟩
    -- the last reference was that of the only artifact
    have hcount := h.counted y hy
    have hpos := hs.positive y hy
    have hafter := refAfter_of_shared (heq ▸ hs.keyed.shared hy)
    rw [decremented, if_pos (by omega)] at hafter
    have hsum := artifactsOf_without hs.keyed hfound a.checksum
    have hleft : 0 < (s.db.without m a).artifactsOf a.checksum := by
      rw [Tables.artifactsOf, List.countP_pos_iff]
      exact ⟨x, hx, by simpa using hmd5.symm.trans heq⟩
    rw [heq] at hcount
    rw [if_pos rfl] at hsum
    omega
  · exact h.counted.without hs.keyed hfound hs.positive fun hnk => by push_cast at hnk; omega
  · obtain ⟨hf, hother⟩ := mem_file_info_without.mp hf
    obtain ⟨x, hx, howner, hname⟩ := h.recorded f hf
    refine ⟨x, mem_artifact_info_without.mpr ⟨hx, fun heq => ?_⟩, howner, hname⟩
    obtain rfl := hs.keyed.artifact_eq ha hx (heq.trans hm.coordinate)
    exact hother ⟨howner.symm.trans hm.owner.symm, hname.symm.trans hm.name.symm⟩
  · exact h.named x (mem_artifact_info_without.mp hx).1

/-- The books balanced before if the rest of them balances. -/
theorem Tables.Balanced.of_without (h : (s.db.without m a).Balanced) (hs : Stocked s)
    (ha : a ∈ s.db.artifact_info) (hm : Names m a) (hnamed : a.Named)
    (hrow : ∃ sh ∈ s.db.file_shared, sh.file_md5 = a.checksum) : s.db.Balanced := by
  have hfound : s.db.artifact m.coordinate = some a := hm.coordinate ▸ hs.keyed.artifact ha
  have hother : ∀ x ∈ s.db.artifact_info, x = a ∨ x ∈ (s.db.without m a).artifact_info := by
    intro x hx
    by_cases hc : x.coordinate = m.coordinate
    · exact .inl (hs.keyed.artifact_eq ha hx (hc.trans hm.coordinate))
    · exact .inr (mem_artifact_info_without.mpr ⟨hx, hc⟩)
  refine ⟨fun x hx => ?_, fun y hy => ?_, fun f hf => ?_, fun x hx => ?_⟩
  · rcases hother x hx with rfl | hx
    · exact hrow
    · obtain ⟨y, hy, hmd5⟩ := h.covered x hx
      obtain ⟨z, hz, -, rfl⟩ := mem_file_shared_without.mp hy
      exact ⟨z, hz, (checksum_decremented z _).symm.trans hmd5⟩
  · have hpos := hs.positive y hy
    have hsum := artifactsOf_without hs.keyed hfound y.file_md5
    by_cases hmd5 : y.file_md5 = a.checksum
    swap
    · have hkept := h.counted _ (mem_file_shared_without.mpr ⟨y, hy, fun _ => hmd5, rfl⟩)
      rw [if_neg hmd5] at hkept
      rw [if_neg (Ne.symm hmd5)] at hsum
      rw [hsum]
      exact hkept
    have hafter := refAfter_of_shared (hmd5 ▸ hs.keyed.shared hy)
    rw [decremented, if_pos (by omega)] at hafter
    rw [if_pos hmd5.symm] at hsum
    by_cases hzero : s.db.refAfter a.checksum = 0
    · -- no artifact of the checksum is left, it would have a row
      have hnone : (s.db.without m a).artifactsOf y.file_md5 = 0 := by
        refine artifactsOf_eq_zero fun x hx hxmd5 => ?_
        obtain ⟨z, hz, hzmd5⟩ := h.covered x hx
        obtain ⟨w, -, hne, rfl⟩ := mem_file_shared_without.mp hz
        rw [checksum_decremented] at hzmd5
        exact hne hzero (hzmd5.trans (hxmd5.trans hmd5))
      omega
    · have hkept := h.counted _ (mem_file_shared_without.mpr ⟨y, hy, fun h0 => absurd h0 hzero, rfl⟩)
      simp only [if_pos hmd5, decremented, if_pos (show (0 : Int) < y.ref_count by omega)] at hkept
      omega
  · by_cases hgone : f.owner = m.owner ∧ f.filename = m.storage_name
    · exact ⟨a, ha, hm.owner.symm.trans hgone.1.symm, hm.name.symm.trans hgone.2.symm⟩
    · obtain ⟨x, hx, howner, hname⟩ := h.recorded f (mem_file_info_without.mpr ⟨hf, hgone⟩)
      exact ⟨x, (mem_artifact_info_without.mp hx).1, howner, hname⟩
  · rcases hother x hx with rfl | hx
    · exact hnamed
    · exact h.named x hx

end

theorem clears_nil (hs : Stocked s) (hnone : s.db.artifact_info = []) :
    Clears env s [] ↔ s.db.Balanced := by
  constructor
  · rintro ⟨-, hempty⟩
    have hempty : s.Empty := hempty
    refine ⟨by simp [hnone], fun sh hsh => ?_, by simp [hempty.file_info], by simp [hnone]⟩
    rw [hempty.file_shared] at hsh
    exact absurd hsh List.not_mem_nil
  · intro h
    have hshared : s.db.file_shared = [] := by
      refine List.eq_nil_iff_forall_not_mem.mpr fun sh hsh => ?_
      have hcount := h.counted sh hsh
      have hpos := hs.positive sh hsh
      rw [artifactsOf_eq_zero (by simp [hnone])] at hcount
      omega
    refine ⟨fun r hr => absurd hr List.not_mem_nil, hnone, ?_, hshared, ?_⟩
    · refine List.eq_nil_iff_forall_not_mem.mpr fun f hf => ?_
      obtain ⟨a, ha, -⟩ := h.recorded f hf
      rw [hnone] at ha
      exact absurd ha List.not_mem_nil
    · refine List.eq_nil_iff_forall_not_mem.mpr fun f hf => ?_
      obtain ⟨sh, hsh, -⟩ := hs.files f hf
      rw [hshared] at hsh
      exact absurd hsh List.not_mem_nil

theorem clears_cons {x : Fates × Request} {ds : List (Fates × Request)} :
    Clears env s (x :: ds) ↔ Succeeds env s x ∧ Clears env (serve env x.1 x.2 s).2 ds := by
  simp only [Clears, serveAll, List.forall_mem_cons, Succeeds, and_assoc]

theorem Deletes.of_db {db db' : Tables} {x : Fates × Request} {c : Coordinate}
    (h : Deletes env db x c) (htokens : db'.project_token = db.project_token) :
    Deletes env db' x c := by
  obtain ⟨hok, token, json, m, hreq, hm, hc, htoken, henabled⟩ := h
  refine ⟨hok, token, json, m, hreq, hm, hc, htoken, ?_⟩
  rw [Tables.Enabled, htokens]
  exact henabled

theorem project_token_without (db : Tables) (m : ArtifactMetadata) (a : ArtifactInfo) :
    (db.without m a).project_token = db.project_token := by
  unfold Tables.without Tables.release
  split_ifs <;> rfl

/-- The coordinates that are left to delete. -/
theorem perm_of_without {m : ArtifactMetadata} {a : ArtifactInfo} {cs : List Coordinate}
    (hk : Keyed s.db) (hm : Names m a)
    (hperm : (a.coordinate :: cs).Perm (s.db.artifact_info.map ArtifactInfo.coordinate)) :
    cs.Perm ((s.db.without m a).artifact_info.map ArtifactInfo.coordinate) := by
  have hrest := hperm.erase a.coordinate
  rw [List.erase_cons_head, hk.coordinates.erase_eq_filter, List.filter_map] at hrest
  rw [artifact_info_without, hm.coordinate]
  refine hrest.trans (List.Perm.of_eq (congrArg _ (List.filter_congr fun x _ => ?_)))
  rw [Function.comp_apply, Bool.eq_iff_iff, bne_iff_ne, decide_eq_true_iff]

/-- **Deleting every artifact succeeds and leaves nothing** exactly when the books balance. -/
theorem clears_iff_balanced {ds : List (Fates × Request)} {cs : List Coordinate} (h : Stocked s)
    (hperm : cs.Perm (s.db.artifact_info.map ArtifactInfo.coordinate))
    (hds : List.Forall₂ (Deletes env s.db) ds cs) : Clears env s ds ↔ s.db.Balanced := by
  induction ds generalizing cs s with
  | nil =>
    cases hds
    exact clears_nil h (List.map_eq_nil_iff.mp (List.nil_perm.mp hperm))
  | cons x ds ih =>
    cases hds with
    | cons hx hds =>
      rename_i c cs
      obtain ⟨a, ha, rfl⟩ := List.mem_map.mp (hperm.subset List.mem_cons_self)
      obtain ⟨hiff, hcleared⟩ := delete_spec h ha hx
      rw [clears_cons]
      by_cases hsucceeds : Succeeds env s x
      swap
      · refine iff_of_false (fun hc => hsucceeds hc.1) fun hb => ?_
        exact hsucceeds (hiff.mpr ⟨hb.named a ha, hb.covered a ha⟩)
      rw [and_iff_right hsucceeds]
      obtain ⟨hnamed, hrow⟩ := hiff.mp hsucceeds
      obtain ⟨m, hm, hclear⟩ := hcleared hsucceeds
      have hrest := perm_of_without h.keyed hm hperm
      have htokens : (serve env x.1 x.2 s).2.db.project_token = s.db.project_token := by
        rw [hclear.db, project_token_without]
      rw [← hclear.db] at hrest
      rw [ih (h.clear ha hclear) hrest (hds.imp fun y c hy => hy.of_db htokens), hclear.db]
      exact ⟨fun hb => hb.of_without h ha hm hnamed hrow, fun hb => hb.without h ha hm⟩


/-! ### Uploads that succeed -/

/-- Every file in FastDFS has its row, and every artifact. -/
structure Shelved (env : Env) (s : Store) : Prop extends Filed env s where
  files : ∀ f ∈ s.files, ∃ sh ∈ s.db.file_shared, sh.file_id = f.1

theorem Shelved.stocked (h : Shelved env s) : Stocked s where
  keyed := h.keyed
  consistent := fun a ha sh hsh hmd5 => by
    obtain ⟨sh', -, hfound, -, hid⟩ := h.toFiled.shared ha
    rw [← hmd5, h.keyed.shared hsh] at hfound
    exact Option.some.inj hfound ▸ hid
  positive := h.positive
  files := h.files

section

variable {m : ArtifactMetadata} {token : Str} {r : Option Response}

theorem Shelved.quiet (h : Shelved env s) (hq : Quiet s s') : Shelved env s' := by
  refine ⟨h.toFiled.quiet hq, ?_⟩
  rw [hq.1, hq.2.1]
  exact h.files

theorem Shelved.uploads (hnew : Function.Injective env.newFileId) (h : Shelved env s)
    (hr : ∃ x, r = some x ∧ x.ret = 0) (hu : Uploads env s m r s') : Shelved env s' := by
  refine ⟨h.toFiled.uploads hnew hu, ?_⟩
  cases hu with
  | quiet hq => exact (h.quiet hq).files
  | received file_id ht hfailed =>
    obtain ⟨x, hx, hret⟩ := hr
    exact absurd hret (hfailed x hx)
  | stored file_id ht howner hfree hfresh hdb =>
    obtain ⟨-, -, -, content, hfiles⟩ := ht
    have hrows : s'.db.file_shared = s.db.file_shared ++ [⟨m.checksum, file_id, m.size, 1⟩] := by
      rw [hdb, file_shared_recorded]
      rfl
    intro f hf
    rw [show s'.files = s.files ++ [(file_id, content)] from hfiles] at hf
    rw [hrows]
    rcases List.mem_append.mp hf with hf | hf
    · obtain ⟨sh, hsh, hid⟩ := h.files f hf
      exact ⟨sh, List.mem_append_left _ hsh, hid⟩
    · obtain rfl := List.mem_singleton.mp hf
      exact ⟨_, List.mem_append_right _ (List.mem_singleton.mpr rfl), rfl⟩

theorem Shelved.prechecks (h : Shelved env s) (hp : Prechecks env s token m s') :
    Shelved env s' := by
  refine ⟨h.toFiled.prechecks hp, ?_⟩
  cases hp with
  | quiet hq => exact (h.quiet hq).files
  | shared sh hq howner hfree howns hsh hdb =>
    intro f hf
    rw [show s'.files = s.files from hq.2.1] at hf
    obtain ⟨x, hx, hid⟩ := h.files f hf
    rw [hdb, file_shared_recorded]
    refine ⟨_, mem_file_shared_addShare.mpr ⟨x, hx, rfl⟩, ?_⟩
    split_ifs <;> exact hid
  | reused sh hq howner hr hsh hdb =>
    intro f hf
    rw [show s'.files = s.files from hq.2.1] at hf
    rw [hdb]
    exact h.files f hf

/-- The file record and the artifact of a request are added together. -/
theorem Tables.Balanced.add {db db' : Tables} (h : db.Balanced) (file_id : Str)
    (howner : m.owner ≠ []) (hm : m.Countable) (hcounted : db'.Counted fun n k => (n : Int) = k)
    (hcovered : ∃ sh ∈ db'.file_shared, sh.file_md5 = m.checksum)
    (hshared : ∀ sh ∈ db.file_shared, ∃ sh' ∈ db'.file_shared, sh'.file_md5 = sh.file_md5)
    (hartifacts : db'.artifact_info = db.artifact_info ++ [BuildArtifactInfo m file_id])
    (hfile : ∃ f, db'.file_info = db.file_info ++ [f] ∧ f.owner = m.owner
      ∧ f.filename = m.storage_name) : db'.Balanced := by
  have hname : (BuildArtifactInfo m file_id).storage_name = m.storage_name := hm.name.symm
  obtain ⟨f', hfiles, hf'owner, hf'name⟩ := hfile
  refine ⟨fun a ha => ?_, hcounted, fun f hf => ?_, fun a ha => ?_⟩
  · rw [hartifacts] at ha
    rcases List.mem_append.mp ha with ha | ha
    · obtain ⟨sh, hsh, hmd5⟩ := h.covered a ha
      obtain ⟨sh', hsh', hmd5'⟩ := hshared sh hsh
      exact ⟨sh', hsh', hmd5'.trans hmd5⟩
    · rw [List.mem_singleton.mp ha]
      exact hcovered
  · rw [hartifacts]
    rw [hfiles] at hf
    rcases List.mem_append.mp hf with hf | hf
    · obtain ⟨a, ha, hnames⟩ := h.recorded f hf
      exact ⟨a, List.mem_append_left _ ha, hnames⟩
    · obtain rfl := List.mem_singleton.mp hf
      exact ⟨_, List.mem_append_right _ (List.mem_singleton.mpr rfl), hf'owner.symm,
        hname.trans hf'name.symm⟩
  · rw [hartifacts] at ha
    rcases List.mem_append.mp ha with ha | ha
    · exact h.named a ha
    · rw [List.mem_singleton.mp ha]
      exact ⟨howner, hname ▸ hm.nonempty⟩

theorem Tables.Balanced.uploads (h : s.db.Balanced) (hs : Shelved env s) (hm : m.Countable)
    (hu : Uploads env s m r s') : s'.db.Balanced := by
  cases hu with
  | quiet hq => exact hq.1 ▸ h
  | received file_id ht hr => exact ht.1 ▸ h
  | stored file_id ht howner hfree hfresh hdb =>
    have hcounted : ((s.db.addUpload m file_id).recorded m file_id).Counted fun n k => (n : Int) = k :=
      h.counted.stored hs.toFiled hfresh (by rw [if_pos hm.mode]; rfl)
    have hrows : ((s.db.addUpload m file_id).recorded m file_id).file_shared
        = s.db.file_shared ++ [⟨m.checksum, file_id, m.size, 1⟩] := file_shared_recorded _ _ _
    rw [hdb]
    refine h.add file_id howner hm hcounted ?_ (fun sh hsh => ?_) ?_ ?_
    · rw [hrows]
      exact ⟨_, List.mem_append_right _ (List.mem_singleton.mpr rfl), rfl⟩
    · rw [hrows]
      exact ⟨sh, List.mem_append_left _ hsh, rfl⟩
    · rw [Tables.recorded, if_pos hm.mode]
      rfl
    · rw [Tables.recorded, if_pos hm.mode]
      exact ⟨_, rfl, rfl, rfl⟩

theorem Tables.Balanced.prechecks (h : s.db.Balanced) (hreuse : ¬ s.db.ReusedBy env token m)
    (hm : m.Countable ∨ s.db.shared m.checksum = none ∨ s.db.Owns m)
    (hp : Prechecks env s token m s') : s'.db.Balanced := by
  cases hp with
  | quiet hq => exact hq.1 ▸ h
  | reused sh hq howner hr hsh hdb => exact absurd hr hreuse
  | shared sh hq howner hfree howns hsh hdb =>
    have hm : m.Countable := by
      obtain hm | hnone | hown := hm
      · exact hm
      · exact nomatch hnone.symm.trans hsh
      · exact absurd hown howns
    have hcounted : ((s.db.addShare m sh.file_id).recorded m sh.file_id).Counted
        fun n k => (n : Int) = k := by
      refine h.counted.shared fun hnk => ?_
      rw [if_pos hm.mode]
      push_cast
      omega
    have hrow : ∀ x ∈ s.db.file_shared,
        ∃ y ∈ ((s.db.addShare m sh.file_id).recorded m sh.file_id).file_shared,
          y.file_md5 = x.file_md5 := by
      intro x hx
      rw [file_shared_recorded]
      refine ⟨_, mem_file_shared_addShare.mpr ⟨x, hx, rfl⟩, ?_⟩
      split_ifs <;> rfl
    obtain ⟨hmem, hmd5⟩ := shared_eq_some hsh
    obtain ⟨y, hy, hymd5⟩ := hrow sh hmem
    rw [hdb]
    refine h.add sh.file_id howner hm hcounted ⟨y, hy, hymd5.trans hmd5⟩ hrow ?_ ?_
    · rw [Tables.recorded, if_pos hm.mode]
      rfl
    · rw [Tables.recorded, if_pos hm.mode]
      exact ⟨_, rfl, rfl, rfl⟩

end

/-- The files keep their rows in an upload that succeeds. -/
theorem Shelved.serve (hnew : Function.Injective env.newFileId) (h : Shelved env s)
    {x : Fates × Request} (hx : UploadSucceeds env s x) : Shelved env (serve env x.1 x.2 s).2 := by
  obtain ⟨fates, req⟩ := x
  obtain ⟨hsql, hkind, hret⟩ := hx
  cases req with
  | precheck token body =>
    obtain hq | ⟨members, rfl, hp⟩ := precheck_prechecks env s hsql token body
    · exact h.quiet hq
    · exact h.prechecks hp
  | direct token params body =>
    exact h.uploads hnew hret (direct_uploads env s hsql token params body)
  | chunk token r =>
    obtain hq | ⟨c, -, hu⟩ := chunk_uploads env s hsql token r
    · exact h.quiet hq
    · exact h.uploads hnew hret hu
  | delete token body => exact nomatch hkind

/-- The books stay balanced when a request counts what it adds. -/
theorem Tables.Balanced.serve (h : s.db.Balanced) (hs : Shelved env s) {x : Fates × Request}
    (hx : UploadSucceeds env s x) (hcounts : Counts env s x.2) :
    (serve env x.1 x.2 s).2.db.Balanced := by
  obtain ⟨fates, req⟩ := x
  obtain ⟨hsql, hkind, -⟩ := hx
  cases req with
  | precheck token body =>
    obtain hq | ⟨members, rfl, hp⟩ := precheck_prechecks env s hsql token body
    · exact hq.1 ▸ h
    · exact h.prechecks hcounts.1 hcounts.2 hp
  | direct token params body => exact h.uploads hs hcounts (direct_uploads env s hsql token params body)
  | chunk token r =>
    obtain hq | ⟨c, hc, hu⟩ := chunk_uploads env s hsql token r
    · exact hq.1 ▸ h
    · exact h.uploads hs (hcounts c hc) hu
  | delete token body => exact nomatch hkind

/-! ### Runs -/

/-- **After uploads that succeed, the artifacts can be deleted in any order and nothing is
left** exactly when the books balance, and they do when every upload counts what it adds. -/
theorem clears_iff (hnew : Function.Injective env.newFileId) (hempty : s.Empty)
    {xs : List (Fates × Request)} (huploads : Along (serveStep env) (UploadSucceeds env) s xs)
    {t : Store} (hrun : exec (serveStep env) s xs = some t) :
    (∀ cs ds, cs.Perm (t.db.artifact_info.map ArtifactInfo.coordinate) →
        List.Forall₂ (Deletes env t.db) ds cs → (Clears env t ds ↔ t.db.Balanced))
      ∧ (Along (serveStep env) (fun s x => Counts env s x.2) s xs → t.db.Balanced) := by
  have hstep : ∀ s x u, Shelved env s → UploadSucceeds env s x → serveStep env s x = some u →
      Shelved env u := by
    intro s x u hs hx hu
    obtain rfl := Option.some.inj hu
    exact hs.serve hnew hx
  have hshelved : Shelved env s := ⟨.of_empty hempty, by simp [hempty.files]⟩
  refine ⟨fun cs ds hperm hds => ?_, fun hcounts => ?_⟩
  · have ht : Shelved env t := Transition.along_invariant hstep hshelved huploads hrun
    exact clears_iff_balanced ht.stocked hperm hds
  · have hbalanced : s.db.Balanced := by
      refine ⟨by simp [hempty.artifact_info], fun sh hsh => ?_, by simp [hempty.file_info],
        by simp [hempty.artifact_info]⟩
      rw [hempty.file_shared] at hsh
      exact absurd hsh List.not_mem_nil
    refine (Transition.along_invariant (I := fun s => Shelved env s ∧ s.db.Balanced) ?_
      ⟨hshelved, hbalanced⟩ (huploads.and hcounts) hrun).2
    rintro s x u ⟨hs, hb⟩ ⟨hx, hc⟩ hu
    refine ⟨hstep s x u hs hx hu, ?_⟩
    obtain rfl := Option.some.inj hu
    exact hb.serve hs hx hc

/-! ### One project, and two -/

/-- The coordinate of `sampleUpload` in a project and a build. -/
def sampleCoordinate (project build_no : String) : Coordinate :=
  ⟨project.toList, "1".toList, build_no.toList, "a".toList⟩

theorem sampleDelete_deletes {db : Tables} {project build_no : String}
    (hm : (ArtifactMetadata.FromJson (sampleMembers project.toList build_no.toList)).coordinate
      = sampleCoordinate project build_no)
    (htoken : ⟨project.toList, sampleEnv.sha1 "t".toList, 1⟩ ∈ db.project_token) :
    Deletes sampleEnv db (allOk, sampleDelete project build_no) (sampleCoordinate project build_no) := by
  refine ⟨fun _ _ => rfl, _, _, _, rfl, rfl, hm, by decide, _, htoken, ?_, rfl, rfl⟩
  exact (congrArg Coordinate.project_name hm).symm

theorem uploadSucceeds_of_ret {s : Store} {req : Request} (hkind : req.isDelete = false)
    (hret : ((serve sampleEnv allOk req s).1.map Response.ret) = some 0) :
    UploadSucceeds sampleEnv s (allOk, req) :=
  ⟨fun _ _ _ => rfl, hkind, Option.map_eq_some_iff.mp hret⟩

/-- Two projects share a checksum, and their artifacts are deleted. -/
theorem clears_iff_twoProjects :
    Clears sampleEnv (sampleReuse twoProjects "q" "1")
      [(allOk, sampleDelete "q" "1"), (allOk, sampleDelete "p" "1")] := by
  have huploads : Along (serveStep sampleEnv) (UploadSucceeds sampleEnv) twoProjects
      [(allOk, sampleUpload), (allOk, samplePrecheck "q" "1")] :=
    .cons (uploadSucceeds_of_ret rfl (by decide +kernel)) rfl
      (.cons (uploadSucceeds_of_ret rfl (by decide +kernel)) rfl .nil)
  have hcounts : Along (serveStep sampleEnv) (fun s x => Counts sampleEnv s x.2) twoProjects
      [(allOk, sampleUpload), (allOk, samplePrecheck "q" "1")] := by
    refine .cons ⟨by decide +kernel, by decide +kernel, by decide +kernel⟩ rfl (.cons ?_ rfl .nil)
    exact ⟨unowned_twoProjects, .inl ⟨by decide +kernel, by decide +kernel, by decide +kernel⟩⟩
  obtain ⟨hclears, hbalanced⟩ := clears_iff newFileId_injective ⟨rfl, rfl, rfl, rfl⟩ huploads rfl
  refine (hclears [sampleCoordinate "q" "1", sampleCoordinate "p" "1"] _ ?_ ?_).mpr
    (hbalanced hcounts)
  · exact (List.Perm.swap _ _ []).trans (List.Perm.of_eq (by decide +kernel))
  · exact .cons (sampleDelete_deletes (by decide +kernel) (by decide +kernel))
      (.cons (sampleDelete_deletes (by decide +kernel) (by decide +kernel)) .nil)

/-- **Two artifacts of one project with the same checksum**: the delete of the second is
refused. -/
theorem reuse_not_cleared :
    sampleStore.Empty
      ∧ Along (serveStep sampleEnv) (UploadSucceeds sampleEnv) sampleStore
        [(allOk, sampleUpload), (allOk, samplePrecheck "p" "2")]
      ∧ exec (serveStep sampleEnv) sampleStore
        [(allOk, sampleUpload), (allOk, samplePrecheck "p" "2")]
          = some (sampleReuse sampleStore "p" "2")
      ∧ [sampleCoordinate "p" "1", sampleCoordinate "p" "2"].Perm
        ((sampleReuse sampleStore "p" "2").db.artifact_info.map ArtifactInfo.coordinate)
      ∧ List.Forall₂ (Deletes sampleEnv (sampleReuse sampleStore "p" "2").db)
        [(allOk, sampleDelete "p" "1"), (allOk, sampleDelete "p" "2")]
        [sampleCoordinate "p" "1", sampleCoordinate "p" "2"]
      ∧ ¬ Clears sampleEnv (sampleReuse sampleStore "p" "2")
        [(allOk, sampleDelete "p" "1"), (allOk, sampleDelete "p" "2")] := by
  refine ⟨⟨rfl, rfl, rfl, rfl⟩, ?_, rfl, ?_, ?_, ?_⟩
  · exact .cons (uploadSucceeds_of_ret rfl (by decide +kernel)) rfl
      (.cons (uploadSucceeds_of_ret rfl (by decide +kernel)) rfl .nil)
  · exact List.Perm.of_eq (by decide +kernel)
  · exact .cons (sampleDelete_deletes (by decide +kernel) (by decide +kernel))
      (.cons (sampleDelete_deletes (by decide +kernel) (by decide +kernel)) .nil)
  · rintro ⟨hret, -⟩
    have hfails : ∃ r ∈ (serveAll sampleEnv (sampleReuse sampleStore "p" "2")
        [(allOk, sampleDelete "p" "1"), (allOk, sampleDelete "p" "2")]).1,
        r.map Response.ret ≠ some 0 := by decide +kernel
    obtain ⟨r, hr, hne⟩ := hfails
    exact hne (Option.map_eq_some_iff.mpr (hret r hr))

end FiberServer
