import FiberServer.Artifact.Requests
import Mathlib.Data.List.Nodup

/-!
# What requests add to the tables

* `Adds`: the ways in which a precheck or an upload changes the tables and the
  files in FastDFS; `serve_adds` says that there are no others.
* `Keyed`: the unique keys, which every request keeps.
-/

namespace FiberServer

variable {env : Env} {fates : Fates} {s s' : Store}

/-! ### Rows -/

theorem artifact_eq_none_iff {db : Tables} {c : Coordinate} :
    db.artifact c = none ↔ ∀ a ∈ db.artifact_info, a.coordinate ≠ c := by
  simp [Tables.artifact, List.find?_eq_none]

theorem shared_eq_none_iff {db : Tables} {md5 : Str} :
    db.shared md5 = none ↔ ∀ sh ∈ db.file_shared, sh.file_md5 ≠ md5 := by
  simp [Tables.shared, List.find?_eq_none]

theorem artifact_eq_some {db : Tables} {c : Coordinate} {a : ArtifactInfo}
    (h : db.artifact c = some a) : a ∈ db.artifact_info ∧ a.coordinate = c :=
  ⟨List.mem_of_find?_eq_some h, by simpa using List.find?_some h⟩

theorem shared_eq_some {db : Tables} {md5 : Str} {sh : FileShared}
    (h : db.shared md5 = some sh) : sh ∈ db.file_shared ∧ sh.file_md5 = md5 :=
  ⟨List.mem_of_find?_eq_some h, by simpa using List.find?_some h⟩

/-- The unique keys of `artifact_info` and `file_shared`. -/
structure Keyed (db : Tables) : Prop where
  coordinates : (db.artifact_info.map ArtifactInfo.coordinate).Nodup
  md5s : (db.file_shared.map FileShared.file_md5).Nodup

/-- A row is found by its key. -/
theorem find?_of_nodup {α β : Type*} [DecidableEq β] {key : α → β} {l : List α} {a : α}
    (hl : (l.map key).Nodup) (ha : a ∈ l) : (l.find? fun x => key x = key a) = some a := by
  induction l with
  | nil => exact absurd ha List.not_mem_nil
  | cons b l ih =>
    obtain ⟨hb, hl⟩ := List.nodup_cons.mp hl
    obtain rfl | ha := List.mem_cons.mp ha
    · simp
    · have hne : key b ≠ key a := fun h => hb (h ▸ List.mem_map_of_mem ha)
      rw [List.find?_cons_of_neg (by simpa using hne)]
      exact ih hl ha

theorem Keyed.artifact {db : Tables} (h : Keyed db) {a : ArtifactInfo} (ha : a ∈ db.artifact_info) :
    db.artifact a.coordinate = some a :=
  find?_of_nodup h.coordinates ha

theorem Keyed.shared {db : Tables} (h : Keyed db) {sh : FileShared} (hsh : sh ∈ db.file_shared) :
    db.shared sh.file_md5 = some sh :=
  find?_of_nodup h.md5s hsh

theorem Keyed.artifact_eq {db : Tables} (h : Keyed db) {a a' : ArtifactInfo}
    (ha : a ∈ db.artifact_info) (ha' : a' ∈ db.artifact_info)
    (heq : a'.coordinate = a.coordinate) : a' = a :=
  Option.some.inj ((h.artifact ha').symm.trans (heq ▸ h.artifact ha))

/-- The key of an artifact that is recorded is checked. -/
def Recorded (db : Tables) (a : ArtifactInfo) (db' : Tables) : Prop :=
  db' = db ∨ db' = db.addArtifact a ∧ db.artifact a.coordinate = none

theorem recorded_recordArtifact (db : Tables) (a : ArtifactInfo) :
    Recorded db a (db.recordArtifact fates a) := by
  rw [Tables.recordArtifact]
  split_ifs with h
  · refine .inr ⟨rfl, ?_⟩
    simp only [Tables.insertsArtifact, Bool.and_eq_true, Option.isNone_iff_eq_none] at h
    exact h.2
  · exact .inl rfl

theorem Recorded.artifact_info {db db' : Tables} {a x : ArtifactInfo} (h : Recorded db a db')
    (hx : x ∈ db'.artifact_info) : x ∈ db.artifact_info ∨ x = a := by
  obtain rfl | ⟨rfl, -⟩ := h
  · exact .inl hx
  · simpa [Tables.addArtifact] using hx

theorem Recorded.file_info {db db' : Tables} {a : ArtifactInfo} (h : Recorded db a db') :
    db'.file_info = db.file_info := by
  obtain rfl | ⟨rfl, -⟩ := h <;> rfl

theorem Recorded.file_shared {db db' : Tables} {a : ArtifactInfo} (h : Recorded db a db') :
    db'.file_shared = db.file_shared := by
  obtain rfl | ⟨rfl, -⟩ := h <;> rfl

theorem Recorded.project_token {db db' : Tables} {a : ArtifactInfo} (h : Recorded db a db') :
    db'.project_token = db.project_token := by
  obtain rfl | ⟨rfl, -⟩ := h <;> rfl

theorem Recorded.keyed {db db' : Tables} {a : ArtifactInfo} (h : Recorded db a db')
    (hdb : Keyed db) : Keyed db' := by
  obtain rfl | ⟨rfl, hnone⟩ := h
  · exact hdb
  refine ⟨?_, hdb.md5s⟩
  show ((db.artifact_info ++ [a]).map ArtifactInfo.coordinate).Nodup
  rw [List.map_append, List.nodup_append]
  refine ⟨hdb.coordinates, List.nodup_singleton _, ?_⟩
  rintro c hc c' hc' rfl
  obtain ⟨a', ha', rfl⟩ := List.mem_map.mp hc
  exact artifact_eq_none_iff.mp hnone a' ha' (List.mem_singleton.mp hc')

theorem md5s_updateRef (db : Tables) (md5 : Str) (f : Int → Int) :
    (db.updateRef md5 f).file_shared.map FileShared.file_md5
      = db.file_shared.map FileShared.file_md5 := by
  have h := congrArg (List.map Prod.fst) (links_updateRef db md5 f)
  rw [Tables.links, Tables.links, List.map_map, List.map_map] at h
  exact h

theorem Keyed.updateRef {db : Tables} (h : Keyed db) (md5 : Str) (f : Int → Int) :
    Keyed (db.updateRef md5 f) :=
  ⟨h.coordinates, (md5s_updateRef db md5 f).symm ▸ h.md5s⟩

theorem Keyed.addUpload {db : Tables} (h : Keyed db) {m : ArtifactMetadata} (file_id : Str)
    (hfresh : db.shared m.checksum = none) : Keyed (db.addUpload m file_id) := by
  refine ⟨h.coordinates, ?_⟩
  show ((db.file_shared ++ [_]).map FileShared.file_md5).Nodup
  rw [List.map_append, List.nodup_append]
  refine ⟨h.md5s, List.nodup_singleton _, ?_⟩
  rintro c hc c' hc' rfl
  obtain ⟨sh, hsh, rfl⟩ := List.mem_map.mp hc
  exact shared_eq_none_iff.mp hfresh sh hsh (List.mem_singleton.mp hc')

theorem Keyed.addShare {db : Tables} (h : Keyed db) (m : ArtifactMetadata) (file_id : Str) :
    Keyed (db.addShare m file_id) :=
  ⟨(h.updateRef m.checksum (· + 1)).coordinates, (h.updateRef m.checksum (· + 1)).md5s⟩

/-! ### Prechecks and uploads -/

def Request.isDelete : Request → Bool
  | .delete _ _ => true
  | _ => false

/-- The request has a token that is valid for the project. -/
def TokenAccepted (env : Env) (fates : Fates) (s : Store) (owner : Str) : Prop :=
  ∃ access : Access, IsArtifactWritePath access.path
    ∧ asks env fates s (RequireArtifactToken access owner) = none

/-- The project of a request that may write. -/
structure Owner (env : Env) (fates : Fates) (s : Store) (m : ArtifactMetadata) : Prop where
  nonempty : m.owner ≠ []
  accepted : TokenAccepted env fates s m.owner

/-- What a precheck or an upload does to the tables and to the files in FastDFS. -/
inductive Adds (env : Env) (fates : Fates) (s s' : Store) : Prop
  | quiet (h : Quiet s s')
  | received (file_id : Str) (h : Took env s s' file_id)
  | uploaded (m : ArtifactMetadata) (file_id : Str) (ho : Owner env fates s m)
      (h : Took env s (s'.setDb s.db) file_id) (hfresh : s.db.shared m.checksum = none)
      (hdb : Recorded (s.db.addUpload m file_id) (BuildArtifactInfo m file_id) s'.db)
  | shared (m : ArtifactMetadata) (file_id : Str) (ho : Owner env fates s m)
      (h : Quiet s (s'.setDb s.db)) (hs : UploadServlet.Shares env fates s m file_id)
      (hdb : Recorded (s.db.addShare m file_id) (BuildArtifactInfo m file_id) s'.db)
  | reused (m : ArtifactMetadata) (file_id : Str) (ho : Owner env fates s m)
      (h : Quiet s (s'.setDb s.db)) (hr : UploadServlet.Reuses env fates s m file_id)
      (hdb : Recorded s.db (BuildArtifactInfo m file_id) s'.db)

theorem admission_token {access : Access} {m : ArtifactMetadata}
    (h : asks env fates s (admission access m) = none) :
    asks env fates s (RequireArtifactToken access m.owner) = none := by
  have htoken := run_of_read env fates s (RequireArtifactToken_read access m.owner)
  rw [asks, admission, Prog.run_bind, htoken] at h
  cases ha : asks env fates s (RequireArtifactToken access m.owner) with
  | none => rfl
  | some r =>
    rw [ha] at h
    cases h

/-- The rows of an upload, from the end of its transaction. -/
theorem UploadOutcome.adds {m : ArtifactMetadata} {file_id : Str} {d : Option DbResult}
    (ho : Owner env fates s m) (h : Took env s (s'.setDb s.db) file_id)
    (hout : UploadOutcome fates s.db m file_id d s'.db) : Adds env fates s s' := by
  generalize hdb : s'.db = db at hout
  cases hout with
  | kept r hr hn => exact .received file_id ⟨hdb, h.2⟩
  | stored hw ht =>
    refine .uploaded m file_id ho h hw.fresh ?_
    rw [hdb, Tables.stored]
    split_ifs
    · exact recorded_recordArtifact _ _
    · exact .inl rfl
  | torn r hr ht hsome =>
    refine .uploaded m file_id ho h ht.1.fresh ?_
    rw [hdb]
    exact recorded_recordArtifact _ _

theorem UploadServlet.Outcome.adds {m : ArtifactMetadata} {d : Option UploadServlet.DbResult}
    (ho : Owner env fates s m) (hfiles : s'.files = s.files) (huploads : s'.uploads = s.uploads)
    (hout : UploadServlet.Outcome env fates s m d s'.db) : Adds env fates s s' := by
  have hquiet : Quiet s (s'.setDb s.db) := ⟨rfl, hfiles, huploads⟩
  generalize hdb : s'.db = db at hout
  cases hout with
  | kept r hreuse hshare => exact .quiet ⟨hdb, hfiles, huploads⟩
  | reused r file_id h hcode =>
    refine .reused m file_id ho hquiet h ?_
    rw [hdb]
    exact recorded_recordArtifact _ _
  | shared r file_id h hcode hw ht =>
    refine .shared m file_id ho hquiet h ?_
    rw [hdb, Tables.sharing]
    split_ifs
    · exact recorded_recordArtifact _ _
    · exact .inl rfl
  | torn r file_id h hcode hw ht =>
    refine .shared m file_id ho hquiet h ?_
    rw [hdb]
    exact recorded_recordArtifact _ _

/-- **What a precheck or an upload can do.** -/
theorem serve_adds (env : Env) (fates : Fates) (s : Store) (req : Request)
    (hreq : req.isDelete = false) : Adds env fates s (serve env fates req s).2 := by
  cases req with
  | precheck token body =>
    obtain ⟨r, s', hrun, hfiles, huploads, hcases⟩ :=
      UploadServlet.handle_cases env fates s ⟨UploadServlet.path, token⟩ body
    rw [serve_eq hrun]
    obtain ⟨hdb, -⟩ | ⟨m, d, hlooks, hout, -⟩ := hcases
    · exact .quiet ⟨hdb, hfiles, huploads⟩
    · exact hout.adds ⟨fun h => hlooks.fields (.inl h), ⟨_, token⟩, rfl, hlooks.admitted⟩
        hfiles huploads
  | direct token params body =>
    obtain ⟨r, s', hrun, hcases⟩ :=
      DirUploadServlet.handle_cases env fates s ⟨DirUploadServlet.path, token⟩ params body
    rw [serve_eq hrun]
    obtain ⟨hquiet, -⟩ | ⟨file_id, d, hreaches, htook, hout, -⟩ := hcases
    · exact .quiet hquiet
    · exact hout.adds ⟨fun h => hreaches.fields (.inl h), ⟨_, token⟩, rfl,
        admission_token hreaches.admitted⟩ htook
  | chunk token r =>
    obtain ⟨resp, s', hrun, hcases⟩ :=
      ChunkUploadServlet.handle_cases env fates s ⟨ChunkUploadServlet.path, token⟩ r
    rw [serve_eq hrun]
    obtain ⟨hquiet, -⟩ | ⟨c, file_id, d, hreaches, htook, hout, -⟩ := hcases
    · exact .quiet hquiet
    · exact hout.adds ⟨fun h => hreaches.fields (.inl h), ⟨_, token⟩, rfl,
        admission_token hreaches.admitted⟩ htook
  | delete token body => exact nomatch hreq

theorem Adds.keyed (h : Adds env fates s s') (hs : Keyed s.db) : Keyed s'.db := by
  cases h with
  | quiet h => exact h.1.symm ▸ hs
  | received file_id h => exact h.1.symm ▸ hs
  | uploaded m file_id ho h hfresh hdb => exact hdb.keyed (hs.addUpload file_id hfresh)
  | shared m file_id ho h hsh hdb => exact hdb.keyed (hs.addShare m file_id)
  | reused m file_id ho h hr hdb => exact hdb.keyed hs

end FiberServer
