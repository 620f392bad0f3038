import FiberServer.Artifact.Transactions

/-!
# What a request does

For each servlet, the requests that get to its transaction and what the others
leave.
-/

namespace FiberServer

open FileSystem

variable {env : Env} {fates : Fates} {s : Store} {access : Access}

/-- A request that ends without an open transaction. -/
theorem serve_eq {req : Request} {s' : Store} {r : Option Response}
    (h : (req.handle env.chunk_sizes).run (performOp env fates) s.idle = (r, s'.idle)) :
    serve env fates req s = (r, s') := by
  show ((Prog.run _ _ s.idle).1, (Prog.run _ _ s.idle).2.rollback.toStore) = _
  rw [h]
  rfl

theorem asks_eq {α : Type} {p : Servlet α} {w : World} {a : α}
    (h : p.run (performOp env fates) s.idle = (a, w)) : asks env fates s p = a :=
  congrArg Prod.fst h

theorem performOp_asks (env : Env) (fates : Fates) (s : Store) (op : Op) (h : op.isRead) :
    performOp env fates op s.idle = (asks env fates s (call op), s.idle) := by
  have hrun := run_of_read env fates s (p := call op) ⟨h, fun _ => trivial⟩
  rwa [call, Prog.run_perform] at hrun

theorem CreateArtifact_idle (env : Env) (fates : Fates) (s : Store) (a : ArtifactInfo) :
    ((performOp env fates (.CreateArtifact a) s.idle).1 = true ↔ Records fates s.db a)
      ∧ (performOp env fates (.CreateArtifact a) s.idle).2
        = (s.setDb (s.db.recordArtifact fates a)).idle := by
  rw [performOp_CreateArtifact]
  refine ⟨by simp [Records], ?_⟩
  show (if _ then _ else _) = _
  rw [World.createTable_idle, Store.idle_commit, Store.idle_db, Tables.recordArtifact]
  split <;> rfl

theorem RequireArtifactToken_ret {owner : Str} {r : Response}
    (h : asks env fates s (RequireArtifactToken access owner) = some r) : r.ret = -1 := by
  unfold asks RequireArtifactToken at h
  simp only [call, Prog.run_ite, Prog.run_bind, Prog.run_perform, Prog.run_pure] at h
  split_ifs at h <;> cases h <;> rfl

/-! ### `DirUploadServlet` -/

namespace DirUploadServlet

/-- The request gets to its transaction, for a file with this id. -/
structure Reaches (env : Env) (fates : Fates) (s : Store) (access : Access) (m : ArtifactMetadata)
    (body : Bytes) (file_id : Str) : Prop where
  fields : ¬ (m.owner = [] ∨ m.checksum = [] ∨ m.size ≤ 0 ∨ m.type = [])
  admitted : asks env fates s (admission access m) = none
  received : asks env fates s (receive body) = .inr file_id

/-- What the end of the transaction makes of the request. -/
theorem store_of_run {m : ArtifactMetadata} {file_id : Str} {d : Option DbResult} {s' : Store}
    (h : (storeUpload m file_id).run (performOp env fates) s.idle = (d, s'.idle)) :
    (store m file_id).run (performOp env fates) s.idle
      = (d.map fun x => if x.ok then reply 0 0 "success" else reply (-1) 1 x.message, s'.idle) := by
  rw [store, Prog.run_bind, h]
  cases d with
  | none => rfl
  | some x => cases hx : x.ok <;> simp [hx]

theorem store_run (env : Env) (fates : Fates) (s : Store) (m : ArtifactMetadata) (file_id : Str) :
    ∃ d db, UploadOutcome fates s.db m file_id d db
      ∧ (store m file_id).run (performOp env fates) s.idle
        = (d.map fun x => if x.ok then reply 0 0 "success" else reply (-1) 1 x.message,
          (s.setDb db).idle) := by
  obtain ⟨d, db, hrun, hout⟩ := storeUpload_run env fates s m file_id
  exact ⟨d, db, hout, store_of_run hrun⟩

/-- A request that gets there goes on with its transaction. -/
theorem handle_reached {params : Str → Option Str} {body : Bytes} {file_id : Str}
    (h : Reaches env fates s access (ArtifactMetadata.FromParams params) body file_id) :
    ∃ s', Took env s s' file_id ∧ (handle access params body).run (performOp env fates) s.idle
      = (store (ArtifactMetadata.FromParams params) file_id).run (performOp env fates) s'.idle := by
  have hadmit := run_of_read env fates s
    (admission_read access (ArtifactMetadata.FromParams params))
  rw [h.admitted] at hadmit
  obtain ⟨r, s', hreceive, hr⟩ := receive_run env fates body s
  obtain rfl : r = .inr file_id := (asks_eq hreceive).symm.trans h.received
  refine ⟨s', hr, ?_⟩
  simp only [handle, h.fields, if_false, Prog.run_bind, hadmit, hreceive]

theorem handle_cases (env : Env) (fates : Fates) (s : Store) (access : Access)
    (params : Str → Option Str) (body : Bytes) :
    ∃ r s', (handle access params body).run (performOp env fates) s.idle = (r, s'.idle)
      ∧ ((Quiet s s' ∧ ∀ file_id,
          ¬ Reaches env fates s access (ArtifactMetadata.FromParams params) body file_id)
        ∨ ∃ file_id d,
          Reaches env fates s access (ArtifactMetadata.FromParams params) body file_id
          ∧ Took env s (s'.setDb s.db) file_id
          ∧ UploadOutcome fates s.db (ArtifactMetadata.FromParams params) file_id d s'.db
          ∧ r = d.map fun x => if x.ok then reply 0 0 "success" else reply (-1) 1 x.message) := by
  generalize hm : ArtifactMetadata.FromParams params = m
  by_cases hfields : m.owner = [] ∨ m.checksum = [] ∨ m.size ≤ 0 ∨ m.type = []
  · refine ⟨some (reply (-1) 1 "project_name, checksum, size, artifact_type required"), s, ?_,
      .inl ⟨Quiet.refl s, fun _ h => h.fields hfields⟩⟩
    simp only [handle, hm, hfields, if_true]
    rfl
  have hadmit := run_of_read env fates s (admission_read access m)
  cases ha : asks env fates s (admission access m) with
  | some r =>
    rw [ha] at hadmit
    refine ⟨some r, s, ?_, .inl ⟨Quiet.refl s, fun _ h => nomatch h.admitted.symm.trans ha⟩⟩
    simp only [handle, hm, hfields, if_false, Prog.run_bind, hadmit]
    rfl
  | none =>
    rw [ha] at hadmit
    obtain ⟨r, s', hreceive, hr⟩ := receive_run env fates body s
    have hasks := asks_eq hreceive
    cases r with
    | inl r =>
      refine ⟨some r, s', ?_, .inl ⟨hr, fun _ h => nomatch h.received.symm.trans hasks⟩⟩
      simp only [handle, hm, hfields, if_false, Prog.run_bind, hadmit, hreceive]
      rfl
    | inr file_id =>
      subst hm
      have hreaches : Reaches env fates s access _ body file_id := ⟨hfields, ha, hasks⟩
      obtain ⟨s', htook, hrun⟩ := handle_reached hreaches
      obtain ⟨d, db, hout, hstore⟩ := store_run env fates s' _ file_id
      rw [htook.1] at hout
      exact ⟨_, s'.setDb db, hrun.trans hstore, .inr ⟨file_id, d, hreaches, ⟨rfl, htook.2⟩, hout, rfl⟩⟩

/-- The operations of a direct upload: those that only read, the call that gives the body to FastDFS
and those of the transaction. -/
theorem handle_only {P : Op → Prop} {params : Str → Option Str} {body : Bytes}
    (hread : ∀ op : Op, op.isRead → P op) (hgive : P (.ext (.uploadSmallFile body)))
    (hstore : ∀ file_id, (storeUpload (ArtifactMetadata.FromParams params) file_id).Only P) :
    (handle access params body).Only P := by
  refine Prog.only_ite (fun _ => trivial) fun _ => ?_
  refine ((admission_read access _).mono hread).bind ?_
  rintro (_ | r)
  swap
  · trivial
  have hreceive : (receive body).Only P := by
    refine Prog.only_ite (fun _ => trivial) fun _ => ⟨hgive, ?_⟩
    rintro (_ | file_id) <;> trivial
  refine hreceive.bind ?_
  rintro (r | file_id)
  · trivial
  · refine (hstore file_id).bind ?_
    rintro (_ | r)
    · trivial
    · exact Prog.only_ite (fun _ => trivial) fun _ => trivial

end DirUploadServlet

/-! ### `ChunkUploadServlet` -/

namespace ChunkUploadServlet

/-- The request completes an upload, for a file with this id. -/
structure Reaches (env : Env) (fates : Fates) (s : Store) (access : Access) (r : ChunkRequest)
    (c : Chunk) (file_id : Str) : Prop where
  chunk : chunkMeta r = some c
  fields : ¬ (c.request_meta.owner = [] ∨ c.request_meta.checksum = [] ∨ c.request_meta.size ≤ 0
    ∨ c.chunk_index < 0 ∨ c.request_meta.type = [] ∨ c.total_chunks ≤ 0)
  admitted : asks env fates s (admission access c.request_meta) = none
  received : asks env fates s (receive c r.file_path r.body) = .inr file_id

/-- What the end of the transaction makes of the request.  A success removes the task
directory. -/
theorem store_of_run {m : ArtifactMetadata} {file_id : Str} {d : Option DbResult} {s' : Store}
    (h : (storeUpload m file_id).run (performOp env fates) s.idle = (d, s'.idle)) :
    ∃ (r : Response) (s'' : Store),
      (store m file_id).run (performOp env fates) s.idle = (some r, s''.idle)
      ∧ Quiet s' s'' ∧ r.ret = if d.any DbResult.ok then 0 else -1 := by
  cases d with
  | none =>
    refine ⟨reply (-1) 1 "internal error", s', ?_, Quiet.refl s', rfl⟩
    rw [store, Prog.run_bind, h]
    rfl
  | some x =>
    by_cases hok : x.ok
    · obtain ⟨s'', hs'', hquiet⟩ := performOp_local env fates s'
        (.ext (.rmTask m.owner m.checksum)) trivial
      refine ⟨reply 0 2 "success", s'', ?_, hquiet, by simp [reply, hok]⟩
      rw [store, Prog.run_bind, h]
      simp only [hok, if_true, call, Prog.run_bind, Prog.run_perform, hs'']
      rfl
    · refine ⟨reply (-1) 1 x.message, s', ?_, Quiet.refl s', by simp [reply, hok]⟩
      rw [store, Prog.run_bind, h]
      simp [hok]

theorem store_run (env : Env) (fates : Fates) (s : Store) (m : ArtifactMetadata) (file_id : Str) :
    ∃ (d : Option DbResult) (r : Response) (s' : Store),
      UploadOutcome fates s.db m file_id d s'.db
      ∧ s'.files = s.files ∧ s'.uploads = s.uploads
      ∧ (store m file_id).run (performOp env fates) s.idle = (some r, s'.idle)
      ∧ r.ret = if d.any DbResult.ok then 0 else -1 := by
  obtain ⟨d, db, hrun, hout⟩ := storeUpload_run env fates s m file_id
  obtain ⟨r, s', hstore, ⟨hdb, hfiles, huploads⟩, hret⟩ := store_of_run hrun
  refine ⟨d, r, s', ?_, hfiles, huploads, hstore, hret⟩
  rw [hdb]
  exact hout

/-- A request that completes an upload goes on with its transaction. -/
theorem handle_reached {r : ChunkRequest} {c : Chunk} {file_id : Str}
    (h : Reaches env fates s access r c file_id) :
    ∃ s', Took env s s' file_id ∧ (handle access r).run (performOp env fates) s.idle
      = (store c.request_meta file_id).run (performOp env fates) s'.idle := by
  have hadmit := run_of_read env fates s (admission_read access c.request_meta)
  rw [h.admitted] at hadmit
  obtain ⟨x, s', hreceive, hx⟩ := receive_run env fates c r.file_path r.body s
  obtain rfl : x = .inr file_id := (asks_eq hreceive).symm.trans h.received
  refine ⟨s', hx, ?_⟩
  simp only [handle, h.chunk, h.fields, if_false, Prog.run_bind, hadmit, hreceive]

theorem handle_cases (env : Env) (fates : Fates) (s : Store) (access : Access) (r : ChunkRequest) :
    ∃ resp s', (handle access r).run (performOp env fates) s.idle = (some resp, s'.idle)
      ∧ ((Quiet s s' ∧ ∀ c file_id, ¬ Reaches env fates s access r c file_id)
        ∨ ∃ c file_id d, Reaches env fates s access r c file_id
          ∧ Took env s (s'.setDb s.db) file_id
          ∧ UploadOutcome fates s.db c.request_meta file_id d s'.db
          ∧ resp.ret = if d.any DbResult.ok then 0 else -1) := by
  cases hc : chunkMeta r with
  | none =>
    refine ⟨reply (-1) 1 "internal error", s, ?_,
      .inl ⟨Quiet.refl s, fun _ _ h => nomatch h.chunk.symm.trans hc⟩⟩
    simp only [handle, hc]
    rfl
  | some c =>
    have only : ∀ {c' file_id}, Reaches env fates s access r c' file_id → c' = c :=
      fun h => Option.some.inj (h.chunk.symm.trans hc)
    by_cases hfields : c.request_meta.owner = [] ∨ c.request_meta.checksum = []
        ∨ c.request_meta.size ≤ 0 ∨ c.chunk_index < 0 ∨ c.request_meta.type = []
        ∨ c.total_chunks ≤ 0
    · refine ⟨reply (-1) 1
        "project_name, checksum, size, chunk_index, artifact_type, total_chunks required",
        s, ?_, .inl ⟨Quiet.refl s, fun _ _ h => ?_⟩⟩
      · simp only [handle, hc, hfields, if_true]
        rfl
      · obtain rfl := only h
        exact h.fields hfields
    have hadmit := run_of_read env fates s (admission_read access c.request_meta)
    cases ha : asks env fates s (admission access c.request_meta) with
    | some resp =>
      rw [ha] at hadmit
      refine ⟨resp, s, ?_, .inl ⟨Quiet.refl s, fun _ _ h => ?_⟩⟩
      · simp only [handle, hc, hfields, if_false, Prog.run_bind, hadmit]
        rfl
      · obtain rfl := only h
        exact nomatch h.admitted.symm.trans ha
    | none =>
      rw [ha] at hadmit
      obtain ⟨x, s', hreceive, hx⟩ := receive_run env fates c r.file_path r.body s
      have hasks := asks_eq hreceive
      cases x with
      | inl resp =>
        refine ⟨resp, s', ?_, .inl ⟨hx, fun _ _ h => ?_⟩⟩
        · simp only [handle, hc, hfields, if_false, Prog.run_bind, hadmit, hreceive]
          rfl
        · obtain rfl := only h
          exact nomatch h.received.symm.trans hasks
      | inr file_id =>
        have hreaches : Reaches env fates s access r c file_id := ⟨hc, hfields, ha, hasks⟩
        obtain ⟨s', htook, hrun⟩ := handle_reached hreaches
        obtain ⟨d, resp, s'', hout, hfiles, huploads, hstore, hret⟩ :=
          store_run env fates s' c.request_meta file_id
        rw [htook.1] at hout
        refine ⟨resp, s'', hrun.trans hstore, .inr ⟨c, file_id, d, hreaches, ?_, hout, hret⟩⟩
        obtain ⟨content, hcontent⟩ := htook.2.2.2
        exact ⟨rfl, htook.2.1, huploads.trans htook.2.2.1, content, hfiles.trans hcontent⟩

/-- The operations of a chunk upload: those that only read, the local ones, the call that gives the
merged file to FastDFS and those of the transaction. -/
theorem handle_only {P : Op → Prop} {r : ChunkRequest} (hread : ∀ op : Op, op.isRead → P op)
    (hlocal : ∀ op : Op, op.isLocal → P op)
    (hgive : ∀ merged_path, P (.ext (.uploadBigFile merged_path)))
    (hstore : ∀ c, chunkMeta r = some c → ∀ file_id, (storeUpload c.request_meta file_id).Only P) :
    (handle access r).Only P := by
  cases hc : chunkMeta r with
  | none =>
    simp only [handle, hc]
    trivial
  | some c =>
    simp only [handle, hc]
    refine Prog.only_ite (fun _ => trivial) fun _ => ?_
    refine ((admission_read access _).mono hread).bind ?_
    rintro (_ | resp)
    swap
    · trivial
    have hreceive : (receive c r.file_path r.body).Only P := by
      refine ((collect_local c r.file_path r.body).mono hlocal).bind ?_
      rintro (_ | merged_path)
      · trivial
      · refine ⟨hgive merged_path, ?_⟩
        rintro (_ | file_id) <;> trivial
    refine hreceive.bind ?_
    rintro (resp | file_id)
    · trivial
    · refine (hstore c hc file_id).bind ?_
      rintro (_ | d)
      · trivial
      · exact Prog.only_ite (fun _ => ⟨hlocal _ trivial, fun _ => trivial⟩) fun _ => trivial

end ChunkUploadServlet

/-! ### `UploadServlet` -/

namespace UploadServlet

/-- The request gets to the look at the existing files. -/
structure Looks (env : Env) (fates : Fates) (s : Store) (access : Access) (body : Option Json)
    (m : ArtifactMetadata) : Prop where
  body : ∃ members, body = some (.object members) ∧ m = ArtifactMetadata.FromJson members
  fields : ¬ (m.owner = [] ∨ m.checksum = [] ∨ m.size ≤ 0)
  admitted : asks env fates s (RequireArtifactToken access m.owner) = none
  connect : fates (.ext (.connect .rows)) 0 = .ok
  unrecorded : m.artifact_mode → asks env fates s (call (.GetArtifact m.coordinate)) = none

theorem Looks.eq {body : Option Json} {m m' : ArtifactMetadata}
    (h : Looks env fates s access body m) (h' : Looks env fates s access body m') : m' = m := by
  obtain ⟨members, hbody, rfl⟩ := h.body
  obtain ⟨members', hbody', rfl⟩ := h'.body
  cases hbody.symm.trans hbody'
  rfl

/-- The project has the checksum, and the request names an artifact. -/
structure Reuses (env : Env) (fates : Fates) (s : Store) (m : ArtifactMetadata) (file_id : Str) :
    Prop where
  mode : m.artifact_mode
  owned : asks env fates s (call (.ExistsByMd5AndUser m.checksum m.owner)) = true
  file : asks env fates s (call (.GetFileIdByMd5 m.checksum)) = file_id
  nonempty : file_id ≠ []

/-- Another project has the checksum. -/
structure Shares (env : Env) (fates : Fates) (s : Store) (m : ArtifactMetadata) (file_id : Str) :
    Prop where
  unowned : asks env fates s (call (.ExistsByMd5AndUser m.checksum m.owner)) = false
  shared : asks env fates s (call (.ExistsByMd5 m.checksum)) = true
  file : asks env fates s (call (.GetFileIdByMd5 m.checksum)) = file_id

/-- How the transaction of a precheck ends, from its result and the tables. -/
inductive Outcome (env : Env) (fates : Fates) (s : Store) (m : ArtifactMetadata) :
    Option DbResult → Tables → Prop
  | kept (r : Option DbResult) (hreuse : ∀ file_id, ¬ Reuses env fates s m file_id)
      (hshare : ∀ file_id, Shares env fates s m file_id →
        (∀ d, r = some d → d.code = 3)
          ∧ ¬ (WritesShare fates m file_id ∧ RecordTorn fates s.db m file_id)) :
      Outcome env fates s m r s.db
  | reused (r : DbResult) (file_id : Str) (h : Reuses env fates s m file_id)
      (hcode : r.code = 0 ∧ Records fates s.db (BuildArtifactInfo m file_id)
        ∨ r.code = 3 ∧ ¬ Records fates s.db (BuildArtifactInfo m file_id)) :
      Outcome env fates s m (some r)
        (s.db.recordArtifact fates (BuildArtifactInfo m file_id))
  | shared (r : DbResult) (file_id : Str) (h : Shares env fates s m file_id) (hcode : r.code = 0)
      (hw : WritesShare fates m file_id) (ht : ¬ RecordTorn fates s.db m file_id) :
      Outcome env fates s m (some r) (s.db.sharing fates m file_id)
  | torn (r : Option DbResult) (file_id : Str) (h : Shares env fates s m file_id)
      (hcode : ∀ d, r = some d → d.code = 3) (hw : WritesShare fates m file_id)
      (ht : RecordTorn fates s.db m file_id) :
      Outcome env fates s m r
        ((s.db.addShare m file_id).recordArtifact fates (BuildArtifactInfo m file_id))

theorem instantExisting_run (env : Env) (fates : Fates) (s : Store) (m : ArtifactMetadata)
    (howned : asks env fates s (call (.ExistsByMd5AndUser m.checksum m.owner)) = true) :
    ∃ r db, (instantExisting m).run (performOp env fates) s.idle = (r, (s.setDb db).idle)
      ∧ Outcome env fates s m r db := by
  have hshare : ∀ file_id, ¬ Shares env fates s m file_id :=
    fun _ h => by simp [h.unowned] at howned
  by_cases hmode : m.artifact_mode
  swap
  · refine ⟨some ⟨0, "instant upload success"⟩, s.db, ?_,
      .kept _ (fun _ h => hmode h.mode) fun _ h => absurd h (hshare _)⟩
    simp [instantExisting, hmode]
  have hget := performOp_asks env fates s (.GetFileIdByMd5 m.checksum) trivial
  generalize hid : asks env fates s (call (.GetFileIdByMd5 m.checksum)) = file_id at hget
  by_cases hempty : file_id = []
  · refine ⟨some ⟨3, "create artifact metadata failed"⟩, s.db, ?_,
      .kept _ (fun _ h => h.nonempty (h.file.symm.trans (hid.trans hempty)))
        fun _ h => absurd h (hshare _)⟩
    simp [instantExisting, hmode, call, hget, hempty]
  obtain ⟨hanswer, hworld⟩ := CreateArtifact_idle env fates s (BuildArtifactInfo m file_id)
  have hreuse : Reuses env fates s m file_id := ⟨hmode, howned, hid, hempty⟩
  by_cases hrec : Records fates s.db (BuildArtifactInfo m file_id)
  · refine ⟨some ⟨0, "instant upload success"⟩, _, ?_, .reused _ file_id hreuse (.inl ⟨rfl, hrec⟩)⟩
    rw [instantExisting, if_pos hmode, Prog.run_bind, call, Prog.run_perform, hget]
    simp [hempty, call, hanswer.mpr hrec, hworld]
  · have hfalse := Bool.eq_false_iff.mpr (mt hanswer.mp hrec)
    refine ⟨some ⟨3, "create artifact metadata failed"⟩, _, ?_,
      .reused _ file_id hreuse (.inr ⟨rfl, hrec⟩)⟩
    rw [instantExisting, if_pos hmode, Prog.run_bind, call, Prog.run_perform, hget]
    simp [hempty, call, hfalse, hworld]

theorem instantShared_run (env : Env) (fates : Fates) (s : Store) (m : ArtifactMetadata)
    (howned : asks env fates s (call (.ExistsByMd5AndUser m.checksum m.owner)) = false)
    (hshared : asks env fates s (call (.ExistsByMd5 m.checksum)) = true) :
    ∃ r db, (instantShared m).run (performOp env fates) s.idle = (r, (s.setDb db).idle)
      ∧ Outcome env fates s m r db := by
  generalize hid : asks env fates s (call (.GetFileIdByMd5 m.checksum)) = file_id
  have hshare : Shares env fates s m file_id := ⟨howned, hshared, hid⟩
  obtain ⟨r, db, hrun, ⟨hr, rfl, hn⟩ | ⟨rfl, rfl, hw, ht⟩ | ⟨hr, rfl, hw, ht⟩⟩ :=
    instantShared_cases env fates hid
  · refine ⟨r, s.db, hrun, .kept r (fun _ h => ?_) fun file_id' h => ?_⟩
    · simp [h.owned] at howned
    · obtain rfl : file_id' = file_id := h.file.symm.trans hid
      exact ⟨hr, hn⟩
  · exact ⟨_, _, hrun, .shared _ file_id hshare rfl hw ht⟩
  · exact ⟨r, _, hrun, .torn r file_id hshare hr hw ht⟩

theorem instant_run (env : Env) (fates : Fates) (s : Store) (m : ArtifactMetadata) :
    ∃ r db, (instant m).run (performOp env fates) s.idle = (r, (s.setDb db).idle)
      ∧ Outcome env fates s m r db := by
  have hget := performOp_asks env fates s (.ExistsByMd5AndUser m.checksum m.owner) trivial
  cases howned : asks env fates s (call (.ExistsByMd5AndUser m.checksum m.owner)) with
  | true =>
    obtain ⟨r, db, hrun, hout⟩ := instantExisting_run env fates s m howned
    refine ⟨r, db, ?_, hout⟩
    rw [howned] at hget
    simpa [instant, call, hget] using hrun
  | false =>
    have hany := performOp_asks env fates s (.ExistsByMd5 m.checksum) trivial
    rw [howned] at hget
    cases hshared : asks env fates s (call (.ExistsByMd5 m.checksum)) with
    | true =>
      obtain ⟨r, db, hrun, hout⟩ := instantShared_run env fates s m howned hshared
      refine ⟨r, db, ?_, hout⟩
      rw [hshared] at hany
      simpa [instant, call, hget, hany] using hrun
    | false =>
      rw [hshared] at hany
      refine ⟨some ⟨1, ""⟩, s.db, ?_, .kept _ (fun _ h => ?_) fun _ h => ?_⟩
      · simp [instant, call, hget, hany]
      · simp [h.owned] at howned
      · simp [h.shared] at hshared

/-- The transaction gets to the look at the existing files, or it changes nothing. -/
theorem precheck_run (env : Env) (fates : Fates) (s : Store) (m : ArtifactMetadata) :
    (fates (.ext (.connect .rows)) 0 = .ok
        ∧ (m.artifact_mode → asks env fates s (call (.GetArtifact m.coordinate)) = none)
        ∧ (precheck m).run (performOp env fates) s.idle
          = (instant m).run (performOp env fates) s.idle)
      ∨ (¬ (fates (.ext (.connect .rows)) 0 = .ok
          ∧ (m.artifact_mode → asks env fates s (call (.GetArtifact m.coordinate)) = none))
        ∧ ∃ r, (precheck m).run (performOp env fates) s.idle = (r, s.idle)) := by
  by_cases hconnect : fates (.ext (.connect .rows)) 0 = .ok
  swap
  · refine .inr ⟨fun h => hconnect h.1, some ⟨3, "mysql connection error"⟩, ?_⟩
    simp [precheck, call, performOp_connect, hconnect]
  by_cases hmode : m.artifact_mode
  swap
  · refine .inl ⟨hconnect, fun h => absurd h hmode, ?_⟩
    simp [precheck, call, performOp_connect, hconnect, hmode]
  have hget := performOp_asks env fates s (.GetArtifact m.coordinate) trivial
  cases hasks : asks env fates s (call (.GetArtifact m.coordinate)) with
  | none =>
    refine .inl ⟨hconnect, fun _ => rfl, ?_⟩
    rw [hasks] at hget
    simp [precheck, call, performOp_connect, hconnect, hmode, hget]
  | some a =>
    rw [hasks] at hget
    refine .inr ⟨fun h => (by cases h.2 hmode), if a.checksum = m.checksum
      then some ⟨0, "artifact already exists"⟩ else some ⟨3, "artifact checksum conflict"⟩, ?_⟩
    simp only [precheck, call, Prog.run_bind, Prog.run_perform, performOp_connect, hconnect,
      beq_self_eq_true, Bool.not_true, Bool.false_eq_true, if_false, hmode, if_true, hget]
    split_ifs <;> rfl

theorem plan_run (env : Env) (fates : Fates) (chunk_sizes : Int) (m : ArtifactMetadata)
    (s : Store) :
    ∃ r s', (plan chunk_sizes m).run (performOp env fates) s.idle = (r, s'.idle)
      ∧ r.ret = 0 ∧ Quiet s s' := by
  have hlocal : (plan chunk_sizes m).Only Op.isLocal :=
    Prog.Only.bind ⟨trivial, fun _ => trivial⟩ fun _ => Prog.only_ite (fun _ => trivial) fun _ =>
      ⟨trivial, fun _ => trivial⟩
  obtain ⟨s', hs', hrun⟩ := run_of_local env fates s hlocal
  refine ⟨_, s', hrun, ?_, hs'⟩
  rw [asks, plan, Prog.run_bind, Prog.run_ite]
  split_ifs <;> rfl

/-- What the answer of the transaction makes of the request. -/
theorem respond_run (env : Env) (fates : Fates) (chunk_sizes : Int) (m : ArtifactMetadata)
    (d : Option DbResult) (s : Store) :
    ∃ r s', (respond chunk_sizes m d).run (performOp env fates) s.idle = (some r, s'.idle)
      ∧ (r.ret = -1 ↔ ∀ x, d = some x → x.code = 3) ∧ Quiet s s' := by
  cases d with
  | none => exact ⟨reply (-1) 3 "internal error", s, rfl, by simp [reply], Quiet.refl s⟩
  | some x =>
    by_cases h0 : x.code = 0
    · refine ⟨reply 0 0 x.message, s, ?_, by simp [reply, h0], Quiet.refl s⟩
      simp [respond, h0]
    by_cases h3 : x.code = 3
    · refine ⟨reply (-1) 3 x.message, s, ?_, by simp [reply, h3], Quiet.refl s⟩
      simp [respond, h3]
    · obtain ⟨r, s', hrun, hret, hs'⟩ := plan_run env fates chunk_sizes m s
      refine ⟨r, s', ?_, by simp [hret, h3], hs'⟩
      simp [respond, h0, h3, hrun]

theorem handle_cases (env : Env) (fates : Fates) (s : Store) (access : Access)
    (body : Option Json) :
    ∃ (r : Response) (s' : Store),
      (handle env.chunk_sizes access body).run (performOp env fates) s.idle = (some r, s'.idle)
      ∧ s'.files = s.files ∧ s'.uploads = s.uploads
      ∧ ((s'.db = s.db ∧ ∀ m, ¬ Looks env fates s access body m)
        ∨ ∃ m d, Looks env fates s access body m ∧ Outcome env fates s m d s'.db
          ∧ (r.ret = -1 ↔ ∀ x, d = some x → x.code = 3)) := by
  cases body with
  | none => exact ⟨_, s, rfl, rfl, rfl, .inl ⟨rfl, fun _ h => nomatch h.body⟩⟩
  | some json =>
    cases json with
    | null => exact ⟨_, s, rfl, rfl, rfl, .inl ⟨rfl, fun _ h => nomatch h.body⟩⟩
    | other => exact ⟨_, s, rfl, rfl, rfl, .inl ⟨rfl, fun _ h => nomatch h.body⟩⟩
    | object members =>
      generalize hm : ArtifactMetadata.FromJson members = m
      have only : ∀ {m'}, Looks env fates s access (some (.object members)) m' → m' = m := by
        rintro m' ⟨⟨members', hbody, rfl⟩, -, -, -, -⟩
        cases hbody
        exact hm
      by_cases hfields : m.owner = [] ∨ m.checksum = [] ∨ m.size ≤ 0
      · refine ⟨reply (-1) 3 "project_name, checksum, size required", s, ?_, rfl, rfl,
          .inl ⟨rfl, fun m' h => ?_⟩⟩
        · simp only [handle, hm, hfields, if_true]
          rfl
        · obtain rfl := only h
          exact h.fields hfields
      have htoken := run_of_read env fates s (RequireArtifactToken_read access m.owner)
      cases ha : asks env fates s (RequireArtifactToken access m.owner) with
      | some resp =>
        rw [ha] at htoken
        refine ⟨resp, s, ?_, rfl, rfl, .inl ⟨rfl, fun m' h => ?_⟩⟩
        · simp only [handle, hm, hfields, if_false, Prog.run_bind, htoken]
          rfl
        · obtain rfl := only h
          exact nomatch h.admitted.symm.trans ha
      | none =>
        rw [ha] at htoken
        have hrun : (handle env.chunk_sizes access (some (.object members))).run
              (performOp env fates) s.idle
            = ((precheck m >>= respond env.chunk_sizes m).run (performOp env fates) s.idle) := by
          simp only [handle, hm, hfields, if_false, Prog.run_bind, htoken]
        rw [hrun, Prog.run_bind]
        obtain ⟨hconnect, hnone, hinstant⟩ | ⟨hstop, d, hd⟩ := precheck_run env fates s m
        · obtain ⟨d, db, hdb, hout⟩ := instant_run env fates s m
          obtain ⟨r, s', hrespond, hret, hs'⟩ :=
            respond_run env fates env.chunk_sizes m d (s.setDb db)
          rw [hinstant, hdb]
          refine ⟨r, s', hrespond, hs'.2.1, hs'.2.2, .inr ⟨m, d, ?_, ?_, hret⟩⟩
          · exact ⟨⟨members, rfl, hm.symm⟩, hfields, ha, hconnect, hnone⟩
          · rw [hs'.1]
            exact hout
        · obtain ⟨r, s', hrespond, -, hs'⟩ := respond_run env fates env.chunk_sizes m d s
          rw [hd]
          refine ⟨r, s', hrespond, hs'.2.1, hs'.2.2, .inl ⟨hs'.1, fun m' h => ?_⟩⟩
          obtain rfl := only h
          exact hstop ⟨h.connect, h.unrecorded⟩

end UploadServlet

/-! ### `DeleteFileServlet` -/

namespace DeleteFileServlet

/-- The request finds its artifact. -/
structure Finds (env : Env) (fates : Fates) (s : Store) (access : Access) (body : Option Json)
    (m : ArtifactMetadata) (a : ArtifactInfo) : Prop where
  body : ∃ json, body = some json ∧ ArtifactMetadata.ofJson json = some m
  fields : ¬ (m.owner = [] ∨ m.storage_name = [])
  admitted : asks env fates s (RequireArtifactToken access m.owner) = none
  connect : fates (.ext (.connect .rows)) 0 = .ok
  found : asks env fates s (call (.GetArtifact m.coordinate)) = some a

theorem Finds.eq {body : Option Json} {m m' : ArtifactMetadata} {a a' : ArtifactInfo}
    (h : Finds env fates s access body m a) (h' : Finds env fates s access body m' a') :
    m' = m ∧ a' = a := by
  obtain ⟨json, hbody, hm⟩ := h.body
  obtain ⟨json', hbody', hm'⟩ := h'.body
  cases hbody.symm.trans hbody'
  obtain rfl : m' = m := Option.some.inj (hm'.symm.trans hm)
  exact ⟨rfl, Option.some.inj (h'.found.symm.trans h.found)⟩

/-- The artifact is in the tables. -/
theorem Finds.artifact {body : Option Json} {m : ArtifactMetadata} {a : ArtifactInfo}
    (h : Finds env fates s access body m a) : s.db.artifact m.coordinate = some a := by
  have hfound := h.found
  rw [asks, call, Prog.run_perform, performOp_GetArtifact, Tables.readArtifact] at hfound
  split_ifs at hfound
  exact hfound

/-- How the transaction of a delete ends that has found `a`. -/
inductive Outcome (fates : Fates) (s : Store) (m : ArtifactMetadata) (a : ArtifactInfo) :
    Option DbResult → Tables → Prop
  | kept (r : Option DbResult) (hr : ∀ d, r = some d → d.ok = false)
      (h : ¬ DeletesArtifact fates m) : Outcome fates s m a r s.db
  | deleted (h : DeletesArtifact fates m)
      (hf : FinishesDelete fates (s.db.removeArtifact m.coordinate) m a) :
      Outcome fates s m a
        (some ⟨true, decide (s.db.refAfter a.checksum = 0), a.file_id, ""⟩)
        ((s.db.removeArtifact m.coordinate).release m a)
  | torn (r : Option DbResult) (hr : ∀ d, r = some d → d.ok = false) (db : Tables)
      (h : DeletesArtifact fates m)
      (hf : ¬ FinishesDelete fates (s.db.removeArtifact m.coordinate) m a)
      (hdb : db.artifact_info = (s.db.removeArtifact m.coordinate).artifact_info)
      (hkept : s.db.shared a.checksum = none → db.file_shared = s.db.file_shared) :
      Outcome fates s m a r db

theorem deleteArtifact_run (env : Env) (fates : Fates) (s : Store) (m : ArtifactMetadata)
    (a : ArtifactInfo) :
    ∃ r db, (deleteArtifact m a).run (performOp env fates) s.idle = (r, (s.setDb db).idle)
      ∧ Outcome fates s m a r db := by
  by_cases h : DeletesArtifact fates m
  swap
  · obtain ⟨r, hr, hrun⟩ := deleteArtifact_kept env s a h
    exact ⟨r, s.db, hrun, .kept r hr h⟩
  rw [deleteArtifact_deleted h]
  by_cases hf : FinishesDelete fates (s.db.removeArtifact m.coordinate) m a
  · exact ⟨_, _, releaseFile_done hf, .deleted h hf⟩
  · obtain ⟨r, db, hr, hdb, hkept, hrun⟩ :=
      releaseFile_failed (s := s.setDb (s.db.removeArtifact m.coordinate)) hf
    exact ⟨r, db, hrun, .torn r hr db h hf hdb hkept⟩

/-- The transaction finds the artifact, or it changes nothing. -/
theorem deleteRows_run (env : Env) (fates : Fates) (s : Store) (m : ArtifactMetadata) :
    (¬ (fates (.ext (.connect .rows)) 0 = .ok
          ∧ ∃ a, asks env fates s (call (.GetArtifact m.coordinate)) = some a)
        ∧ ∃ message, (deleteRows m).run (performOp env fates) s.idle
          = (some (failed message), s.idle))
      ∨ ∃ a, fates (.ext (.connect .rows)) 0 = .ok
        ∧ asks env fates s (call (.GetArtifact m.coordinate)) = some a
        ∧ (deleteRows m).run (performOp env fates) s.idle
          = (deleteArtifact m a).run (performOp env fates) s.idle := by
  by_cases hconnect : fates (.ext (.connect .rows)) 0 = .ok
  swap
  · refine .inl ⟨fun h => hconnect h.1, "mysql connection error", ?_⟩
    simp [deleteRows, call, performOp_connect, hconnect]
  have hget := performOp_asks env fates s (.GetArtifact m.coordinate) trivial
  cases hasks : asks env fates s (call (.GetArtifact m.coordinate)) with
  | none =>
    rw [hasks] at hget
    refine .inl ⟨?_, "artifact not found", ?_⟩
    · rintro ⟨-, a, ha⟩
      cases ha
    · simp [deleteRows, call, performOp_connect, hconnect, hget]
  | some a =>
    rw [hasks] at hget
    refine .inr ⟨a, hconnect, rfl, ?_⟩
    simp [deleteRows, call, performOp_connect, hconnect, hget]

/-- The file that a result has removed from FastDFS. -/
def removes (fates : Fates) : Option DbResult → Option Str
  | none => none
  | some r =>
    if r.ok ∧ r.delete_physical ∧ fates (.ext (.deleteFile r.file_id)) 0 = .ok then some r.file_id
    else none

/-- What the answer of the transaction makes of the request. -/
structure Answers (fates : Fates) (s s' : Store) (d : Option DbResult) (r : Response) : Prop where
  ret : r.ret = if d.any DbResult.ok then 0 else -1
  db : s'.db = s.db
  uploads : s'.uploads = s.uploads
  files : s'.files = s.files.filter fun f => some f.1 ≠ removes fates d

theorem respond_run (env : Env) (fates : Fates) (d : Option DbResult) (s : Store) :
    ∃ r s', (respond d).run (performOp env fates) s.idle = (some r, s'.idle)
      ∧ Answers fates s s' d r := by
  cases d with
  | none => exact ⟨reply (-1) 1 "internal error", s, rfl, rfl, rfl, rfl, by simp [removes]⟩
  | some x =>
    by_cases hok : x.ok
    swap
    · refine ⟨reply (-1) 1 x.message, s, ?_, by simp [reply, hok], rfl, rfl, by simp [removes, hok]⟩
      simp [respond, hok]
    by_cases hphys : x.delete_physical
    swap
    · refine ⟨reply 0 0 "success", s, ?_, by simp [reply, hok], rfl, rfl, by simp [removes, hphys]⟩
      simp [respond, hok, hphys]
    by_cases hfate : fates (.ext (.deleteFile x.file_id)) 0 = .ok
    · refine ⟨reply 0 0 "success", { s with files := s.files.filter fun f => f.1 ≠ x.file_id }, ?_,
        by simp [reply, hok], rfl, rfl, by simp [removes, hok, hphys, hfate]⟩
      simp only [respond, hok, Bool.not_true, Bool.false_eq_true, if_false, hphys, if_true, call,
        Prog.run_bind, Prog.run_perform, performOp_ext, External.perform, hfate]
      rfl
    · refine ⟨reply 0 0 "success", s, ?_, by simp [reply, hok], rfl, rfl,
        by simp [removes, hok, hphys, hfate]⟩
      simp only [respond, hok, Bool.not_true, Bool.false_eq_true, if_false, hphys, if_true, call,
        Prog.run_bind, Prog.run_perform, performOp_ext, External.perform, hfate]
      rfl

theorem handle_cases (env : Env) (fates : Fates) (s : Store) (access : Access)
    (body : Option Json) :
    ∃ (r : Response) (s' : Store),
      (handle access body).run (performOp env fates) s.idle = (some r, s'.idle)
      ∧ ((r.ret = -1 ∧ s' = s ∧ ∀ m a, ¬ Finds env fates s access body m a)
        ∨ ∃ m a d db, Finds env fates s access body m a ∧ Outcome fates s m a d db
          ∧ Answers fates (s.setDb db) s' d r) := by
  cases body with
  | none =>
    exact ⟨_, s, rfl, .inl ⟨rfl, rfl, fun _ _ h => nomatch h.body⟩⟩
  | some json =>
    cases hm : ArtifactMetadata.ofJson json with
    | none =>
      refine ⟨reply (-1) 1 "internal error", s, ?_, .inl ⟨rfl, rfl, ?_⟩⟩
      · simp only [handle, hm]
        rfl
      · rintro m a ⟨⟨json', hbody, hm'⟩, -, -, -, -⟩
        cases hbody
        exact nomatch hm'.symm.trans hm
    | some m =>
      have only : ∀ {m' a}, Finds env fates s access (some json) m' a → m' = m := by
        rintro m' a ⟨⟨json', hbody, hm'⟩, -, -, -, -⟩
        cases hbody
        exact Option.some.inj (hm'.symm.trans hm)
      by_cases hfields : m.owner = [] ∨ m.storage_name = []
      · refine ⟨reply (-1) 1 "project_name and artifact_name are required", s, ?_,
          .inl ⟨rfl, rfl, fun m' a h => ?_⟩⟩
        · simp only [handle, hm, hfields, if_true]
          rfl
        · obtain rfl := only h
          exact h.fields hfields
      have htoken := run_of_read env fates s (RequireArtifactToken_read access m.owner)
      cases ha : asks env fates s (RequireArtifactToken access m.owner) with
      | some resp =>
        rw [ha] at htoken
        refine ⟨resp, s, ?_, .inl ⟨RequireArtifactToken_ret ha, rfl, fun m' a h => ?_⟩⟩
        · simp only [handle, hm, hfields, if_false, Prog.run_bind, htoken]
          rfl
        · obtain rfl := only h
          exact nomatch h.admitted.symm.trans ha
      | none =>
        rw [ha] at htoken
        have hrun : (handle access (some json)).run (performOp env fates) s.idle
            = (deleteRows m >>= respond).run (performOp env fates) s.idle := by
          simp only [handle, hm, hfields, if_false, Prog.run_bind, htoken]
        rw [hrun, Prog.run_bind]
        obtain ⟨hstop, message, hrows⟩ | ⟨a, hconnect, hfound, hrows⟩ := deleteRows_run env fates s m
        · rw [hrows]
          refine ⟨reply (-1) 1 message, s, rfl, .inl ⟨rfl, rfl, fun m' a h => ?_⟩⟩
          obtain rfl := only h
          exact hstop ⟨h.connect, a, h.found⟩
        · obtain ⟨d, db, hdb, hout⟩ := deleteArtifact_run env fates s m a
          obtain ⟨r, s', hrespond, hr⟩ := respond_run env fates d (s.setDb db)
          rw [hrows, hdb]
          exact ⟨r, s', hrespond, .inr ⟨m, a, d, db, ⟨⟨json, rfl, hm⟩, hfields, ha, hconnect, hfound⟩,
            hout, hr⟩⟩

end DeleteFileServlet

end FiberServer
