import FiberServer.Artifact.Atomicity

/-!
# Files without a row

FastDFS takes a file before the transaction, and no upload deletes one again.

* `accepted_file`: what becomes of a file that FastDFS has taken for a request.
* `sharedTwice_orphan`: a direct upload of a checksum that is shared already.
-/

namespace FiberServer

variable {env : Env} {fates : Fates} {s : Store}

/-- FastDFS takes a file during the request and returns this id. -/
def Accepted (env : Env) (fates : Fates) (s : Store) (req : Request) (file_id : Str) : Prop :=
  ∃ n, s.uploads ≤ n ∧ n < (serve env fates req s).2.uploads ∧ file_id = env.newFileId n

/-- A row of `file_shared` carries the id. -/
def Tables.Carries (db : Tables) (file_id : Str) : Prop :=
  ∃ sh ∈ db.file_shared, sh.file_id = file_id

/-- After the request every file that FastDFS took has a row or is deleted again. -/
def NoOrphan (env : Env) (fates : Fates) (s : Store) (req : Request) : Prop :=
  ∀ file_id, Accepted env fates s req file_id →
    (serve env fates req s).2.db.Carries file_id
      ∨ ∀ f ∈ (serve env fates req s).2.files, f.1 ≠ file_id

/-- The metadata of an upload. -/
def Request.upload_meta : Request → Option ArtifactMetadata
  | .direct _ params _ => some (ArtifactMetadata.FromParams params)
  | .chunk _ r => (ChunkUploadServlet.chunkMeta r).map ChunkUploadServlet.Chunk.request_meta
  | _ => none

/-- The rows of an upload are committed: at the end, or by the `CREATE TABLE` of
`CreateArtifact` before something else fails. -/
def Commits (fates : Fates) (db : Tables) (m : ArtifactMetadata) (file_id : Str) : Prop :=
  WritesUpload fates db m file_id ∧ (RecordTorn fates db m file_id
    ∨ (m.artifact_mode → Records fates db (BuildArtifactInfo m file_id))
      ∧ fates .commit 0 = .ok)

/-! ### The transaction -/

theorem file_shared_recordArtifact (db : Tables) (a : ArtifactInfo) :
    (db.recordArtifact fates a).file_shared = db.file_shared := by
  rw [Tables.recordArtifact]
  split_ifs <;> rfl

theorem carries_addUpload (db : Tables) (m : ArtifactMetadata) (file_id : Str) :
    (db.addUpload m file_id).Carries file_id :=
  ⟨⟨m.checksum, file_id, m.size, 1⟩, List.mem_append_right _ (List.mem_singleton.mpr rfl), rfl⟩

theorem carries_recordArtifact {db : Tables} {a : ArtifactInfo} {file_id : Str} :
    (db.recordArtifact fates a).Carries file_id ↔ db.Carries file_id := by
  rw [Tables.Carries, file_shared_recordArtifact]
  rfl

theorem storeUpload_stored (env : Env) {m : ArtifactMetadata} {file_id : Str}
    (hw : WritesUpload fates s.db m file_id)
    (ha : m.artifact_mode → Records fates s.db (BuildArtifactInfo m file_id))
    (hcommit : fates .commit 0 = .ok) :
    ((storeUpload m file_id).run (performOp env fates) s.idle).1 = some ⟨true, ""⟩ := by
  have hrun : (storeUpload m file_id).run (performOp env fates) s.idle
      = (recordAndCommit m file_id ⟨false, "create artifact metadata failed"⟩ ⟨true, ""⟩).run
        (performOp env fates) (s.opened (s.db.addUpload m file_id)) := by
    simp [storeUpload, call, performOp_connect, hw.connect, performOp_begin, hw.begin,
      performOp_CreateFile, hw.createFile, performOp_CreateShared, hw.createShared, hw.fresh,
      Tables.addUpload]
  rw [hrun]
  by_cases hmode : m.artifact_mode
  · have hrec : (performOp env fates (.CreateArtifact (BuildArtifactInfo m file_id))
        (s.opened (s.db.addUpload m file_id))).1 = true := by
      refine (CreateArtifact_sent env s (s.db.addUpload m file_id) ?_).1.mpr (ha hmode)
      simp [sent_of_records (ha hmode)]
    simp [recordAndCommit, hmode, call, hrec, run_commitWith, hcommit]
  · simp [recordAndCommit, hmode, run_commitWith, hcommit]

/-- The rows of an upload are committed, or the tables stay as they are. -/
def Settled (fates : Fates) (db : Tables) (m : ArtifactMetadata) (file_id : Str) (ok : Bool)
    (db' : Tables) : Prop :=
  Commits fates db m file_id ∧ db'.Carries file_id
    ∨ ¬ Commits fates db m file_id ∧ db' = db ∧ ok = false

theorem storeUpload_settled (env : Env) (fates : Fates) (s : Store) (m : ArtifactMetadata)
    (file_id : Str) :
    ∃ d db, (storeUpload m file_id).run (performOp env fates) s.idle = (d, (s.setDb db).idle)
      ∧ Settled fates s.db m file_id (d.any DbResult.ok) db := by
  by_cases hw : WritesUpload fates s.db m file_id
  swap
  · obtain ⟨d, hd, hrun⟩ := storeUpload_unwritten env hw
    refine ⟨d, s.db, hrun, .inr ⟨fun h => hw h.1, rfl, ?_⟩⟩
    cases d with
    | none => rfl
    | some x => exact hd x rfl
  have hstored := storeUpload_stored (s := s) env hw
  have hout := storeUpload_written env hw
  generalize (storeUpload m file_id).run (performOp env fates) s.idle = x at hstored hout ⊢
  cases hout with
  | undone r hr h =>
    refine ⟨r, s.db, rfl, .inr ⟨?_, rfl, ?_⟩⟩
    · rintro ⟨-, htorn | ⟨ha, hcommit⟩⟩
      · exact h htorn
      · obtain rfl : r = some ⟨true, ""⟩ := hstored ha hcommit
        simp at hr
    · obtain rfl | rfl := hr <;> rfl
  | stored db' ha hcommit hdb =>
    refine ⟨_, db', rfl, .inl ⟨⟨hw, .inr ⟨ha, hcommit⟩⟩, ?_⟩⟩
    rw [hdb]
    split_ifs
    · exact carries_recordArtifact.mpr (carries_addUpload s.db m file_id)
    · exact carries_addUpload s.db m file_id
  | torn r hr h hsome =>
    exact ⟨r, _, rfl, .inl ⟨⟨hw, .inl h⟩,
      carries_recordArtifact.mpr (carries_addUpload s.db m file_id)⟩⟩

theorem DirUploadServlet.store_settled (env : Env) (fates : Fates) (s : Store)
    (m : ArtifactMetadata) (file_id : Str) :
    ∃ (r : Option Response) (s' : Store),
      (DirUploadServlet.store m file_id).run (performOp env fates) s.idle = (r, s'.idle)
      ∧ s'.files = s.files ∧ s'.uploads = s.uploads
      ∧ Settled fates s.db m file_id (r.any fun x => x.ret = 0) s'.db := by
  obtain ⟨d, db, hrun, hd⟩ := storeUpload_settled env fates s m file_id
  have hok : ((d.map fun x => if x.ok then reply 0 0 "success" else reply (-1) 1 x.message).any
      fun x => x.ret = 0) = d.any DbResult.ok := by
    cases d with
    | none => rfl
    | some x => cases hx : x.ok <;> simp [hx, reply]
  refine ⟨_, s.setDb db, DirUploadServlet.store_of_run hrun, rfl, rfl, ?_⟩
  rw [hok]
  exact hd

theorem ChunkUploadServlet.store_settled (env : Env) (fates : Fates) (s : Store)
    (m : ArtifactMetadata) (file_id : Str) :
    ∃ (r : Option Response) (s' : Store),
      (ChunkUploadServlet.store m file_id).run (performOp env fates) s.idle = (r, s'.idle)
      ∧ s'.files = s.files ∧ s'.uploads = s.uploads
      ∧ Settled fates s.db m file_id (r.any fun x => x.ret = 0) s'.db := by
  obtain ⟨d, db, hrun, hd⟩ := storeUpload_settled env fates s m file_id
  obtain ⟨r, s', hstore, ⟨hdb, hfiles, huploads⟩, hret⟩ := ChunkUploadServlet.store_of_run hrun
  have hok : ((some r).any fun x => x.ret = 0) = d.any DbResult.ok := by
    cases h : d.any DbResult.ok <;> simp [hret, h]
  refine ⟨some r, s', hstore, hfiles, huploads, ?_⟩
  rw [hok, hdb]
  exact hd

/-! ### The request -/

/-- The request gives FastDFS nothing, or one file whose rows are settled then. -/
theorem serve_settled (env : Env) (fates : Fates) (s : Store) (req : Request) :
    let r := serve env fates req s
    r.2.uploads = s.uploads ∨ ∃ m, req.upload_meta = some m ∧ r.2.uploads = s.uploads + 1
      ∧ (∃ content, r.2.files = s.files ++ [(env.newFileId s.uploads, content)])
      ∧ Settled fates s.db m (env.newFileId s.uploads) (r.1.any fun x => x.ret = 0) r.2.db := by
  cases req with
  | precheck token body =>
    obtain ⟨r, s', hrun, -, huploads, -⟩ :=
      UploadServlet.handle_cases env fates s ⟨UploadServlet.path, token⟩ body
    rw [serve_eq hrun]
    exact .inl huploads
  | direct token params body =>
    obtain ⟨r, s', hrun, ⟨hquiet, -⟩ | ⟨file_id, d, hreaches, -, -, -⟩⟩ :=
      DirUploadServlet.handle_cases env fates s ⟨DirUploadServlet.path, token⟩ params body
    · rw [serve_eq hrun]
      exact .inl hquiet.2.2
    obtain ⟨s₁, ⟨hdb, rfl, huploads, content, hfiles⟩, hreached⟩ :=
      DirUploadServlet.handle_reached hreaches
    obtain ⟨r, s₂, hstore, hfiles', huploads', hsettled⟩ :=
      DirUploadServlet.store_settled env fates s₁ (ArtifactMetadata.FromParams params)
        (env.newFileId s.uploads)
    rw [serve_eq (hreached.trans hstore)]
    rw [hdb] at hsettled
    exact .inr ⟨_, rfl, huploads'.trans huploads, ⟨content, hfiles'.trans hfiles⟩, hsettled⟩
  | chunk token r =>
    obtain ⟨resp, s', hrun, ⟨hquiet, -⟩ | ⟨c, file_id, d, hreaches, -, -, -⟩⟩ :=
      ChunkUploadServlet.handle_cases env fates s ⟨ChunkUploadServlet.path, token⟩ r
    · rw [serve_eq hrun]
      exact .inl hquiet.2.2
    obtain ⟨s₁, ⟨hdb, rfl, huploads, content, hfiles⟩, hreached⟩ :=
      ChunkUploadServlet.handle_reached hreaches
    obtain ⟨resp', s₂, hstore, hfiles', huploads', hsettled⟩ :=
      ChunkUploadServlet.store_settled env fates s₁ c.request_meta (env.newFileId s.uploads)
    rw [serve_eq (hreached.trans hstore)]
    rw [hdb] at hsettled
    refine .inr ⟨c.request_meta, ?_, huploads'.trans huploads, ⟨content, hfiles'.trans hfiles⟩,
      hsettled⟩
    simp [Request.upload_meta, hreaches.chunk]
  | delete token body =>
    obtain ⟨r, s', hrun, ⟨-, rfl, -⟩ | ⟨m, a, d, db, -, -, hr⟩⟩ :=
      DeleteFileServlet.handle_cases env fates s ⟨DeleteFileServlet.path, token⟩ body
    · rw [serve_eq hrun]
      exact .inl rfl
    · rw [serve_eq hrun]
      exact .inl hr.uploads

/-- **What becomes of a file that FastDFS has taken.** It stays there.  A row carries
its id exactly when one did before or the rows of the upload are committed, and so
it is when the request is answered with a success. -/
theorem accepted_file (env : Env) (fates : Fates) (s : Store) (req : Request) (file_id : Str)
    (h : Accepted env fates s req file_id) :
    let r := serve env fates req s
    (∃ content, (file_id, content) ∈ r.2.files)
      ∧ (r.2.db.Carries file_id ↔ s.db.Carries file_id
        ∨ ∃ m, req.upload_meta = some m ∧ Commits fates s.db m file_id)
      ∧ ∀ x, r.1 = some x → x.ret = 0 → r.2.db.Carries file_id := by
  intro r
  obtain ⟨n, hle, hlt, rfl⟩ := h
  obtain hquiet | ⟨m, hm, huploads, ⟨content, hfiles⟩, hsettled⟩ := serve_settled env fates s req
  · omega
  -- at most one file is taken
  obtain rfl : n = s.uploads := by omega
  refine ⟨⟨content, by simp [r, hfiles]⟩, ?_⟩
  obtain ⟨hcommits, hcarries⟩ | ⟨hcommits, hdb, hfailed⟩ := hsettled
  · exact ⟨iff_of_true hcarries (.inr ⟨m, hm, hcommits⟩), fun _ _ _ => hcarries⟩
  refine ⟨?_, fun x hx hret => ?_⟩
  · have hkept : r.2.db = s.db := hdb
    rw [hkept]
    refine ⟨.inl, ?_⟩
    rintro (hcarries | ⟨m', hm', hcommits'⟩)
    · exact hcarries
    · obtain rfl : m' = m := Option.some.inj (hm'.symm.trans hm)
      exact absurd hcommits' hcommits
  · have hok : (serve env fates req s).1 = some x := hx
    simp [hok, hret] at hfailed

/-- A direct upload for which nothing fails. -/
theorem accepted_file_direct :
    let r := serve sampleEnv (fun _ _ => .ok) sampleUpload sampleStore
    (∃ content, (sampleEnv.newFileId 0, content) ∈ r.2.files)
      ∧ (r.2.db.Carries (sampleEnv.newFileId 0) ↔ sampleStore.db.Carries (sampleEnv.newFileId 0)
        ∨ ∃ m, sampleUpload.upload_meta = some m
          ∧ Commits (fun _ _ => .ok) sampleStore.db m (sampleEnv.newFileId 0))
      ∧ ∀ x, r.1 = some x → x.ret = 0 → r.2.db.Carries (sampleEnv.newFileId 0) :=
  accepted_file sampleEnv (fun _ _ => .ok) sampleStore sampleUpload _
    ⟨0, le_rfl, by decide +kernel, rfl⟩

/-! ### A checksum that is shared -/

/-- Another project has the checksum of `sampleUpload`. -/
def sharingStore : Store where
  db := { sampleStore.db with
    file_info := [⟨"c".toList, "group1/M00/".toList, "q".toList, "b".toList, 1, "bin".toList⟩]
    file_shared := [⟨"c".toList, "group1/M00/".toList, 1, 1⟩] }
  files := [("group1/M00/".toList, [0])]
  uploads := 1
  fs := ∅

/-- Nothing fails but the `INSERT` of the checksum, and the file stays without a row. -/
theorem sharedTwice_orphan : ¬ NoOrphan sampleEnv (fun _ _ => .ok) sharingStore sampleUpload := by
  intro h
  have hfile := h (sampleEnv.newFileId 1) ⟨1, le_rfl, by decide +kernel, rfl⟩
  obtain ⟨sh, hsh, hid⟩ | hdeleted := hfile
  · have hrows : ∀ sh ∈ (serve sampleEnv (fun _ _ => .ok) sampleUpload sharingStore).2.db.file_shared,
        sh.file_id ≠ sampleEnv.newFileId 1 := by decide +kernel
    exact hrows sh hsh hid
  · exact hdeleted (sampleEnv.newFileId 1, [0]) (by decide +kernel) rfl

end FiberServer
