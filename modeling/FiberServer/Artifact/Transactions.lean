import FiberServer.Artifact.Store

/-!
# The transactions of the servlets

What each transaction leaves in the tables, for every fate of its statements.  A
helper that runs a `CREATE TABLE` commits what was done before it.

* `recordAndCommit_run`, `storeUpload_written`, `instantShared_written`: the
  transactions that add rows.
* `deleteArtifact_deleted`, `releaseFile_done`: the transaction of a delete, which
  is no longer one when the artifact is deleted.
* `run_of_read`, `run_of_local`: the programs around them.
-/

namespace FiberServer

open FileSystem

variable {env : Env} {fates : Fates}

/-! ### The end of a transaction that adds rows -/

/-- What `CreateArtifact` makes of the tables. -/
def Tables.recordArtifact (fates : Fates) (db : Tables) (a : ArtifactInfo) : Tables :=
  if db.insertsArtifact (fates (.CreateArtifact a)) a then db.addArtifact a else db

/-- `CreateArtifact` returns true. -/
def Records (fates : Fates) (db : Tables) (a : ArtifactInfo) : Prop :=
  db.sameArtifact (fates (.CreateArtifact a)) a ∨ db.insertsArtifact (fates (.CreateArtifact a)) a

/-- The `CREATE TABLE` of `CreateArtifact` reaches the server, and then
`CreateArtifact` or `COMMIT` fails. -/
def RecordTorn (fates : Fates) (db : Tables) (m : ArtifactMetadata) (file_id : Str) : Prop :=
  m.artifact_mode ∧ fates (.CreateArtifact (BuildArtifactInfo m file_id)) 0 ≠ .lost
    ∧ ¬ (Records fates db (BuildArtifactInfo m file_id) ∧ fates .commit 0 = .ok)

theorem sent_of_records {db : Tables} {a : ArtifactInfo} (h : Records fates db a) :
    fates (.CreateArtifact a) 0 = .ok := by
  rcases h with h | h
  · simp only [Tables.sameArtifact, Bool.and_eq_true, beq_iff_eq] at h
    exact h.1.1.1
  · simp only [Tables.insertsArtifact, Bool.and_eq_true, beq_iff_eq] at h
    exact h.1.1

/-- The ways in which such a transaction ends. -/
inductive RecordOutcome {α : Type} (fates : Fates) (s : Store) (db : Tables)
    (m : ArtifactMetadata) (file_id : Str) (failure success : α) : Option α × World → Prop
  | undone (r : Option α) (hr : r = none ∨ r = some failure) (h : ¬ RecordTorn fates db m file_id) :
      RecordOutcome fates s db m file_id failure success (r, s.idle)
  | stored (db' : Tables) (ha : m.artifact_mode → Records fates db (BuildArtifactInfo m file_id))
      (hcommit : fates .commit 0 = .ok)
      (hdb : db' = if m.artifact_mode
        then db.recordArtifact fates (BuildArtifactInfo m file_id) else db) :
      RecordOutcome fates s db m file_id failure success (some success, (s.setDb db').idle)
  | torn (r : Option α) (hr : r = none ∨ r = some failure) (h : RecordTorn fates db m file_id)
      (hsome : r ≠ none ↔
        ¬ Records fates db (BuildArtifactInfo m file_id) ∧ fates .rollback 0 = .ok) :
      RecordOutcome fates s db m file_id failure success
        (r, (s.setDb (db.recordArtifact fates (BuildArtifactInfo m file_id))).idle)

theorem CreateArtifact_sent (env : Env) (s : Store) (db : Tables) {a : ArtifactInfo}
    (h : fates (.CreateArtifact a) 0 ≠ .lost) :
    ((performOp env fates (.CreateArtifact a) (s.opened db)).1 = true ↔ Records fates db a)
      ∧ (performOp env fates (.CreateArtifact a) (s.opened db)).2
        = (s.setDb (db.recordArtifact fates a)).idle := by
  have hsent : (s.opened db).createTable (fates (.CreateArtifact a) 0) = (s.setDb db).idle := by
    rw [World.createTable, if_neg h]
    rfl
  rw [performOp_CreateArtifact]
  refine ⟨by simp [Records], ?_⟩
  show (if _ then _ else _) = _
  rw [hsent, Tables.recordArtifact, Store.opened_db]
  split <;> rfl

theorem CreateArtifact_lost {w : World} {a : ArtifactInfo}
    (h : fates (.CreateArtifact a) 0 = .lost) :
    performOp env fates (.CreateArtifact a) w = (false, w) := by
  rw [performOp_CreateArtifact]
  simp [Tables.sameArtifact, Tables.insertsArtifact, World.createTable, h]

theorem not_torn_of_stored {m : ArtifactMetadata} {file_id : Str} {db : Tables}
    (ha : m.artifact_mode → Records fates db (BuildArtifactInfo m file_id))
    (hcommit : fates .commit 0 = .ok) : ¬ RecordTorn fates db m file_id :=
  fun h => h.2.2 ⟨ha h.1, hcommit⟩

theorem recordAndCommit_run {α : Type} (m : ArtifactMetadata) (file_id : Str) (failure success : α)
    (s : Store) (db : Tables) :
    RecordOutcome fates s db m file_id failure success
      ((recordAndCommit m file_id failure success).run (performOp env fates) (s.opened db)) := by
  by_cases hmode : m.artifact_mode
  swap
  · have hrun : (recordAndCommit m file_id failure success).run (performOp env fates) (s.opened db)
        = if fates .commit 0 = .ok then (some success, (s.setDb db).idle) else (none, s.idle) := by
      simp [recordAndCommit, hmode, run_commitWith]
    rw [hrun]
    split_ifs with hcommit
    · exact .stored db (fun h => absurd h hmode) hcommit (if_neg hmode).symm
    · exact .undone none (.inl rfl) fun h => hmode h.1
  by_cases hlost : fates (.CreateArtifact (BuildArtifactInfo m file_id)) 0 = .lost
  · have hrun : (recordAndCommit m file_id failure success).run (performOp env fates) (s.opened db)
        = (if fates .rollback 0 = .ok then some failure else none, s.idle) := by
      simp [recordAndCommit, hmode, call, CreateArtifact_lost hlost, run_rollbackWith]
    rw [hrun]
    refine .undone _ ?_ fun h => h.2.1 hlost
    split_ifs
    · exact .inr rfl
    · exact .inl rfl
  obtain ⟨hanswer, hworld⟩ := CreateArtifact_sent env s db hlost
  by_cases hrec : Records fates db (BuildArtifactInfo m file_id)
  · have hrun : (recordAndCommit m file_id failure success).run (performOp env fates) (s.opened db)
        = (if fates .commit 0 = .ok then some success else none,
          (s.setDb (db.recordArtifact fates (BuildArtifactInfo m file_id))).idle) := by
      simp only [recordAndCommit, hmode, if_true, call, Prog.run_bind, Prog.run_perform,
        hanswer.mpr hrec, hworld, Bool.not_true, Bool.false_eq_true, if_false, run_commitWith]
      split_ifs <;> rfl
    rw [hrun]
    split_ifs with hcommit
    · exact .stored _ (fun _ => hrec) hcommit (if_pos hmode).symm
    · exact .torn none (.inl rfl) ⟨hmode, hlost, fun h => hcommit h.2⟩
        ⟨fun h => absurd rfl h, fun h => absurd hrec h.1⟩
  · have hfalse : (performOp env fates (.CreateArtifact (BuildArtifactInfo m file_id))
        (s.opened db)).1 = false := by
      simpa using mt hanswer.mp hrec
    have hrun : (recordAndCommit m file_id failure success).run (performOp env fates) (s.opened db)
        = (if fates .rollback 0 = .ok then some failure else none,
          (s.setDb (db.recordArtifact fates (BuildArtifactInfo m file_id))).idle) := by
      simp only [recordAndCommit, hmode, if_true, call, Prog.run_bind, Prog.run_perform,
        hfalse, hworld, Bool.not_false, run_rollbackWith, Store.idle_rollback]
    rw [hrun]
    refine .torn _ ?_ ⟨hmode, hlost, fun h => hrec h.1⟩ ?_
    · split_ifs
      · exact .inr rfl
      · exact .inl rfl
    · split_ifs with hroll <;> simp [hrec, hroll]

/-! ### The transaction of an upload -/

/-- The rows of an upload without its artifact. -/
def Tables.addUpload (db : Tables) (m : ArtifactMetadata) (file_id : Str) : Tables :=
  (db.addFile (fileRow m file_id m.type)).addShared ⟨m.checksum, file_id, m.size, 1⟩

/-- The rows of an upload are written in an open transaction. -/
structure WritesUpload (fates : Fates) (db : Tables) (m : ArtifactMetadata) (file_id : Str) :
    Prop where
  connect : fates (.ext (.connect .rows)) 0 = .ok
  begin : fates .begin 0 = .ok
  createFile : fates (.CreateFile (fileRow m file_id m.type)) 0 = .ok
  createShared : fates (.CreateShared m.checksum file_id m.size) 0 = .ok
  fresh : db.shared m.checksum = none

@[simp] theorem Tables.shared_addFile (db : Tables) (f : FileInfo) (md5 : Str) :
    (db.addFile f).shared md5 = db.shared md5 := rfl

theorem storeUpload_written (env : Env) {m : ArtifactMetadata} {file_id : Str} {s : Store}
    (h : WritesUpload fates s.db m file_id) :
    RecordOutcome fates s (s.db.addUpload m file_id) m file_id
      ⟨false, "create artifact metadata failed"⟩ ⟨true, ""⟩
      ((storeUpload m file_id).run (performOp env fates) s.idle) := by
  have hrun : (storeUpload m file_id).run (performOp env fates) s.idle
      = (recordAndCommit m file_id ⟨false, "create artifact metadata failed"⟩ ⟨true, ""⟩).run
        (performOp env fates) (s.opened (s.db.addUpload m file_id)) := by
    simp [storeUpload, call, performOp_connect, h.connect, performOp_begin, h.begin,
      performOp_CreateFile, h.createFile, performOp_CreateShared, h.createShared, h.fresh,
      Tables.addUpload]
  rw [hrun]
  exact recordAndCommit_run m file_id _ _ s _

theorem storeUpload_unwritten (env : Env) {m : ArtifactMetadata} {file_id : Str} {s : Store}
    (h : ¬ WritesUpload fates s.db m file_id) :
    ∃ r, (∀ d, r = some d → d.ok = false)
      ∧ (storeUpload m file_id).run (performOp env fates) s.idle = (r, s.idle) := by
  by_cases hconnect : fates (.ext (.connect .rows)) 0 = .ok
  swap
  · refine ⟨some ⟨false, "mysql connection error"⟩, by simp, ?_⟩
    simp [storeUpload, call, performOp_connect, hconnect]
  by_cases hbegin : fates .begin 0 = .ok
  swap
  · refine ⟨none, by simp, ?_⟩
    simp [storeUpload, call, performOp_connect, hconnect, performOp_begin, hbegin]
  by_cases hfile : fates (.CreateFile (fileRow m file_id m.type)) 0 = .ok
  swap
  · refine ⟨if fates .rollback 0 = .ok then some ⟨false, "create file record failed"⟩ else none,
      by simp, ?_⟩
    simp [storeUpload, call, performOp_connect, hconnect, performOp_begin, hbegin,
      performOp_CreateFile, hfile, run_rollbackWith]
  refine ⟨if fates .rollback 0 = .ok then some ⟨false, "create shared file record failed"⟩
    else none, by simp, ?_⟩
  have hshared : ¬ (fates (.CreateShared m.checksum file_id m.size) 0 = .ok
      ∧ s.db.shared m.checksum = none) :=
    fun hs => h ⟨hconnect, hbegin, hfile, hs.1, hs.2⟩
  simp [storeUpload, call, performOp_connect, hconnect, performOp_begin, hbegin,
    performOp_CreateFile, hfile, performOp_CreateShared, hshared, run_rollbackWith]

/-- The rows of an upload are in the tables for good although the upload failed. -/
def UploadTorn (fates : Fates) (db : Tables) (m : ArtifactMetadata) (file_id : Str) : Prop :=
  WritesUpload fates db m file_id ∧ RecordTorn fates db m file_id

/-- The tables after an upload. -/
def Tables.stored (fates : Fates) (db : Tables) (m : ArtifactMetadata) (file_id : Str) : Tables :=
  if m.artifact_mode then (db.addUpload m file_id).recordArtifact fates (BuildArtifactInfo m file_id)
  else db.addUpload m file_id

theorem file_info_recordArtifact (db : Tables) (a : ArtifactInfo) :
    (db.recordArtifact fates a).file_info = db.file_info := by
  rw [Tables.recordArtifact]
  split_ifs <;> rfl

theorem file_info_addUpload_ne {db : Tables} {m : ArtifactMetadata} {file_id : Str}
    {a : ArtifactInfo} : ((db.addUpload m file_id).recordArtifact fates a).file_info
      ≠ db.file_info := by
  rw [file_info_recordArtifact]
  simp [Tables.addUpload, Tables.addShared, Tables.addFile]

/-- How the transaction of an upload ends. -/
inductive UploadOutcome (fates : Fates) (db : Tables) (m : ArtifactMetadata) (file_id : Str) :
    Option DbResult → Tables → Prop
  | kept (r : Option DbResult) (hr : ∀ d, r = some d → d.ok = false)
      (h : ¬ UploadTorn fates db m file_id) : UploadOutcome fates db m file_id r db
  | stored (hw : WritesUpload fates db m file_id) (ht : ¬ RecordTorn fates db m file_id) :
      UploadOutcome fates db m file_id (some ⟨true, ""⟩) (db.stored fates m file_id)
  | torn (r : Option DbResult) (hr : ∀ d, r = some d → d.ok = false)
      (h : UploadTorn fates db m file_id)
      (hsome : r ≠ none ↔
        ¬ Records fates db (BuildArtifactInfo m file_id) ∧ fates .rollback 0 = .ok) :
      UploadOutcome fates db m file_id r
        ((db.addUpload m file_id).recordArtifact fates (BuildArtifactInfo m file_id))

theorem storeUpload_run (env : Env) (fates : Fates) (s : Store) (m : ArtifactMetadata)
    (file_id : Str) :
    ∃ r db, (storeUpload m file_id).run (performOp env fates) s.idle = (r, (s.setDb db).idle)
      ∧ UploadOutcome fates s.db m file_id r db := by
  by_cases hw : WritesUpload fates s.db m file_id
  swap
  · obtain ⟨r, hr, hrun⟩ := storeUpload_unwritten env hw
    exact ⟨r, s.db, hrun, .kept r hr fun h => hw h.1⟩
  have hfail : ∀ r, r = none ∨ r = some ⟨false, "create artifact metadata failed"⟩ →
      ∀ d : DbResult, r = some d → d.ok = false := by
    rintro r (rfl | rfl) d hd
    · exact nomatch hd
    · cases hd
      rfl
  have hout := storeUpload_written env hw
  generalize (storeUpload m file_id).run (performOp env fates) s.idle = x at hout ⊢
  cases hout with
  | undone r hr h => exact ⟨r, s.db, rfl, .kept r (hfail r hr) fun h' => h h'.2⟩
  | stored db' ha hcommit hdb =>
    refine ⟨_, db', rfl, ?_⟩
    rw [show db' = s.db.stored fates m file_id from hdb]
    exact .stored hw (not_torn_of_stored ha hcommit)
  | torn r hr h hsome =>
    exact ⟨r, _, rfl, .torn r (hfail r hr) ⟨hw, h⟩ hsome⟩

/-! ### The transaction of a precheck -/

/-- The rows of a project that shares a file, without its artifact. -/
def Tables.addShare (db : Tables) (m : ArtifactMetadata) (file_id : Str) : Tables :=
  (db.increment m.checksum).addFile (fileRow m file_id [])

theorem file_info_addShare_ne {db : Tables} {m : ArtifactMetadata} {file_id : Str}
    {a : ArtifactInfo} : ((db.addShare m file_id).recordArtifact fates a).file_info
      ≠ db.file_info := by
  rw [file_info_recordArtifact]
  simp [Tables.addShare, Tables.addFile, Tables.increment, Tables.updateRef]

/-- These rows are written in an open transaction. -/
structure WritesShare (fates : Fates) (m : ArtifactMetadata) (file_id : Str) : Prop where
  begin : fates .begin 0 = .ok
  increment : fates (.IncrementRef m.checksum) 0 = .ok
  createFile : fates (.CreateFile (fileRow m file_id [])) 0 = .ok

theorem instantShared_written {m : ArtifactMetadata} {file_id : Str} {s : Store}
    (hid : (performOp env fates (.GetFileIdByMd5 m.checksum) s.idle).1 = file_id)
    (h : WritesShare fates m file_id) :
    RecordOutcome fates s (s.db.addShare m file_id) m file_id
      ⟨3, "create artifact metadata failed"⟩ ⟨0, "instant upload success"⟩
      ((UploadServlet.instantShared m).run (performOp env fates) s.idle) := by
  have hget : performOp env fates (.GetFileIdByMd5 m.checksum) s.idle = (file_id, s.idle) := by
    rw [← hid, performOp_GetFileIdByMd5]
  have hrun : (UploadServlet.instantShared m).run (performOp env fates) s.idle
      = (recordAndCommit m file_id ⟨3, "create artifact metadata failed"⟩
          (⟨0, "instant upload success"⟩ : UploadServlet.DbResult)).run
        (performOp env fates) (s.opened (s.db.addShare m file_id)) := by
    simp [UploadServlet.instantShared, call, hget, performOp_begin, h.begin,
      performOp_IncrementRef, h.increment, performOp_CreateFile, h.createFile, Tables.addShare]
  rw [hrun]
  exact recordAndCommit_run m file_id _ _ s _

theorem instantShared_unwritten {m : ArtifactMetadata} {file_id : Str} {s : Store}
    (hid : (performOp env fates (.GetFileIdByMd5 m.checksum) s.idle).1 = file_id)
    (h : ¬ WritesShare fates m file_id) :
    ∃ r, (∀ d, r = some d → d.code = 3)
      ∧ (UploadServlet.instantShared m).run (performOp env fates) s.idle = (r, s.idle) := by
  have hget : performOp env fates (.GetFileIdByMd5 m.checksum) s.idle = (file_id, s.idle) := by
    rw [← hid, performOp_GetFileIdByMd5]
  by_cases hbegin : fates .begin 0 = .ok
  swap
  · refine ⟨none, by simp, ?_⟩
    simp [UploadServlet.instantShared, call, hget, performOp_begin, hbegin]
  refine ⟨if fates .rollback 0 = .ok then some ⟨3, "instant upload db transaction failed"⟩
    else none, by simp, ?_⟩
  by_cases hinc : fates (.IncrementRef m.checksum) 0 = .ok
  swap
  · simp [UploadServlet.instantShared, call, hget, performOp_begin, hbegin,
      performOp_IncrementRef, hinc, run_rollbackWith]
  have hfile : fates (.CreateFile (fileRow m file_id [])) 0 ≠ .ok :=
    fun hf => h ⟨hbegin, hinc, hf⟩
  simp [UploadServlet.instantShared, call, hget, performOp_begin, hbegin, performOp_IncrementRef,
    hinc, performOp_CreateFile, hfile, run_rollbackWith]

/-- The tables after a precheck that shares a file. -/
def Tables.sharing (fates : Fates) (db : Tables) (m : ArtifactMetadata) (file_id : Str) : Tables :=
  if m.artifact_mode then (db.addShare m file_id).recordArtifact fates (BuildArtifactInfo m file_id)
  else db.addShare m file_id

/-- The three ways in which the transaction of a precheck ends. -/
theorem instantShared_cases (env : Env) (fates : Fates) {m : ArtifactMetadata} {file_id : Str}
    {s : Store}
    (hid : (performOp env fates (.GetFileIdByMd5 m.checksum) s.idle).1 = file_id) :
    ∃ r db, (UploadServlet.instantShared m).run (performOp env fates) s.idle
        = (r, (s.setDb db).idle) ∧
      (((∀ d, r = some d → d.code = 3) ∧ db = s.db
        ∧ ¬ (WritesShare fates m file_id ∧ RecordTorn fates s.db m file_id))
      ∨ (r = some ⟨0, "instant upload success"⟩ ∧ db = s.db.sharing fates m file_id
        ∧ WritesShare fates m file_id ∧ ¬ RecordTorn fates s.db m file_id)
      ∨ ((∀ d, r = some d → d.code = 3)
        ∧ db = (s.db.addShare m file_id).recordArtifact fates (BuildArtifactInfo m file_id)
        ∧ WritesShare fates m file_id ∧ RecordTorn fates s.db m file_id)) := by
  by_cases hw : WritesShare fates m file_id
  swap
  · obtain ⟨r, hr, hrun⟩ := instantShared_unwritten hid hw
    exact ⟨r, s.db, hrun, .inl ⟨hr, rfl, fun h => hw h.1⟩⟩
  have hfail : ∀ r, r = none ∨ r = some ⟨3, "create artifact metadata failed"⟩ →
      ∀ d : UploadServlet.DbResult, r = some d → d.code = 3 := by
    rintro r (rfl | rfl) d hd
    · exact nomatch hd
    · cases hd
      rfl
  have hout := instantShared_written hid hw
  generalize (UploadServlet.instantShared m).run (performOp env fates) s.idle = x at hout ⊢
  cases hout with
  | undone r hr h => exact ⟨r, s.db, rfl, .inl ⟨hfail r hr, rfl, fun h' => h h'.2⟩⟩
  | stored db' ha hcommit hdb =>
    exact ⟨_, _, rfl, .inr (.inl ⟨rfl, hdb, hw, not_torn_of_stored ha hcommit⟩)⟩
  | torn r hr h hsome =>
    exact ⟨r, _, rfl, .inr (.inr ⟨hfail r hr, rfl, hw, h⟩)⟩

/-! ### The transaction of a delete -/

/-- The `DELETE` of the artifact is carried out, after a `CREATE TABLE` that has
closed the transaction. -/
structure DeletesArtifact (fates : Fates) (m : ArtifactMetadata) : Prop where
  begin : fates .begin 0 = .ok
  createTable : fates (.DeleteArtifact m.coordinate) 0 = .ok
  delete : fates (.DeleteArtifact m.coordinate) 1 = .ok

/-- The files of the checksums. -/
def Tables.links (db : Tables) : List (Str × Str) :=
  db.file_shared.map fun s => (s.file_md5, s.file_id)

theorem links_updateRef (db : Tables) (md5 : Str) (f : Int → Int) :
    (db.updateRef md5 f).links = db.links := by
  rw [Tables.links, Tables.links, Tables.updateRef, List.map_map]
  refine List.map_congr_left fun s _ => ?_
  by_cases hs : s.file_md5 = md5 <;> simp [hs]

theorem updateRef_of_none {db : Tables} {md5 : Str} (h : db.shared md5 = none) (f : Int → Int) :
    db.updateRef md5 f = db := by
  have hkept : ∀ s ∈ db.file_shared,
      (if s.file_md5 = md5 then { s with ref_count := f s.ref_count } else s) = s := by
    intro s hs
    rw [if_neg]
    simpa using List.find?_eq_none.mp h s hs
  rw [Tables.updateRef, List.map_congr_left hkept, List.map_id']

theorem removeShared_of_none {db : Tables} {md5 : Str} (h : db.shared md5 = none) :
    db.removeShared md5 = db := by
  rw [Tables.removeShared, List.filter_eq_self.mpr]
  intro s hs
  simpa using List.find?_eq_none.mp h s hs

/-- What is left of the references after the delete of one artifact. -/
def Tables.refAfter (db : Tables) (md5 : Str) : Int := (db.decrement md5).refCount md5

/-- The statements after the `DELETE` of the artifact are carried out. -/
structure FinishesDelete (fates : Fates) (db : Tables) (m : ArtifactMetadata) (a : ArtifactInfo) :
    Prop where
  deleteFile : fates (.DeleteFileRecordByUserAndFilename m.owner m.storage_name) 0 = .ok
  decrement : fates (.DecrementRef a.checksum) 0 = .ok
  selectRef : fates (.DecrementRef a.checksum) 1 = .ok
  ref : 0 ≤ db.refAfter a.checksum
  deleteShared : db.refAfter a.checksum = 0 → fates (.DeleteShared a.checksum) 0 = .ok
  commit : fates .commit 0 = .ok

/-- The tables without the file record and one reference of an artifact. -/
def Tables.release (db : Tables) (m : ArtifactMetadata) (a : ArtifactInfo) : Tables :=
  let db' := (db.removeFile m.owner m.storage_name).decrement a.checksum
  if db.refAfter a.checksum = 0 then db'.removeShared a.checksum else db'

theorem refCount_removeFile (db : Tables) (owner filename md5 : Str) :
    ((db.removeFile owner filename).decrement md5).refCount md5 = db.refAfter md5 := rfl

theorem releaseFile_done {m : ArtifactMetadata} {a : ArtifactInfo} {s : Store}
    (h : FinishesDelete fates s.db m a) :
    (DeleteFileServlet.releaseFile m a).run (performOp env fates) s.idle
      = (some ⟨true, decide (s.db.refAfter a.checksum = 0), a.file_id, ""⟩,
        (s.setDb (s.db.release m a)).idle) := by
  have hneg : ¬ s.db.refAfter a.checksum < 0 := not_lt.mpr h.ref
  by_cases hzero : s.db.refAfter a.checksum = 0
  · simp [DeleteFileServlet.releaseFile, call, performOp_DeleteFileRecordByUserAndFilename,
      h.deleteFile, performOp_DecrementRef, h.decrement, h.selectRef, refCount_removeFile, hzero,
      performOp_DeleteShared, h.deleteShared hzero, run_commitWith, h.commit, Tables.release]
  · simp [DeleteFileServlet.releaseFile, call, performOp_DeleteFileRecordByUserAndFilename,
      h.deleteFile, performOp_DecrementRef, h.decrement, h.selectRef, refCount_removeFile, hneg,
      hzero, run_commitWith, h.commit, Tables.release]

/-- Outside a transaction what was done before a failure stays; here only the rows of
the artifacts matter, which are not touched. -/
theorem releaseFile_failed {m : ArtifactMetadata} {a : ArtifactInfo} {s : Store}
    (h : ¬ FinishesDelete fates s.db m a) :
    ∃ (r : Option DeleteFileServlet.DbResult) (db : Tables), (∀ d, r = some d → d.ok = false)
      ∧ db.artifact_info = s.db.artifact_info
      ∧ (s.db.shared a.checksum = none → db.file_shared = s.db.file_shared)
      ∧ (DeleteFileServlet.releaseFile m a).run (performOp env fates) s.idle
        = (r, (s.setDb db).idle) := by
  let undone := fun message : String =>
    if fates .rollback 0 = .ok then some (DeleteFileServlet.failed message) else none
  have hundone : ∀ message d, undone message = some d → d.ok = false := by
    simp [undone, DeleteFileServlet.failed]
  by_cases hfile : fates (.DeleteFileRecordByUserAndFilename m.owner m.storage_name) 0 = .ok
  swap
  · refine ⟨undone "delete file record failed", s.db, hundone _, rfl, fun _ => rfl, ?_⟩
    simp [DeleteFileServlet.releaseFile, call, performOp_DeleteFileRecordByUserAndFilename, hfile,
      run_rollbackWith, undone]
  by_cases hdec : fates (.DecrementRef a.checksum) 0 = .ok
  swap
  · refine ⟨undone "decrement shared ref failed", s.db.removeFile m.owner m.storage_name,
      hundone _, rfl, fun _ => rfl, ?_⟩
    simp [DeleteFileServlet.releaseFile, call, performOp_DeleteFileRecordByUserAndFilename, hfile,
      performOp_DecrementRef, hdec, run_rollbackWith, undone]
  let db₀ := s.db.removeFile m.owner m.storage_name
  let db' := db₀.decrement a.checksum
  have hnone : s.db.shared a.checksum = none → db' = db₀ :=
    fun hs => updateRef_of_none (show db₀.shared a.checksum = none from hs) _
  by_cases href : fates (.DecrementRef a.checksum) 1 = .ok ∧ 0 ≤ s.db.refAfter a.checksum
  swap
  · have hneg : (if fates (.DecrementRef a.checksum) 1 = .ok then s.db.refAfter a.checksum else -1)
        < 0 := by
      split_ifs with hok
      · exact not_le.mp fun hle => href ⟨hok, hle⟩
      · decide
    refine ⟨undone "decrement shared ref failed", db', hundone _, rfl,
      fun hs => by rw [hnone hs]; rfl, ?_⟩
    simp [DeleteFileServlet.releaseFile, call, performOp_DeleteFileRecordByUserAndFilename, hfile,
      performOp_DecrementRef, hdec, refCount_removeFile, hneg, run_rollbackWith, undone, db', db₀]
  have hneg : ¬ s.db.refAfter a.checksum < 0 := not_lt.mpr href.2
  by_cases hzero : s.db.refAfter a.checksum = 0
  · by_cases hshared : fates (.DeleteShared a.checksum) 0 = .ok
    · have hcommit : fates .commit 0 ≠ .ok :=
        fun hc => h ⟨hfile, hdec, href.1, href.2, fun _ => hshared, hc⟩
      refine ⟨none, db'.removeShared a.checksum, by simp, rfl, fun hs => ?_, ?_⟩
      · rw [hnone hs, removeShared_of_none (show db₀.shared a.checksum = none from hs)]
        rfl
      simp [DeleteFileServlet.releaseFile, call, performOp_DeleteFileRecordByUserAndFilename, hfile,
        performOp_DecrementRef, hdec, href.1, refCount_removeFile, hzero, performOp_DeleteShared,
        hshared, run_commitWith, hcommit, db', db₀]
    · refine ⟨undone "delete shared record failed", db', hundone _, rfl,
      fun hs => by rw [hnone hs]; rfl, ?_⟩
      simp [DeleteFileServlet.releaseFile, call, performOp_DeleteFileRecordByUserAndFilename, hfile,
        performOp_DecrementRef, hdec, href.1, refCount_removeFile, hzero, performOp_DeleteShared,
        hshared, run_rollbackWith, undone, db', db₀]
  · have hcommit : fates .commit 0 ≠ .ok :=
      fun hc => h ⟨hfile, hdec, href.1, href.2, fun hz => absurd hz hzero, hc⟩
    refine ⟨none, db', by simp, rfl, fun hs => by rw [hnone hs]; rfl, ?_⟩
    simp [DeleteFileServlet.releaseFile, call, performOp_DeleteFileRecordByUserAndFilename, hfile,
      performOp_DecrementRef, hdec, href.1, refCount_removeFile, hneg, hzero, run_commitWith, hcommit,
      db', db₀]

/-- After the `DELETE` the rest runs outside a transaction. -/
theorem deleteArtifact_deleted {m : ArtifactMetadata} {a : ArtifactInfo} {s : Store}
    (h : DeletesArtifact fates m) :
    (DeleteFileServlet.deleteArtifact m a).run (performOp env fates) s.idle
      = (DeleteFileServlet.releaseFile m a).run (performOp env fates)
        (s.setDb (s.db.removeArtifact m.coordinate)).idle := by
  simp [DeleteFileServlet.deleteArtifact, call, performOp_begin, h.begin, performOp_DeleteArtifact,
    h.createTable, h.delete]

theorem deleteArtifact_kept (env : Env) (s : Store) {m : ArtifactMetadata} (a : ArtifactInfo)
    (h : ¬ DeletesArtifact fates m) :
    ∃ r, (∀ d, r = some d → d.ok = false)
      ∧ (DeleteFileServlet.deleteArtifact m a).run (performOp env fates) s.idle = (r, s.idle) := by
  by_cases hbegin : fates .begin 0 = .ok
  swap
  · refine ⟨none, by simp, ?_⟩
    simp [DeleteFileServlet.deleteArtifact, call, performOp_begin, hbegin]
  have hdelete : ¬ (fates (.DeleteArtifact m.coordinate) 0 = .ok
      ∧ fates (.DeleteArtifact m.coordinate) 1 = .ok) := fun hd => h ⟨hbegin, hd.1, hd.2⟩
  have hroll : ((s.opened s.db).createTable (fates (.DeleteArtifact m.coordinate) 0)).rollback
      = s.idle := by
    cases fates (.DeleteArtifact m.coordinate) 0 <;> rfl
  refine ⟨if fates .rollback 0 = .ok
    then some (DeleteFileServlet.failed "delete artifact metadata failed") else none,
    by simp [DeleteFileServlet.failed], ?_⟩
  simp [DeleteFileServlet.deleteArtifact, call, performOp_begin, hbegin, performOp_DeleteArtifact,
    hdelete, run_rollbackWith, hroll]

/-! ### What comes before the transactions -/

/-- Operations that only read. -/
def Op.isRead : Op → Prop
  | .ext (.connect _) => True
  | .ValidateToken _ _ => True
  | .GetArtifact _ => True
  | .ExistsByMd5AndUser _ _ => True
  | .ExistsByMd5 _ => True
  | .GetFileIdByMd5 _ => True
  | _ => False

theorem performOp_read {op : Op} {s : Store} (h : op.isRead) :
    (performOp env fates op s.idle).2 = s.idle := by
  cases op with
  | ValidateToken _ _ => rw [performOp_ValidateToken]
  | GetArtifact _ => rw [performOp_GetArtifact]
  | ExistsByMd5AndUser _ _ => rw [performOp_ExistsByMd5AndUser]
  | ExistsByMd5 _ => rw [performOp_ExistsByMd5]
  | GetFileIdByMd5 _ => rw [performOp_GetFileIdByMd5]
  | ext e =>
    cases e with
    | connect use => rw [performOp_connect]
    | _ => exact h.elim
  | _ => exact h.elim

/-- The answer of a program on a store. -/
def asks {α : Type} (env : Env) (fates : Fates) (s : Store) (p : Servlet α) : α :=
  (p.run (performOp env fates) s.idle).1

theorem run_of_read {α : Type} {p : Servlet α} (env : Env) (fates : Fates) (s : Store)
    (h : p.Only Op.isRead) :
    p.run (performOp env fates) s.idle = (asks env fates s p, s.idle) := by
  refine Prod.ext rfl (h.run_invariant (I := fun w => w = s.idle) ?_ rfl)
  rintro op w hop rfl
  exact performOp_read hop

theorem RequireArtifactToken_read (access : Access) (owner : Str) :
    (RequireArtifactToken access owner).Only Op.isRead := by
  refine Prog.only_ite (fun _ => trivial) fun _ => Prog.only_ite (fun _ => trivial) fun _ => ?_
  refine Prog.Only.bind ⟨trivial, fun _ => trivial⟩ fun _ =>
    Prog.only_ite (fun _ => trivial) fun _ => ?_
  exact Prog.Only.bind ⟨trivial, fun _ => trivial⟩ fun _ =>
    Prog.only_ite (fun _ => trivial) fun _ => trivial

theorem coordinateCheck_read (m : ArtifactMetadata) : (coordinateCheck m).Only Op.isRead := by
  refine Prog.Only.bind ⟨trivial, fun _ => trivial⟩ fun _ =>
    Prog.only_ite (fun _ => trivial) fun _ => ?_
  refine Prog.Only.bind ⟨trivial, fun _ => trivial⟩ fun artifact => ?_
  cases artifact with
  | none => trivial
  | some a => exact Prog.only_ite (fun _ => trivial) fun _ => trivial

theorem admission_read (access : Access) (m : ArtifactMetadata) : (admission access m).Only Op.isRead := by
  refine Prog.Only.bind (RequireArtifactToken_read access m.owner) fun refused => ?_
  cases refused with
  | some r => trivial
  | none => exact Prog.only_ite (fun _ => coordinateCheck_read m) fun _ => trivial

/-- Only the local file system is different. -/
def Quiet (s s' : Store) : Prop := s'.db = s.db ∧ s'.files = s.files ∧ s'.uploads = s.uploads

theorem Quiet.refl (s : Store) : Quiet s s := ⟨rfl, rfl, rfl⟩

/-- FastDFS has got one more file. -/
def Took (env : Env) (s s' : Store) (file_id : Str) : Prop :=
  s'.db = s.db ∧ file_id = env.newFileId s.uploads ∧ s'.uploads = s.uploads + 1
    ∧ ∃ content, s'.files = s.files ++ [(file_id, content)]

/-- Calls outside the database and FastDFS. -/
def Op.isLocal : Op → Prop
  | .ext (.uploadSmallFile _) => False
  | .ext (.uploadBigFile _) => False
  | .ext (.deleteFile _) => False
  | .ext _ => True
  | _ => False

theorem performOp_local (env : Env) (fates : Fates) (s : Store) (op : Op) (h : op.isLocal) :
    ∃ s', (performOp env fates op s.idle).2 = s'.idle ∧ Quiet s s' := by
  cases op with
  | ext e =>
    rw [performOp_ext]
    cases e with
    | uploadSmallFile _ => exact h.elim
    | uploadBigFile _ => exact h.elim
    | deleteFile _ => exact h.elim
    | _ => exact ⟨_, rfl, rfl, rfl, rfl⟩
  | _ => exact h.elim

theorem run_of_local {α : Type} {p : Servlet α} (env : Env) (fates : Fates) (s : Store)
    (h : p.Only Op.isLocal) :
    ∃ s', Quiet s s' ∧ p.run (performOp env fates) s.idle = (asks env fates s p, s'.idle) := by
  have hw : ∃ s', (p.run (performOp env fates) s.idle).2 = s'.idle ∧ Quiet s s' := by
    refine h.run_invariant (I := fun w : World => ∃ s', w = s'.idle ∧ Quiet s s') ?_
      ⟨s, rfl, Quiet.refl s⟩
    rintro op w hop ⟨s', rfl, hs'⟩
    obtain ⟨s'', hw, hs''⟩ := performOp_local env fates s' op hop
    exact ⟨s'', hw, hs''.1.trans hs'.1, hs''.2.1.trans hs'.2.1, hs''.2.2.trans hs'.2.2⟩
  obtain ⟨s', hw, hs'⟩ := hw
  exact ⟨s', hs', Prod.ext rfl hw⟩

/-- What is left after FastDFS has taken a file, or has not. -/
def Uploaded (env : Env) (s s' : Store) : Option Str → Prop
  | none => Quiet s s'
  | some file_id => Took env s s' file_id

theorem uploadSmallFile_run (env : Env) (fates : Fates) (content : Bytes) (s : Store) :
    ∃ r s', performOp env fates (.ext (.uploadSmallFile content)) s.idle = (r, s'.idle)
      ∧ Uploaded env s s' r := by
  rw [performOp_ext]
  by_cases hok : fates (.ext (.uploadSmallFile content)) 0 = .ok
  · rw [External.perform, if_pos hok]
    exact ⟨_, _, rfl, rfl, rfl, rfl, content, rfl⟩
  · rw [External.perform, if_neg hok]
    exact ⟨none, s, rfl, Quiet.refl s⟩

theorem uploadBigFile_run (env : Env) (fates : Fates) (file_path : Str) (s : Store) :
    ∃ r s', performOp env fates (.ext (.uploadBigFile file_path)) s.idle = (r, s'.idle)
      ∧ Uploaded env s s' r := by
  rw [performOp_ext, External.perform]
  cases ChunkManager.fileContent s.idle.fs env.cwd file_path with
  | none => exact ⟨none, s, rfl, Quiet.refl s⟩
  | some content =>
    by_cases hok : fates (.ext (.uploadBigFile file_path)) 0 = .ok
    · simp only [hok, if_true]
      exact ⟨_, _, rfl, rfl, rfl, rfl, content, rfl⟩
    · simp only [hok, if_false]
      exact ⟨none, s, rfl, Quiet.refl s⟩

/-- What is left after a servlet has received a file, or has not. -/
def Received (env : Env) (s s' : Store) : Response ⊕ Str → Prop
  | .inl _ => Quiet s s'
  | .inr file_id => Took env s s' file_id

theorem DirUploadServlet.receive_run (env : Env) (fates : Fates) (fileContent : Bytes) (s : Store) :
    ∃ r s', (DirUploadServlet.receive fileContent).run (performOp env fates) s.idle = (r, s'.idle)
      ∧ Received env s s' r := by
  by_cases hempty : fileContent = []
  · refine ⟨.inl (reply (-1) 1 "empty file content"), s, ?_, Quiet.refl s⟩
    simp only [receive, hempty, if_true]
    rfl
  obtain ⟨r, s', hrun, hr⟩ := uploadSmallFile_run env fates fileContent s
  cases r with
  | none =>
    refine ⟨.inl (reply (-1) 1 "upload file failed"), s', ?_, hr⟩
    simp only [receive, hempty, if_false, call, Prog.run_bind, Prog.run_perform, hrun]
    rfl
  | some file_id =>
    refine ⟨.inr file_id, s', ?_, hr⟩
    simp only [receive, hempty, if_false, call, Prog.run_bind, Prog.run_perform, hrun]
    rfl

theorem ChunkUploadServlet.collect_local (c : Chunk) (file_path : Str) (body : Bytes) :
    (ChunkUploadServlet.collect c file_path body).Only Op.isLocal := by
  refine Prog.Only.bind (Prog.only_ite (fun _ => ⟨trivial, fun _ => trivial⟩)
    fun _ => ⟨trivial, fun _ => trivial⟩) fun _ => Prog.only_ite (fun _ => trivial) fun _ => ?_
  refine Prog.Only.bind ⟨trivial, fun _ => trivial⟩ fun _ =>
    Prog.only_ite (fun _ => trivial) fun _ => ?_
  exact Prog.Only.bind ⟨trivial, fun _ => trivial⟩ fun _ =>
    Prog.only_ite (fun _ => trivial) fun _ => trivial

theorem ChunkUploadServlet.receive_run (env : Env) (fates : Fates) (c : Chunk)
    (file_path : Str) (body : Bytes) (s : Store) :
    ∃ r s', (ChunkUploadServlet.receive c file_path body).run (performOp env fates) s.idle
        = (r, s'.idle) ∧ Received env s s' r := by
  obtain ⟨s1, hs1, hcollect⟩ := run_of_local env fates s
    (collect_local c file_path body)
  cases hr : asks env fates s (ChunkUploadServlet.collect c file_path body) with
  | inl r =>
    rw [hr] at hcollect
    refine ⟨.inl r, s1, ?_, hs1⟩
    simp only [receive, Prog.run_bind, hcollect]
    rfl
  | inr merged_path =>
    rw [hr] at hcollect
    obtain ⟨r, s2, hrun, hr⟩ := uploadBigFile_run env fates merged_path s1
    obtain ⟨hdb, hfiles, huploads⟩ := hs1
    cases r with
    | none =>
      refine ⟨.inl (reply (-1) 1 "upload to fastdfs failed"), s2, ?_,
        hr.1.trans hdb, hr.2.1.trans hfiles, hr.2.2.trans huploads⟩
      simp only [receive, Prog.run_bind, hcollect, call, Prog.run_perform, hrun]
      rfl
    | some file_id =>
      refine ⟨.inr file_id, s2, ?_, ?_⟩
      · simp only [receive, Prog.run_bind, hcollect, call, Prog.run_perform, hrun]
        rfl
      · rw [Uploaded, Took, huploads, hfiles, hdb] at hr
        exact hr

end FiberServer
