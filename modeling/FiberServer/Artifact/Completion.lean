import FiberServer.Artifact.Requests
import FiberServer.Chunk.Bookkeeping
import Mathlib.Data.Fintype.Card

/-!
# Concurrent requests for the chunks of one upload

Each request goes through the stages of `ChunkUploadServlet` after its admission, and
the stages of the requests follow each other in any order on the same store.  Whether
all chunks are there is a check without a claim: a request that finds them ready does
not keep another one from finding the same.

* `alone`: a request whose stages follow each other directly is `complete`, the end of
  `handle`.
* `once_throughout`: when no request finds all chunks in place while another one that
  did has not removed the task directory, at most one request completes the upload, and
  no other one gets an error for it.
* `checkedTogether_not_once`: two requests that save before either checks.
-/

namespace FiberServer

open FileSystem FSUtil ChunkManager

/-- What a request does next, once it is admitted. -/
inductive Stage
  | saveChunk
  | isAllChunksReady
  | mergeChunks
  | uploadBigFile (merged_path : Str)
  | transaction (file_id : Str)
  | Rm
  deriving DecidableEq, Repr

inductive Phase
  | before (stage : Stage)
  | answered (stage : Stage) (response : Response)
  deriving DecidableEq, Repr

def Phase.stage : Phase → Stage
  | .before stage => stage
  | .answered stage _ => stage

/-- The chunk was saved. -/
def Phase.Saved (p : Phase) : Prop := p.stage ≠ .saveChunk

instance (p : Phase) : Decidable p.Saved := inferInstanceAs (Decidable (_ ≠ _))

/-- The request has found all chunks ready and gone on to merge and upload them. -/
def Phase.Passed (p : Phase) : Prop := p.Saved ∧ p.stage ≠ .isAllChunksReady

instance (p : Phase) : Decidable p.Passed := inferInstanceAs (Decidable (_ ∧ _))

/-- The transaction is committed. -/
def Phase.Completed (p : Phase) : Prop := p.stage = .Rm

instance (p : Phase) : Decidable p.Completed := inferInstanceAs (Decidable (_ = _))

/-- The task directory is removed. -/
def Phase.Removed : Phase → Prop
  | .before _ => False
  | .answered stage _ => stage = .Rm

instance : ∀ p : Phase, Decidable p.Removed
  | .before _ => .isFalse not_false
  | .answered stage _ => inferInstanceAs (Decidable (stage = .Rm))

theorem Phase.Removed.passed {p : Phase} (h : p.Removed) : p.Passed := by
  cases p with
  | before stage => exact h.elim
  | answered stage response =>
    obtain rfl : stage = .Rm := h
    exact ⟨nofun, nofun⟩

/-- The request has got an error. -/
def Phase.Failed : Phase → Prop
  | .before _ => False
  | .answered _ response => response.ret ≠ 0

instance : ∀ p : Phase, Decidable p.Failed
  | .before _ => .isFalse not_false
  | .answered _ response => inferInstanceAs (Decidable (response.ret ≠ 0))

/-- A part of a request, on a connection that is given back afterwards. -/
def runPart {α : Type} (env : Env) (fates : Fates) (p : Servlet α) (s : Store) : α × Store :=
  let r := runOps env fates p s.idle
  (r.1, r.2.rollback.toStore)

namespace ChunkUploadServlet

/-- One stage of a request. -/
def performStage (env : Env) (fates : Fates) (c : Chunk) (file_path : Str) (body : Bytes)
    (s : Store) : Stage → Phase × Store
  | .saveChunk =>
    let r := runPart env fates (saveChunk c file_path body) s
    (if !r.1 then .answered .saveChunk (reply (-1) 1 "save chunk failed")
      else .before .isAllChunksReady, r.2)
  | .isAllChunksReady =>
    let m := c.request_meta
    let r := runPart env fates (call (.ext (.isAllChunksReady m.owner m.checksum c.total_chunks))) s
    (if !r.1 then .answered .isAllChunksReady
        (reply 0 0 s!"chunk {c.chunk_index + 1}/{c.total_chunks} uploaded")
      else .before .mergeChunks, r.2)
  | .mergeChunks =>
    let m := c.request_meta
    let r := runPart env fates (call (.ext (.mergeChunks m.owner m.checksum c.total_chunks))) s
    (if r.1 = [] then .answered .mergeChunks (reply (-1) 1 "merge chunks failed")
      else .before (.uploadBigFile r.1), r.2)
  | .uploadBigFile merged_path =>
    let r := runPart env fates (call (.ext (.uploadBigFile merged_path))) s
    (match r.1 with
      | none => .answered (.uploadBigFile merged_path) (reply (-1) 1 "upload to fastdfs failed")
      | some file_id => .before (.transaction file_id), r.2)
  | .transaction file_id =>
    let r := runPart env fates (storeUpload c.request_meta file_id) s
    (match r.1 with
      | none => .answered (.transaction file_id) (reply (-1) 1 "internal error")
      | some d =>
        if d.ok then .before .Rm
        else .answered (.transaction file_id) (reply (-1) 1 d.message), r.2)
  | .Rm =>
    let m := c.request_meta
    let r := runPart env fates (call (.ext (.rmTask m.owner m.checksum))) s
    (.answered .Rm (reply 0 2 "success"), r.2)

/-- What `handle` does with a chunk that it admits. -/
def complete (c : Chunk) (file_path : Str) (body : Bytes) : Servlet (Option Response) := do
  let received ← receive c file_path body
  match received with
  | .inl r => return some r
  | .inr file_id => store c.request_meta file_id

/-! ### What is left of a request after each stage -/

def uploading (c : Chunk) (merged_path : Str) : Servlet (Option Response) := do
  let uploaded ← call (.ext (.uploadBigFile merged_path))
  match uploaded with
  | none => return some (reply (-1) 1 "upload to fastdfs failed")
  | some file_id => store c.request_meta file_id

def merging (c : Chunk) : Servlet (Option Response) := do
  let m := c.request_meta
  let merged_path ← call (.ext (.mergeChunks m.owner m.checksum c.total_chunks))
  if merged_path = [] then return some (reply (-1) 1 "merge chunks failed")
  else uploading c merged_path

def checking (c : Chunk) : Servlet (Option Response) := do
  let m := c.request_meta
  let ready ← call (.ext (.isAllChunksReady m.owner m.checksum c.total_chunks))
  if !ready then
    return some (reply 0 0 s!"chunk {c.chunk_index + 1}/{c.total_chunks} uploaded")
  else merging c

def rest (c : Chunk) (file_path : Str) (body : Bytes) : Phase → Servlet (Option Response)
  | .answered _ response => return some response
  | .before .saveChunk => complete c file_path body
  | .before .isAllChunksReady => checking c
  | .before .mergeChunks => merging c
  | .before (.uploadBigFile merged_path) => uploading c merged_path
  | .before (.transaction file_id) => store c.request_meta file_id
  | .before .Rm => do
    let m := c.request_meta
    let _ ← call (.ext (.rmTask m.owner m.checksum))
    return some (reply 0 2 "success")

theorem complete_eq (c : Chunk) (file_path : Str) (body : Bytes) :
    complete c file_path body = saveChunk c file_path body >>= fun saved =>
      if !saved then pure (some (reply (-1) 1 "save chunk failed")) else checking c := by
  simp only [complete, receive, collect, Prog.bind_assoc, Prog.ite_bind, Prog.pure_bind, checking,
    merging, uploading]
  congr 1
  funext saved
  congr 1
  congr 1
  funext ready
  congr 1
  congr 1
  funext merged_path
  congr 1
  congr 1
  funext uploaded
  cases uploaded <;> rfl

section

variable {env : Env} {fates : Fates}

/-- A part that leaves no transaction open can be run on its own. -/
theorem run_part_bind {α β : Type} {p : Servlet α} {f : α → Servlet β} {s s' : Store}
    (h : (p.run (performOp env fates) s.idle).2 = s'.idle) :
    (p >>= f).run (performOp env fates) s.idle
      = (f (runPart env fates p s).1).run (performOp env fates) (runPart env fates p s).2.idle := by
  rw [Prog.run_bind, runPart, runOps, h]
  rfl

theorem run_call_bind {β : Type} (e : External) {f : e.Answer → Servlet β} {s : Store}
    (he : (Op.ext e).isLocal) :
    (call (.ext e) >>= f).run (performOp env fates) s.idle
      = (f (runPart env fates (call (.ext e)) s).1).run (performOp env fates)
          (runPart env fates (call (.ext e)) s).2.idle := by
  obtain ⟨s', hs', -⟩ := performOp_local env fates s (.ext e) he
  exact run_part_bind hs'

/-- **One stage is the beginning of the rest.** -/
theorem rest_performStage (env : Env) (fates : Fates) (c : Chunk) (file_path : Str)
    (body : Bytes) (s : Store) (stage : Stage) :
    (rest c file_path body (.before stage)).run (performOp env fates) s.idle
      = (rest c file_path body (performStage env fates c file_path body s stage).1).run
          (performOp env fates) (performStage env fates c file_path body s stage).2.idle := by
  cases stage with
  | saveChunk =>
    have hlocal : (saveChunk c file_path body).Only Op.isLocal :=
      Prog.only_ite (fun _ => ⟨trivial, fun _ => trivial⟩) fun _ => ⟨trivial, fun _ => trivial⟩
    obtain ⟨s', -, hrun⟩ := run_of_local env fates s hlocal
    rw [rest, complete_eq, run_part_bind (congrArg Prod.snd hrun), performStage]
    split_ifs <;> rfl
  | isAllChunksReady =>
    rw [rest, checking, run_call_bind (.isAllChunksReady _ _ _) trivial, performStage]
    split_ifs <;> rfl
  | mergeChunks =>
    rw [rest, merging, run_call_bind (.mergeChunks _ _ _) trivial, performStage]
    split_ifs <;> rfl
  | uploadBigFile merged_path =>
    obtain ⟨r, s', hcall, -⟩ := uploadBigFile_run env fates merged_path s
    have hrun : (call (.ext (.uploadBigFile merged_path))).run (performOp env fates) s.idle
        = (r, s'.idle) := by rw [call, Prog.run_perform, hcall]
    have hpart : runPart env fates (call (.ext (.uploadBigFile merged_path))) s = (r, s') := by
      rw [runPart, runOps, hrun]
      rfl
    rw [rest, uploading, run_part_bind (congrArg Prod.snd hrun), performStage, hpart]
    cases r <;> rfl
  | transaction file_id =>
    obtain ⟨d, db, hrun, -⟩ := storeUpload_run env fates s c.request_meta file_id
    have hpart : runPart env fates (storeUpload c.request_meta file_id) s = (d, s.setDb db) := by
      rw [runPart, runOps, hrun]
      rfl
    rw [rest, store, run_part_bind (congrArg Prod.snd hrun), performStage, hpart]
    cases d with
    | none => rfl
    | some d => simp only; split_ifs <;> rfl
  | Rm =>
    rw [rest, run_call_bind (.rmTask _ _) trivial, performStage]
    rfl

end

theorem handle_admitted {env : Env} {fates : Fates} {s : Store} {access : Access} {r : ChunkRequest}
    {c : Chunk} (hc : chunkMeta r = some c)
    (hfields : ¬ (c.request_meta.owner = [] ∨ c.request_meta.checksum = []
      ∨ c.request_meta.size ≤ 0 ∨ c.chunk_index < 0 ∨ c.request_meta.type = []
      ∨ c.total_chunks ≤ 0))
    (hadmitted : asks env fates s (admission access c.request_meta) = none) :
    (handle access r).run (performOp env fates) s.idle
      = (complete c r.file_path r.body).run (performOp env fates) s.idle := by
  have hadmit := run_of_read env fates s (admission_read access c.request_meta)
  rw [hadmitted] at hadmit
  obtain ⟨x, s', hreceive, -⟩ := receive_run env fates c r.file_path r.body s
  cases x <;> simp only [handle, complete, hc, hfields, if_false, Prog.run_bind, hadmit, hreceive]

end ChunkUploadServlet

/-- Concurrent requests of one upload.  There is one for each chunk, and it has the
number of its chunk; `total_chunks` is an `int` that is not negative. -/
structure ChunkRequests where
  project_name : Str
  checksum : Str
  total_chunks : Fin (2 ^ 31)
  /-- The other fields of the metadata. -/
  request_meta : Fin total_chunks → ArtifactMetadata
  file_path : Fin total_chunks → Str
  body : Fin total_chunks → Bytes
  fates : Fin total_chunks → Fates

namespace ChunkRequests

variable (env : Env) (u : ChunkRequests)

def chunk (i : Fin u.total_chunks) : ChunkUploadServlet.Chunk where
  request_meta := { u.request_meta i with owner := u.project_name, checksum := u.checksum }
  total_chunks := (u.total_chunks : Nat)
  chunk_index := (i : Nat)

/-- The store, and where each request is. -/
structure State where
  store : Store
  phase : Fin u.total_chunks → Phase

variable {u} in
/-- Request `i` has come to `r.1`, the store to `r.2`. -/
def State.put (s : u.State) (i : Fin u.total_chunks) (r : Phase × Store) : u.State :=
  ⟨r.2, Function.update s.phase i r.1⟩

/-- What request `i` does at a stage. -/
def perform (i : Fin u.total_chunks) (s : Store) (stage : Stage) : Phase × Store :=
  ChunkUploadServlet.performStage env (u.fates i) (u.chunk i) (u.file_path i) (u.body i) s stage

/-- The next stage of request `i`. -/
def step (s : u.State) (i : Fin u.total_chunks) : Option u.State :=
  match s.phase i with
  | .answered _ _ => none
  | .before stage => some (s.put i (u.perform env i s.store stage))

def taskPath : Str := buildTaskPath env.tmp_path u.project_name u.checksum

def dir : Loc := taskDir env.tmp_path env.cwd u.project_name u.checksum

/-- As many chunks are in the task directory as there should be. -/
def Full (s : u.State) : Prop :=
  isAllChunksReady env.tmp_path env.cwd u.project_name u.checksum s.store.fs u.total_chunks = true

instance (s : u.State) : Decidable (u.Full env s) := inferInstanceAs (Decidable (_ = _))

/-- No request has saved its chunk. -/
def Begins (s : u.State) : Prop := ∀ i, s.phase i = .before .saveChunk

/-- At most one request merges and uploads the chunks, and none whose chunk was saved
fails when another one has completed the upload. -/
structure Once (s : u.State) : Prop where
  unique : ∀ i j, (s.phase i).Passed → (s.phase j).Passed → i = j
  unharmed : ∀ i j, i ≠ j → (s.phase j).Completed → (s.phase i).Saved → ¬ (s.phase i).Failed

/-- No request checks a full task directory that another one has found full and not yet
removed, and a directory that is removed is there. -/
def Orderly (s : u.State) (i : Fin u.total_chunks) : Prop :=
  (s.phase i = .before .isAllChunksReady → u.Full env s →
      ∀ j, j ≠ i → (s.phase j).Passed → (s.phase j).Removed)
    ∧ (s.phase i = .before .Rm → opendir s.store.fs env.cwd (u.taskPath env) ≠ none)

instance (s : u.State) (i : Fin u.total_chunks) : Decidable (u.Orderly env s i) :=
  inferInstanceAs (Decidable (_ ∧ _))

/-- What is known in an orderly run. -/
structure Inv (s : u.State) : Prop where
  unique : ∀ i j, (s.phase i).Passed → (s.phase j).Passed → i = j
  /-- The answer at the check is no error. -/
  checked : ∀ i, (s.phase i).stage = .isAllChunksReady → ¬ (s.phase i).Failed
  /-- After the removal only chunks of other requests are put into the directory. -/
  removed : ∀ j, (s.phase j).Removed → ∀ n c,
    FileSystem.get s.store.fs (n :: u.dir env) = some (.file c) →
      stoi n = none ∨ ∃ i, i ≠ j ∧ n = to_string (i : Nat)

variable {env u}

section

variable {s : u.State} {i j : Fin u.total_chunks} {r : Phase × Store}

@[simp] theorem State.put_store : (s.put i r).store = r.2 := rfl

@[simp] theorem State.put_phase_self : (s.put i r).phase i = r.1 := Function.update_self _ _ _

@[simp] theorem State.put_phase_ne (h : j ≠ i) : (s.put i r).phase j = s.phase j :=
  Function.update_of_ne h _ _

end

/-! ### The stages -/

theorem perform_isAllChunksReady (i : Fin u.total_chunks) (s : Store) :
    u.perform env i s .isAllChunksReady
      = (if isAllChunksReady env.tmp_path env.cwd u.project_name u.checksum s.fs u.total_chunks
          then .before .mergeChunks
          else .answered .isAllChunksReady
            (reply 0 0 s!"chunk {(u.chunk i).chunk_index + 1}/{(u.chunk i).total_chunks} uploaded"),
        s) := by
  have hrun : runPart env (u.fates i) (call (.ext (.isAllChunksReady u.project_name u.checksum
      u.total_chunks))) s = (isAllChunksReady env.tmp_path env.cwd u.project_name u.checksum s.fs
        u.total_chunks, s) := rfl
  rw [perform, ChunkUploadServlet.performStage]
  simp only [chunk, hrun]
  split_ifs <;> simp_all

/-- A request saves no other chunk than its own. -/
theorem perform_saveChunk_files (h0 : '\x00' ∉ u.taskPath env) {i : Fin u.total_chunks} {s : Store}
    {n : Name} {c : Bytes}
    (hget : FileSystem.get (u.perform env i s .saveChunk).2.fs (n :: u.dir env) = some (.file c)) :
    n = to_string (i : Nat) ∨ FileSystem.get s.fs (n :: u.dir env) = some (.file c) := by
  change FileSystem.get (runPart env (u.fates i) (ChunkUploadServlet.saveChunk (u.chunk i)
    (u.file_path i) (u.body i)) s).2.fs (n :: u.dir env) = some (.file c) at hget
  rw [ChunkUploadServlet.saveChunk] at hget
  split_ifs at hget
  · exact saveChunk_files h0 hget
  · exact saveChunkContent_files h0 hget

theorem perform_saveChunk_phase (env : Env) (i : Fin u.total_chunks) (s : Store) :
    (u.perform env i s .saveChunk).1 = .before .isAllChunksReady
      ∨ (u.perform env i s .saveChunk).1
        = .answered .saveChunk (reply (-1) 1 "save chunk failed") := by
  rw [perform, ChunkUploadServlet.performStage]
  split_ifs
  · exact .inr rfl
  · exact .inl rfl

/-- A request that goes on to merge and upload does not come back to the check, and
removes the task directory only at the end. -/
theorem perform_later (env : Env) (i : Fin u.total_chunks) (s : Store) (stage : Stage)
    (hsave : stage ≠ .saveChunk) (hcheck : stage ≠ .isAllChunksReady) (hRm : stage ≠ .Rm) :
    (u.perform env i s stage).1.stage ≠ .isAllChunksReady
      ∧ ¬ (u.perform env i s stage).1.Removed := by
  cases stage with
  | saveChunk => exact absurd rfl hsave
  | isAllChunksReady => exact absurd rfl hcheck
  | mergeChunks =>
    rw [perform, ChunkUploadServlet.performStage]
    split_ifs <;> exact ⟨nofun, nofun⟩
  | uploadBigFile merged_path =>
    simp only [perform, ChunkUploadServlet.performStage]
    split <;> exact ⟨nofun, nofun⟩
  | transaction file_id =>
    simp only [perform, ChunkUploadServlet.performStage]
    split
    · exact ⟨nofun, nofun⟩
    · split_ifs <;> exact ⟨nofun, nofun⟩
  | Rm => exact absurd rfl hRm

/-- After the last stage the task directory holds no file. -/
theorem perform_Rm_files (h0 : '\x00' ∉ u.taskPath env) {i : Fin u.total_chunks} {s : Store}
    (hdir : opendir s.fs env.cwd (u.taskPath env) ≠ none) (n : Name) (c : Bytes) :
    FileSystem.get (u.perform env i s .Rm).2.fs (n :: u.dir env) ≠ some (.file c) := by
  obtain ⟨l, hl⟩ := Option.ne_none_iff_exists'.mp hdir
  obtain rfl := opendir_taskDir h0 hl
  exact Rm_files hl

/-! ### What one stage keeps -/

/-- What is read as an index after the removal is the chunk of another request. -/
theorem Inv.index_of_removed {s : u.State} (hs : u.Inv env s) {j : Fin u.total_chunks}
    (hj : (s.phase j).Removed) {n : Name} {c : Bytes} {x : Int}
    (hget : FileSystem.get s.store.fs (n :: u.dir env) = some (.file c)) (hx : stoi n = some x) :
    ∃ i, i ≠ j ∧ n = to_string (i : Nat) ∧ x = (i : Nat) := by
  obtain hnone | ⟨i, hij, rfl⟩ := hs.removed j hj n c hget
  · rw [hnone] at hx
    exact nomatch hx
  · rw [stoi_to_string (i.isLt.trans u.total_chunks.isLt)] at hx
    exact ⟨i, hij, rfl, (Option.some.inj hx).symm⟩

/-- After the removal the task directory does not fill up again: one chunk is missing. -/
theorem Inv.not_full (h0 : '\x00' ∉ u.taskPath env) {s : u.State} (hs : u.Inv env s)
    {j : Fin u.total_chunks} (hj : (s.phase j).Removed) : ¬ u.Full env s := by
  intro hfull
  have hlen := isAllChunksReady_iff.mp hfull
  obtain ⟨l, hdir⟩ := opendir_of_ready (Nat.zero_lt_of_lt j.isLt) hlen
  obtain rfl := opendir_taskDir h0 hdir
  have hnodup : (GetIndices s.store.fs env.cwd (u.taskPath env)).Nodup := by
    refine nodup_GetIndices_of_inj hdir fun n n' c c' x hget hx hget' hx' => ?_
    obtain ⟨i, -, rfl, rfl⟩ := hs.index_of_removed hj hget hx
    obtain ⟨k, -, rfl, hik⟩ := hs.index_of_removed hj hget' hx'
    have heq : (i : Nat) = k := by exact_mod_cast hik
    rw [heq]
  have hsub : (GetIndices s.store.fs env.cwd (u.taskPath env)).toFinset
      ⊆ (Finset.univ.erase j).image fun i : Fin u.total_chunks => ((i : Nat) : Int) := by
    intro x hx
    obtain ⟨n, c, hget, hx⟩ := (mem_GetIndices_iff hdir).mp (List.mem_toFinset.mp hx)
    obtain ⟨i, hij, -, rfl⟩ := hs.index_of_removed hj hget hx
    exact Finset.mem_image.mpr ⟨i, Finset.mem_erase.mpr ⟨hij, Finset.mem_univ i⟩, rfl⟩
  have hcard := (Finset.card_le_card hsub).trans Finset.card_image_le
  rw [List.toFinset_card_of_nodup hnodup, Finset.card_erase_of_mem (Finset.mem_univ j),
    Finset.card_univ, Fintype.card_fin] at hcard
  have hpos := Nat.zero_lt_of_lt j.isLt
  change (GetIndices s.store.fs env.cwd (u.taskPath env)).length = u.total_chunks at hlen
  omega

/-- A request that has found all chunks ready goes on, the only one that has. -/
theorem Inv.passed {s : u.State} (hs : u.Inv env s) {i : Fin u.total_chunks}
    (hi : ∀ j, (s.phase j).Passed → j = i) {r : Phase × Store} (hp : r.1.stage ≠ .isAllChunksReady)
    (hremoved : r.1.Removed → ∀ n c, FileSystem.get r.2.fs (n :: u.dir env) ≠ some (.file c)) :
    u.Inv env (s.put i r) := by
  have honly : ∀ {j}, ((s.put i r).phase j).Passed → j = i := by
    intro j hj
    by_contra hji
    rw [State.put_phase_ne hji] at hj
    exact hji (hi j hj)
  refine ⟨fun j k hj hk => (honly hj).trans (honly hk).symm, fun j hj => ?_, fun j hj n c hget => ?_⟩
  · by_cases hji : j = i
    · subst hji
      rw [State.put_phase_self] at hj
      exact absurd hj hp
    · rw [State.put_phase_ne hji] at hj ⊢
      exact hs.checked j hj
  · by_cases hji : j = i
    · subst hji
      rw [State.put_phase_self] at hj
      exact absurd hget (hremoved hj n c)
    · rw [State.put_phase_ne hji] at hj
      exact absurd (hi j hj.passed) hji

/-- A request that has not found all chunks ready, or not yet, goes on. -/
theorem Inv.waiting {s : u.State} (hs : u.Inv env s) {i : Fin u.total_chunks} {r : Phase × Store}
    (hp : ¬ r.1.Passed) (hchecked : r.1.stage = .isAllChunksReady → ¬ r.1.Failed)
    (hfiles : ∀ n c, FileSystem.get r.2.fs (n :: u.dir env) = some (.file c) →
      n = to_string (i : Nat) ∨ FileSystem.get s.store.fs (n :: u.dir env) = some (.file c)) :
    u.Inv env (s.put i r) := by
  have hother : ∀ {j}, ((s.put i r).phase j).Passed → j ≠ i := by
    rintro j hj rfl
    rw [State.put_phase_self] at hj
    exact hp hj
  refine ⟨fun j k hj hk => ?_, fun j hj => ?_, fun j hj n c hget => ?_⟩
  · have hji := hother hj
    have hki := hother hk
    rw [State.put_phase_ne hji] at hj
    rw [State.put_phase_ne hki] at hk
    exact hs.unique j k hj hk
  · by_cases hji : j = i
    · subst hji
      rw [State.put_phase_self] at hj ⊢
      exact hchecked hj
    · rw [State.put_phase_ne hji] at hj ⊢
      exact hs.checked j hj
  · have hji := hother hj.passed
    rw [State.put_phase_ne hji] at hj
    obtain rfl | hold := hfiles n c hget
    · exact .inr ⟨i, hji.symm, rfl⟩
    · exact hs.removed j hj n c hold

theorem Inv.step (h0 : '\x00' ∉ u.taskPath env) {s t : u.State} (hs : u.Inv env s)
    {i : Fin u.total_chunks} (hC : u.Orderly env s i) (h : u.step env s i = some t) :
    u.Inv env t := by
  rw [ChunkRequests.step] at h
  cases hi : s.phase i with
  | answered stage response =>
    rw [hi] at h
    exact nomatch h
  | before stage =>
    rw [hi] at h
    obtain rfl := Option.some.inj h
    -- from the merge on the request is the only one that has passed
    have honly : stage ≠ .saveChunk → stage ≠ .isAllChunksReady →
        ∀ j, (s.phase j).Passed → j = i := by
      intro hsave hcheck j hj
      refine hs.unique j i hj ?_
      rw [hi]
      exact ⟨hsave, hcheck⟩
    cases stage with
    | saveChunk =>
      refine hs.waiting ?_ ?_ fun n c hget => perform_saveChunk_files h0 hget
      · obtain hp | hp := perform_saveChunk_phase env i s.store <;> rw [hp]
        · exact fun h => h.2 rfl
        · exact fun h => h.1 rfl
      · obtain hp | hp := perform_saveChunk_phase env i s.store <;> rw [hp]
        · exact fun _ => not_false
        · exact nofun
    | isAllChunksReady =>
      rw [perform_isAllChunksReady]
      split_ifs with hfull
      · refine hs.passed (fun j hj => ?_) nofun nofun
        by_contra hji
        exact hs.not_full h0 (hC.1 hi hfull j hji hj) hfull
      · exact hs.waiting (fun h => h.2 rfl) (fun _ h => h rfl) fun n c hget => .inr hget
    | mergeChunks =>
      have hp := perform_later env i s.store .mergeChunks nofun nofun nofun
      exact hs.passed (honly nofun nofun) hp.1 fun h => absurd h hp.2
    | uploadBigFile merged_path =>
      have hp := perform_later env i s.store (.uploadBigFile merged_path) nofun nofun
        nofun
      exact hs.passed (honly nofun nofun) hp.1 fun h => absurd h hp.2
    | transaction file_id =>
      have hp := perform_later env i s.store (.transaction file_id) nofun nofun nofun
      exact hs.passed (honly nofun nofun) hp.1 fun h => absurd h hp.2
    | Rm =>
      exact hs.passed (honly nofun nofun) nofun fun _ => perform_Rm_files h0 (hC.2 hi)

/-! ### A request on its own -/

/-- How many stages are left at most. -/
def stagesLeft : Stage → Nat
  | .saveChunk => 6
  | .isAllChunksReady => 5
  | .mergeChunks => 4
  | .uploadBigFile _ => 3
  | .transaction _ => 2
  | .Rm => 1

theorem stagesLeft_perform {i : Fin u.total_chunks} {s : Store} {stage stage' : Stage}
    (h : (u.perform env i s stage).1 = .before stage') : stagesLeft stage' < stagesLeft stage := by
  cases stage with
  | saveChunk =>
    obtain hp | hp := perform_saveChunk_phase env i s <;> rw [hp] at h
    · obtain rfl := Phase.before.inj h
      exact Nat.lt_succ_self _
    · exact nomatch h
  | isAllChunksReady =>
    rw [perform_isAllChunksReady] at h
    simp only at h
    split_ifs at h
    obtain rfl := Phase.before.inj h
    exact Nat.lt_succ_self _
  | mergeChunks =>
    rw [perform, ChunkUploadServlet.performStage] at h
    simp only at h
    split_ifs at h
    obtain rfl := Phase.before.inj h
    exact Nat.lt_succ_self _
  | uploadBigFile merged_path =>
    simp only [perform, ChunkUploadServlet.performStage] at h
    split at h
    · exact nomatch h
    · obtain rfl := Phase.before.inj h
      exact Nat.lt_succ_self _
  | transaction file_id =>
    simp only [perform, ChunkUploadServlet.performStage] at h
    split at h
    · exact nomatch h
    · split_ifs at h
      obtain rfl := Phase.before.inj h
      exact Nat.lt_succ_self _
  | Rm => exact nomatch h

/-- A request that goes on alone comes to its answer. -/
theorem answers (n : Nat) :
    ∀ {s : u.State} {i : Fin u.total_chunks} {stage : Stage}, s.phase i = .before stage →
      stagesLeft stage ≤ n → ∃ k t stage' response,
        Transition.exec (u.step env) s (List.replicate k i) = some t
        ∧ t.phase i = .answered stage' response ∧ (∀ j, j ≠ i → t.phase j = s.phase j)
        ∧ (ChunkUploadServlet.rest (u.chunk i) (u.file_path i) (u.body i) (.before stage)).run
          (performOp env (u.fates i)) s.store.idle = (some response, t.store.idle) := by
  induction n with
  | zero =>
    intro s i stage _ hn
    cases stage <;> exact nomatch hn
  | succ n ih =>
    intro s i stage hi hn
    have hstep : u.step env s i = some (s.put i (u.perform env i s.store stage)) := by
      rw [ChunkRequests.step, hi]
    have hrest := ChunkUploadServlet.rest_performStage env (u.fates i) (u.chunk i)
      (u.file_path i) (u.body i) s.store stage
    change _ = (ChunkUploadServlet.rest (u.chunk i) (u.file_path i) (u.body i)
      (u.perform env i s.store stage).1).run (performOp env (u.fates i))
      (u.perform env i s.store stage).2.idle at hrest
    have hself : (s.put i (u.perform env i s.store stage)).phase i
        = (u.perform env i s.store stage).1 := State.put_phase_self
    cases hp : (u.perform env i s.store stage).1 with
    | answered stage' response =>
      rw [hp] at hrest hself
      refine ⟨1, _, stage', response, ?_, hself, fun j hj => State.put_phase_ne hj, hrest⟩
      rw [List.replicate_one, Transition.exec, hstep]
      rfl
    | before stage' =>
      have hless := stagesLeft_perform hp
      rw [hp] at hrest hself
      obtain ⟨k, t, stage'', response, hrun, ht, hother, hanswer⟩ := ih hself (by omega)
      refine ⟨k + 1, t, stage'', response, ?_, ht, fun j hj => ?_, hrest.trans hanswer⟩
      · rw [List.replicate_succ, Transition.exec, hstep]
        exact hrun
      · rw [hother j hj, State.put_phase_ne hj]

/-- **A request that is not interrupted** does what `handle` does with it. -/
theorem alone {s : u.State} {i : Fin u.total_chunks} (hi : s.phase i = .before .saveChunk)
    {access : Access} {r : ChunkRequest}
    (hc : ChunkUploadServlet.chunkMeta r = some (u.chunk i)) (hfile : r.file_path = u.file_path i)
    (hbody : r.body = u.body i)
    (hfields : ¬ ((u.chunk i).request_meta.owner = [] ∨ (u.chunk i).request_meta.checksum = []
      ∨ (u.chunk i).request_meta.size ≤ 0 ∨ (u.chunk i).chunk_index < 0
      ∨ (u.chunk i).request_meta.type = [] ∨ (u.chunk i).total_chunks ≤ 0))
    (hadmitted : asks env (u.fates i) s.store (admission access (u.chunk i).request_meta) = none) :
    ∃ k t stage response, Transition.exec (u.step env) s (List.replicate k i) = some t
      ∧ t.phase i = .answered stage response ∧ (∀ j, j ≠ i → t.phase j = s.phase j)
      ∧ (ChunkUploadServlet.handle access r).run (performOp env (u.fates i)) s.store.idle
        = (some response, t.store.idle) := by
  rw [ChunkUploadServlet.handle_admitted hc hfields hadmitted, hfile, hbody]
  exact answers 6 hi (by decide)

/-! ### Runs -/

theorem inv_of_begins {s : u.State} (hs : u.Begins s) : u.Inv env s := by
  refine ⟨fun i j hi _ => ?_, fun i hi => ?_, fun j hj => ?_⟩
  · rw [hs i] at hi
    exact absurd rfl hi.1
  · rw [hs i] at hi
    exact nomatch hi
  · rw [hs j] at hj
    exact hj.elim

theorem Inv.once {s : u.State} (hs : u.Inv env s) : u.Once s := by
  refine ⟨hs.unique, fun i j hij hj hi hfailed => hij (hs.unique i j ⟨hi, ?_⟩ ?_)⟩
  · exact fun h => hs.checked i h hfailed
  · rw [Phase.Completed] at hj
    exact ⟨by rw [Phase.Saved, hj]; nofun, by rw [hj]; nofun⟩

/-- **The upload is completed once** in every orderly run. -/
theorem once_throughout (h0 : '\x00' ∉ u.taskPath env) {s : u.State} (hs : u.Begins s)
    {schedule : List (Fin u.total_chunks)}
    (h : Transition.Along (u.step env) (u.Orderly env) s schedule) :
    Transition.Throughout (u.step env) u.Once s schedule := by
  refine Transition.Along.throughout (I := u.Inv env) ?_ (fun _ => Inv.once) (inv_of_begins hs) h
  intro s i t hs hC ht
  exact hs.step h0 hC ht

/-! ### Two chunks -/

attribute [local instance] ChunkManager.neZero_index

/-- Two requests with the chunks of a file in their bodies; nothing fails from outside. -/
def twoChunks : ChunkRequests where
  project_name := "p".toList
  checksum := "c".toList
  total_chunks := 2
  request_meta := fun _ => ⟨[], [], [], "c".toList, "bin".toList, [], [], [], [], 2, false⟩
  file_path := fun _ => []
  body := fun i => [i.val.toUInt8]
  fates := fun _ _ _ => .ok

def twoChunksEnv : Env where
  tmp_path := "t".toList
  cwd := []
  chunk_sizes := 1
  sha1 := id
  newFileId := fun n => List.replicate n '0'
  back := id

def twoChunksStart : twoChunks.State where
  store := ⟨⟨[], [], [], []⟩, [], 0, ∅⟩
  phase := fun _ => .before .saveChunk

def first : Fin twoChunks.total_chunks := ⟨0, by decide⟩

def second : Fin twoChunks.total_chunks := ⟨1, by decide⟩

/-- One request after the other. -/
theorem once_throughout_twoChunks :
    Transition.Throughout (twoChunks.step twoChunksEnv) twoChunks.Once twoChunksStart
      [first, first, second, second, second, second, second, second] :=
  once_throughout (by decide) (fun _ => rfl) (by decide +kernel)

/-- **Both requests find the chunks ready**, and the second one fails because the first
one has removed them. -/
theorem checkedTogether_not_once :
    twoChunks.Begins twoChunksStart
      ∧ ¬ Transition.Throughout (twoChunks.step twoChunksEnv) twoChunks.Once twoChunksStart
        [first, second, first, second, first, first, first, first, second] := by
  refine ⟨fun _ => rfl, fun h => ?_⟩
  have h9 := ((((((((h.2 _ rfl).2 _ rfl).2 _ rfl).2 _ rfl).2 _ rfl).2 _ rfl).2 _ rfl).2 _ rfl).2 _ rfl
  exact h9.unharmed second first (by decide) (by decide +kernel) (by decide +kernel)
    (by decide +kernel)

end ChunkRequests

end FiberServer
