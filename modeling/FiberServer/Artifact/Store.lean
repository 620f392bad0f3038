import FiberServer.Artifact.Servlets
import FiberServer.Chunk.ChunkManager

/-!
# Requests one after the other

A request runs on one connection.  Each statement has a fate: it is carried out,
it fails on the server, or it is lost before it gets there.  A transaction keeps
the tables of its start in `saved`; `COMMIT`, and any `CREATE TABLE` that reaches
the server, forgets them, `ROLLBACK` and the end of the connection bring them
back.

* `serve`: a whole request.
* `performOp_CreateArtifact`, `performOp_DeleteArtifact`: what the helpers do that
  run a `CREATE TABLE` first.
-/

namespace FiberServer

open FileSystem ChunkManager

/-- What is fixed: the configuration, FastDFS's choice of file ids, and what a
stream reads from a file that is being written. -/
structure Env where
  tmp_path : Str
  cwd : Loc
  chunk_sizes : Int
  sha1 : Str → Str
  newFileId : Nat → Str
  back : Bytes → Bytes

/-- What requests share: the tables, the files in FastDFS, how many files it was
given, and the local file system. -/
structure Store where
  db : Tables
  files : List (Str × Bytes)
  uploads : Nat
  fs : FS Bytes

/-- A store with the open transaction of a request. -/
structure World extends Store where
  saved : Option Tables

/-- What becomes of a statement or another call. -/
inductive Fate
  | ok
  | error
  | lost
  deriving DecidableEq, Repr

@[simp] theorem Fate.error_beq_ok : (Fate.error == Fate.ok) = false := rfl

@[simp] theorem Fate.lost_beq_ok : (Fate.lost == Fate.ok) = false := rfl

/-- The tables when the open transaction is undone. -/
def World.committed (w : World) : Tables := w.saved.getD w.db

/-- The implicit and the explicit commit. -/
def World.commit (w : World) : World := { w with saved := none }

def World.rollback (w : World) : World := { w with db := w.committed, saved := none }

/-- A statement with its fate.  A `ROLLBACK` that gets lost ends the connection,
which rolls back as well. -/
def execute (st : Statement) (fate : Fate) (w : World) : Option st.Answer × World :=
  match st with
  | .begin => if fate = .ok then (some (), { w with saved := some w.db }) else (none, w)
  | .commit => if fate = .ok then (some (), w.commit) else (none, w)
  | .rollback => (if fate = .ok then some () else none, w.rollback)
  | .createTable =>
    match fate with
    | .ok => (some (), w.commit)
    | .error => (none, w.commit)
    | .lost => (none, w)
  | st =>
    if fate = .ok then
      match w.db.apply st with
      | some r => (some r.1, { w with db := r.2 })
      | none => (none, w)
    else (none, w)

namespace External

/-- FastDFS takes a file. -/
def upload (env : Env) (content : Bytes) (w : World) : Option Str × World :=
  (some (env.newFileId w.uploads),
    { w with files := w.files ++ [(env.newFileId w.uploads, content)], uploads := w.uploads + 1 })

/-- A call that is not SQL; one that fails on the other side does nothing. -/
def perform (env : Env) (fate : Fate) (w : World) : (e : External) → e.Answer × World
  | .connect _ => (fate == .ok, w)
  | .uploadSmallFile content => if fate = .ok then upload env content w else (none, w)
  | .uploadBigFile file_path =>
    match fileContent w.fs env.cwd file_path with
    | some content => if fate = .ok then upload env content w else (none, w)
    | none => (none, w)
  | .deleteFile file_id =>
    if fate = .ok then (true, { w with files := w.files.filter fun f => f.1 ≠ file_id })
    else (false, w)
  | .getUploadedChunks username md5 =>
    (ChunkManager.getUploadedChunks env.tmp_path env.cwd username md5 w.fs, w)
  | .mkdirTask username md5 =>
    let r := FSUtil.Mkdir w.fs env.cwd (buildTaskPath env.tmp_path username md5)
    (r.2, { w with fs := r.1 })
  | .saveChunk tmp_file_path username md5 index =>
    let r := ChunkManager.saveChunk env.tmp_path env.cwd username md5 w.fs tmp_file_path index
    (r.2, { w with fs := r.1 })
  | .saveChunkContent content username md5 index =>
    let r := ChunkManager.saveChunkContent env.tmp_path env.cwd username md5 w.fs content index
    (r.2, { w with fs := r.1 })
  | .isAllChunksReady username md5 total_chunks =>
    (ChunkManager.isAllChunksReady env.tmp_path env.cwd username md5 w.fs total_chunks.toNat, w)
  | .mergeChunks username md5 total_chunks =>
    let r := ChunkManager.mergeChunks env.tmp_path env.cwd username md5 env.back w.fs
      total_chunks.toNat
    (r.2, { w with fs := r.1 })
  | .rmTask username md5 =>
    let r := FSUtil.Rm w.fs env.cwd (buildTaskPath env.tmp_path username md5)
    (r.2, { w with fs := r.1 })

end External

/-- A call, the `n`-th of its operation. -/
def performCall (env : Env) (fates : Nat → Fate) (c : Call) (s : Nat × World) :
    c.Answer × (Nat × World) :=
  match c with
  | .sql st => ((execute st (fates s.1) s.2).1, (s.1 + 1, (execute st (fates s.1) s.2).2))
  | .ext e => ((e.perform env (fates s.1) s.2).1, (s.1 + 1, (e.perform env (fates s.1) s.2).2))

/-- The fates of the calls of each operation. -/
abbrev Fates := Op → Nat → Fate

def performOp (env : Env) (fates : Fates) (op : Op) (w : World) : op.Answer × World :=
  let r := (op.prog env.sha1).run (performCall env (fates op)) (0, w)
  (r.1, r.2.2)

/-- A program of a servlet on a world. -/
def runOps {α : Type} (env : Env) (fates : Fates) (p : Servlet α) (w : World) : α × World :=
  p.run (performOp env fates) w

/-- A request on its own connection.  What is not committed when the connection is
given back is lost. -/
def serve (env : Env) (fates : Fates) (req : Request) (s : Store) : Option Response × Store :=
  let r := runOps env fates (req.handle env.chunk_sizes) { s with saved := none }
  (r.1, r.2.rollback.toStore)

/-! ### What each operation does -/

def Store.setDb (s : Store) (db : Tables) : Store := { s with db := db }

def World.setDb (w : World) (db : Tables) : World := { w with db := db }

/-- A connection without an open transaction. -/
def Store.idle (s : Store) : World := { s with saved := none }

/-- A connection whose open transaction has changed the tables into `db`. -/
def Store.opened (s : Store) (db : Tables) : World := { s with db := db, saved := some s.db }

@[simp] theorem Store.idle_db (s : Store) : s.idle.db = s.db := rfl

@[simp] theorem Store.idle_setDb (s : Store) (db : Tables) : s.idle.setDb db = (s.setDb db).idle :=
  rfl

@[simp] theorem Store.idle_commit (s : Store) : s.idle.commit = s.idle := rfl

@[simp] theorem Store.idle_rollback (s : Store) : s.idle.rollback = s.idle := rfl

@[simp] theorem Store.opened_db (s : Store) (db : Tables) : (s.opened db).db = db := rfl

@[simp] theorem Store.opened_setDb (s : Store) (db db' : Tables) :
    (s.opened db).setDb db' = s.opened db' := rfl

@[simp] theorem Store.opened_commit (s : Store) (db : Tables) :
    (s.opened db).commit = (s.setDb db).idle := rfl

@[simp] theorem Store.opened_rollback (s : Store) (db : Tables) : (s.opened db).rollback = s.idle :=
  rfl

@[simp] theorem Store.setDb_setDb (s : Store) (db db' : Tables) :
    (s.setDb db).setDb db' = s.setDb db' := rfl

@[simp] theorem Store.setDb_db (s : Store) (db : Tables) : (s.setDb db).db = db := rfl

@[simp] theorem Store.setDb_self (s : Store) : s.setDb s.db = s := rfl

namespace Tables

/-- What `GetArtifact` finds. -/
def readArtifact (f : Nat → Fate) (db : Tables) (c : Coordinate) : Option ArtifactInfo :=
  if f 0 = .ok ∧ f 1 = .ok then db.artifact c else none

/-- `CreateArtifact` finds the coordinate with the same checksum. -/
def sameArtifact (f : Nat → Fate) (db : Tables) (a : ArtifactInfo) : Bool :=
  f 0 == .ok && f 1 == .ok && f 2 == .ok
    && (db.artifact a.coordinate).any fun e => e.checksum == a.checksum

/-- The `INSERT` of `CreateArtifact` is carried out; it is one statement earlier
when the `CREATE TABLE` of `GetArtifact` fails. -/
def insertsArtifact (f : Nat → Fate) (db : Tables) (a : ArtifactInfo) : Bool :=
  f 0 == .ok && f (if f 1 = .ok then 3 else 2) == .ok && (db.artifact a.coordinate).isNone

/-- `ValidateToken`. -/
def validToken (f : Nat → Fate) (db : Tables) (sha1 : Str → Str) (project_name token : Str) :
    Bool :=
  project_name != [] && token != [] && f 0 == .ok && f 1 == .ok
    && db.project_token.any fun t =>
      t.project_name = project_name ∧ t.token_hash = sha1 token ∧ t.status = 1

def addArtifact (db : Tables) (a : ArtifactInfo) : Tables :=
  { db with artifact_info := db.artifact_info ++ [a] }

def removeArtifact (db : Tables) (c : Coordinate) : Tables :=
  { db with artifact_info := db.artifact_info.filter fun a => a.coordinate ≠ c }

def addFile (db : Tables) (f : FileInfo) : Tables := { db with file_info := db.file_info ++ [f] }

def removeFile (db : Tables) (owner filename : Str) : Tables :=
  { db with file_info := db.file_info.filter fun f => ¬ (f.owner = owner ∧ f.filename = filename) }

def addShared (db : Tables) (s : FileShared) : Tables :=
  { db with file_shared := db.file_shared ++ [s] }

def removeShared (db : Tables) (md5 : Str) : Tables :=
  { db with file_shared := db.file_shared.filter fun s => s.file_md5 ≠ md5 }

def increment (db : Tables) (md5 : Str) : Tables := db.updateRef md5 (· + 1)

def decrement (db : Tables) (md5 : Str) : Tables :=
  db.updateRef md5 fun n => if 0 < n then n - 1 else n

end Tables

section

variable {env : Env} {f : Nat → Fate} {n : Nat} {w : World}

/-- A `CREATE TABLE` that reaches the server commits. -/
def World.createTable (w : World) (fate : Fate) : World := if fate = .lost then w else w.commit

@[simp] theorem World.createTable_idle (s : Store) (fate : Fate) :
    s.idle.createTable fate = s.idle := by
  cases fate <;> rfl

@[simp] theorem World.commit_db (w : World) : w.commit.db = w.db := rfl

@[simp] theorem World.commit_commit (w : World) : w.commit.commit = w.commit := rfl

@[simp] theorem World.createTable_ok (w : World) : w.createTable .ok = w.commit := rfl

@[simp] theorem World.commit_createTable (w : World) (fate : Fate) :
    w.commit.createTable fate = w.commit := by
  cases fate <;> rfl

theorem run_send (st : Statement) :
    (send st).run (performCall env f) (n, w)
      = ((execute st (f n) w).1, (n + 1, (execute st (f n) w).2)) := rfl

theorem run_EnsureArtifactTable :
    artifact_info.EnsureArtifactTable.run (performCall env f) (n, w)
      = (f n == .ok, (n + 1, w.createTable (f n))) := by
  rw [artifact_info.EnsureArtifactTable, Prog.run_bind, run_send]
  cases hn : f n <;> rfl

/-- `GetArtifact` from its `n`-th statement on. -/
theorem run_GetArtifact (c : Coordinate) :
    (artifact_info.GetArtifact c).run (performCall env f) (n, w)
      = if f n = .ok then
          (if f (n + 1) = .ok then w.db.artifact c else none, (n + 2, w.commit))
        else (none, (n + 1, w.createTable (f n))) := by
  rw [artifact_info.GetArtifact, Prog.run_bind, run_EnsureArtifactTable]
  cases hn : f n with
  | ok =>
    simp only [beq_self_eq_true, if_true, Prog.run_bind, send, Prog.run_perform, performCall]
    cases hn' : f (n + 1) <;> rfl
  | error => rfl
  | lost => rfl

/-- The `INSERT` of `CreateArtifact`, the `n`-th statement. -/
theorem run_insertUnlessExisting (env : Env) (f : Nat → Fate) (w : World) (a : ArtifactInfo)
    (n : Nat) :
    let r := (artifact_info.insertUnlessExisting a none).run (performCall env f) (n, w)
    r.1 = (f n == .ok && (w.db.artifact a.coordinate).isNone)
      ∧ r.2.2 = if f n == .ok && (w.db.artifact a.coordinate).isNone
        then w.setDb (w.db.addArtifact a) else w := by
  rw [artifact_info.insertUnlessExisting, Prog.run_bind, run_send]
  cases f n with
  | ok =>
    cases hc : w.db.artifact a.coordinate with
    | none => simp only [execute, Tables.apply, hc]; exact ⟨rfl, rfl⟩
    | some e => simp only [execute, Tables.apply, hc]; exact ⟨rfl, rfl⟩
  | error => exact ⟨rfl, rfl⟩
  | lost => exact ⟨rfl, rfl⟩

/-- `CreateArtifact` commits what was done before it unless its `CREATE TABLE` is
lost. -/
theorem run_CreateArtifact (a : ArtifactInfo) :
    let r := (artifact_info.CreateArtifact a).run (performCall env f) (0, w)
    r.1 = (w.db.sameArtifact f a || w.db.insertsArtifact f a)
      ∧ r.2.2 = if w.db.insertsArtifact f a then w.commit.setDb (w.db.addArtifact a)
        else w.createTable (f 0) := by
  rw [artifact_info.CreateArtifact, Prog.run_bind, run_EnsureArtifactTable, Tables.sameArtifact,
    Tables.insertsArtifact]
  cases f 0 with
  | error => exact ⟨rfl, rfl⟩
  | lost => exact ⟨rfl, rfl⟩
  | ok =>
    simp only [beq_self_eq_true, if_true, Prog.run_bind, run_GetArtifact, Bool.true_and,
      World.createTable_ok, World.commit_db, World.commit_commit, World.commit_createTable]
    -- where `GetArtifact` finds nothing, the `INSERT` is the next statement
    have hinsert := run_insertUnlessExisting env f w.commit a
    cases h1 : f (0 + 1) with
    | ok =>
      cases h2 : f (0 + 1 + 1) with
      | ok =>
        cases hc : w.db.artifact a.coordinate with
        | some e => simp [artifact_info.insertUnlessExisting]
        | none => simpa [hc] using hinsert 3
      | error => simpa using hinsert 3
      | lost => simpa using hinsert 3
    | error => simpa using hinsert 2
    | lost => simpa using hinsert 2

end

section

variable {env : Env} {fates : Fates} {w : World}

theorem performOp_connect (use : Use) :
    performOp env fates (.ext (.connect use)) w = (fates (.ext (.connect use)) 0 == .ok, w) := by
  rw [performOp, Op.prog, Prog.run_perform]
  rfl

theorem performOp_ext (e : External) :
    performOp env fates (.ext e) w = e.perform env (fates (.ext e) 0) w := by
  rw [performOp, Op.prog, Prog.run_perform]
  rfl

theorem performOp_GetArtifact (c : Coordinate) (s : Store) :
    performOp env fates (.GetArtifact c) s.idle
      = (s.db.readArtifact (fates (.GetArtifact c)) c, s.idle) := by
  rw [performOp, Op.prog, run_GetArtifact, Tables.readArtifact]
  cases fates (.GetArtifact c) 0 <;> cases fates (.GetArtifact c) (0 + 1) <;> rfl

theorem performOp_ValidateToken (project_name token : Str) (s : Store) :
    performOp env fates (.ValidateToken project_name token) s.idle
      = (s.db.validToken (fates (.ValidateToken project_name token)) env.sha1 project_name token,
        s.idle) := by
  rw [performOp, Op.prog, project_token.ValidateToken, Tables.validToken]
  by_cases hempty : project_name = [] ∨ token = []
  · rw [if_pos hempty]
    rcases hempty with h | h <;> simp [h]
  · obtain ⟨hp, ht⟩ := not_or.mp hempty
    have hp' : (project_name != []) = true := by simpa using hp
    have ht' : (token != []) = true := by simpa using ht
    rw [if_neg hempty, Prog.run_bind, run_send, hp', ht']
    cases fates (.ValidateToken project_name token) 0 with
    | ok =>
      simp only [execute, Option.isSome_some, if_true, Prog.run_bind, send, Prog.run_perform,
        performCall]
      cases fates (.ValidateToken project_name token) (0 + 1) <;> rfl
    | error => rfl
    | lost => rfl

theorem performOp_CreateArtifact (a : ArtifactInfo) :
    performOp env fates (.CreateArtifact a) w
      = (w.db.sameArtifact (fates (.CreateArtifact a)) a
            || w.db.insertsArtifact (fates (.CreateArtifact a)) a,
        if w.db.insertsArtifact (fates (.CreateArtifact a)) a
          then w.commit.setDb (w.db.addArtifact a)
          else w.createTable (fates (.CreateArtifact a) 0)) :=
  Prod.ext (run_CreateArtifact a).1 (run_CreateArtifact a).2

theorem performOp_DeleteArtifact (c : Coordinate) :
    performOp env fates (.DeleteArtifact c) w
      = if fates (.DeleteArtifact c) 0 = .ok ∧ fates (.DeleteArtifact c) 1 = .ok
        then (true, w.commit.setDb (w.db.removeArtifact c))
        else (false, w.createTable (fates (.DeleteArtifact c) 0)) := by
  rw [performOp, Op.prog, artifact_info.DeleteArtifact, Prog.run_bind, run_EnsureArtifactTable]
  cases fates (.DeleteArtifact c) 0 with
  | ok =>
    simp only [beq_self_eq_true, if_true, Prog.run_bind, send, Prog.run_perform, performCall,
      true_and]
    cases fates (.DeleteArtifact c) (0 + 1) <;> rfl
  | error => rfl
  | lost => rfl

theorem performOp_ExistsByMd5AndUser (md5 user : Str) :
    performOp env fates (.ExistsByMd5AndUser md5 user) w
      = (fates (.ExistsByMd5AndUser md5 user) 0 == .ok
          && w.db.file_info.any fun f => f.owner = user ∧ f.md5 = md5, w) := by
  rw [performOp, Op.prog, file_info.ExistsByMd5AndUser, Prog.run_bind, run_send]
  cases fates (.ExistsByMd5AndUser md5 user) 0 <;> rfl

theorem performOp_CreateFile (f : FileInfo) :
    performOp env fates (.CreateFile f) w
      = if fates (.CreateFile f) 0 = .ok then (true, w.setDb (w.db.addFile f)) else (false, w) := by
  rw [performOp, Op.prog, file_info.CreateFile, Prog.run_bind, run_send]
  cases fates (.CreateFile f) 0 <;> rfl

theorem performOp_DeleteFileRecordByUserAndFilename (user filename : Str) :
    performOp env fates (.DeleteFileRecordByUserAndFilename user filename) w
      = if fates (.DeleteFileRecordByUserAndFilename user filename) 0 = .ok
        then (true, w.setDb (w.db.removeFile user filename)) else (false, w) := by
  rw [performOp, Op.prog, file_info.DeleteFileRecordByUserAndFilename, Prog.run_bind, run_send]
  cases fates (.DeleteFileRecordByUserAndFilename user filename) 0 <;> rfl

theorem performOp_ExistsByMd5 (md5 : Str) :
    performOp env fates (.ExistsByMd5 md5) w
      = (fates (.ExistsByMd5 md5) 0 == .ok && (w.db.shared md5).isSome, w) := by
  rw [performOp, Op.prog, file_shared.ExistsByMd5, Prog.run_bind, run_send]
  cases fates (.ExistsByMd5 md5) 0 <;> rfl

theorem performOp_GetFileIdByMd5 (md5 : Str) :
    performOp env fates (.GetFileIdByMd5 md5) w
      = (if fates (.GetFileIdByMd5 md5) 0 = .ok
          then ((w.db.shared md5).map FileShared.file_id).getD [] else [], w) := by
  rw [performOp, Op.prog, file_shared.GetFileIdByMd5, Prog.run_bind, run_send]
  cases fates (.GetFileIdByMd5 md5) 0 <;> rfl

theorem performOp_CreateShared (md5 file_id : Str) (file_size : Int) :
    performOp env fates (.CreateShared md5 file_id file_size) w
      = if fates (.CreateShared md5 file_id file_size) 0 = .ok ∧ w.db.shared md5 = none
        then (true, w.setDb (w.db.addShared ⟨md5, file_id, file_size, 1⟩)) else (false, w) := by
  rw [performOp, Op.prog, file_shared.CreateShared, Prog.run_bind, run_send]
  cases fates (.CreateShared md5 file_id file_size) 0 with
  | ok =>
    cases hc : w.db.shared md5 with
    | none => simp only [execute, Tables.apply, hc]; rfl
    | some s => simp only [execute, Tables.apply, hc]; rfl
  | error => rfl
  | lost => rfl

theorem performOp_IncrementRef (md5 : Str) :
    performOp env fates (.IncrementRef md5) w
      = if fates (.IncrementRef md5) 0 = .ok then (true, w.setDb (w.db.increment md5))
        else (false, w) := by
  rw [performOp, Op.prog, file_shared.IncrementRef, Prog.run_bind, run_send]
  cases fates (.IncrementRef md5) 0 <;> rfl

/-- The answer of `DecrementRef` on the tables after its `UPDATE`. -/
def Tables.refCount (db : Tables) (md5 : Str) : Int :=
  ((db.shared md5).map FileShared.ref_count).getD (-1)

theorem performOp_DecrementRef (md5 : Str) :
    performOp env fates (.DecrementRef md5) w
      = if fates (.DecrementRef md5) 0 = .ok then
          (if fates (.DecrementRef md5) 1 = .ok then (w.db.decrement md5).refCount md5 else -1,
            w.setDb (w.db.decrement md5))
        else (-1, w) := by
  rw [performOp, Op.prog, file_shared.DecrementRef, Prog.run_bind, run_send]
  cases fates (.DecrementRef md5) 0 with
  | ok =>
    simp only [execute, Tables.apply, if_true, Option.isSome_some, Prog.run_bind, send,
      Prog.run_perform, performCall]
    cases fates (.DecrementRef md5) (0 + 1) <;> rfl
  | error => rfl
  | lost => rfl

theorem performOp_DeleteShared (md5 : Str) :
    performOp env fates (.DeleteShared md5) w
      = if fates (.DeleteShared md5) 0 = .ok then (true, w.setDb (w.db.removeShared md5))
        else (false, w) := by
  rw [performOp, Op.prog, file_shared.DeleteShared, Prog.run_bind, run_send]
  cases fates (.DeleteShared md5) 0 <;> rfl

theorem performOp_begin (s : Store) :
    performOp env fates .begin s.idle
      = if fates .begin 0 = .ok then (true, s.opened s.db) else (false, s.idle) := by
  rw [performOp, Op.prog, Prog.run_bind, run_send]
  cases fates .begin 0 <;> rfl

theorem performOp_commit :
    performOp env fates .commit w
      = if fates .commit 0 = .ok then (true, w.commit) else (false, w) := by
  rw [performOp, Op.prog, Prog.run_bind, run_send]
  cases fates .commit 0 <;> rfl

theorem performOp_rollback :
    performOp env fates .rollback w = (fates .rollback 0 == .ok, w.rollback) := by
  rw [performOp, Op.prog, Prog.run_bind, run_send]
  cases fates .rollback 0 <;> rfl

/-! ### Transactions -/

@[simp] theorem World.rollback_rollback : w.rollback.rollback = w.rollback := rfl

theorem run_rollbackWith {α : Type} (result : α) :
    (rollbackWith result).run (performOp env fates) w
      = (if fates .rollback 0 = .ok then some result else none, w.rollback) := by
  rw [rollbackWith, Prog.run_bind, call, Prog.run_perform, performOp_rollback]
  cases fates .rollback 0 with
  | ok => rfl
  | error => simp [performOp_rollback]
  | lost => simp [performOp_rollback]

theorem run_commitWith {α : Type} (result : α) :
    (commitWith result).run (performOp env fates) w
      = if fates .commit 0 = .ok then (some result, w.commit) else (none, w.rollback) := by
  rw [commitWith, Prog.run_bind, call, Prog.run_perform, performOp_commit]
  cases fates .commit 0 with
  | ok => rfl
  | error => simp [call, performOp_rollback]
  | lost => simp [call, performOp_rollback]

end

end FiberServer
