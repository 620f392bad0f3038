import FiberServer.Chunk.ChunkManager
import FiberServer.Library.Posix
import FiberServer.Library.Program

/-!
# The system calls of `FSUtil`

The helpers of `FSUtil` and `ChunkManager` that change the file system, as programs over the system
calls that they make.  A call can be made while other programs run, and it can fail.

* `SysCall.perform`: what a call does when it does not fail.
* `Disk.call`: any of the calls can fail.
-/

namespace FiberServer

open FileSystem (Loc Name get)

/-! ### The calls -/

def S_IFDIR : Nat := 0o040000

def S_IFREG : Nat := 0o100000

def S_IFLNK : Nat := 0o120000

/-- The type of a node in `st_mode`. -/
def st_mode : Posix.Node Bytes → Nat
  | .dir => S_IFDIR
  | .file (.file _) => S_IFREG
  | .file (.link _) => S_IFLNK

/-- A call that changes the directories or fails. -/
inductive Change
  | mkdir (path : Str)
  | unlink (path : Str)
  | rmdir (path : Str)
  | rename (old new : Str)
  deriving DecidableEq, Repr

def Change.apply (cwd : Loc) (fs : Posix.FS Bytes) : Change → Option (Posix.FS Bytes)
  | mkdir path => Posix.mkdir fs cwd path
  | unlink path => Posix.unlink fs cwd path
  | rmdir path => Posix.rmdir fs cwd path
  | rename old new => Posix.rename fs cwd old new

inductive SysCall
  | access (path : Str)
  /-- `st` is set when the caller passes a `struct stat`. -/
  | lstat (st : Bool) (path : Str)
  /-- `open(O_WRONLY | O_CREAT | O_TRUNC)`. -/
  | openWrite (path : Str)
  /-- Write at the beginning of an open file. -/
  | write (file : Loc) (content : Bytes)
  /-- `opendir` with all calls of `readdir`; `.` and `..` are left out. -/
  | opendir (path : Str)
  | change (c : Change)
  deriving DecidableEq, Repr

namespace SysCall

abbrev Answer : SysCall → Type
  | lstat .. => Option Nat
  | openWrite _ => Option Loc
  | opendir _ => Option (List Name)
  | _ => Bool

/-- The answer of a call that fails. -/
def failure : (op : SysCall) → op.Answer
  | access _ | write .. | change _ => false
  | lstat .. | openWrite _ | opendir _ => none

/-- The call `op` of a process whose working directory is `cwd`. -/
def perform (cwd : Loc) : (op : SysCall) → Posix.FS Bytes → op.Answer × Posix.FS Bytes
  | access path, fs => ((Posix.stat fs cwd path).isSome, fs)
  | lstat _ path, fs => ((Posix.lstat fs cwd path).map st_mode, fs)
  | openWrite path, fs =>
    match Posix.openWrite fs cwd path with
    | some l => (some l, fs.insert l (.file (.file [])))
    | none => (none, fs)
  | write file content, fs =>
    match get fs file with
    | some (.file (.file old)) =>
      (true, fs.insert file (.file (.file (content ++ old.drop content.length))))
    | _ => (true, fs)
  | opendir path, fs =>
    ((Posix.opendir fs cwd path).map fun l => (FileSystem.readdir fs l).map Prod.fst, fs)
  | change c, fs =>
    match c.apply cwd fs with
    | some fs' => (true, fs')
    | none => (false, fs)

end SysCall

/-- A file system and how many calls have been made. -/
structure Disk where
  fs : Posix.FS Bytes
  calls : Nat

/-- `fails k op`: the call `op` fails when `k` calls have been made before. -/
def Disk.call (fails : Nat → SysCall → Bool) (cwd : Loc) (op : SysCall) (d : Disk) :
    op.Answer × Disk :=
  if fails d.calls op then (op.failure, ⟨d.fs, d.calls + 1⟩)
  else ((op.perform cwd d.fs).1, ⟨(op.perform cwd d.fs).2, d.calls + 1⟩)

/-! ### The programs -/

abbrev Sys := Prog SysCall SysCall.Answer

namespace Sys

section

open Prog (perform)

def access (path : Str) : Sys Bool := perform (SysCall.access path)

def lstat (st : Bool) (path : Str) : Sys (Option Nat) := perform (SysCall.lstat st path)

def openWrite (path : Str) : Sys (Option Loc) := perform (SysCall.openWrite path)

def write (file : Loc) (content : Bytes) : Sys Bool := perform (SysCall.write file content)

def opendir (path : Str) : Sys (Option (List Name)) := perform (SysCall.opendir path)

def change (c : Change) : Sys Bool := perform (SysCall.change c)

end

/-- `__mkdir`. -/
def mkdirIfMissing (dirname : Str) : Sys Bool := do
  let found ← access dirname
  if found then pure true else change (.mkdir dirname)

def mkdirEach : List Str → Sys Bool
  | [] => pure true
  | path :: paths => do
    let made ← mkdirIfMissing path
    if made then mkdirEach paths else pure false

def Mkdir (dirname : Str) : Sys Bool := do
  let st ← lstat false dirname
  if st.isSome then pure true
  else mkdirEach (FSUtil.slashPrefixes (FileSystem.cstr dirname) ++ [FileSystem.cstr dirname])

def OpenForWrite (filename : Str) : Sys (Option Loc) := do
  let ofs ← openWrite filename
  match ofs with
  | some file => pure (some file)
  | none =>
    let _ ← Mkdir (FSUtil.Dirname filename)
    openWrite filename

/-- `Unlink` with `exist` unset. -/
def Unlink (filename : Str) : Sys Bool := do
  let st ← lstat false filename
  if st.isNone then pure true else change (.unlink filename)

/-- The loop of `Rm`: the result of the last entry is kept. -/
def rmEntries (Rm : Str → Sys (Option Bool)) (path : Str) : List Name → Bool → Sys (Option Bool)
  | [], ret => pure (some ret)
  | d_name :: names, _ => do
    let ret ← Rm (path ++ '/' :: d_name)
    match ret with
    | none => pure none
    | some ret => rmEntries Rm path names ret

/-- `Rm` with at most `fuel` directories in one another; `none` when there are more. -/
def Rm : Nat → Str → Sys (Option Bool)
  | 0, _ => pure none
  | fuel + 1, path => do
    let st ← lstat true path
    match st with
    | none => pure (some true)
    | some mode =>
      if mode &&& S_IFDIR = 0 then do
        let ret ← Unlink path
        pure (some ret)
      else do
        let dir ← opendir path
        match dir with
        | none => pure (some false)
        | some names => do
          let ret ← rmEntries (Rm fuel) path names true
          match ret with
          | none => pure none
          | some ret => do
            let removed ← change (.rmdir path)
            pure (some (if removed then ret else false))

def Mv (fuel : Nat) (old new : Str) : Sys (Option Bool) := do
  let ret ← Rm fuel new
  match ret with
  | none => pure none
  | some false => pure (some false)
  | some true => do
    let renamed ← change (.rename old new)
    pure (some renamed)

section

variable (tmp_path username md5 : Str)

def saveChunk (fuel : Nat) (tmp_file_path : Str) (index : Int) : Sys (Option Bool) := do
  let _ ← Mkdir (ChunkManager.buildTaskPath tmp_path username md5)
  Mv fuel tmp_file_path (ChunkManager.buildChunkPath tmp_path username md5 index)

def saveChunkContent (content : Bytes) (index : Int) : Sys Bool := do
  if content = [] then pure false
  else
    let ofs ← OpenForWrite (ChunkManager.buildChunkPath tmp_path username md5 index)
    match ofs with
    | none => pure false
    | some file => write file content

end

/-! ### Runs -/

section

variable {fails : Nat → SysCall → Bool} {cwd : Loc} {d d' : Disk} {path : Str}

/-- A program as it runs alone. -/
abbrev run {β : Type} (fails : Nat → SysCall → Bool) (cwd : Loc) (p : Sys β) (d : Disk) :
    β × Disk :=
  Prog.run (Disk.call fails cwd) p d

theorem run_call {β : Type} (op : SysCall) (k : op.Answer → Sys β) :
    run fails cwd (Prog.perform op >>= k) d
      = run fails cwd (k (Disk.call fails cwd op d).1) (Disk.call fails cwd op d).2 := by
  rw [run, Prog.run_bind, Prog.run_perform]

theorem call_lstat (st : Bool) : Disk.call fails cwd (.lstat st path) d
    = (if fails d.calls (.lstat st path) then none else (Posix.lstat d.fs cwd path).map st_mode,
      ⟨d.fs, d.calls + 1⟩) := by
  rw [Disk.call]
  split_ifs <;> rfl

theorem call_access : Disk.call fails cwd (.access path) d
    = (if fails d.calls (.access path) then false else (Posix.stat d.fs cwd path).isSome,
      ⟨d.fs, d.calls + 1⟩) := by
  rw [Disk.call]
  split_ifs <;> rfl

theorem call_opendir : Disk.call fails cwd (.opendir path) d
    = (if fails d.calls (.opendir path) then none
        else (Posix.opendir d.fs cwd path).map fun l => (FileSystem.readdir d.fs l).map Prod.fst,
      ⟨d.fs, d.calls + 1⟩) := by
  rw [Disk.call]
  split_ifs <;> rfl

/-- A change is made or not. -/
theorem call_change (fails : Nat → SysCall → Bool) (cwd : Loc) (d : Disk) (c : Change) :
    ∃ made d', Disk.call fails cwd (.change c) d = (made, d')
    ∧ (made = false ∧ d'.fs = d.fs
        ∧ (fails d.calls (.change c) = true ∨ c.apply cwd d.fs = none)
      ∨ made = true ∧ c.apply cwd d.fs = some d'.fs ∧ fails d.calls (.change c) = false) := by
  rw [Disk.call]
  split_ifs with hfails
  · exact ⟨_, _, rfl, .inl ⟨rfl, rfl, .inl hfails⟩⟩
  · rw [Bool.not_eq_true] at hfails
    rw [SysCall.perform]
    cases hc : c.apply cwd d.fs with
    | none => exact ⟨_, _, rfl, .inl ⟨rfl, rfl, .inr rfl⟩⟩
    | some fs' => exact ⟨_, _, rfl, .inr ⟨rfl, rfl, hfails⟩⟩

end

end Sys

end FiberServer
