import FiberServer.Chunk.Remove
import Mathlib.Logic.Relation

/-!
# `ChunkManager::cleanTask`

The cleaner lists the regular files below the temporary root, removes those that are older than
`uploadfiles.last_time`, and then removes empty directories.  The deadline is a difference of
unsigned numbers that passes through a signed variable and is compared with an unsigned time.

* `expired_iff`: when the comparison agrees with the times as numbers.
* `mem_ListAllFile`, `exists_mem_ListAllFile`: the listed paths lead to the regular files of the
  tree.
* `cleanTask_exact_iff`: the cleaner removes exactly the expired files, and no directory but empty
  ones, if and only if the comparison agrees for all files below the root.
-/

namespace FiberServer

open FileSystem (Loc Name Plain get isDir special push cstr)
open Posix (FileAt Volume locate Keeps Shrinks)
open Relation (ReflTransGen)

/-! ### The deadline -/

namespace ChunkManager

/-- `deadLine`, for `ms` milliseconds and `last_time` seconds. -/
def deadLine (ms last_time : UInt64) : Int64 := (ms / 1000 - last_time).toInt64

/-- The test of the cleaner; the comparison is one of unsigned numbers. -/
def isDead (ms last_time : UInt64) (st_mtime : Int64) : Bool :=
  st_mtime.toUInt64 < (deadLine ms last_time).toUInt64

/-- The file is older than `last_time`. -/
def Expired (ms last_time : UInt64) (st_mtime : Int64) : Prop :=
  st_mtime.toInt + last_time.toNat < (ms.toNat / 1000 : Nat)

/-- The times for which nothing wraps, or what wraps makes no difference. -/
def Comparable (ms last_time : UInt64) (st_mtime : Int64) : Prop :=
  if last_time.toNat ≤ ms.toNat / 1000 then 0 ≤ st_mtime.toInt
  else st_mtime.toInt < 0
    ∨ 2 ^ 64 ≤ st_mtime.toInt + ((last_time.toNat : Int) - (ms.toNat / 1000 : Nat))

theorem toNat_toUInt64 (t : Int64) : (t.toUInt64.toNat : Int) = t.toInt % 2 ^ 64 := by
  have hlt := t.toUInt64.toNat_lt
  rw [← Int64.toInt_toBitVec, t.toBitVec.toInt_eq_toNat_bmod,
    show t.toBitVec.toNat = t.toUInt64.toNat from rfl,
    show (2 : Int) ^ 64 = ((2 ^ 64 : Nat) : Int) by norm_cast, Int.bmod_emod]
  exact (Int.emod_eq_of_lt (by omega) (by omega)).symm

theorem isDead_iff (ms last_time : UInt64) (st_mtime : Int64) : isDead ms last_time st_mtime = true
    ↔ st_mtime.toInt % 2 ^ 64 < ((ms.toNat / 1000 : Nat) - (last_time.toNat : Int)) % 2 ^ 64 := by
  have hmtime := toNat_toUInt64 st_mtime
  have hlast := last_time.toNat_lt
  have hdiff : (ms / 1000 - last_time).toNat
      = (2 ^ 64 - last_time.toNat + ms.toNat / 1000) % 2 ^ 64 := by
    rw [UInt64.toNat_sub, UInt64.toNat_div]
    rfl
  rw [isDead, deadLine, decide_eq_true_iff, UInt64.toUInt64_toInt64, UInt64.lt_iff_toNat_lt, hdiff]
  omega

/-- **The comparison agrees with the numbers** exactly for comparable times. -/
theorem expired_iff (ms last_time : UInt64) (st_mtime : Int64) :
    (isDead ms last_time st_mtime = true ↔ Expired ms last_time st_mtime)
      ↔ Comparable ms last_time st_mtime := by
  have hlo := st_mtime.le_toInt
  have hhi := st_mtime.toInt_lt
  have hlast := last_time.toNat_lt
  have hms := ms.toNat_lt
  rw [isDead_iff, Expired, Comparable]
  split_ifs <;> omega

end ChunkManager

/-! ### The helpers -/

namespace FSUtil

section

variable (fs : Posix.FS Bytes) (cwd : Loc)

/-- `ListAllFile` with at most `fuel` directories in one another; the paths in the order in which
they are appended to `files`. -/
def ListAllFile (subfix : Str) : Nat → Str → List Str
  | 0, _ => []
  | fuel + 1, path =>
    if (Posix.stat fs cwd path).isNone then []
    else
      match Posix.opendir fs cwd path with
      | none => []
      | some dir => (FileSystem.readdir fs dir).flatMap fun dp =>
        match dp.2 with
        | .dir => ListAllFile subfix fuel (path ++ '/' :: dp.1)
        | .file (.file _) => if subfix.isSuffixOf dp.1 then [path ++ '/' :: dp.1] else []
        | .file (.link _) => []

def ListAllDir (subfix : Str) : Nat → Str → List Str
  | 0, _ => []
  | fuel + 1, path =>
    if (Posix.stat fs cwd path).isNone then []
    else
      match Posix.opendir fs cwd path with
      | none => []
      | some dir => (FileSystem.readdir fs dir).flatMap fun dp =>
        match dp.2 with
        | .dir => (if subfix.isSuffixOf dp.1 then [path ++ '/' :: dp.1] else [])
          ++ ListAllDir subfix fuel (path ++ '/' :: dp.1)
        | .file _ => []

def IsDir (path : Str) : Bool := Posix.lstat fs cwd path = some .dir

/-- `times` are the modification times of the nodes. -/
def GetFileTime (times : Loc → Int64) (path : Str) : UInt64 :=
  if (Posix.lstat fs cwd path).isNone then 0
  else (((Sys.place fs cwd path).map times).getD 0).toUInt64

def IsDirEmpty (path : Str) : Bool :=
  match Posix.opendir fs cwd path with
  | none => false
  | some dir => (FileSystem.readdir fs dir).isEmpty

end

end FSUtil

/-! ### The cleaner -/

namespace ChunkManager

open FSUtil

section

variable (cwd : Loc) (times : Loc → Int64) (ms last_time : UInt64)

/-- `FSUtil::Rm`, while no call fails. -/
def removed (fuel : Nat) (fs : Posix.FS Bytes) (path : Str) : Posix.FS Bytes :=
  (Sys.run (fun _ _ => false) cwd (Sys.Rm fuel path) ⟨fs, 0⟩).2.fs

/-- The first loop: one listed file. -/
def cleanFile (fuel : Nat) (fs : Posix.FS Bytes) (file : Str) : Posix.FS Bytes :=
  if IsDir fs cwd file then fs
  else if GetFileTime fs cwd times file < (deadLine ms last_time).toUInt64 then
    removed cwd fuel fs file
  else fs

/-- `RmEmptyDir` of a directory that looks empty. -/
def cleanSubdir (fs : Posix.FS Bytes) (subdir : Str) : Posix.FS Bytes :=
  if IsDirEmpty fs cwd subdir then (Posix.rmdir fs cwd subdir).getD fs else fs

/-- The second loop: the directories below one listed directory. -/
def cleanDir (fuel : Nat) (fs : Posix.FS Bytes) (taskDir : Str) : Posix.FS Bytes :=
  (ListAllDir fs cwd [] fuel taskDir).foldl (cleanSubdir cwd) fs

/-- `cleanTask`; no path below the root has more than `fuel` components. -/
def cleanTask (fuel : Nat) (tmp_path : Str) (fs : Posix.FS Bytes) : Posix.FS Bytes :=
  let fs₁ := (ListAllFile fs cwd [] fuel tmp_path).foldl
    (cleanFile cwd times ms last_time fuel) fs
  (ListAllDir fs₁ cwd [] fuel tmp_path).foldl (cleanDir cwd fuel) fs₁

end

end ChunkManager

/-! ### What is listed -/

/-- What lies below a directory. -/
inductive InTree (fs : Posix.FS Bytes) : Loc → Loc → Prop
  | entry {r n x} (h : get fs (n :: r) = some x) : InTree fs r (n :: r)
  | deeper {r n l} (hdir : get fs (n :: r) = some .dir) (h : InTree fs (n :: r) l) : InTree fs r l

namespace FSUtil

open Sys (PlainNames)

variable {fs : Posix.FS Bytes} {cwd : Loc} {path : Str}

/-- A path of an entry of an open directory. -/
theorem locate_entry {r : Loc} {n : Name} (h0 : '\x00' ∉ path)
    (hopen : Posix.opendir fs cwd path = some r) (hn : Plain n) :
    locate fs cwd false (path ++ '/' :: n) = some (r, n) := by
  have hne : path ≠ [] := by
    rintro rfl
    exact nomatch hopen
  rw [Posix.locate_child hne h0 hn.2.2 hn.2.1, hopen]
  rfl

theorem opendir_entry {r : Loc} {n : Name} (h0 : '\x00' ∉ path)
    (hopen : Posix.opendir fs cwd path = some r) (hn : Plain n)
    (hdir : get fs (n :: r) = some .dir) :
    Posix.opendir fs cwd (path ++ '/' :: n) = some (n :: r) := by
  have hpush := FileSystem.push_of_not_special (l := r) hn.1
  have h := Posix.opendir_of_locate (locate_entry h0 hopen hn)
    (by rw [hpush]; exact FileSystem.isDir_iff.mpr hdir)
  rwa [hpush] at h

theorem clean_entry {n : Name} (h0 : '\x00' ∉ path) (hn : Plain n) :
    '\x00' ∉ path ++ '/' :: n := by
  simp only [List.mem_append, List.mem_cons, not_or]
  exact ⟨h0, by decide, hn.2.2⟩

/-- **What is listed is a regular file of the tree**, under a path that leads to it. -/
theorem mem_ListAllFile (hplain : PlainNames fs) {fuel : Nat} :
    ∀ {path : Str} {r : Loc} {file : Str}, '\x00' ∉ path →
      Posix.opendir fs cwd path = some r → file ∈ ListAllFile fs cwd [] fuel path →
        ∃ l n x, locate fs cwd false file = some (l, n) ∧ Plain n
          ∧ get fs (n :: l) = some (.file (.file x)) ∧ InTree fs r (n :: l) := by
  induction fuel with
  | zero => exact fun _ _ h => absurd h List.not_mem_nil
  | succ fuel ih =>
    intro path r file h0 hopen hmem
    rw [ListAllFile, hopen] at hmem
    split_ifs at hmem
    · exact absurd hmem List.not_mem_nil
    · obtain ⟨⟨n, x⟩, hentry, hfile⟩ := List.mem_flatMap.mp hmem
      have hget := FileSystem.mem_readdir.mp hentry
      have hn := hplain n r (Option.isSome_of_eq_some hget)
      match x with
      | .dir =>
        obtain ⟨l, m, y, hlocate, hm, hy, htree⟩ := ih (clean_entry h0 hn)
          (opendir_entry h0 hopen hn hget) hfile
        exact ⟨l, m, y, hlocate, hm, hy, .deeper hget htree⟩
      | .file (.file y) =>
        simp only at hfile
        rw [if_pos (List.isSuffixOf_iff_suffix.mpr List.nil_suffix)] at hfile
        obtain rfl := List.mem_singleton.mp hfile
        exact ⟨r, n, y, locate_entry h0 hopen hn, hn, hget, .entry hget⟩
      | .file (.link target) => exact absurd hfile List.not_mem_nil

/-- An entry of a directory contributes its part of the list. -/
theorem mem_ListAllFile_entry {fuel : Nat} {r : Loc} {n : Name} {x : Posix.Node Bytes} {file : Str}
    (hopen : Posix.opendir fs cwd path = some r) (hget : get fs (n :: r) = some x)
    (hfile : file ∈ match x with
      | .dir => ListAllFile fs cwd [] fuel (path ++ '/' :: n)
      | .file (.file _) => [path ++ '/' :: n]
      | .file (.link _) => []) :
    file ∈ ListAllFile fs cwd [] (fuel + 1) path := by
  rw [ListAllFile, Posix.stat_of_opendir hopen, hopen]
  refine List.mem_flatMap.mpr ⟨(n, x), FileSystem.mem_readdir.mpr hget, ?_⟩
  match x with
  | .dir => exact hfile
  | .file (.file y) =>
    show file ∈ if List.isSuffixOf [] n then [path ++ '/' :: n] else []
    rw [if_pos (List.isSuffixOf_iff_suffix.mpr List.nil_suffix)]
    exact hfile
  | .file (.link target) => exact hfile

theorem InTree.length_lt {r l : Loc} (h : InTree fs r l) : r.length < l.length := by
  induction h with
  | entry h => exact Nat.lt_succ_self _
  | deeper hdir h ih => exact Nat.lt_of_succ_lt ih

/-- **Every regular file of the tree is listed.** -/
theorem exists_mem_ListAllFile (hplain : PlainNames fs) {r l : Loc} (htree : InTree fs r l)
    {x : Bytes} (hfile : get fs l = some (.file (.file x))) :
    ∀ {fuel : Nat} {path : Str}, '\x00' ∉ path → Posix.opendir fs cwd path = some r →
      l.length ≤ r.length + fuel →
        ∃ file ∈ ListAllFile fs cwd [] fuel path, Sys.place fs cwd file = some l := by
  induction htree with
  | @entry r n y h =>
    intro fuel path h0 hopen hfuel
    have hn := hplain n r (Option.isSome_of_eq_some h)
    obtain ⟨fuel, rfl⟩ : ∃ k, fuel = k + 1 := by
      refine Nat.exists_eq_succ_of_ne_zero ?_
      rintro rfl
      rw [List.length_cons] at hfuel
      omega
    refine ⟨path ++ '/' :: n, mem_ListAllFile_entry hopen hfile (List.mem_singleton.mpr rfl), ?_⟩
    rw [Sys.place, locate_entry h0 hopen hn, Option.map_some, FileSystem.push_of_not_special hn.1]
  | @deeper r n l hdir h ih =>
    intro fuel path h0 hopen hfuel
    have hn := hplain n r (Option.isSome_of_eq_some hdir)
    have hlength := InTree.length_lt h
    rw [List.length_cons] at hlength
    obtain ⟨fuel, rfl⟩ : ∃ k, fuel = k + 1 := Nat.exists_eq_succ_of_ne_zero (by omega)
    have hfuel' : l.length ≤ (n :: r).length + fuel := by
      rw [List.length_cons]
      omega
    obtain ⟨file, hmem, hplace⟩ := ih hfile (clean_entry h0 hn) (opendir_entry h0 hopen hn hdir)
      hfuel'
    exact ⟨file, mem_ListAllFile_entry hopen hdir hmem, hplace⟩

end FSUtil

/-! ### What is removed -/

/-- A removal that the cleaner is allowed. -/
inductive Removes (times : Loc → Int64) (ms last_time : UInt64) :
    Posix.FS Bytes → Posix.FS Bytes → Prop
  | file {fs l x} (hget : get fs l = some (.file (.file x)))
      (hexpired : ChunkManager.Expired ms last_time (times l)) :
      Removes times ms last_time fs (fs.erase l)
  | dir {fs l} (hdir : isDir fs l) (hempty : ∀ n, get fs (n :: l) = none) :
      Removes times ms last_time fs (fs.erase l)

namespace ChunkManager

open FSUtil
open Sys (PlainNames place)

variable {fs fs₁ : Posix.FS Bytes} {cwd : Loc} {times : Loc → Int64} {ms last_time : UInt64}
  {path : Str}

theorem removed_file {fuel : Nat} {l : Loc} {n : Name} {x : Posix.Leaf Bytes}
    (hr : locate fs cwd false path = some (l, n)) (hn : special n = false)
    (hget : get fs (n :: l) = some (.file x)) :
    removed cwd (fuel + 1) fs path = fs.erase (n :: l) := by
  have hx : Posix.lstat fs cwd path = some (.file x) := by
    rw [Posix.lstat_eq hr, FileSystem.push_of_not_special hn, hget]
  have hunlink : Posix.unlink fs cwd path = some (fs.erase (n :: l)) := by
    rw [Posix.unlink, hr, Option.bind_some, if_neg (by rw [hn]; exact Bool.false_ne_true)]
    simp only [hget]
  obtain ⟨ret, d', hrun, houtcome⟩ := Sys.run_Rm (fun _ _ => false) cwd fuel path ⟨fs, 0⟩
  rw [removed, hrun]
  obtain ⟨-, -, k, st, hk⟩ | ⟨-, -, hkept⟩ | ⟨-, hfs, -⟩ := houtcome.leaf hx
  · cases hk
  · obtain ⟨k, hk⟩ | hnone := hkept
    · cases hk
    · cases hunlink.symm.trans hnone
  · exact Option.some.inj (hfs.symm.trans hunlink)

theorem removed_missing {fuel : Nat} (h : Posix.lstat fs cwd path = none) :
    removed cwd (fuel + 1) fs path = fs := by
  obtain ⟨ret, d', hrun, houtcome⟩ := Sys.run_Rm (fun _ _ => false) cwd fuel path ⟨fs, 0⟩
  rw [removed, hrun]
  cases houtcome with
  | missing hfs => exact hfs
  | unseen hx => exact nomatch h.symm.trans hx
  | kept hx => exact nomatch h.symm.trans hx
  | unlinked hx => exact nomatch h.symm.trans hx
  | closed hdir => exact nomatch h.symm.trans hdir
  | deep hdir => exact nomatch h.symm.trans hdir
  | left hdir => exact nomatch h.symm.trans hdir
  | removed hdir => exact nomatch h.symm.trans hdir

/-- The first loop removes a listed file that is dead. -/
theorem cleanFile_eq {fuel : Nat} {l : Loc} {n : Name} {x : Bytes}
    (hr : locate fs cwd false path = some (l, n)) (hn : special n = false)
    (hget : get fs (n :: l) = some (.file (.file x))) :
    cleanFile cwd times ms last_time (fuel + 1) fs path
      = if isDead ms last_time (times (n :: l)) then fs.erase (n :: l) else fs := by
  have hpush := FileSystem.push_of_not_special (l := l) hn
  have hx : Posix.lstat fs cwd path = some (.file (.file x)) := by
    rw [Posix.lstat_eq hr, hpush, hget]
  have hdir : IsDir fs cwd path = false := by
    rw [IsDir, hx]
    rfl
  have htime : GetFileTime fs cwd times path = (times (n :: l)).toUInt64 := by
    rw [GetFileTime, hx, place, hr, Option.map_some, hpush]
    rfl
  rw [cleanFile, hdir, if_neg Bool.false_ne_true, htime, isDead, removed_file hr hn hget]
  simp only [decide_eq_true_eq]

theorem cleanFile_missing {fuel : Nat} (h : Posix.lstat fs cwd path = none) :
    cleanFile cwd times ms last_time (fuel + 1) fs path = fs := by
  rw [cleanFile, removed_missing h]
  split_ifs <;> rfl

/-- One file that was listed, after others have been removed. -/
theorem cleanFile_cases {fuel : Nat} {file : Str} {l : Loc} (hlisted : FileAt fs cwd file l)
    (hkeeps : Keeps fs fs₁) (hshrinks : Shrinks fs fs₁) :
    cleanFile cwd times ms last_time (fuel + 1) fs₁ file = fs₁
        ∧ (isDead ms last_time (times l) = true → get fs₁ l = none)
      ∨ cleanFile cwd times ms last_time (fuel + 1) fs₁ file = fs₁.erase l
        ∧ isDead ms last_time (times l) = true ∧ ∃ x, get fs₁ l = some (.file (.file x)) := by
  obtain ⟨p, n, x, rfl, hr, hn, hget⟩ := hlisted
  have hr₁ := hkeeps.locate hr
  cases hget₁ : get fs₁ (n :: p) with
  | none =>
    have hmissing : Posix.lstat fs₁ cwd file = none := by
      rw [Posix.lstat_eq hr₁, FileSystem.push_of_not_special hn, hget₁]
    exact .inl ⟨cleanFile_missing hmissing, fun _ => rfl⟩
  | some y =>
    obtain rfl := Option.some.inj ((hshrinks _ _ hget₁).symm.trans hget)
    rw [cleanFile_eq hr₁ hn hget₁]
    split_ifs with hdead
    · exact .inr ⟨rfl, hdead, x, rfl⟩
    · exact .inl ⟨rfl, fun h => absurd h hdead⟩

/-- What the first loop makes of `fs₁` when the paths of `files` were listed in `fs`. -/
structure FirstLoop (fs : Posix.FS Bytes) (cwd : Loc) (times : Loc → Int64) (ms last_time : UInt64)
    (files : List Str) (fs₁ fs' : Posix.FS Bytes) : Prop where
  keeps : Keeps fs fs'
  shrinks : Shrinks fs₁ fs'
  only : ∀ l, get fs' l ≠ get fs₁ l → isDead ms last_time (times l) = true
    ∧ ∃ file ∈ files, FileAt fs cwd file l
  all : ∀ file ∈ files, ∀ l, FileAt fs cwd file l → isDead ms last_time (times l) = true →
    get fs' l = none
  steps : (∀ file ∈ files, ∀ l, FileAt fs cwd file l → isDead ms last_time (times l) = true →
    Expired ms last_time (times l)) → ReflTransGen (Removes times ms last_time) fs₁ fs'

theorem shrinks_none {fs' : Posix.FS Bytes} {l : Loc} (h : Shrinks fs₁ fs')
    (hl : get fs₁ l = none) : get fs' l = none := by
  rw [Option.eq_none_iff_forall_ne_some] at hl ⊢
  exact fun x hx => hl x (h l x hx)

theorem firstLoop {fuel : Nat} {files : List Str}
    (hlisted : ∀ file ∈ files, ∃ l, FileAt fs cwd file l) :
    ∀ {fs₁ : Posix.FS Bytes}, Keeps fs fs₁ → Shrinks fs fs₁ →
      FirstLoop fs cwd times ms last_time files fs₁
        (files.foldl (cleanFile cwd times ms last_time (fuel + 1)) fs₁) := by
  induction files with
  | nil =>
    intro fs₁ hkeeps _
    exact ⟨hkeeps, Shrinks.refl fs₁, fun _ h => absurd rfl h,
      fun _ h => absurd h List.not_mem_nil, fun _ => .refl⟩
  | cons file files ih =>
    intro fs₁ hkeeps hshrinks
    have hrest : ∀ f ∈ files, ∃ l, FileAt fs cwd f l :=
      fun f hf => hlisted f (List.mem_cons_of_mem file hf)
    obtain ⟨l, hl⟩ := hlisted file List.mem_cons_self
    rw [List.foldl_cons]
    obtain ⟨heq, hgone⟩ | ⟨heq, hdead, x, hx⟩ := cleanFile_cases hl hkeeps hshrinks
    · rw [heq]
      have h := ih hrest hkeeps hshrinks
      refine ⟨h.keeps, h.shrinks, fun l' hl' => ?_, fun f hf l' hl' hdead => ?_, fun hexp => ?_⟩
      · obtain ⟨hd, f, hf, hfl⟩ := h.only l' hl'
        exact ⟨hd, f, List.mem_cons_of_mem file hf, hfl⟩
      · rcases List.mem_cons.mp hf with rfl | hf
        · obtain rfl := hl'.unique hl
          exact shrinks_none h.shrinks (hgone hdead)
        · exact h.all f hf l' hl' hdead
      · exact h.steps fun f hf => hexp f (List.mem_cons_of_mem file hf)
    · rw [heq]
      have h := ih hrest (hkeeps.trans (Posix.keeps_erase hx))
        (hshrinks.trans (Posix.shrinks_erase fs₁ l))
      refine ⟨h.keeps, (Posix.shrinks_erase fs₁ l).trans h.shrinks, fun l' hl' => ?_,
        fun f hf l' hl' hdead' => ?_, fun hexp => ?_⟩
      · by_cases hll : l' = l
        · exact ⟨hll ▸ hdead, file, List.mem_cons_self, hll ▸ hl⟩
        · have hne : get (fs₁.erase l) l' = get fs₁ l' := FileSystem.get_erase_ne _ hll
          obtain ⟨hd, f, hf, hfl⟩ := h.only l' fun hc => hl' (hc.trans hne)
          exact ⟨hd, f, List.mem_cons_of_mem file hf, hfl⟩
      · rcases List.mem_cons.mp hf with rfl | hf
        · obtain rfl := hl'.unique hl
          obtain ⟨p, n, -, rfl, -⟩ := hl
          exact shrinks_none h.shrinks (FileSystem.get_erase_self _ _ _)
        · exact h.all f hf l' hl' hdead'
      · exact .head (.file hx (hexp file List.mem_cons_self l hl hdead))
          (h.steps fun f hf => hexp f (List.mem_cons_of_mem file hf))

/-- What the second loop does: empty directories go, and nothing else. -/
structure SecondLoop (times : Loc → Int64) (ms last_time : UInt64) (fs fs' : Posix.FS Bytes) :
    Prop where
  steps : ReflTransGen (Removes times ms last_time) fs fs'
  leaves : Posix.SameLeaves fs fs'
  shrinks : Shrinks fs fs'

theorem SecondLoop.refl (fs : Posix.FS Bytes) : SecondLoop times ms last_time fs fs :=
  ⟨.refl, fun _ _ => Iff.rfl, Shrinks.refl fs⟩

theorem SecondLoop.trans {fs fs' fs'' : Posix.FS Bytes} (h : SecondLoop times ms last_time fs fs')
    (h' : SecondLoop times ms last_time fs' fs'') : SecondLoop times ms last_time fs fs'' :=
  ⟨h.steps.trans h'.steps, h.leaves.trans h'.leaves, h.shrinks.trans h'.shrinks⟩

theorem SecondLoop.foldl {f : Posix.FS Bytes → Str → Posix.FS Bytes}
    (hf : ∀ fs dir, SecondLoop times ms last_time fs (f fs dir)) (dirs : List Str) :
    ∀ fs, SecondLoop times ms last_time fs (dirs.foldl f fs) := by
  induction dirs with
  | nil => exact SecondLoop.refl
  | cons dir dirs ih =>
    intro fs
    exact (hf fs dir).trans (ih (f fs dir))

theorem cleanSubdir_secondLoop (fs : Posix.FS Bytes) (subdir : Str) :
    SecondLoop times ms last_time fs (cleanSubdir cwd fs subdir) := by
  rw [cleanSubdir]
  split_ifs
  · cases hrmdir : Posix.rmdir fs cwd subdir with
    | none => exact SecondLoop.refl fs
    | some fs' =>
      obtain ⟨l, n, -, -, hdir, hempty, rfl⟩ := Posix.rmdir_eq_some hrmdir
      exact ⟨.single (.dir hdir hempty), Posix.sameLeaves_erase hdir, Posix.shrinks_erase fs _⟩
  · exact SecondLoop.refl fs

theorem cleanDir_secondLoop {fuel : Nat} (fs : Posix.FS Bytes) (taskDir : Str) :
    SecondLoop times ms last_time fs (cleanDir cwd fuel fs taskDir) :=
  SecondLoop.foldl cleanSubdir_secondLoop _ fs

/-! ### The cleaner as a whole -/

/-- The regular file or directory is below the temporary root. -/
def BelowRoot (fs : Posix.FS Bytes) (cwd : Loc) (tmp_path : Str) (l : Loc) : Prop :=
  ∃ r, Posix.opendir fs cwd tmp_path = some r ∧ InTree fs r l

/-- One allowed removal after the other leads to `fs'`, and a regular file is gone exactly when it
is below the root and expired. -/
structure CleansExactly (cwd : Loc) (times : Loc → Int64) (ms last_time : UInt64) (tmp_path : Str)
    (fs fs' : Posix.FS Bytes) : Prop where
  steps : ReflTransGen (Removes times ms last_time) fs fs'
  files : ∀ l x, get fs l = some (.file (.file x)) →
    (get fs' l = none ↔ BelowRoot fs cwd tmp_path l ∧ Expired ms last_time (times l))

theorem listed_of_mem (hplain : PlainNames fs) (h0 : '\x00' ∉ path) {fuel : Nat} {file : Str}
    (hmem : file ∈ ListAllFile fs cwd [] fuel path) :
    ∃ l, FileAt fs cwd file l ∧ BelowRoot fs cwd path l := by
  cases hopen : Posix.opendir fs cwd path with
  | none =>
    cases fuel with
    | zero => exact absurd hmem List.not_mem_nil
    | succ fuel =>
      rw [ListAllFile, hopen] at hmem
      split_ifs at hmem <;> exact absurd hmem List.not_mem_nil
  | some r =>
    obtain ⟨p, n, x, hr, hn, hget, htree⟩ := mem_ListAllFile hplain h0 hopen hmem
    exact ⟨n :: p, ⟨p, n, x, rfl, hr, hn.1, hget⟩, r, hopen, htree⟩

theorem below_of_listed (hplain : PlainNames fs) (h0 : '\x00' ∉ path) {fuel : Nat} {file : Str}
    (hmem : file ∈ ListAllFile fs cwd [] fuel path) {l : Loc} (hlisted : FileAt fs cwd file l) :
    BelowRoot fs cwd path l := by
  obtain ⟨l', hlisted', hbelow⟩ := listed_of_mem hplain h0 hmem
  exact hlisted.unique hlisted' ▸ hbelow

theorem listed_of_below (hplain : PlainNames fs) (h0 : '\x00' ∉ path) {fuel : Nat}
    (hfuel : Posix.depth fs < fuel) {l : Loc} {x : Bytes}
    (hget : get fs l = some (.file (.file x))) (hbelow : BelowRoot fs cwd path l) :
    ∃ file ∈ ListAllFile fs cwd [] fuel path, FileAt fs cwd file l := by
  obtain ⟨r, hopen, htree⟩ := hbelow
  have hlength := Posix.length_le_depth (Option.isSome_of_eq_some hget)
  have hdeep : l.length ≤ r.length + fuel := by omega
  obtain ⟨file, hmem, hplace⟩ := exists_mem_ListAllFile hplain htree hget h0 hopen hdeep
  refine ⟨file, hmem, ?_⟩
  obtain ⟨l', hlisted, -⟩ := listed_of_mem hplain h0 hmem
  obtain ⟨p, n, y, rfl, hr, hn, -⟩ := id hlisted
  rw [place, hr, Option.map_some, FileSystem.push_of_not_special hn] at hplace
  exact Option.some.inj hplace ▸ hlisted

/-- The two loops of the cleaner. -/
theorem cleanTask_loops (cwd times ms last_time) (hplain : PlainNames fs) (h0 : '\x00' ∉ path)
    {fuel : Nat} (hfuel : Posix.depth fs < fuel) :
    ∃ fs₁, FirstLoop fs cwd times ms last_time (ListAllFile fs cwd [] fuel path) fs fs₁
      ∧ SecondLoop times ms last_time fs₁ (cleanTask cwd times ms last_time fuel path fs) := by
  have hlisted : ∀ file ∈ ListAllFile fs cwd [] fuel path, ∃ l, FileAt fs cwd file l := by
    intro file hfile
    obtain ⟨l, hl, -⟩ := listed_of_mem hplain h0 hfile
    exact ⟨l, hl⟩
  obtain ⟨k, hk⟩ := Nat.exists_eq_succ_of_ne_zero (Nat.ne_of_gt (Nat.zero_lt_of_lt hfuel))
  refine ⟨_, ?_, SecondLoop.foldl cleanDir_secondLoop _ _⟩
  generalize ListAllFile fs cwd [] fuel path = files at hlisted ⊢
  rw [hk]
  exact firstLoop hlisted (Keeps.refl fs) (Shrinks.refl fs)

/-- Which regular files the cleaner removes. -/
theorem cleanTask_files (cwd times ms last_time) (hplain : PlainNames fs) (h0 : '\x00' ∉ path)
    {fuel : Nat} (hfuel : Posix.depth fs < fuel) {l : Loc} {x : Bytes}
    (hget : get fs l = some (.file (.file x))) :
    get (cleanTask cwd times ms last_time fuel path fs) l = none
      ↔ BelowRoot fs cwd path l ∧ isDead ms last_time (times l) = true := by
  obtain ⟨fs₁, hfirst, hsecond⟩ := cleanTask_loops cwd times ms last_time hplain h0 hfuel
  have hgone : get (cleanTask cwd times ms last_time fuel path fs) l = none ↔ get fs₁ l = none := by
    cases hfs₁ : get fs₁ l with
    | none => exact iff_of_true (shrinks_none hsecond.shrinks hfs₁) rfl
    | some y =>
      obtain rfl := Option.some.inj ((hfirst.shrinks l y hfs₁).symm.trans hget)
      rw [(hsecond.leaves l _).mpr hfs₁]
  rw [hgone]
  constructor
  · intro hnone
    have hne : get fs₁ l ≠ get fs l := by
      rw [hnone, hget]
      exact nofun
    obtain ⟨hdead, file, hmem, hlisted⟩ := hfirst.only l hne
    exact ⟨below_of_listed hplain h0 hmem hlisted, hdead⟩
  · rintro ⟨hbelow, hdead⟩
    obtain ⟨file, hmem, hlisted⟩ := listed_of_below hplain h0 hfuel hget hbelow
    exact hfirst.all file hmem l hlisted hdead

/-- **The cleaner removes exactly the expired files**, and no directory that is not empty, if and
only if the times of all files below the root are comparable. -/
theorem cleanTask_exact_iff (v : Volume Bytes) (cwd : Loc) (times : Loc → Int64)
    (ms last_time : UInt64) {tmp_path : Str} (h0 : '\x00' ∉ tmp_path) {fuel : Nat}
    (hfuel : Posix.depth v.fs < fuel) :
    CleansExactly cwd times ms last_time tmp_path v.fs
        (cleanTask cwd times ms last_time fuel tmp_path v.fs)
      ↔ ∀ l x, get v.fs l = some (.file (.file x)) → BelowRoot v.fs cwd tmp_path l →
          Comparable ms last_time (times l) := by
  constructor
  · intro hexact l x hget hbelow
    rw [← expired_iff]
    have hfiles := cleanTask_files cwd times ms last_time v.plain h0 hfuel hget
    rw [hexact.files l x hget, and_congr_right_iff] at hfiles
    exact (hfiles hbelow).symm
  · intro hcomparable
    refine ⟨?_, fun l x hget => ?_⟩
    · obtain ⟨fs₁, hfirst, hsecond⟩ := cleanTask_loops cwd times ms last_time v.plain h0 hfuel
      refine (hfirst.steps fun file hmem l hlisted hdead => ?_).trans hsecond.steps
      have hbelow := below_of_listed v.plain h0 hmem hlisted
      obtain ⟨p, n, x, -, -, -, hget⟩ := hlisted
      exact ((expired_iff ms last_time (times l)).mpr (hcomparable l x hget hbelow)).mp hdead
    · rw [cleanTask_files cwd times ms last_time v.plain h0 hfuel hget, and_congr_right_iff]
      exact fun hbelow => (expired_iff ms last_time (times l)).mpr (hcomparable l x hget hbelow)

/-- A temporary root with a file. -/
def uploads : Volume Bytes :=
  .ofFS (((∅ : Posix.FS Bytes).insert [['t']] .dir).insert [['0'], ['t']] (.file (.file [1])))
    (by decide)

/-- Files of the year 1970, with an interval of an hour. -/
theorem cleanTask_exact_hour :
    CleansExactly [] (fun _ => 5) 1700000000000 3600 ['t'] uploads.fs
      (cleanTask [] (fun _ => 5) 1700000000000 3600 3 ['t'] uploads.fs) := by
  refine (cleanTask_exact_iff uploads [] (fun _ => 5) 1700000000000 3600 (by decide)
    (by decide +kernel)).mpr fun _ _ _ _ => ?_
  rw [Comparable, if_pos (by decide)]
  decide

/-- **A running upload is deleted**: the interval is longer than the time since 1970, and the file
is of this second. -/
theorem upload_deleted :
    ¬ ∀ (v : Volume Bytes) (cwd : Loc) (times : Loc → Int64) (ms last_time : UInt64)
        (tmp_path : Str) (fuel : Nat), '\x00' ∉ tmp_path → Posix.depth v.fs < fuel →
        CleansExactly cwd times ms last_time tmp_path v.fs
          (cleanTask cwd times ms last_time fuel tmp_path v.fs) := by
  intro h
  have hexact := h uploads [] (fun _ => 1700000000) 1700000000000 1700000001 ['t'] 3 (by decide)
    (by decide +kernel)
  have hgone : get (cleanTask [] (fun _ => 1700000000) 1700000000000 1700000001 3 ['t'] uploads.fs)
      [['0'], ['t']] = none := by
    decide +kernel
  have hexpired := ((hexact.files [['0'], ['t']] [1] (by decide +kernel)).mp hgone).2
  rw [Expired] at hexpired
  exact absurd hexpired (by decide)

end ChunkManager

end FiberServer
