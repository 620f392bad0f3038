import FiberServer.Library.Paths
import Mathlib.Algebra.Order.Ring.Int
import Mathlib.Data.List.Sort
import Mathlib.Data.List.TakeWhile

/-!
# `FSUtil`

The file helpers that the chunk manager uses, over a file system whose system
calls fail only for the reasons of `FileSystem`: disks are not full and
permissions are given.  `cwd` is the working directory of the process.  Where a
helper changes the file system it returns the new one with its result.

* `Mkdir_get`: `Mkdir` only adds directories.
* `stoi_to_string`: reading a written index.
* `copyAll_eq`: what `MergeFiles` writes.
-/

namespace FiberServer

open FileSystem

abbrev Str := List Char

abbrev Bytes := List UInt8

theorem lawfulBEq_str : LawfulBEq Str := inferInstance

namespace FSUtil

/-- `__mkdir`: nothing to do for a path that exists. -/
def mkdirIfMissing (fs : FS Bytes) (cwd : Loc) (dirname : Str) : Option (FS Bytes) :=
  if (stat fs cwd dirname).isSome then some fs else mkdir fs cwd dirname

/-- The parts of a path that end before a `/`, the first character apart. -/
def slashPrefixes (path : Str) : List Str :=
  (List.range path.length).filterMap fun i =>
    if 1 ≤ i ∧ path[i]? = some '/' then some (path.take i) else none

def mkdirAll (cwd : Loc) : FS Bytes → List Str → FS Bytes × Bool
  | fs, [] => (fs, true)
  | fs, p :: ps =>
    match mkdirIfMissing fs cwd p with
    | some fs' => mkdirAll cwd fs' ps
    | none => (fs, false)

def Mkdir (fs : FS Bytes) (cwd : Loc) (dirname : Str) : FS Bytes × Bool :=
  if (stat fs cwd dirname).isSome then (fs, true)
  else
    let path := cstr dirname
    mkdirAll cwd fs (slashPrefixes path ++ [path])

def Dirname (filename : Str) : Str :=
  match filename.reverse.dropWhile (· ≠ '/') with
  | [] => ['.']
  | [_] => ['/']
  | _ :: rest => rest.reverse

/-- `OpenForWrite`, before the file is truncated: where it is. -/
def OpenForWrite (fs : FS Bytes) (cwd : Loc) (filename : Str) : FS Bytes × Option Loc :=
  match openWrite fs cwd filename with
  | some l => (fs, some l)
  | none =>
    let r := Mkdir fs cwd (Dirname filename)
    (r.1, openWrite r.1 cwd filename)

/-- The recursion of `Rm`, on the location that the path names. -/
def rmTree : Nat → FS Bytes → Loc → FS Bytes × Bool
  | 0, fs, _ => (fs, false)
  | fuel + 1, fs, l =>
    match FileSystem.get fs l with
    | none => (fs, true)
    | some (.file _) => (fs.erase l, true)
    | some .dir =>
      let r := (readdir fs l).foldl (fun r e => rmTree fuel r.1 (e.1 :: l)) (fs, true)
      -- `rmdir`
      if l = [] ∨ (readdir r.1 l) ≠ [] then (r.1, false) else (r.1.erase l, r.2)

/-- `Rm`; the depth of a tree is at most the number of its nodes. -/
def Rm (fs : FS Bytes) (cwd : Loc) (path : Str) : FS Bytes × Bool :=
  match locate fs cwd path with
  | none => (fs, true)
  | some r => rmTree (fs.entries.length + 1) fs (push r.1 r.2)

def Mv (fs : FS Bytes) (cwd : Loc) (old new : Str) : FS Bytes × Bool :=
  let r := Rm fs cwd new
  if r.2 then
    match rename r.1 cwd old new with
    | some fs' => (fs', true)
    | none => (r.1, false)
  else (r.1, false)

def isspace (c : Char) : Bool := c ∈ [' ', '\t', '\n', '\x0b', '\x0c', '\r']

/-- `std::stoi` on a name; `none` when it throws. -/
def stoi (s : Str) : Option Int :=
  let s := s.dropWhile isspace
  let neg := s.head? == some '-'
  let s := if s.head? == some '-' || s.head? == some '+' then s.tail else s
  let ds := s.takeWhile Char.isDigit
  let v : Int := if neg then -(Nat.ofDigitChars 10 ds 0 : Int) else Nat.ofDigitChars 10 ds 0
  if ds ≠ [] ∧ -2 ^ 31 ≤ v ∧ v < 2 ^ 31 then some v else none

/-- `std::to_string` of an `int`. -/
def to_string (i : Int) : Str :=
  if i < 0 then '-' :: Nat.toDigits 10 i.natAbs else Nat.toDigits 10 i.natAbs

def GetIndices (fs : FS Bytes) (cwd : Loc) (path : Str) : List Int :=
  match opendir fs cwd path with
  | none => []
  | some l => ((readdir fs l).filterMap fun e =>
      match e.2 with
      | .file _ => stoi e.1
      | .dir => none).insertionSort (· ≤ ·)

/-- Open for reading; a directory can be opened but gives no bytes. -/
def openRead (fs : FS Bytes) (cwd : Loc) (path : Str) : Option (Loc × Bytes) :=
  (locate fs cwd path).bind fun r =>
    match FileSystem.get fs (push r.1 r.2) with
    | none => none
    | some .dir => some (push r.1 r.2, [])
    | some (.file c) => some (push r.1 r.2, c)

/-- The loop of `MergeFiles`: the bytes written to `ofs`.  When a source is the
file that is being written, `back` is what reading it gives after the bytes
written so far; it depends on how much of them the stream has flushed. -/
def copyAll (back : Bytes → Bytes) (fs : FS Bytes) (cwd target : Loc) :
    Bytes → List Str → Bytes × Bool
  | out, [] => (out, true)
  | out, p :: ps =>
    match openRead fs cwd p with
    | none => (out, false)
    | some (l, content) =>
      copyAll back fs cwd target (out ++ if l = target then back out else content) ps

/-- The first `MergeFiles`, on full paths. -/
def MergePaths (back : Bytes → Bytes) (fs : FS Bytes) (cwd : Loc) (target_path : Str)
    (file_paths : List Str) : FS Bytes × Bool :=
  match openWrite fs cwd target_path with
  | none => (fs, false)
  | some target =>
    let r := copyAll back (fs.insert target (.file [])) cwd target [] file_paths
    (fs.insert target (.file r.1), r.2)

/-- The second `MergeFiles`, on indices. -/
def MergeFiles (back : Bytes → Bytes) (fs : FS Bytes) (cwd : Loc) (target_path src_dir : Str)
    (indices : List Int) : FS Bytes × Bool :=
  let path := if src_dir.getLast? = some '/' then src_dir else src_dir ++ ['/']
  MergePaths back fs cwd target_path (indices.map fun idx => path ++ to_string idx)

/-! ### `Mkdir` only adds directories -/

/-- `fs'` is `fs` with some directories more. -/
def AddsDirs (fs fs' : FS Bytes) : Prop :=
  ∀ l, FileSystem.get fs' l = FileSystem.get fs l
    ∨ FileSystem.get fs l = none ∧ FileSystem.get fs' l = some .dir

theorem AddsDirs.refl (fs : FS Bytes) : AddsDirs fs fs := fun _ => .inl rfl

theorem AddsDirs.trans {fs fs' fs'' : FS Bytes} (h : AddsDirs fs fs') (h' : AddsDirs fs' fs'') :
    AddsDirs fs fs'' := by
  intro l
  rcases h l with he | ⟨hn, hd⟩ <;> rcases h' l with he' | ⟨hn', hd'⟩
  · exact .inl (he'.trans he)
  · exact .inr ⟨he ▸ hn', hd'⟩
  · exact .inr ⟨hn, he'.trans hd⟩
  · rw [hd] at hn'
    exact nomatch hn'

theorem AddsDirs.file_iff {fs fs' : FS Bytes} (h : AddsDirs fs fs') {l : Loc} {c : Bytes} :
    FileSystem.get fs' l = some (.file c) ↔ FileSystem.get fs l = some (.file c) := by
  rcases h l with he | ⟨hn, hd⟩
  · rw [he]
  · rw [hn, hd]
    simp

theorem AddsDirs.isDir {fs fs' : FS Bytes} (h : AddsDirs fs fs') {l : Loc}
    (hl : FileSystem.isDir fs l) : FileSystem.isDir fs' l := by
  rw [isDir_iff] at hl ⊢
  rcases h l with he | ⟨hn, -⟩
  · rw [he, hl]
  · rw [hl] at hn
    exact nomatch hn

theorem mkdirIfMissing_adds {fs fs' : FS Bytes} {cwd : Loc} {p : Str}
    (h : mkdirIfMissing fs cwd p = some fs') : AddsDirs fs fs' := by
  rw [mkdirIfMissing] at h
  split_ifs at h
  · cases h
    exact AddsDirs.refl fs
  · exact mkdir_get h

theorem mkdirAll_adds {cwd : Loc} {ps : List Str} :
    ∀ {fs : FS Bytes}, AddsDirs fs (mkdirAll cwd fs ps).1 := by
  induction ps with
  | nil => intro fs; exact AddsDirs.refl fs
  | cons p ps ih =>
    intro fs
    rw [mkdirAll]
    cases hp : mkdirIfMissing fs cwd p with
    | none => exact AddsDirs.refl fs
    | some fs' => exact (mkdirIfMissing_adds hp).trans ih

theorem Mkdir_adds (fs : FS Bytes) (cwd : Loc) (dirname : Str) :
    AddsDirs fs (Mkdir fs cwd dirname).1 := by
  rw [Mkdir]
  split_ifs
  · exact AddsDirs.refl fs
  · exact mkdirAll_adds

theorem OpenForWrite_adds (fs : FS Bytes) (cwd : Loc) (filename : Str) :
    AddsDirs fs (OpenForWrite fs cwd filename).1 := by
  rw [OpenForWrite]
  split
  · exact AddsDirs.refl fs
  · exact Mkdir_adds fs cwd _

/-- Where `OpenForWrite` opens, it could have been opened directly. -/
theorem OpenForWrite_some {fs : FS Bytes} {cwd l : Loc} {filename : Str}
    (h : (OpenForWrite fs cwd filename).2 = some l) :
    openWrite (OpenForWrite fs cwd filename).1 cwd filename = some l := by
  rw [OpenForWrite] at h ⊢
  split at h
  · rename_i l' hl'
    cases h
    simp only [hl']
  · exact h

/-! ### `Rm` and `Mv` -/

/-- `Rm` adds nothing. -/
theorem rmTree_get {fuel : Nat} :
    ∀ {fs : FS Bytes} {l l' : Loc} {x : FileSystem.Node Bytes},
      FileSystem.get (rmTree fuel fs l).1 l' = some x → FileSystem.get fs l' = some x := by
  induction fuel with
  | zero => intro fs l l' x h; exact h
  | succ fuel ih =>
    intro fs l l' x h
    have hfold : ∀ (es : List (Name × FileSystem.Node Bytes)) (r : FS Bytes × Bool),
        FileSystem.get (es.foldl (fun r e => rmTree fuel r.1 (e.1 :: l)) r).1 l' = some x →
          FileSystem.get r.1 l' = some x := by
      intro es r
      apply List.foldlRecOn es _ (motive := fun q : FS Bytes × Bool =>
        FileSystem.get q.1 l' = some x → FileSystem.get r.1 l' = some x) id
      intro q hq e _ he
      exact hq (ih he)
    rw [rmTree] at h
    split at h
    · exact h
    · exact get_of_erase h
    · simp only at h
      split_ifs at h
      · exact hfold _ _ h
      · exact hfold _ _ (get_of_erase h)

theorem Rm_get {fs : FS Bytes} {cwd l : Loc} {path : Str} {x : FileSystem.Node Bytes}
    (h : FileSystem.get (Rm fs cwd path).1 l = some x) : FileSystem.get fs l = some x := by
  rw [Rm] at h
  split at h
  · exact h
  · exact rmTree_get h

theorem rmTree_outside {fuel : Nat} :
    ∀ {fs : FS Bytes} {l l' : Loc}, ¬ l <:+ l' →
      FileSystem.get (rmTree fuel fs l).1 l' = FileSystem.get fs l' := by
  induction fuel with
  | zero => intro fs l l' _; rfl
  | succ fuel ih =>
    intro fs l l' hl
    have hne : l' ≠ l := by
      rintro rfl
      exact hl (List.suffix_refl _)
    have hfold : ∀ (es : List (Name × FileSystem.Node Bytes)) (r : FS Bytes × Bool),
        FileSystem.get (es.foldl (fun r e => rmTree fuel r.1 (e.1 :: l)) r).1 l'
          = FileSystem.get r.1 l' := by
      intro es r
      apply List.foldlRecOn es _ (motive := fun q : FS Bytes × Bool =>
        FileSystem.get q.1 l' = FileSystem.get r.1 l') rfl
      intro q hq e _
      exact (ih fun h => hl ((List.suffix_cons e.1 l).trans h)).trans hq
    rw [rmTree]
    split
    · rfl
    · exact get_erase_ne _ hne
    · simp only
      split_ifs
      · exact hfold _ _
      · exact (get_erase_ne _ hne).trans (hfold _ _)

/-- After its directory is removed no file of it is left. -/
theorem rmTree_files {fuel : Nat} {fs : FS Bytes} {l : Loc} {n : Name} {c : Bytes}
    (hdir : FileSystem.get fs l = some .dir) :
    FileSystem.get (rmTree (fuel + 2) fs l).1 (n :: l) ≠ some (.file c) := by
  -- one entry of the directory after the other
  have hfold : ∀ (es : List (Name × FileSystem.Node Bytes)) (r : FS Bytes × Bool),
      FileSystem.get (es.foldl (fun r e => rmTree (fuel + 1) r.1 (e.1 :: l)) r).1 (n :: l)
          = some (.file c) →
        FileSystem.get r.1 (n :: l) = some (.file c) ∧ n ∉ es.map Prod.fst := by
    intro es
    induction es with
    | nil => intro r h; exact ⟨h, List.not_mem_nil⟩
    | cons e es ih =>
      intro r h
      obtain ⟨hrm, hn⟩ := ih _ h
      simp only at hrm
      refine ⟨rmTree_get hrm, ?_⟩
      rw [List.map_cons, List.mem_cons, not_or]
      refine ⟨?_, hn⟩
      rintro rfl
      have hfile := rmTree_get hrm
      have herase : rmTree (fuel + 1) r.1 (e.1 :: l) = (r.1.erase (e.1 :: l), true) := by
        simp only [rmTree, hfile]
      rw [herase, get_erase_self] at hrm
      exact nomatch hrm
  intro h
  rw [rmTree, hdir] at h
  simp only at h
  have hfile : FileSystem.get ((readdir fs l).foldl
      (fun r e => rmTree (fuel + 1) r.1 (e.1 :: l)) (fs, true)).1 (n :: l) = some (.file c) := by
    split_ifs at h
    · exact h
    · exact get_of_erase h
  obtain ⟨hget, hn⟩ := hfold _ _ hfile
  exact hn (List.mem_map.mpr ⟨(n, .file c), mem_readdir.mpr hget, rfl⟩)

/-- `Rm` of a directory leaves no file in it. -/
theorem Rm_files {fs : FS Bytes} {cwd l : Loc} {path : Str} {n : Name} {c : Bytes}
    (hdir : opendir fs cwd path = some l) :
    FileSystem.get (Rm fs cwd path).1 (n :: l) ≠ some (.file c) := by
  rw [opendir, Option.bind_eq_some_iff] at hdir
  obtain ⟨r, hr, h⟩ := hdir
  split_ifs at h with hd
  cases h
  intro hget
  rw [Rm, hr] at hget
  have hold := rmTree_get hget
  cases hlen : fs.entries.length with
  | zero =>
    rw [get_cons] at hold
    have hmem := AList.mem_lookup_iff.mp hold
    rw [List.length_eq_zero_iff.mp hlen] at hmem
    exact List.not_mem_nil hmem
  | succ k =>
    rw [hlen] at hget
    exact rmTree_files (isDir_iff.mp hd) hget

/-- `Rm` touches only what is at the path and below. -/
theorem Rm_outside {fs : FS Bytes} {cwd l : Loc} {path : Str} (h : ¬ resolve cwd path <:+ l) :
    FileSystem.get (Rm fs cwd path).1 l = FileSystem.get fs l := by
  rw [Rm]
  split
  · rfl
  next r hr =>
    rw [locate_resolve hr]
    exact rmTree_outside h

/-- `Rm` of a regular file. -/
theorem Rm_file {fs : FS Bytes} {cwd l : Loc} {path : Str} {c : Bytes}
    (hopen : openWrite fs cwd path = some l) (hget : FileSystem.get fs l = some (.file c)) :
    Rm fs cwd path = (fs.erase l, true) := by
  rw [openWrite, Option.bind_eq_some_iff] at hopen
  obtain ⟨r, hr, hl⟩ := hopen
  split_ifs at hl with hspecial
  cases hl
  rw [Bool.or_eq_true, not_or, Bool.not_eq_true] at hspecial
  rw [Rm, hr]
  simp only [push_of_not_special hspecial.1, rmTree, hget]

/-- After `Mv` nothing is new outside the new name, and a file at the new name is
the file that was at the old one. -/
theorem Mv_get {fs fs' : FS Bytes} {cwd : Loc} {old new : Str}
    (h : Mv fs cwd old new = (fs', true)) :
    ∃ r, locate (Rm fs cwd new).1 cwd new = some r ∧ special r.2 = false
      ∧ (∀ l x, ¬ (r.2 :: r.1) <:+ l → FileSystem.get fs' l = some x →
          FileSystem.get fs l = some x)
      ∧ ∀ c, FileSystem.get fs' (r.2 :: r.1) = some (.file c) →
          stat (Rm fs cwd new).1 cwd old = some (.file c) := by
  rw [Mv] at h
  split_ifs at h
  · split at h
    · rename_i fs'' hren
      cases h
      obtain ⟨r, hr, hsp, hother, hnew⟩ := get_rename hren
      exact ⟨r, hr, hsp, fun l x hl hx => Rm_get (hother l x hl hx), hnew⟩
    · simp at h
  · simp at h

/-! ### Indices as names -/

theorem digit_cases {c : Char} (h : c.isDigit) : isspace c = false ∧ c ≠ '-' ∧ c ≠ '+' := by
  have hne : ∀ d : Char, d.isDigit = false → c ≠ d := by
    rintro d hd rfl
    rw [h] at hd
    exact nomatch hd
  refine ⟨?_, hne '-' (by decide), hne '+' (by decide)⟩
  simp only [isspace, decide_eq_false_iff_not, List.mem_cons, List.not_mem_nil, or_false, not_or]
  exact ⟨hne _ (by decide), hne _ (by decide), hne _ (by decide), hne _ (by decide),
    hne _ (by decide), hne _ (by decide)⟩

/-- An index that is written down is read back. -/
theorem stoi_to_string {i : Nat} (h : i < 2 ^ 31) : stoi (to_string i) = some (i : Int) := by
  have hdig : ∀ c ∈ Nat.toDigits 10 i, c.isDigit :=
    fun c hc => Nat.isDigit_of_mem_toDigits (by decide) (by decide) hc
  have hstr : to_string i = Nat.toDigits 10 i := by
    rw [to_string, if_neg (by omega), Int.natAbs_natCast]
  have hval : Nat.ofDigitChars 10 (Nat.toDigits 10 i) 0 = i := Nat.ofDigitChars_ten_toDigits
  have hall : (Nat.toDigits 10 i).takeWhile Char.isDigit = Nat.toDigits 10 i :=
    List.takeWhile_eq_self_iff.mpr hdig
  rw [hstr, stoi]
  cases hd : Nat.toDigits 10 i with
  | nil => exact absurd hd Nat.toDigits_ne_nil
  | cons c cs =>
    obtain ⟨hspace, hminus, hplus⟩ := digit_cases (hdig c (by rw [hd]; exact List.mem_cons_self))
    rw [hd] at hall hval
    have hdrop : (c :: cs).dropWhile isspace = c :: cs := by
      rw [List.dropWhile_cons, hspace]
      rfl
    have hm : (some c == some '-') = false := by simpa using hminus
    have hp : (some c == some '+') = false := by simpa using hplus
    simp only [hdrop, List.head?_cons, hm, hp, Bool.or_false, Bool.false_eq_true, if_false, hall,
      hval]
    rw [if_pos ⟨List.cons_ne_nil c cs, by omega, by omega⟩]

/-- The indices are the regular files in the directory whose names `stoi` reads. -/
theorem mem_GetIndices_iff {fs : FS Bytes} {cwd l : Loc} {path : Str}
    (hdir : opendir fs cwd path = some l) {x : Int} :
    x ∈ GetIndices fs cwd path ↔
      ∃ n c, FileSystem.get fs (n :: l) = some (.file c) ∧ stoi n = some x := by
  rw [GetIndices, hdir]
  simp only [List.mem_insertionSort, List.mem_filterMap]
  constructor
  · rintro ⟨⟨n, y⟩, hmem, hx⟩
    cases y with
    | dir => exact nomatch hx
    | file c => exact ⟨n, c, mem_readdir.mp hmem, hx⟩
  · rintro ⟨n, c, hget, hx⟩
    exact ⟨(n, .file c), mem_readdir.mpr hget, hx⟩

/-- There are no duplicates when no two regular files are read as the same index. -/
theorem nodup_GetIndices_of_inj {fs : FS Bytes} {cwd l : Loc} {path : Str}
    (hdir : opendir fs cwd path = some l)
    (hinj : ∀ n n' c c' x, FileSystem.get fs (n :: l) = some (.file c) → stoi n = some x →
      FileSystem.get fs (n' :: l) = some (.file c') → stoi n' = some x → n = n') :
    (GetIndices fs cwd path).Nodup := by
  rw [GetIndices, hdir]
  refine (List.perm_insertionSort _ _).nodup_iff.mpr (List.pairwise_filterMap.mpr ?_)
  have hnames := List.pairwise_map.mp (nodup_readdir fs l)
  refine hnames.imp_of_mem fun {e e'} he he' hne x hx x' hx' hxx => hne ?_
  obtain ⟨n, y⟩ := e
  obtain ⟨n', y'⟩ := e'
  subst hxx
  cases y with
  | dir => exact nomatch hx
  | file c =>
    cases y' with
    | dir => exact nomatch hx'
    | file c' => exact hinj n n' c c' x (mem_readdir.mp he) hx (mem_readdir.mp he') hx'

theorem sorted_GetIndices (fs : FS Bytes) (cwd : Loc) (path : Str) :
    (GetIndices fs cwd path).Pairwise (· ≤ ·) := by
  rw [GetIndices]
  split
  · exact List.Pairwise.nil
  · exact List.pairwise_insertionSort (· ≤ ·) _

/-! ### `MergeFiles` -/

/-- When every source can be read, the output is the sources in their order, one
that is the target itself replaced by what reading it back gives. -/
theorem copyAll_eq {ι : Type*} {back : Bytes → Bytes} {fs : FS Bytes} {cwd target : Loc}
    {path : ι → Str} {src : ι → Loc} {content : ι → Bytes} {xs : List ι} :
    ∀ {out : Bytes},
      (∀ x ∈ xs, ∃ c, openRead fs cwd (path x) = some (src x, c)
        ∧ (src x ≠ target → c = content x)) →
      copyAll back fs cwd target out (xs.map path)
        = (xs.foldl (fun out x => out ++ if src x = target then back out else content x) out,
          true) := by
  induction xs with
  | nil => intro out _; rfl
  | cons x xs ih =>
    intro out h
    obtain ⟨c, hc, hcontent⟩ := h x List.mem_cons_self
    have hpiece : (if src x = target then back out else c)
        = if src x = target then back out else content x := by
      split_ifs with hx
      · rfl
      · exact hcontent hx
    rw [List.map_cons, copyAll, hc]
    simp only [hpiece]
    exact ih fun y hy => h y (List.mem_cons_of_mem x hy)

end FSUtil

end FiberServer
