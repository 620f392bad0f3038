import FiberServer.Chunk.SysCalls

/-!
# `FSUtil::Rm`

A recursive remove while calls fail.  The result of `Rm` for a directory is the result for its last
entry, unless the final `rmdir` fails.

* `Outcome`: what a call of `Rm` did.
* `Rm_confined`: only what is at the path and below has been removed, whatever fails.
* `Rm_truthful`: when `unlink`, `opendir` and `rmdir` fail, `Rm` ends, and its result is whether
  the path is gone.
-/

namespace FiberServer

open FileSystem (Loc Name Plain get isDir special push)
open Posix (Shrinks Volume locate)

namespace Sys

variable {fails : Nat → SysCall → Bool} {cwd : Loc} {d : Disk} {path : Str}

/-! ### One call -/

/-- What `Rm` did; `entries` is the run of its loop. -/
inductive Outcome (fails : Nat → SysCall → Bool) (cwd : Loc) (fuel : Nat) (path : Str) (d : Disk) :
    Option Bool → Disk → Prop
  /-- `lstat` finds nothing, or it fails. -/
  | missing {d'} (hfs : d'.fs = d.fs)
      (h : fails d.calls (.lstat true path) = true ∨ Posix.lstat d.fs cwd path = none) :
      Outcome fails cwd fuel path d (some true) d'
  /-- `lstat` fails in `Unlink`. -/
  | unseen {x d'} (hx : Posix.lstat d.fs cwd path = some (.file x)) (hfs : d'.fs = d.fs)
      (h : ∃ k, fails k (.lstat false path) = true) : Outcome fails cwd fuel path d (some true) d'
  /-- `unlink` fails. -/
  | kept {x d'} (hx : Posix.lstat d.fs cwd path = some (.file x)) (hfs : d'.fs = d.fs)
      (h : (∃ k, fails k (.change (.unlink path)) = true) ∨ Posix.unlink d.fs cwd path = none) :
      Outcome fails cwd fuel path d (some false) d'
  | unlinked {x d'} (hx : Posix.lstat d.fs cwd path = some (.file x))
      (hfs : Posix.unlink d.fs cwd path = some d'.fs)
      (hstat : ∃ k, fails k (.lstat true path) = false)
      (hlstat : ∃ k, fails k (.lstat false path) = false)
      (hunlink : ∃ k, fails k (.change (.unlink path)) = false) :
      Outcome fails cwd fuel path d (some true) d'
  /-- `opendir` fails. -/
  | closed {d'} (hdir : Posix.lstat d.fs cwd path = some .dir) (hfs : d'.fs = d.fs) :
      Outcome fails cwd fuel path d (some false) d'
  /-- The fuel does not reach. -/
  | deep {l d₁ d'} (hdir : Posix.lstat d.fs cwd path = some .dir)
      (hopen : Posix.opendir d.fs cwd path = some l)
      (entries : run fails cwd (rmEntries (Rm fuel) path ((FileSystem.readdir d.fs l).map Prod.fst)
        true) d₁ = (none, d')) (hfs : d₁.fs = d.fs) : Outcome fails cwd fuel path d none d'
  /-- `rmdir` fails behind the loop. -/
  | left {l d₁ d₂ d' ret} (hdir : Posix.lstat d.fs cwd path = some .dir)
      (hopen : Posix.opendir d.fs cwd path = some l)
      (entries : run fails cwd (rmEntries (Rm fuel) path ((FileSystem.readdir d.fs l).map Prod.fst)
        true) d₁ = (some ret, d₂)) (hfs : d₁.fs = d.fs) (hkept : d'.fs = d₂.fs) :
      Outcome fails cwd fuel path d (some false) d'
  | removed {l d₁ d₂ d' ret} (hdir : Posix.lstat d.fs cwd path = some .dir)
      (hopen : Posix.opendir d.fs cwd path = some l)
      (entries : run fails cwd (rmEntries (Rm fuel) path ((FileSystem.readdir d.fs l).map Prod.fst)
        true) d₁ = (some ret, d₂)) (hfs : d₁.fs = d.fs)
      (hgone : Posix.rmdir d₂.fs cwd path = some d'.fs) :
      Outcome fails cwd fuel path d (some ret) d'

theorem run_Unlink (fails : Nat → SysCall → Bool) (d : Disk) {x : Posix.Leaf Bytes}
    (hx : Posix.lstat d.fs cwd path = some (.file x)) :
    ∃ ret d', run fails cwd (Unlink path) d = (ret, d')
      ∧ (ret = true ∧ d'.fs = d.fs ∧ fails d.calls (.lstat false path) = true
        ∨ ret = false ∧ d'.fs = d.fs
          ∧ ((∃ k, fails k (.change (.unlink path)) = true) ∨ Posix.unlink d.fs cwd path = none)
        ∨ ret = true ∧ Posix.unlink d.fs cwd path = some d'.fs
          ∧ fails d.calls (.lstat false path) = false
          ∧ ∃ k, fails k (.change (.unlink path)) = false) := by
  rw [Unlink, lstat, run_call, call_lstat, hx]
  cases hfails : fails d.calls (.lstat false path) with
  | true => exact ⟨true, _, rfl, .inl ⟨rfl, rfl, rfl⟩⟩
  | false =>
    obtain ⟨made, d', hcall, hcases⟩ := call_change fails cwd ⟨d.fs, d.calls + 1⟩ (.unlink path)
    refine ⟨made, d', ?_, ?_⟩
    · simp only [Bool.false_eq_true, if_false, Option.map_some, Option.isNone_some]
      rw [run, change, Prog.run_perform]
      exact hcall
    · obtain ⟨rfl, hfs, hwhy⟩ | ⟨rfl, hfs, hok⟩ := hcases
      · exact .inr (.inl ⟨rfl, hfs, hwhy.imp_left fun h => ⟨_, h⟩⟩)
      · exact .inr (.inr ⟨rfl, hfs, rfl, _, hok⟩)

theorem st_mode_isDir (x : Posix.Node Bytes) : st_mode x &&& S_IFDIR = 0 ↔ x ≠ .dir := by
  rcases x with _ | (_ | _) <;> simp [st_mode, S_IFDIR, S_IFREG, S_IFLNK]

/-- Every call of `Rm` has an outcome. -/
theorem run_Rm (fails : Nat → SysCall → Bool) (cwd : Loc) (fuel : Nat) (path : Str) (d : Disk) :
    ∃ ret d', run fails cwd (Rm (fuel + 1) path) d = (ret, d')
      ∧ Outcome fails cwd fuel path d ret d' := by
  rw [Rm, lstat, run_call, call_lstat]
  cases hfails : fails d.calls (.lstat true path) with
  | true => exact ⟨_, _, rfl, .missing rfl (.inl hfails)⟩
  | false =>
    cases hx : Posix.lstat d.fs cwd path with
    | none => exact ⟨_, _, rfl, .missing rfl (.inr hx)⟩
    | some x =>
      simp only [Bool.false_eq_true, if_false, Option.map_some, st_mode_isDir]
      cases x with
      | file x =>
        rw [if_pos nofun, run, Prog.run_bind]
        obtain ⟨ret, d', hrun, hcases⟩ := run_Unlink fails ⟨d.fs, d.calls + 1⟩ hx
        rw [run] at hrun
        rw [hrun]
        refine ⟨_, _, rfl, ?_⟩
        obtain ⟨rfl, hfs, h⟩ | ⟨rfl, hfs, h⟩ | ⟨rfl, hfs, hlstat, hunlink⟩ := hcases
        · exact .unseen hx hfs ⟨_, h⟩
        · exact .kept hx hfs h
        · exact .unlinked hx hfs ⟨_, hfails⟩ ⟨_, hlstat⟩ hunlink
      | dir =>
        rw [if_neg fun h => h rfl, opendir, run_call, call_opendir]
        split_ifs with hclosed
        · exact ⟨_, _, rfl, .closed hx rfl⟩
        · cases hopen : Posix.opendir d.fs cwd path with
          | none => exact ⟨_, _, rfl, .closed hx rfl⟩
          | some l =>
            rw [Option.map_some, run, Prog.run_bind]
            rcases hentries : run fails cwd (rmEntries (Rm fuel) path
              ((FileSystem.readdir d.fs l).map Prod.fst) true) ⟨d.fs, d.calls + 1 + 1⟩
              with ⟨ret, d₂⟩
            rw [run] at hentries
            rw [hentries]
            cases ret with
            | none => exact ⟨_, _, rfl, .deep hx hopen hentries rfl⟩
            | some ret =>
              obtain ⟨removed, d', hcall, hcases⟩ := call_change fails cwd d₂ (.rmdir path)
              simp only [change, Prog.run_bind, Prog.run_perform, hcall]
              obtain ⟨rfl, hfs, -⟩ | ⟨rfl, hfs, -⟩ := hcases
              · exact ⟨_, _, rfl, .left hx hopen hentries rfl hfs⟩
              · exact ⟨_, _, rfl, .removed hx hopen hentries rfl hfs⟩

/-- The outcomes for a regular file or a link. -/
theorem Outcome.leaf {fuel : Nat} {ret : Option Bool} {d' : Disk} {x : Posix.Leaf Bytes}
    (h : Outcome fails cwd fuel path d ret d')
    (hx : Posix.lstat d.fs cwd path = some (.file x)) :
    ret = some true ∧ d'.fs = d.fs ∧ (∃ k st, fails k (.lstat st path) = true)
      ∨ ret = some false ∧ d'.fs = d.fs
        ∧ ((∃ k, fails k (.change (.unlink path)) = true) ∨ Posix.unlink d.fs cwd path = none)
      ∨ ret = some true ∧ Posix.unlink d.fs cwd path = some d'.fs
        ∧ (∃ k, fails k (.lstat true path) = false) ∧ (∃ k, fails k (.lstat false path) = false)
        ∧ ∃ k, fails k (.change (.unlink path)) = false := by
  cases h with
  | missing hfs h =>
    obtain h | h := h
    · exact .inl ⟨rfl, hfs, _, _, h⟩
    · exact nomatch hx.symm.trans h
  | unseen hx hfs h =>
    obtain ⟨k, h⟩ := h
    exact .inl ⟨rfl, hfs, k, _, h⟩
  | kept hx hfs h => exact .inr (.inl ⟨rfl, hfs, h⟩)
  | unlinked hx hfs hstat hlstat hunlink => exact .inr (.inr ⟨rfl, hfs, hstat, hlstat, hunlink⟩)
  | closed hdir => exact nomatch hx.symm.trans hdir
  | deep hdir => exact nomatch hx.symm.trans hdir
  | left hdir => exact nomatch hx.symm.trans hdir
  | removed hdir => exact nomatch hx.symm.trans hdir

/-! ### Only what is at the path and below -/

/-- The names of the file system are names. -/
def PlainNames (fs : Posix.FS Bytes) : Prop := ∀ n l, (get fs (n :: l)).isSome → Plain n

theorem PlainNames.shrinks {fs fs' : Posix.FS Bytes} (h : PlainNames fs) (hs : Shrinks fs fs') :
    PlainNames fs' := by
  intro n l hsome
  obtain ⟨x, hx⟩ := Option.isSome_iff_exists.mp hsome
  exact h n l (Option.isSome_of_eq_some (hs _ _ hx))

/-- The place that a path leads to. -/
def place (fs : Posix.FS Bytes) (cwd : Loc) (path : Str) : Option Loc :=
  (locate fs cwd false path).map fun r => push r.1 r.2

theorem place_of_shrinks {fs fs' : Posix.FS Bytes} (h : Shrinks fs fs') {l : Loc}
    (hl : place fs' cwd path = some l) : place fs cwd path = some l := by
  rw [place, Option.map_eq_some_iff] at hl ⊢
  obtain ⟨r, hr, hpush⟩ := hl
  exact ⟨r, h.locate hr, hpush⟩

/-- An entry is in the directory, or its path is as good as that of the directory. -/
theorem place_entry {fs : Posix.FS Bytes} {n : Name} {l : Loc} (hn : Plain n)
    (hdir : Posix.lstat fs cwd path = some .dir) (hl : place fs cwd (path ++ '/' :: n) = some l) :
    ∃ l₀, place fs cwd path = some l₀ ∧ (l = l₀ ∧ '\x00' ∈ path ∨ l = n :: l₀ ∧ '\x00' ∉ path) := by
  rw [Posix.lstat, Option.bind_eq_some_iff] at hdir
  obtain ⟨r, hr, hget⟩ := hdir
  refine ⟨push r.1 r.2, by rw [place, hr]; rfl, ?_⟩
  rw [place, Option.map_eq_some_iff] at hl
  obtain ⟨r', hr', rfl⟩ := hl
  by_cases h0 : '\x00' ∈ path
  · rw [Posix.locate_congr (FileSystem.cstr_append_of_mem h0), hr] at hr'
    cases hr'
    exact .inl ⟨rfl, h0⟩
  · have hne : path ≠ [] := by
      rintro rfl
      cases hr
    rw [Posix.locate_child hne h0 hn.2.2 hn.2.1,
      Posix.opendir_of_locate hr (FileSystem.isDir_iff.mpr hget)] at hr'
    cases hr'
    exact .inr ⟨FileSystem.push_of_not_special hn.1, h0⟩

/-- Nothing is new, and what is gone was at the path or below. -/
structure Confined (fs : Posix.FS Bytes) (cwd : Loc) (path : Str) (fs' : Posix.FS Bytes) :
    Prop where
  shrinks : Shrinks fs fs'
  below : ∀ l, get fs' l ≠ get fs l → ∃ l₀, place fs cwd path = some l₀ ∧ l₀ <:+ l

theorem Confined.refl (fs : Posix.FS Bytes) : Confined fs cwd path fs :=
  ⟨Shrinks.refl fs, fun _ h => absurd rfl h⟩

theorem Confined.trans {fs fs' fs'' : Posix.FS Bytes} (h : Confined fs cwd path fs')
    (h' : Confined fs' cwd path fs'') : Confined fs cwd path fs'' := by
  refine ⟨h.shrinks.trans h'.shrinks, fun l hl => ?_⟩
  by_cases hsame : get fs' l = get fs l
  · obtain ⟨l₀, hl₀, hbelow⟩ := h'.below l fun hc => hl (hc.trans hsame)
    exact ⟨l₀, place_of_shrinks h.shrinks hl₀, hbelow⟩
  · exact h.below l hsame

theorem confined_erase {fs : Posix.FS Bytes} {l : Loc} {n : Name}
    (hr : locate fs cwd false path = some (l, n)) (hn : special n = false) :
    Confined fs cwd path (fs.erase (n :: l)) := by
  refine ⟨Posix.shrinks_erase fs _, fun l' hl' => ⟨n :: l, ?_, ?_⟩⟩
  · rw [place, hr, Option.map_some, FileSystem.push_of_not_special hn]
  · have heq : l' = n :: l := by
      by_contra hne
      exact hl' (FileSystem.get_erase_ne fs hne)
    rw [heq]

/-- The entries of a directory are confined when their calls are. -/
theorem rmEntries_confined {Rm : Str → Sys (Option Bool)}
    (hRm : ∀ {path d ret d'}, PlainNames d.fs → run fails cwd (Rm path) d = (ret, d') →
      Confined d.fs cwd path d'.fs) {fs : Posix.FS Bytes}
    (hdir : Posix.lstat fs cwd path = some .dir) {names : List Name} :
    ∀ {d : Disk} {ret : Bool} {r : Option Bool} {d' : Disk}, (∀ n ∈ names, Plain n) →
      PlainNames d.fs → Confined fs cwd path d.fs →
      run fails cwd (rmEntries Rm path names ret) d = (r, d') → Confined fs cwd path d'.fs := by
  induction names with
  | nil =>
    intro d ret r d' _ _ hd hrun
    cases hrun
    exact hd
  | cons n names ih =>
    intro d ret r d' hnames hplain hd hrun
    rw [rmEntries, run, Prog.run_bind] at hrun
    rcases hentry : run fails cwd (Rm (path ++ '/' :: n)) d with ⟨r₁, d₁⟩
    have hone := hRm hplain hentry
    have hd₁ : Confined fs cwd path d₁.fs := by
      refine ⟨hd.shrinks.trans hone.shrinks, fun l hl => ?_⟩
      by_cases hsame : get d.fs l = get fs l
      · obtain ⟨l₁, hl₁, hbelow⟩ := hone.below l fun hc => hl (hc.trans hsame)
        obtain ⟨l₀, hl₀, hcases⟩ := place_entry (hnames n List.mem_cons_self) hdir
          (place_of_shrinks hd.shrinks hl₁)
        refine ⟨l₀, hl₀, ?_⟩
        obtain ⟨rfl, -⟩ | ⟨rfl, -⟩ := hcases
        · exact hbelow
        · exact (List.suffix_cons n l₀).trans hbelow
      · exact hd.below l hsame
    rw [run] at hentry
    rw [hentry] at hrun
    cases r₁ with
    | none =>
      cases hrun
      exact hd₁
    | some ret₁ =>
      exact ih (fun m hm => hnames m (List.mem_cons_of_mem n hm)) (hplain.shrinks hone.shrinks) hd₁
        hrun

theorem plain_of_readdir {fs : Posix.FS Bytes} (h : PlainNames fs) (l : Loc) :
    ∀ n ∈ (FileSystem.readdir fs l).map Prod.fst, Plain n := by
  intro n hn
  obtain ⟨⟨n, x⟩, hmem, rfl⟩ := List.mem_map.mp hn
  exact h n l (Option.isSome_of_eq_some (FileSystem.mem_readdir.mp hmem))

/-- **`Rm` removes nothing elsewhere**, whatever fails and however it ends. -/
theorem Rm_confined {fuel : Nat} : ∀ {path : Str} {d : Disk} {ret : Option Bool} {d' : Disk},
    PlainNames d.fs → run fails cwd (Rm fuel path) d = (ret, d') →
      Confined d.fs cwd path d'.fs := by
  induction fuel with
  | zero =>
    intro path d ret d' _ hrun
    cases hrun
    exact Confined.refl d.fs
  | succ fuel ih =>
    intro path d ret d' hplain hrun
    obtain ⟨ret₁, d₁, hrun₁, houtcome⟩ := run_Rm fails cwd fuel path d
    obtain ⟨rfl, rfl⟩ : ret₁ = ret ∧ d₁ = d' := by simpa [hrun₁] using hrun
    have hloop : ∀ {l : Loc} {d₁ : Disk} {r : Option Bool} {d₂ : Disk},
        Posix.lstat d.fs cwd path = some .dir → d₁.fs = d.fs →
        run fails cwd (rmEntries (Rm fuel) path ((FileSystem.readdir d.fs l).map Prod.fst) true) d₁
          = (r, d₂) → Confined d.fs cwd path d₂.fs := by
      intro l d₁ r d₂ hdir hfs hentries
      exact rmEntries_confined ih hdir (plain_of_readdir hplain l) (hfs ▸ hplain)
        (hfs ▸ Confined.refl d.fs) hentries
    cases houtcome with
    | missing hfs h => exact hfs ▸ Confined.refl d.fs
    | unseen hx hfs h => exact hfs ▸ Confined.refl d.fs
    | kept hx hfs h => exact hfs ▸ Confined.refl d.fs
    | closed hdir hfs => exact hfs ▸ Confined.refl d.fs
    | unlinked hx hfs =>
      obtain ⟨l, n, x, hr, hn, -, heq⟩ := Posix.unlink_eq_some hfs
      exact heq ▸ confined_erase hr hn
    | deep hdir hopen hentries hfs => exact hloop hdir hfs hentries
    | left hdir hopen hentries hfs hkept => exact hkept ▸ hloop hdir hfs hentries
    | removed hdir hopen hentries hfs hgone =>
      have hconfined := hloop hdir hfs hentries
      obtain ⟨l, n, hr, hn, -, -, heq⟩ := Posix.rmdir_eq_some hgone
      exact hconfined.trans (heq ▸ confined_erase hr hn)

/-! ### The result -/

/-- `path` leads to `root` as long as nothing changes outside of that tree. -/
def Leads (fs : Posix.FS Bytes) (cwd : Loc) (path : Str) (parent : Loc) (name : Name) : Prop :=
  ∀ fs', (∀ l, ¬ (name :: parent) <:+ l → get fs' l = get fs l) →
    locate fs' cwd false path = some (parent, name)

/-- Nothing is new, and what is gone was below `root`. -/
structure Inside (fs : Posix.FS Bytes) (root : Loc) (fs' : Posix.FS Bytes) : Prop where
  shrinks : Shrinks fs fs'
  below : ∀ l, get fs' l ≠ get fs l → ∃ n, (n :: root) <:+ l

theorem not_suffix_cons (n : Name) (root : Loc) : ¬ (n :: root) <:+ root := by
  intro h
  have hlength := h.length_le
  rw [List.length_cons] at hlength
  omega

theorem Inside.root {fs fs' : Posix.FS Bytes} {root : Loc} (h : Inside fs root fs') :
    get fs' root = get fs root := by
  by_contra hne
  obtain ⟨n, hn⟩ := h.below root hne
  exact not_suffix_cons n root hn

theorem Inside.outside {fs fs' : Posix.FS Bytes} {root l : Loc} (h : Inside fs root fs')
    (hl : ¬ root <:+ l) : get fs' l = get fs l := by
  by_contra hne
  obtain ⟨n, hn⟩ := h.below l hne
  exact hl ((List.suffix_cons n root).trans hn)

/-- The path of an entry leads to it while the directory is there. -/
theorem Leads.entry {fs fs₁ : Posix.FS Bytes} {parent : Loc} {name n : Name}
    (h : Leads fs cwd path parent name) (h0 : '\x00' ∉ path) (hname : special name = false)
    (hdir : get fs (name :: parent) = some .dir) (hn : Plain n)
    (hin : Inside fs (name :: parent) fs₁) :
    Leads fs₁ cwd (path ++ '/' :: n) (name :: parent) n := by
  intro fs' hsame
  have hpath : locate fs' cwd false path = some (parent, name) := by
    refine h fs' fun l hl => ?_
    have hl' : ¬ (n :: name :: parent) <:+ l := fun hc => hl ((List.suffix_cons n _).trans hc)
    exact (hsame l hl').trans (hin.outside hl)
  have hroot : get fs' (name :: parent) = some .dir := by
    rw [hsame _ (not_suffix_cons n _), hin.root, hdir]
  have hne : path ≠ [] := by
    rintro rfl
    exact nomatch hpath
  have hpush := FileSystem.push_of_not_special (l := parent) hname
  have hopen := Posix.opendir_of_locate hpath (by rw [hpush]; exact FileSystem.isDir_iff.mpr hroot)
  rw [Posix.locate_child hne h0 hn.2.2 hn.2.1, hopen, hpush]
  rfl

/-- The loop ends, and a result `false` is that of an entry that is still there. -/
theorem rmEntries_result {Rm : Str → Sys (Option Bool)} {fs : Posix.FS Bytes} {root : Loc}
    {names : List Name}
    (hRm : ∀ n ∈ names, ∀ d : Disk, Inside fs root d.fs →
      ∃ ret d', run fails cwd (Rm (path ++ '/' :: n)) d = (some ret, d') ∧ Inside fs root d'.fs
        ∧ (ret = true ↔ get d'.fs (n :: root) = none)) :
    ∀ {d : Disk} {ret : Bool}, Inside fs root d.fs →
      (ret = false → ∃ n, get d.fs (n :: root) ≠ none) →
      ∃ ret' d', run fails cwd (rmEntries Rm path names ret) d = (some ret', d')
        ∧ Inside fs root d'.fs ∧ (ret' = false → ∃ n, get d'.fs (n :: root) ≠ none) := by
  induction names with
  | nil => exact fun {d ret} hd hret => ⟨ret, d, rfl, hd, hret⟩
  | cons n names ih =>
    intro d ret hd _
    obtain ⟨ret₁, d₁, hrun, hin, hiff⟩ := hRm n List.mem_cons_self d hd
    have hret₁ : ret₁ = false → ∃ n, get d₁.fs (n :: root) ≠ none := by
      rintro rfl
      exact ⟨n, fun hnone => nomatch hiff.mpr hnone⟩
    obtain ⟨ret', d', hrun', h'⟩ := ih (fun m hm => hRm m (List.mem_cons_of_mem n hm)) hin hret₁
    refine ⟨ret', d', ?_, h'⟩
    rw [rmEntries, run, Prog.run_bind]
    rw [run] at hrun
    rw [hrun]
    exact hrun'

/-- One call of `Rm`, when the calls for the entries tell whether these are gone. -/
theorem Rm_result_step (hfails : ∀ k st p, fails k (.lstat st p) = false) {fuel : Nat}
    {parent : Loc} {name : Name} (hname : special name = false)
    (hleads : Leads d.fs cwd path parent name)
    (hentry : get d.fs (name :: parent) = some .dir → ∀ n, (get d.fs (n :: name :: parent)).isSome →
      ∀ d₁ : Disk, Inside d.fs (name :: parent) d₁.fs →
        ∃ ret d', run fails cwd (Rm fuel (path ++ '/' :: n)) d₁ = (some ret, d')
          ∧ Inside d.fs (name :: parent) d'.fs
          ∧ (ret = true ↔ get d'.fs (n :: name :: parent) = none)) :
    ∃ ret d', run fails cwd (Rm (fuel + 1) path) d = (some ret, d')
      ∧ (ret = true ↔ get d'.fs (name :: parent) = none) := by
  have hlocate : locate d.fs cwd false path = some (parent, name) := hleads d.fs fun _ _ => rfl
  have hlstat : Posix.lstat d.fs cwd path = get d.fs (name :: parent) := by
    rw [Posix.lstat_eq hlocate, FileSystem.push_of_not_special hname]
  -- the loop over the entries of the directory
  have hloop : ∀ {l : Loc} {d₁ : Disk}, Posix.lstat d.fs cwd path = some .dir →
      Posix.opendir d.fs cwd path = some l → d₁.fs = d.fs →
      ∃ ret' d', run fails cwd (rmEntries (Rm fuel) path
          ((FileSystem.readdir d.fs l).map Prod.fst) true) d₁ = (some ret', d')
        ∧ Inside d.fs (name :: parent) d'.fs
        ∧ (ret' = false → ∃ n, get d'.fs (n :: name :: parent) ≠ none) := by
    intro l d₁ hdir hopen hfs
    rw [hlstat] at hdir
    have hpush := FileSystem.push_of_not_special (l := parent) hname
    rw [Posix.opendir_of_locate hlocate (by rw [hpush]; exact FileSystem.isDir_iff.mpr hdir),
      hpush] at hopen
    obtain rfl := Option.some.inj hopen
    refine rmEntries_result (fun n hn => hentry hdir n ?_) ⟨hfs ▸ Shrinks.refl _, ?_⟩ nofun
    · obtain ⟨⟨n, x⟩, hmem, rfl⟩ := List.mem_map.mp hn
      exact Option.isSome_of_eq_some (FileSystem.mem_readdir.mp hmem)
    · intro l hl
      exact absurd (congrArg (get · l) hfs) hl
  obtain ⟨ret, d', hrun, houtcome⟩ := run_Rm fails cwd fuel path d
  rw [hrun]
  cases houtcome with
  | missing hfs h =>
    obtain h | h := h
    · exact absurd (hfails _ _ _) (by rw [h]; decide)
    · exact ⟨true, d', rfl, iff_of_true rfl (by rw [hfs, ← hlstat, h])⟩
  | unseen hx hfs h =>
    obtain ⟨k, hk⟩ := h
    exact absurd (hfails _ _ _) (by rw [hk]; decide)
  | kept hx hfs h =>
    refine ⟨false, d', rfl, iff_of_false Bool.false_ne_true ?_⟩
    rw [hfs, ← hlstat, hx]
    exact Option.some_ne_none _
  | unlinked hx hfs =>
    obtain ⟨l, n, x, hr, -, -, heq⟩ := Posix.unlink_eq_some hfs
    cases hlocate.symm.trans hr
    exact ⟨true, d', rfl, iff_of_true rfl (by rw [heq, FileSystem.get_erase_self])⟩
  | closed hdir hfs =>
    refine ⟨false, d', rfl, iff_of_false Bool.false_ne_true ?_⟩
    rw [hfs, ← hlstat, hdir]
    exact Option.some_ne_none _
  | deep hdir hopen hentries hfs =>
    obtain ⟨ret', d'', hentries', -⟩ := hloop hdir hopen hfs
    exact absurd (congrArg Prod.fst (hentries.symm.trans hentries')) nofun
  | @left l d₁ d₂ _ ret hdir hopen hentries hfs hkept =>
    obtain ⟨ret', d'', hentries', hin, -⟩ := hloop hdir hopen hfs
    obtain rfl : d₂ = d'' := congrArg Prod.snd (hentries.symm.trans hentries')
    refine ⟨false, d', rfl, iff_of_false Bool.false_ne_true ?_⟩
    rw [hkept, hin.root, ← hlstat, hdir]
    exact Option.some_ne_none _
  | @removed l d₁ d₂ _ ret hdir hopen hentries hfs hgone =>
    obtain ⟨ret', d'', hentries', hin, hret⟩ := hloop hdir hopen hfs
    obtain ⟨rfl, rfl⟩ : ret = ret' ∧ d₂ = d'' := by simpa [hentries] using hentries'
    obtain ⟨l', n, hr, -, -, hempty, heq⟩ := Posix.rmdir_eq_some hgone
    cases (hleads d₂.fs fun l hl => hin.outside hl).symm.trans hr
    refine ⟨ret, d', rfl, iff_of_true ?_ (by rw [heq, FileSystem.get_erase_self])⟩
    -- an entry that is left would have kept the directory
    by_contra hfalse
    obtain ⟨m, hm⟩ := hret (Bool.eq_false_of_not_eq_true hfalse)
    exact hm (hempty m)

/-- **`Rm` of a tree ends** when the fuel is more than its depth, and its result tells whether the
tree is gone. -/
theorem Rm_result (hfails : ∀ k st p, fails k (.lstat st p) = false) {fuel : Nat} :
    ∀ {path : Str} {parent : Loc} {name : Name} {d : Disk}, '\x00' ∉ path → special name = false →
      PlainNames d.fs → Leads d.fs cwd path parent name →
      (∀ l, (get d.fs l).isSome → l.length ≤ (name :: parent).length + fuel) →
      ∃ ret d', run fails cwd (Rm (fuel + 1) path) d = (some ret, d')
        ∧ (ret = true ↔ get d'.fs (name :: parent) = none) := by
  induction fuel with
  | zero =>
    intro path parent name d h0 hname hplain hleads hdepth
    refine Rm_result_step hfails hname hleads fun _ n hn => ?_
    have hlength := hdepth _ hn
    simp only [List.length_cons] at hlength
    omega
  | succ fuel ih =>
    intro path parent name d h0 hname hplain hleads hdepth
    refine Rm_result_step hfails hname hleads fun hdir n hn d₁ hin => ?_
    have hn' := hplain _ _ hn
    have hleads₁ := hleads.entry h0 hname hdir hn' hin
    have hplain₁ := hplain.shrinks hin.shrinks
    have h0₁ : '\x00' ∉ path ++ '/' :: n := by
      simp only [List.mem_append, List.mem_cons, not_or]
      exact ⟨h0, by decide, hn'.2.2⟩
    obtain ⟨ret, d', hrun, hiff⟩ := ih h0₁ hn'.1 hplain₁ hleads₁ fun l hl => by
      obtain ⟨x, hx⟩ := Option.isSome_iff_exists.mp hl
      have hlength := hdepth l (Option.isSome_of_eq_some (hin.shrinks l x hx))
      simp only [List.length_cons] at hlength ⊢
      omega
    refine ⟨ret, d', hrun, ?_, hiff⟩
    have hconfined := Rm_confined hplain₁ hrun
    refine ⟨hin.shrinks.trans hconfined.shrinks, fun l hl => ?_⟩
    by_cases hsame : get d₁.fs l = get d.fs l
    · obtain ⟨l₀, hl₀, hbelow⟩ := hconfined.below l fun hc => hl (hc.trans hsame)
      rw [place, hleads₁ d₁.fs fun _ _ => rfl, Option.map_some,
        FileSystem.push_of_not_special hn'.1] at hl₀
      exact ⟨n, Option.some.inj hl₀ ▸ hbelow⟩
    · exact hin.below l hsame

/-- The calls that can fail while a tree is removed. -/
def removals (fails : Nat → SysCall → Bool) (k : Nat) : SysCall → Bool
  | .opendir path => fails k (.opendir path)
  | .change (.unlink path) => fails k (.change (.unlink path))
  | .change (.rmdir path) => fails k (.change (.rmdir path))
  | _ => false

/-- A tree and a path that leads to it, on a way outside of the tree. -/
structure Tree (v : Volume Bytes) (cwd : Loc) where
  path : Str
  parent : Loc
  name : Name
  clean : '\x00' ∉ path
  plain : special name = false
  leads : Leads v.fs cwd path parent name

def Tree.root {v : Volume Bytes} (t : Tree v cwd) : Loc := t.name :: t.parent

theorem leads_name (fs : Posix.FS Bytes) {n : Name} (hn : Plain n) : Leads fs cwd n cwd n := by
  obtain ⟨hspecial, hslash, h0⟩ := hn
  intro fs' _
  have hne : n ≠ [] := by
    rintro rfl
    exact nomatch hspecial
  have hstart : FileSystem.start cwd n = cwd := by
    rw [FileSystem.start, if_neg]
    intro hhead
    exact hslash (List.mem_of_head? hhead)
  rw [locate, FileSystem.cstr_eq_self h0, if_neg hne, List.splitOn_eq_singleton hslash, hstart,
    Posix.resolve_false_singleton]

/-- What is in the working directory. -/
def Tree.ofName (v : Volume Bytes) {n : Name} (hn : Plain n) : Tree v cwd where
  path := n
  parent := cwd
  name := n
  clean := hn.2.2
  plain := hn.1
  leads := leads_name v.fs hn

/-- What is in a directory with a path. -/
def Tree.entry {v : Volume Bytes} (t : Tree v cwd) (hdir : get v.fs t.root = some .dir) {n : Name}
    (hn : Plain n) : Tree v cwd where
  path := t.path ++ '/' :: n
  parent := t.root
  name := n
  clean := by
    simp only [List.mem_append, List.mem_cons, not_or]
    exact ⟨t.clean, by decide, hn.2.2⟩
  plain := hn.1
  leads := t.leads.entry t.clean t.plain hdir hn ⟨Shrinks.refl _, fun _ h => absurd rfl h⟩

/-- **A recursive remove is truthful**: for every volume, every tree in it and all failures of
`unlink`, `opendir` and `rmdir`, `Rm` ends and returns `true` exactly when nothing is at the path
afterwards; nothing is new, and nothing outside of the tree has changed. -/
theorem Rm_truthful (v : Volume Bytes) (t : Tree v cwd) (fails : Nat → SysCall → Bool) :
    ∃ depth, ∀ fuel > depth, ∃ ret d',
      run (removals fails) cwd (Rm fuel t.path) ⟨v.fs, 0⟩ = (some ret, d')
        ∧ (ret = true ↔ Posix.lstat d'.fs cwd t.path = none)
        ∧ Shrinks v.fs d'.fs ∧ ∀ l, ¬ t.root <:+ l → get d'.fs l = get v.fs l := by
  refine ⟨Posix.depth v.fs, fun fuel hfuel => ?_⟩
  obtain ⟨fuel, rfl⟩ := Nat.exists_eq_succ_of_ne_zero (Nat.ne_of_gt (Nat.zero_lt_of_lt hfuel))
  have hdepth : ∀ l, (get v.fs l).isSome → l.length ≤ t.root.length + fuel := by
    intro l hl
    have hlength := Posix.length_le_depth hl
    omega
  have hfails : ∀ k st p, removals fails k (.lstat st p) = false := fun _ _ _ => rfl
  obtain ⟨ret, d', hrun, hiff⟩ : ∃ ret d', run (removals fails) cwd (Rm (fuel + 1) t.path) ⟨v.fs, 0⟩
      = (some ret, d') ∧ (ret = true ↔ get d'.fs t.root = none) :=
    Rm_result hfails t.clean t.plain v.plain t.leads hdepth
  have hplain : PlainNames (Disk.mk v.fs 0).fs := v.plain
  have hconfined := Rm_confined hplain hrun
  have houtside : ∀ l, ¬ t.root <:+ l → get d'.fs l = get v.fs l := by
    intro l hl
    by_contra hne
    obtain ⟨l₀, hl₀, hbelow⟩ := hconfined.below l hne
    rw [place, t.leads v.fs fun _ _ => rfl, Option.map_some,
      FileSystem.push_of_not_special t.plain] at hl₀
    obtain rfl := Option.some.inj hl₀
    exact hl hbelow
  refine ⟨ret, d', hrun, ?_, hconfined.shrinks, houtside⟩
  rw [hiff, Posix.lstat_eq (t.leads d'.fs houtside), FileSystem.push_of_not_special t.plain]
  exact Iff.rfl

/-- A directory with a file and a link to another directory. -/
def linked : Volume Bytes :=
  .ofFS (((((∅ : Posix.FS Bytes).insert [['d']] .dir).insert [['f'], ['d']]
    (.file (.file [1]))).insert [['l'], ['d']] (.file (.link ['/', 'o']))).insert [['o']] .dir
      |>.insert [['g'], ['o']] (.file (.file [2]))) (by decide)

/-- The link goes, and what it leads to stays. -/
example : (run (fun _ _ => false) [] (Rm 2 ['d']) ⟨linked.fs, 0⟩).1 = some true
    ∧ (run (fun _ _ => false) [] (Rm 2 ['d']) ⟨linked.fs, 0⟩).2.fs.keys
      = [[['g'], ['o']], [['o']]] := by
  decide +kernel

end Sys

end FiberServer
