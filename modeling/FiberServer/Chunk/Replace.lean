import FiberServer.Chunk.Remove

/-!
# A chunk that is saved again

`saveChunk` makes room with `Rm` before it renames, so an old chunk is gone when `rename` fails.

* `Mkdir_exists`: `Mkdir` changes nothing when its path is there.
* `Rm_leaves`: behind a NUL `Rm` removes no leaf of a directory.
* `saveChunk_keeps_iff`: when the old chunk outlives a save that fails.
-/

namespace FiberServer

open FileSystem (Loc Name Plain get isDir special push cstr)
open Posix (SameLeaves Shrinks Volume locate)
open ChunkManager (buildTaskPath buildChunkPath)
open FSUtil (slashPrefixes to_string)

namespace Sys

variable {fails : Nat → SysCall → Bool} {cwd : Loc} {d : Disk} {path : Str}

/-! ### `Mkdir` of a path that is there -/

/-- What ends in front of a slash. -/
theorem slashPrefixes_append {p : Str} (h : p ∈ slashPrefixes path) :
    p ≠ [] ∧ ∃ q, path = p ++ '/' :: q := by
  obtain ⟨i, -, hi⟩ := List.mem_filterMap.mp h
  split_ifs at hi with hc
  obtain ⟨hpos, hslash⟩ := hc
  obtain rfl := Option.some.inj hi
  obtain ⟨hlt, hget⟩ := List.getElem?_eq_some_iff.mp hslash
  refine ⟨?_, path.drop (i + 1), ?_⟩
  · intro hnil
    have hlength := congrArg List.length hnil
    rw [List.length_take, List.length_nil] at hlength
    omega
  · rw [← hget, List.cons_getElem_drop_succ, List.take_append_drop]

/-- The directories on the way of a path that is there. -/
theorem lstat_slashPrefix {fs : Posix.FS Bytes} {p : Str} (h0 : '\x00' ∉ path)
    (hp : p ∈ slashPrefixes path) (h : (Posix.lstat fs cwd path).isSome) :
    (Posix.lstat fs cwd p).isSome := by
  obtain ⟨hne, q, rfl⟩ := slashPrefixes_append hp
  have hp0 : '\x00' ∉ p := fun hc => h0 (List.mem_append_left _ hc)
  rw [Posix.lstat, Posix.locate, FileSystem.cstr_eq_self h0,
    if_neg (List.append_ne_nil_of_left_ne_nil hne _), List.splitOn_append_cons_self,
    Posix.start_child hne] at h
  obtain ⟨m, ms, hms⟩ := List.exists_cons_of_ne_nil (Posix.splitOn_ne_nil q)
  obtain ⟨x, hx⟩ := Option.isSome_iff_exists.mp h
  obtain ⟨r, hr, -⟩ := Option.bind_eq_some_iff.mp hx
  rw [hms] at hr
  obtain ⟨l, hl⟩ := Option.isSome_iff_exists.mp
    (Posix.opens_of_resolve (Posix.splitOn_ne_nil p) (Option.isSome_of_eq_some hr))
  rw [← Posix.opendir_eq hne hp0] at hl
  exact Posix.lstat_of_opendir hl

theorem mkdir_of_lstat {fs : Posix.FS Bytes} (h : (Posix.lstat fs cwd path).isSome) :
    Posix.mkdir fs cwd path = none := by
  obtain ⟨x, hx⟩ := Option.isSome_iff_exists.mp h
  obtain ⟨r, hr, hget⟩ := Option.bind_eq_some_iff.mp hx
  rw [Posix.mkdir, hr, Option.bind_some]
  cases hspecial : special r.2 with
  | true => rfl
  | false =>
    rw [FileSystem.push_of_not_special hspecial] at hget
    rw [hget]
    rfl

theorem mkdirIfMissing_exists (h : (Posix.lstat d.fs cwd path).isSome) :
    (run fails cwd (mkdirIfMissing path) d).2.fs = d.fs := by
  rw [mkdirIfMissing, access, run_call, call_access]
  generalize (if fails d.calls (.access path) then false
    else (Posix.stat d.fs cwd path).isSome) = found
  rw [run, Prog.run_ite]
  split_ifs
  · rfl
  · obtain ⟨made, d', hcall, hcases⟩ := call_change fails cwd ⟨d.fs, d.calls + 1⟩ (.mkdir path)
    rw [change, Prog.run_perform, hcall]
    obtain ⟨-, hfs, -⟩ | ⟨-, hfs, -⟩ := hcases
    · exact hfs
    · cases hfs.symm.trans (mkdir_of_lstat h)

theorem mkdirEach_exists {paths : List Str} : ∀ {d : Disk},
    (∀ p ∈ paths, (Posix.lstat d.fs cwd p).isSome) →
      (run fails cwd (mkdirEach paths) d).2.fs = d.fs := by
  induction paths with
  | nil => exact fun _ => rfl
  | cons p paths ih =>
    intro d h
    have hone : (run fails cwd (mkdirIfMissing p) d).2.fs = d.fs :=
      mkdirIfMissing_exists (h p List.mem_cons_self)
    rw [mkdirEach, run, Prog.run_bind, Prog.run_ite]
    split_ifs
    · exact (ih fun q hq => hone ▸ h q (List.mem_cons_of_mem p hq)).trans hone
    · exact hone

/-- `Mkdir` changes nothing when its path is there, whatever fails. -/
theorem Mkdir_exists (h : (Posix.lstat d.fs cwd path).isSome) :
    (run fails cwd (Mkdir path) d).2.fs = d.fs := by
  have hcstr : (Posix.lstat d.fs cwd (cstr path)).isSome := by
    have hsame := FileSystem.cstr_eq_self (FileSystem.not_mem_cstr path)
    rwa [Posix.lstat, Posix.locate_congr hsame]
  rw [Mkdir, lstat, run_call, call_lstat]
  generalize (if fails d.calls (.lstat false path) then none
    else (Posix.lstat d.fs cwd path).map st_mode) = st
  rw [run, Prog.run_ite]
  split_ifs
  · rfl
  · refine mkdirEach_exists fun p hp => ?_
    rcases List.mem_append.mp hp with hp | hp
    · exact lstat_slashPrefix (FileSystem.not_mem_cstr path) hp hcstr
    · exact List.mem_singleton.mp hp ▸ hcstr

/-! ### A path with a NUL -/

/-- No regular file and no link is at the path. -/
def NoLeaf (fs : Posix.FS Bytes) (cwd : Loc) (path : Str) : Prop :=
  ∀ x, Posix.lstat fs cwd path ≠ some (.file x)

theorem NoLeaf.shrinks {fs fs' : Posix.FS Bytes} (h : NoLeaf fs cwd path) (hs : Shrinks fs fs') :
    NoLeaf fs' cwd path :=
  fun x hx => h x (hs.lstat hx)

theorem NoLeaf.entry {fs : Posix.FS Bytes} (h : NoLeaf fs cwd path) (h0 : '\x00' ∈ path)
    (n : Name) : NoLeaf fs cwd (path ++ '/' :: n) := by
  intro x hx
  rw [Posix.lstat, Posix.locate_congr (FileSystem.cstr_append_of_mem h0)] at hx
  exact h x hx

theorem rmEntries_leaves {Rm : Str → Sys (Option Bool)}
    (hRm : ∀ {path d ret d'}, '\x00' ∈ path → NoLeaf d.fs cwd path →
      run fails cwd (Rm path) d = (ret, d') → Shrinks d.fs d'.fs ∧ SameLeaves d.fs d'.fs)
    (h0 : '\x00' ∈ path) {names : List Name} :
    ∀ {d : Disk} {ret : Bool} {r : Option Bool} {d' : Disk}, NoLeaf d.fs cwd path →
      run fails cwd (rmEntries Rm path names ret) d = (r, d') →
        Shrinks d.fs d'.fs ∧ SameLeaves d.fs d'.fs := by
  induction names with
  | nil =>
    intro d ret r d' _ hrun
    cases hrun
    exact ⟨Shrinks.refl _, fun _ _ => Iff.rfl⟩
  | cons n names ih =>
    intro d ret r d' hleaf hrun
    rw [rmEntries, run, Prog.run_bind] at hrun
    rcases hentry : run fails cwd (Rm (path ++ '/' :: n)) d with ⟨r₁, d₁⟩
    obtain ⟨hshrinks, hsame⟩ := hRm (List.mem_append_left _ h0) (hleaf.entry h0 n) hentry
    rw [run] at hentry
    rw [hentry] at hrun
    cases r₁ with
    | none =>
      cases hrun
      exact ⟨hshrinks, hsame⟩
    | some ret₁ =>
      obtain ⟨hshrinks', hsame'⟩ := ih (hleaf.shrinks hshrinks) hrun
      exact ⟨hshrinks.trans hshrinks', hsame.trans hsame'⟩

/-- Behind a NUL every entry has the path of the directory, so `Rm` removes no leaf. -/
theorem Rm_leaves {fuel : Nat} : ∀ {path : Str} {d : Disk} {ret : Option Bool} {d' : Disk},
    '\x00' ∈ path → NoLeaf d.fs cwd path → run fails cwd (Rm fuel path) d = (ret, d') →
      Shrinks d.fs d'.fs ∧ SameLeaves d.fs d'.fs := by
  induction fuel with
  | zero =>
    intro path d ret d' _ _ hrun
    cases hrun
    exact ⟨Shrinks.refl _, fun _ _ => Iff.rfl⟩
  | succ fuel ih =>
    intro path d ret d' h0 hleaf hrun
    obtain ⟨ret₁, d₁, hrun₁, houtcome⟩ := run_Rm fails cwd fuel path d
    obtain ⟨rfl, rfl⟩ : ret₁ = ret ∧ d₁ = d' := by simpa [hrun₁] using hrun
    have hstays : ∀ {d' : Disk}, d'.fs = d.fs → Shrinks d.fs d'.fs ∧ SameLeaves d.fs d'.fs :=
      fun hfs => hfs ▸ ⟨Shrinks.refl _, fun _ _ => Iff.rfl⟩
    have hloop : ∀ {names : List Name} {d₁ : Disk} {r : Option Bool} {d₂ : Disk}, d₁.fs = d.fs →
        run fails cwd (rmEntries (Rm fuel) path names true) d₁ = (r, d₂) →
          Shrinks d.fs d₂.fs ∧ SameLeaves d.fs d₂.fs := by
      intro names d₁ r d₂ hfs hentries
      have hloop₁ := rmEntries_leaves ih h0 (hfs ▸ hleaf) hentries
      rwa [hfs] at hloop₁
    cases houtcome with
    | missing hfs h => exact hstays hfs
    | unseen hx hfs h => exact hstays hfs
    | kept hx hfs h => exact hstays hfs
    | closed hdir hfs => exact hstays hfs
    | unlinked hx hfs => exact absurd hx (hleaf _)
    | deep hdir hopen hentries hfs => exact hloop hfs hentries
    | left hdir hopen hentries hfs hkept => exact hkept ▸ hloop hfs hentries
    | removed hdir hopen hentries hfs hgone =>
      obtain ⟨hshrinks, hsame⟩ := hloop hfs hentries
      obtain ⟨l, n, -, -, hdir', -, heq⟩ := Posix.rmdir_eq_some hgone
      rw [heq]
      exact ⟨hshrinks.trans (Posix.shrinks_erase _ _), hsame.trans (Posix.sameLeaves_erase hdir')⟩

/-! ### `Mv` -/

/-- What `Mv` did behind its `Rm`. -/
theorem run_Mv {fuel : Nat} {old new : Str} {ret : Option Bool} {d' : Disk}
    (hrun : run fails cwd (Mv fuel old new) d = (ret, d')) :
    ∃ r d₁, run fails cwd (Rm fuel new) d = (r, d₁)
      ∧ (r = none ∧ ret = none ∧ d' = d₁ ∨ r = some false ∧ ret = some false ∧ d' = d₁
        ∨ r = some true ∧ ret = some false ∧ d'.fs = d₁.fs
          ∧ (fails d₁.calls (.change (.rename old new)) = true
            ∨ Posix.rename d₁.fs cwd old new = none)
        ∨ r = some true ∧ ret = some true ∧ Posix.rename d₁.fs cwd old new = some d'.fs
          ∧ fails d₁.calls (.change (.rename old new)) = false) := by
  rcases hRm : run fails cwd (Rm fuel new) d with ⟨r, d₁⟩
  refine ⟨r, d₁, rfl, ?_⟩
  rw [run] at hRm
  rw [Mv, run, Prog.run_bind, hRm] at hrun
  cases r with
  | none =>
    cases hrun
    exact .inl ⟨rfl, rfl, rfl⟩
  | some removed =>
    cases removed with
    | false =>
      cases hrun
      exact .inr (.inl ⟨rfl, rfl, rfl⟩)
    | true =>
      obtain ⟨made, d₂, hcall, hcases⟩ := call_change fails cwd d₁ (.rename old new)
      simp only [change, Prog.run_bind, Prog.run_perform, hcall] at hrun
      cases hrun
      obtain ⟨rfl, hfs, hwhy⟩ | ⟨rfl, hfs, hok⟩ := hcases
      · exact .inr (.inr (.inl ⟨rfl, rfl, hfs, hwhy⟩))
      · exact .inr (.inr (.inr ⟨rfl, rfl, hfs, hok⟩))

/-! ### A save that fails -/

/-- An index is a name. -/
theorem plain_index (index : Int) : Plain (to_string index) := by
  obtain ⟨i, rfl | rfl⟩ := index.eq_nat_or_neg
  · exact ChunkManager.plain_to_string i
  · rw [to_string]
    split_ifs with hneg
    · have hdigits : ∀ c ∈ Nat.toDigits 10 (-(i : Int)).natAbs, c.isDigit :=
        fun c hc => Nat.isDigit_of_mem_toDigits (by decide) (by decide) hc
      have hno : ∀ c : Char, c ≠ '-' → c.isDigit = false →
          c ∉ '-' :: Nat.toDigits 10 (-(i : Int)).natAbs := by
        intro c hc hdigit hmem
        rcases List.mem_cons.mp hmem with rfl | hmem
        · exact hc rfl
        · rw [hdigits c hmem] at hdigit
          cases hdigit
      refine ⟨?_, hno _ (by decide) (by decide), hno _ (by decide) (by decide)⟩
      simp [special]
    · obtain rfl : i = 0 := by omega
      exact ChunkManager.plain_to_string 0

section

variable (v : Volume Bytes) (cwd : Loc) (tmp_path username md5 tmp_file_path : Str) (index : Int)
  (fails : SysCall → Bool)

/-- The old chunk is still there and the other files of the task directory have not changed. -/
structure KeepsChunk (fs' : Posix.FS Bytes) : Prop where
  chunk : ∀ x, Posix.lstat v.fs cwd (buildChunkPath tmp_path username md5 index) = some (.file x) →
    Posix.lstat fs' cwd (buildChunkPath tmp_path username md5 index) = some (.file x)
  others : ∀ l, Posix.opendir v.fs cwd (buildTaskPath tmp_path username md5) = some l →
    ∀ l', l <:+ l' → ¬ (to_string index :: l) <:+ l' →
      ∀ x, get fs' l' = some (.file x) ↔ get v.fs l' = some (.file x)

/-- The old chunk is removed and `rename` fails. -/
def LosesChunk : Prop :=
  ∃ fs₁, Posix.unlink v.fs cwd (buildChunkPath tmp_path username md5 index) = some fs₁
    ∧ fails (.lstat true (buildChunkPath tmp_path username md5 index)) = false
    ∧ fails (.lstat false (buildChunkPath tmp_path username md5 index)) = false
    ∧ fails (.change (.unlink (buildChunkPath tmp_path username md5 index))) = false
    ∧ (fails (.change (.rename tmp_file_path (buildChunkPath tmp_path username md5 index))) = true
      ∨ Posix.rename fs₁ cwd tmp_file_path (buildChunkPath tmp_path username md5 index) = none)

/-- A save with the failures `fails` that returns `false` keeps the old chunk. -/
def FailureKeeps (fuel : Nat) : Prop :=
  ∀ d', run (fun _ => fails) cwd
      (saveChunk tmp_path username md5 fuel tmp_file_path index) ⟨v.fs, 0⟩ = (some false, d') →
    KeepsChunk v cwd tmp_path username md5 index d'.fs

end

section

variable {v : Volume Bytes} {tmp_path username md5 tmp_file_path : Str} {index : Int}
  {fails : SysCall → Bool} {fs : Posix.FS Bytes}

/-- Where a chunk is, there is the task directory. -/
theorem lstat_task (h : (Posix.lstat fs cwd (buildChunkPath tmp_path username md5 index)).isSome) :
    (Posix.lstat fs cwd (buildTaskPath tmp_path username md5)).isSome := by
  by_cases h0 : '\x00' ∈ buildTaskPath tmp_path username md5
  · rwa [buildChunkPath, Posix.lstat, Posix.locate_congr (FileSystem.cstr_append_of_mem h0)] at h
  · obtain ⟨x, hx⟩ := Option.isSome_iff_exists.mp h
    obtain ⟨r, hr, -⟩ := Option.bind_eq_some_iff.mp hx
    rw [buildChunkPath, Posix.locate_child ChunkManager.buildTaskPath_ne_nil h0
      (plain_index index).2.2 (plain_index index).2.1, Option.map_eq_some_iff] at hr
    obtain ⟨l, hl, -⟩ := hr
    exact Posix.lstat_of_opendir hl

/-- The run of a save whose task directory is there. -/
theorem run_saveChunk (fails : SysCall → Bool) (d : Disk) {fuel : Nat}
    (h : (Posix.lstat d.fs cwd (buildTaskPath tmp_path username md5)).isSome) :
    ∃ d₁ : Disk, d₁.fs = d.fs ∧ run (fun _ => fails) cwd
        (saveChunk tmp_path username md5 fuel tmp_file_path index) d
      = run (fun _ => fails) cwd
        (Mv fuel tmp_file_path (buildChunkPath tmp_path username md5 index)) d₁ := by
  rw [saveChunk, run, Prog.run_bind]
  exact ⟨_, Mkdir_exists h, rfl⟩

/-- A chunk that is not lost stays with everything else. -/
theorem Mv_leaf {fuel : Nat} {d' : Disk} {x : Posix.Leaf Bytes} (hd : d.fs = v.fs)
    (hx : Posix.lstat v.fs cwd (buildChunkPath tmp_path username md5 index) = some (.file x))
    (hloses : ¬ LosesChunk v cwd tmp_path username md5 tmp_file_path index fails)
    (hrun : run (fun _ => fails) cwd
      (Mv fuel tmp_file_path (buildChunkPath tmp_path username md5 index)) d = (some false, d')) :
    d'.fs = v.fs := by
  obtain ⟨r, d₁, hRm, hcases⟩ := run_Mv hrun
  cases fuel with
  | zero =>
    cases hRm
    obtain ⟨-, h, -⟩ | ⟨h, -⟩ | ⟨h, -⟩ | ⟨h, -⟩ := hcases <;> exact nomatch h
  | succ fuel =>
    obtain ⟨ret, d₂, hRm', houtcome⟩ := run_Rm (fun _ => fails) cwd fuel
      (buildChunkPath tmp_path username md5 index) d
    obtain ⟨rfl, rfl⟩ : ret = r ∧ d₂ = d₁ := by simpa [hRm] using hRm'.symm
    have hfs : d'.fs = d₂.fs := by
      obtain ⟨-, h, -⟩ | ⟨-, -, rfl⟩ | ⟨-, -, hfs, -⟩ | ⟨-, h, -⟩ := hcases
      · exact nomatch h
      · rfl
      · exact hfs
      · exact nomatch h
    rw [hfs, ← hd]
    obtain ⟨-, hfs, -⟩ | ⟨-, hfs, -⟩ | ⟨rfl, hfs, ⟨k, hstat⟩, ⟨k', hlstat⟩, ⟨k'', hunlink⟩⟩ :=
      houtcome.leaf (hd ▸ hx)
    · exact hfs
    · exact hfs
    · -- here the chunk is gone and `rename` must have failed
      obtain ⟨h, -⟩ | ⟨h, -⟩ | ⟨-, -, -, hrename⟩ | ⟨-, h, -⟩ := hcases
      · exact nomatch h
      · exact nomatch h
      · exact absurd ⟨d₂.fs, hd ▸ hfs, hstat, hlstat, hunlink, hrename⟩ hloses
      · exact nomatch h

/-- The other files stay when no file is at the path of the chunk. -/
theorem Mv_others {fuel : Nat} {d' : Disk} {l : Loc} (hd : d.fs = v.fs)
    (hopen : Posix.opendir v.fs cwd (buildTaskPath tmp_path username md5) = some l)
    (hleaf : NoLeaf v.fs cwd (buildChunkPath tmp_path username md5 index))
    (hrun : run (fun _ => fails) cwd
      (Mv fuel tmp_file_path (buildChunkPath tmp_path username md5 index)) d = (some false, d')) :
    ∀ l', ¬ (to_string index :: l) <:+ l' →
      ∀ x, get d'.fs l' = some (.file x) ↔ get v.fs l' = some (.file x) := by
  obtain ⟨r, d₁, hRm, hcases⟩ := run_Mv hrun
  have hfs : d'.fs = d₁.fs := by
    obtain ⟨-, h, -⟩ | ⟨-, -, rfl⟩ | ⟨-, -, hfs, -⟩ | ⟨-, h, -⟩ := hcases
    · exact nomatch h
    · rfl
    · exact hfs
    · exact nomatch h
  intro l' hl'
  rw [hfs, ← hd]
  by_cases h0 : '\x00' ∈ buildTaskPath tmp_path username md5
  · exact (Rm_leaves (List.mem_append_left _ h0) (hd ▸ hleaf) hRm).2 l'
  · have hconfined := Rm_confined (d := d) (hd ▸ v.plain) hRm
    have hsame : get d₁.fs l' = get d.fs l' := by
      by_contra hne
      obtain ⟨l₀, hl₀, hbelow⟩ := hconfined.below l' hne
      rw [place, hd, buildChunkPath, Posix.locate_child ChunkManager.buildTaskPath_ne_nil h0
        (plain_index index).2.2 (plain_index index).2.1, hopen, Option.map_some, Option.map_some,
        FileSystem.push_of_not_special (plain_index index).1] at hl₀
      obtain rfl := Option.some.inj hl₀
      exact hl' hbelow
    intro x
    rw [hsame]

theorem lstat_of_unlink {fs' : Posix.FS Bytes} {path : Str}
    (h : Posix.unlink fs cwd path = some fs') : Posix.lstat fs' cwd path = none := by
  obtain ⟨l, n, x, hr, hn, -, rfl⟩ := Posix.unlink_eq_some h
  rw [Option.eq_none_iff_forall_ne_some]
  intro y hy
  obtain ⟨r, hr', hget⟩ := Option.bind_eq_some_iff.mp hy
  obtain rfl := Option.some.inj (((Posix.shrinks_erase fs _).locate hr').symm.trans hr)
  rw [FileSystem.push_of_not_special hn, FileSystem.get_erase_self] at hget
  exact nomatch hget

/-- The run in which the chunk is lost. -/
theorem Mv_loses {fuel : Nat} (hd : d.fs = v.fs)
    (hloses : LosesChunk v cwd tmp_path username md5 tmp_file_path index fails) :
    ∃ d', run (fun _ => fails) cwd
        (Mv (fuel + 1) tmp_file_path (buildChunkPath tmp_path username md5 index)) d
          = (some false, d')
      ∧ Posix.unlink v.fs cwd (buildChunkPath tmp_path username md5 index) = some d'.fs := by
  obtain ⟨fs₁, hunlink, hstat, hlstat, hfails, hrename⟩ := hloses
  obtain ⟨l, n, x, hr, hn, hget, rfl⟩ := Posix.unlink_eq_some hunlink
  have hx : Posix.lstat d.fs cwd (buildChunkPath tmp_path username md5 index)
      = some (.file x) := by
    rw [hd, Posix.lstat_eq hr, FileSystem.push_of_not_special hn, hget]
  obtain ⟨ret, d₁, hRm, houtcome⟩ := run_Rm (fun _ => fails) cwd fuel
    (buildChunkPath tmp_path username md5 index) d
  obtain ⟨rfl, hfs⟩ : ret = some true ∧ d₁.fs = v.fs.erase (n :: l) := by
    obtain ⟨-, -, k, st, hk⟩ | ⟨-, -, hkept⟩ | ⟨hret, hfs, -⟩ := houtcome.leaf hx
    · cases st with
      | true => cases hstat.symm.trans hk
      | false => cases hlstat.symm.trans hk
    · obtain ⟨k, hk⟩ | hnone := hkept
      · cases hfails.symm.trans hk
      · rw [hd, hunlink] at hnone
        cases hnone
    · rw [hd, hunlink] at hfs
      exact ⟨hret, (Option.some.inj hfs).symm⟩
  obtain ⟨made, d', hcall, hcases⟩ := call_change (fun _ => fails) cwd d₁
    (.rename tmp_file_path (buildChunkPath tmp_path username md5 index))
  obtain ⟨rfl, hfs', -⟩ | ⟨-, happly, hok⟩ := hcases
  · refine ⟨d', ?_, by rw [hunlink, hfs', hfs]⟩
    rw [run] at hRm
    rw [Mv, run, Prog.run_bind, hRm]
    simp only [change, Prog.run_bind, Prog.run_perform, hcall]
    rfl
  · rw [Change.apply, hfs] at happly
    obtain h | h := hrename
    · cases hok.symm.trans h
    · cases happly.symm.trans h

end

/-- **When a failed save keeps the old chunk**: for every file system and all failures, if and only
if it does not remove the old chunk and then fails to rename. -/
theorem saveChunk_keeps_iff (v : Volume Bytes) (cwd : Loc)
    (tmp_path username md5 tmp_file_path : Str) (index : Int) (fails : SysCall → Bool)
    (fuel : Nat) :
    FailureKeeps v cwd tmp_path username md5 tmp_file_path index fails (fuel + 1)
      ↔ ¬ LosesChunk v cwd tmp_path username md5 tmp_file_path index fails := by
  constructor
  · intro hkeeps hloses
    obtain ⟨fs₁, hunlink, -⟩ := id hloses
    obtain ⟨l, n, x, hr, hn, hget, -⟩ := Posix.unlink_eq_some hunlink
    have hx : Posix.lstat v.fs cwd (buildChunkPath tmp_path username md5 index)
        = some (.file x) := by
      rw [Posix.lstat_eq hr, FileSystem.push_of_not_special hn, hget]
    obtain ⟨d₁, hd₁, hrun⟩ := run_saveChunk fails ⟨v.fs, 0⟩
      (lstat_task (Option.isSome_of_eq_some hx))
    obtain ⟨d', hMv, hgone⟩ := Mv_loses hd₁ hloses
    have hlstat := (hkeeps d' (hrun.trans hMv)).chunk x hx
    exact nomatch (lstat_of_unlink hgone).symm.trans hlstat
  · intro hloses d' hrun
    by_cases hleaf : NoLeaf v.fs cwd (buildChunkPath tmp_path username md5 index)
    · refine ⟨fun x hx => absurd hx (hleaf x), fun l hopen l' _ hl' => ?_⟩
      obtain ⟨d₁, hd₁, hsave⟩ := run_saveChunk fails ⟨v.fs, 0⟩
        (Posix.lstat_of_opendir hopen)
      exact Mv_others hd₁ hopen hleaf (hsave.symm.trans hrun) l' hl'
    · simp only [NoLeaf, not_forall, not_not] at hleaf
      obtain ⟨x, hx⟩ := hleaf
      obtain ⟨d₁, hd₁, hsave⟩ := run_saveChunk fails ⟨v.fs, 0⟩
        (lstat_task (Option.isSome_of_eq_some hx))
      have hsame := Mv_leaf hd₁ hx hloses (hsave.symm.trans hrun)
      rw [hsame]
      exact ⟨fun _ h => h, fun _ _ _ _ _ _ => Iff.rfl⟩

/-! ### A move to another file system -/

/-- A task with one chunk, and a temporary file. -/
def oneChunk : Volume Bytes :=
  .ofFS (((((∅ : Posix.FS Bytes).insert [['n']] (.file (.file [2]))).insert [['t']] .dir).insert
    [['p'], ['t']] .dir).insert [['c'], ['p'], ['t']] .dir |>.insert [['0'], ['c'], ['p'], ['t']]
      (.file (.file [1]))) (by decide)

/-- `rename` fails, as between two file systems. -/
def renameFails : SysCall → Bool
  | .change (.rename ..) => true
  | _ => false

/-- The old chunk is gone, and the new one is not there. -/
theorem chunk_lost :
    ¬ FailureKeeps oneChunk [] ['t'] ['p'] ['c'] ['n'] 0 renameFails 1 := by
  intro h
  have hret : (run (fun _ => renameFails) [] (saveChunk ['t'] ['p'] ['c'] 1 ['n'] 0)
    ⟨oneChunk.fs, 0⟩).1 = some false := by decide +kernel
  have hkeeps := (h _ (Prod.ext hret rfl)).chunk (.file [1]) (by decide +kernel)
  revert hkeeps
  decide +kernel

end Sys

end FiberServer
