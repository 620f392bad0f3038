import FiberServer.Chunk.Replace
import FiberServer.Library.Interleaving
import Mathlib.Data.List.Chain

/-!
# Chunks that are saved at the same time

Any number of saves run side by side, call by call.  `__mkdir` looks for a directory with one call
and makes it with another; a save that finds in between that the directory has been made gives up
the directories below it.

* `slashPrefixes_isChain`: the paths that `Mkdir` makes, each in the one before.
* `Mkdir_ends`: behind `Mkdir` the task directory is there.
* `saves_succeed`: all saves return `true` when no save comes second with a directory.
-/

namespace FiberServer

open FileSystem (Loc Name Plain get isDir special push cstr start)
open Posix (FileAt Keeps NoneOrFile locate)
open ChunkManager (buildTaskPath buildChunkPath)
open FSUtil (Dirname slashPrefixes to_string)
open Interleaving (Allows State Survives result states)

/-! ### The paths of `Mkdir` -/

namespace FSUtil

theorem Dirname_child {path n : Str} (hpath : path ≠ []) (hn : '/' ∉ n) :
    Dirname (path ++ '/' :: n) = path := by
  have hdrop : (path ++ '/' :: n).reverse.dropWhile (· ≠ '/') = '/' :: path.reverse := by
    have hskip : ∀ c ∈ n.reverse, (decide (c ≠ '/')) = true := by
      intro c hc
      rw [decide_eq_true_iff]
      rintro rfl
      exact hn (List.mem_reverse.mp hc)
    rw [List.reverse_append, List.reverse_cons, List.append_assoc,
      List.dropWhile_append_of_pos hskip]
    rfl
  obtain ⟨c, cs, hcs⟩ := List.exists_cons_of_ne_nil (List.reverse_ne_nil_iff.mpr hpath)
  rw [Dirname, hdrop, hcs]
  simp only
  rw [← hcs, List.reverse_reverse]

theorem slashPrefixes_concat (path : Str) (c : Char) :
    slashPrefixes (path ++ [c])
      = slashPrefixes path ++ if path ≠ [] ∧ c = '/' then [path] else [] := by
  rw [slashPrefixes, List.length_append, List.length_singleton, List.range_succ,
    List.filterMap_append]
  congr 1
  · refine List.filterMap_congr fun i hi => ?_
    have hlt := List.mem_range.mp hi
    rw [List.getElem?_append_left hlt, List.take_append_of_le_length hlt.le]
  · have hlast : (path ++ [c])[path.length]? = some c := List.getElem?_concat_length
    have htake : (path ++ [c]).take path.length = path := List.take_left
    have hpos : 1 ≤ path.length ↔ path ≠ [] := List.length_pos_iff
    simp only [List.filterMap_cons, List.filterMap_nil, hlast, htake, hpos, Option.some.injEq]
    split_ifs <;> rfl

/-- `q` is an entry of `p`. -/
def EntryPath (p q : Str) : Prop := p ≠ [] ∧ ∃ n, '/' ∉ n ∧ q = p ++ '/' :: n

/-- **Each path is an entry of the one before.** -/
theorem slashPrefixes_isChain (path : Str) :
    (slashPrefixes path ++ [path]).IsChain EntryPath := by
  induction path using List.reverseRecOn with
  | nil => exact .singleton _
  | append_singleton path c ih =>
    rw [slashPrefixes_concat]
    split_ifs with hc
    · obtain ⟨hpath, rfl⟩ := hc
      refine ih.append (.singleton _) fun p hp q hq => ?_
      rw [List.getLast?_concat, Option.mem_some_iff] at hp
      rw [List.head?_singleton, Option.mem_some_iff] at hq
      subst hp hq
      exact ⟨hpath, [], List.not_mem_nil, rfl⟩
    · rw [List.append_nil]
      rw [List.isChain_append] at ih ⊢
      refine ⟨ih.1, .singleton _, fun p hp q hq => ?_⟩
      rw [List.head?_singleton, Option.mem_some_iff] at hq
      subst hq
      obtain ⟨hne, n, hn, hpath⟩ := ih.2.2 p hp path rfl
      refine ⟨hne, n ++ [c], ?_, by rw [hpath]; simp⟩
      have hcslash : c ≠ '/' := fun h => hc ⟨by rw [hpath]; simp, h⟩
      simp only [List.mem_append, List.mem_singleton, not_or]
      exact ⟨hn, hcslash.symm⟩

/-- The first path has no slash but in front. -/
theorem slashPrefixes_head {path p : Str} (hp : p ∈ (slashPrefixes path ++ [path]).head?) :
    '/' ∉ p.tail := by
  induction path using List.reverseRecOn generalizing p with
  | nil =>
    obtain rfl := Option.some.inj hp
    exact List.not_mem_nil
  | append_singleton path c ih =>
    rw [slashPrefixes_concat] at hp
    cases hpaths : slashPrefixes path with
    | cons q qs =>
      rw [hpaths] at hp ih
      exact ih hp
    | nil =>
      rw [hpaths] at hp ih
      have htail : '/' ∉ path.tail := ih rfl
      split_ifs at hp with hc
      · obtain rfl := Option.some.inj hp
        exact htail
      · obtain rfl := Option.some.inj hp
        cases path with
        | nil => exact List.not_mem_nil
        | cons d ds =>
          have hcslash : c ≠ '/' := fun h => hc ⟨List.cons_ne_nil d ds, h⟩
          simp only [List.cons_append, List.tail_cons, List.mem_append, List.mem_singleton, not_or]
          exact ⟨htail, hcslash.symm⟩

theorem locate_head {fs : Posix.FS Bytes} {cwd : Loc} {p : Str} (hp : p ≠ []) (h0 : '\x00' ∉ p)
    (htail : '/' ∉ p.tail) : (locate fs cwd false p).isSome := by
  rw [locate, FileSystem.cstr_eq_self h0, if_neg hp]
  cases p with
  | nil => exact absurd rfl hp
  | cons c cs =>
    by_cases hc : c = '/'
    · subst hc
      have hsplit : ('/' :: cs).splitOn '/' = [[], cs] := by
        have happend : ([] ++ '/' :: cs).splitOn '/' = [].splitOn '/' ++ cs.splitOn '/' :=
          List.splitOn_append_cons_self [] cs
        have hcs : '/' ∉ cs := htail
        rwa [List.nil_append, List.splitOn_eq_singleton hcs] at happend
      have hlink : Posix.linkAt fs (start cwd ('/' :: cs)) [] = none := rfl
      have hroot : isDir fs (push (start cwd ('/' :: cs)) []) = true := rfl
      rw [hsplit, Posix.resolve_cons, hlink]
      simp only
      rw [if_pos hroot, Posix.resolve_false_singleton]
      rfl
    · have hslash : '/' ∉ c :: cs := by
        simp only [List.mem_cons, not_or]
        exact ⟨Ne.symm hc, htail⟩
      rw [List.splitOn_eq_singleton hslash, Posix.resolve_false_singleton]
      rfl

theorem locate_entryPath {fs : Posix.FS Bytes} {cwd : Loc} {p q : Str} (h : EntryPath p q)
    (h0 : '\x00' ∉ q) (hopen : (Posix.opendir fs cwd p).isSome) :
    (locate fs cwd false q).isSome := by
  obtain ⟨hp, n, hn, rfl⟩ := h
  simp only [List.mem_append, List.mem_cons, not_or] at h0
  rw [Posix.locate_child hp h0.1 h0.2.2 hn, Option.isSome_map]
  exact hopen

end FSUtil

/-! ### The saves -/

/-- Where the content of a chunk is taken from. -/
inductive Source
  | content (content : Bytes) (nonempty : content ≠ [])
  | file (tmp_file_path : Str)

/-- A call of `saveChunkContent` or of `saveChunk`. -/
structure Save where
  username : Str
  md5 : Str
  index : Int
  source : Source

namespace Save

variable (tmp_path : Str) (s : Save)

def taskPath : Str := buildTaskPath tmp_path s.username s.md5

def chunkPath : Str := buildChunkPath tmp_path s.username s.md5 s.index

def program (fuel : Nat) : Sys (Option Bool) :=
  match s.source with
  | .content content _ => do
    let ret ← Sys.saveChunkContent tmp_path s.username s.md5 content s.index
    pure (some ret)
  | .file tmp_file_path =>
    Sys.saveChunk tmp_path s.username s.md5 fuel tmp_file_path s.index

end Save

namespace Sys

section

variable {ι : Type*} (cwd : Loc) (tmp_path : Str) (saves : ι → Save)

/-- The chunk is there. -/
def Saved (fs : Posix.FS Bytes) (s : Save) : Prop :=
  ∃ c, Posix.stat fs cwd (s.chunkPath tmp_path) = some (.file (.file c))

/-- The task directory is there. -/
def TaskThere (fs : Posix.FS Bytes) (s : Save) : Prop :=
  (Posix.opendir fs cwd (s.taskPath tmp_path)).isSome

/-- Nobody deletes anything, and a call of the save `i` fails only because a directory is missing or
because `mkdir` finds one. -/
def Undisturbed (i : ι) (fs : Posix.FS Bytes) : SysCall → Prop
  -- what is on the way to the task directory is a directory
  | .access path => (Posix.stat fs cwd path).isSome → (Posix.opendir fs cwd path).isSome
  | .lstat _ path => path = (saves i).taskPath tmp_path → (Posix.lstat fs cwd path).isSome →
      (Posix.opendir fs cwd path).isSome
  | .openWrite path => TaskThere cwd tmp_path fs (saves i) → (Posix.openWrite fs cwd path).isSome
  | .write .. => True
  -- `Rm` opens a directory to delete what is in it
  | .opendir _ => False
  -- an empty path is the path of nothing
  | .change (.mkdir path) => cstr path ≠ []
  | .change (.unlink _) => False
  | .change (.rmdir _) => False
  -- the temporary file is there and is no chunk, and it takes the place of a regular file at most
  | .change (.rename old new) => (∃ l, FileAt fs cwd old l ∧
        ∀ j, ∀ r ∈ locate fs cwd true ((saves j).chunkPath tmp_path), push r.1 r.2 ≠ l)
      ∧ NoneOrFile (Posix.lstat fs cwd new)

/-- A `mkdir` that finds its directory made comes when the task directory is there. -/
def NoRace (i : ι) (fs : Posix.FS Bytes) : SysCall → Prop
  | .change (.mkdir path) => (locate fs cwd false path).isSome →
      Posix.mkdir fs cwd path = none → TaskThere cwd tmp_path fs (saves i)
  | _ => True

/-- What a step can change: directories, links and saved chunks stay. -/
structure Evolves (fs fs' : Posix.FS Bytes) : Prop where
  keeps : Keeps fs fs'
  saved : ∀ j, Saved cwd tmp_path fs (saves j) → Saved cwd tmp_path fs' (saves j)

end

section

variable {ι : Type*} [Fintype ι] (cwd : Loc) (tmp_path : Str) (saves : ι → Save) (i : ι)
  (fs : Posix.FS Bytes)

instance (s : Save) : Decidable (TaskThere cwd tmp_path fs s) :=
  inferInstanceAs (Decidable (_ = true))

omit [Fintype ι] in
theorem rename_iff {old new : Str} :
    Undisturbed cwd tmp_path saves i fs (.change (.rename old new))
      ↔ (∃ o ∈ locate fs cwd false old, FileAt fs cwd old (o.2 :: o.1) ∧
          ∀ j, ∀ r ∈ locate fs cwd true ((saves j).chunkPath tmp_path),
            push r.1 r.2 ≠ o.2 :: o.1)
        ∧ NoneOrFile (Posix.lstat fs cwd new) := by
  refine and_congr_left fun _ => ⟨?_, fun ⟨o, _, hold, hchunk⟩ => ⟨_, hold, hchunk⟩⟩
  rintro ⟨l, hold, hchunk⟩
  obtain ⟨o, ho, rfl, -⟩ := Posix.fileAt_iff.mp hold
  exact ⟨o, ho, hold, hchunk⟩

instance decidableUndisturbed :
    (op : SysCall) → Decidable (Undisturbed cwd tmp_path saves i fs op)
  | .access path => inferInstanceAs (Decidable ((Posix.stat fs cwd path).isSome →
      (Posix.opendir fs cwd path).isSome))
  | .lstat _ path => inferInstanceAs (Decidable (path = (saves i).taskPath tmp_path →
      (Posix.lstat fs cwd path).isSome → (Posix.opendir fs cwd path).isSome))
  | .openWrite path => inferInstanceAs (Decidable (TaskThere cwd tmp_path fs (saves i) →
      (Posix.openWrite fs cwd path).isSome))
  | .write .. => inferInstanceAs (Decidable True)
  | .opendir _ => inferInstanceAs (Decidable False)
  | .change (.mkdir path) => inferInstanceAs (Decidable (cstr path ≠ []))
  | .change (.unlink _) => inferInstanceAs (Decidable False)
  | .change (.rmdir _) => inferInstanceAs (Decidable False)
  | .change (.rename _ _) => decidable_of_iff _ (rename_iff cwd tmp_path saves i fs).symm

instance decidableNoRace : (op : SysCall) → Decidable (NoRace cwd tmp_path saves i fs op)
  | .change (.mkdir path) => inferInstanceAs (Decidable ((locate fs cwd false path).isSome →
      Posix.mkdir fs cwd path = none → TaskThere cwd tmp_path fs (saves i)))
  | .change (.unlink _) | .change (.rmdir _) | .change (.rename _ _) | .access _ | .lstat _ _
  | .openWrite _ | .write .. | .opendir _ => inferInstanceAs (Decidable True)

end

section

variable {ι : Type*} {cwd : Loc} {tmp_path : Str} {saves : ι → Save} {fs fs' : Posix.FS Bytes}
  {i : ι}

theorem Evolves.refl (fs : Posix.FS Bytes) : Evolves cwd tmp_path saves fs fs :=
  ⟨Keeps.refl fs, fun _ h => h⟩

theorem Evolves.trans (fs fs' fs'' : Posix.FS Bytes) (h : Evolves cwd tmp_path saves fs fs')
    (h' : Evolves cwd tmp_path saves fs' fs'') : Evolves cwd tmp_path saves fs fs'' :=
  ⟨h.keeps.trans h'.keeps, fun j hj => h'.saved j (h.saved j hj)⟩

theorem Evolves.of_keeps (h : Keeps fs fs')
    (hfiles : ∀ j, ∀ r ∈ locate fs cwd true ((saves j).chunkPath tmp_path), ∀ c,
      get fs (push r.1 r.2) = some (.file (.file c)) →
        ∃ c', get fs' (push r.1 r.2) = some (.file (.file c'))) :
    Evolves cwd tmp_path saves fs fs' := by
  refine ⟨h, fun j hj => ?_⟩
  obtain ⟨c, hc⟩ := hj
  obtain ⟨r, hr, hget⟩ := Option.bind_eq_some_iff.mp hc
  obtain ⟨c', hc'⟩ := hfiles j r hr c hget
  refine ⟨c', ?_⟩
  rw [Posix.stat, h.locate hr]
  exact hc'

theorem get_insert_file {l l' : Loc} {c c' : Bytes} (h : NoneOrFile (get fs l))
    (hl' : get fs l' = some (.file (.file c))) :
    ∃ c'', get (fs.insert l (.file (.file c'))) l' = some (.file (.file c'')) := by
  by_cases hll : l' = l
  · subst hll
    cases l' with
    | nil => exact nomatch hl'
    | cons n l => exact ⟨c', FileSystem.get_insert_self fs n l _⟩
  · exact ⟨c, by rw [FileSystem.get_insert_ne fs _ hll, hl']⟩

theorem evolves_insert_file {l : Loc} (h : NoneOrFile (get fs l)) (c : Bytes) :
    Evolves cwd tmp_path saves fs (fs.insert l (.file (.file c))) :=
  .of_keeps (Posix.keeps_insert_file h c) fun _ _ _ _ hget => get_insert_file h hget

theorem evolves_mkdir {path : Str} (h : Posix.mkdir fs cwd path = some fs') :
    Evolves cwd tmp_path saves fs fs' := by
  obtain ⟨l, n, -, -, hnone, rfl⟩ := Posix.mkdir_eq_some h
  refine .of_keeps (Posix.keeps_insert_dir hnone) fun j r hr c hget => ⟨c, ?_⟩
  have hne : push r.1 r.2 ≠ n :: l := by
    rintro hc
    rw [hc, hnone] at hget
    exact nomatch hget
  rw [FileSystem.get_insert_ne fs _ hne, hget]

theorem evolves_rename {old new : Str}
    (hC : Undisturbed cwd tmp_path saves i fs (.change (.rename old new)))
    (h : Posix.rename fs cwd old new = some fs') : Evolves cwd tmp_path saves fs fs' := by
  obtain ⟨⟨src, hold, hchunk⟩, hfree⟩ := hC
  obtain ⟨l, n, hnew, hn⟩ := Posix.rename_eq_some h
  rw [Posix.lstat_eq hnew, FileSystem.push_of_not_special hn] at hfree
  obtain ⟨c, hsrc, hrename⟩ := Posix.rename_file hold hnew hn hfree
  rw [h] at hrename
  obtain rfl := Option.some.inj hrename
  split_ifs with hsame
  · exact Evolves.refl fs
  · have hfree' : NoneOrFile (get (fs.erase src) (n :: l)) := by
      rwa [FileSystem.get_erase_ne fs (Ne.symm hsame)]
    refine .of_keeps ((Posix.keeps_erase hsrc).trans (Posix.keeps_insert_file hfree' c)) ?_
    intro j r hr c' hget
    refine get_insert_file hfree' (c := c') ?_
    rw [FileSystem.get_erase_ne fs (hchunk j r hr), hget]

/-- **One call** of a save. -/
theorem evolves_perform {op : SysCall} (hC : Undisturbed cwd tmp_path saves i fs op) :
    Evolves cwd tmp_path saves fs (op.perform cwd fs).2 := by
  cases op with
  | access path => exact Evolves.refl fs
  | lstat st path => exact Evolves.refl fs
  | opendir path => exact hC.elim
  | openWrite path =>
    rw [SysCall.perform]
    cases hopen : Posix.openWrite fs cwd path with
    | none => exact Evolves.refl fs
    | some l =>
      obtain ⟨d, n, -, -, -, hfree⟩ := Posix.openWrite_eq_some hopen
      exact evolves_insert_file hfree []
  | write file content =>
    rw [SysCall.perform]
    split
    · rename_i old hget
      refine evolves_insert_file ?_ _
      rw [hget]
      rintro y ⟨⟩
      exact ⟨old, rfl⟩
    · exact Evolves.refl fs
  | change c =>
    rw [SysCall.perform]
    cases hc : c.apply cwd fs with
    | none => exact Evolves.refl fs
    | some fs' =>
      cases c with
      | mkdir path => exact evolves_mkdir hc
      | unlink path => exact hC.elim
      | rmdir path => exact hC.elim
      | rename old new => exact evolves_rename hC hc

/-! ### Each program on its own -/

/-- A program of the save `i` keeps what the others rely on and ends with `Q`, while the others do
the same. -/
abbrev Ends {β : Type} (cwd : Loc) (tmp_path : Str) (saves : ι → Save) (i : ι) (p : Sys β)
    (Q : Posix.FS Bytes → β → Prop) (fs : Posix.FS Bytes) : Prop :=
  Survives (SysCall.perform cwd) (Evolves cwd tmp_path saves)
    (fun fs op => Undisturbed cwd tmp_path saves i fs op ∧ NoRace cwd tmp_path saves i fs op) p Q fs

theorem opendir_evolves {path : Str} (h : (Posix.opendir fs cwd path).isSome)
    (hfs : Evolves cwd tmp_path saves fs fs') : (Posix.opendir fs' cwd path).isSome := by
  obtain ⟨l, hl⟩ := Option.isSome_iff_exists.mp h
  exact Option.isSome_of_eq_some (hfs.keeps.opendir hl)

theorem TaskThere.evolves (h : TaskThere cwd tmp_path fs (saves i))
    (hfs : Evolves cwd tmp_path saves fs fs') : TaskThere cwd tmp_path fs' (saves i) :=
  opendir_evolves h hfs

theorem locate_evolves {path : Str} (h : (locate fs cwd false path).isSome)
    (hfs : Evolves cwd tmp_path saves fs fs') : (locate fs' cwd false path).isSome := by
  obtain ⟨r, hr⟩ := Option.isSome_iff_exists.mp h
  exact Option.isSome_of_eq_some (hfs.keeps.locate hr)

/-- `__mkdir` leaves the directory behind, or the task directory is there. -/
theorem mkdirIfMissing_ends {path : Str}
    (h : cstr path ≠ [] → (locate fs cwd false path).isSome) :
    Ends cwd tmp_path saves i (mkdirIfMissing path) (fun fs made =>
      if made then (Posix.opendir fs cwd path).isSome = true
      else TaskThere cwd tmp_path fs (saves i)) fs := by
  rw [mkdirIfMissing, access]
  intro fs₁ h₁ hC
  refine ⟨evolves_perform hC.1, ?_⟩
  rw [SysCall.perform]
  cases hfound : (Posix.stat fs₁ cwd path).isSome with
  | true =>
    intro fs₂ h₂
    exact opendir_evolves (hC.1 hfound) h₂
  | false =>
    intro fs₂ h₂ hC₂
    refine ⟨evolves_perform hC₂.1, ?_⟩
    have hlocate := locate_evolves (locate_evolves (h hC₂.1) h₁) h₂
    rw [SysCall.perform]
    cases hmkdir : Change.apply cwd fs₂ (.mkdir path) with
    | none =>
      intro fs₃ h₃
      exact (hC₂.2 hlocate hmkdir).evolves h₃
    | some fs' =>
      intro fs₃ h₃
      obtain ⟨l, n, hr, hn, hnone, rfl⟩ := Posix.mkdir_eq_some hmkdir
      have hr' := (Posix.keeps_insert_dir hnone).locate hr
      have hpush := FileSystem.push_of_not_special (l := l) hn
      have hdir : isDir (fs₂.insert (n :: l) .dir) (push l n) := by
        rw [hpush, FileSystem.isDir_iff, FileSystem.get_insert_self]
      exact opendir_evolves (Option.isSome_of_eq_some (Posix.opendir_of_locate hr' hdir)) h₃

theorem mkdirEach_ends {paths : List Str} : ∀ {p : Str} {fs : Posix.FS Bytes},
    (p :: paths).IsChain FSUtil.EntryPath → (∀ q ∈ paths, '\x00' ∉ q) →
      (p :: paths).getLast? = some (cstr ((saves i).taskPath tmp_path)) →
        (Posix.opendir fs cwd p).isSome →
          Ends cwd tmp_path saves i (mkdirEach paths)
            (fun fs _ => TaskThere cwd tmp_path fs (saves i)) fs := by
  induction paths with
  | nil =>
    intro p fs _ _ hlast hopen fs₁ h₁
    obtain rfl := Option.some.inj hlast
    have hopen₁ := opendir_evolves hopen h₁
    rwa [Posix.opendir_cstr] at hopen₁
  | cons q paths ih =>
    intro p fs hchain h0 hlast hopen
    rw [List.isChain_cons_cons] at hchain
    rw [List.getLast?_cons_cons] at hlast
    rw [mkdirEach]
    refine (mkdirIfMissing_ends fun _ => FSUtil.locate_entryPath hchain.1
      (h0 q List.mem_cons_self) hopen).bind Evolves.refl fun made fs₁ h₁ => ?_
    cases made with
    | true => exact ih hchain.2 (fun q' hq' => h0 q' (List.mem_cons_of_mem q hq')) hlast h₁
    | false => exact fun fs₂ h₂ => TaskThere.evolves h₁ h₂

/-- `Mkdir` behind its `lstat`; the first path is in the root or in the working directory. -/
theorem mkdirEach_slashPrefixes_ends {path : Str}
    (hpath : cstr ((saves i).taskPath tmp_path) = path) :
    Ends cwd tmp_path saves i (mkdirEach (slashPrefixes path ++ [path]))
      (fun fs _ => TaskThere cwd tmp_path fs (saves i)) fs := by
  have h0 : '\x00' ∉ path := hpath ▸ FileSystem.not_mem_cstr _
  have hclean : ∀ q ∈ slashPrefixes path ++ [path], '\x00' ∉ q := by
    intro q hq hmem
    rcases List.mem_append.mp hq with hq | hq
    · obtain ⟨-, r, hr⟩ := slashPrefixes_append hq
      exact h0 (hr ▸ List.mem_append_left _ hmem)
    · exact h0 (List.mem_singleton.mp hq ▸ hmem)
  have hchain := FSUtil.slashPrefixes_isChain path
  have hlast : (slashPrefixes path ++ [path]).getLast?
      = some (cstr ((saves i).taskPath tmp_path)) := by
    rw [List.getLast?_concat, hpath]
  have hhead : ∀ p ∈ (slashPrefixes path ++ [path]).head?, '/' ∉ p.tail :=
    fun p hp => FSUtil.slashPrefixes_head hp
  generalize slashPrefixes path ++ [path] = paths at hchain hlast hclean hhead ⊢
  cases paths with
  | nil => exact nomatch hlast
  | cons p paths =>
    have hp0 := hclean p List.mem_cons_self
    have hlocate : cstr p ≠ [] → (locate fs cwd false p).isSome := by
      intro hp
      rw [FileSystem.cstr_eq_self hp0] at hp
      exact FSUtil.locate_head hp hp0 (hhead p rfl)
    rw [mkdirEach]
    refine (mkdirIfMissing_ends hlocate).bind Evolves.refl fun made fs₁ h₁ => ?_
    cases made with
    | true =>
      exact mkdirEach_ends hchain (fun q hq => hclean q (List.mem_cons_of_mem p hq)) hlast h₁
    | false => exact fun fs₂ h₂ => TaskThere.evolves h₁ h₂

/-- **Behind `Mkdir` the task directory is there**, whatever it returns. -/
theorem Mkdir_ends : Ends cwd tmp_path saves i (Mkdir ((saves i).taskPath tmp_path))
    (fun fs _ => TaskThere cwd tmp_path fs (saves i)) fs := by
  rw [Mkdir, lstat]
  intro fs₁ h₁ hC
  refine ⟨evolves_perform hC.1, ?_⟩
  rw [SysCall.perform]
  cases hfound : Posix.lstat fs₁ cwd ((saves i).taskPath tmp_path) with
  | some x =>
    intro fs₂ h₂
    exact TaskThere.evolves (hC.1 rfl (Option.isSome_of_eq_some hfound)) h₂
  | none => exact mkdirEach_slashPrefixes_ends rfl

/-- The file that `open` creates. -/
theorem saved_openWrite {l : Loc}
    (h : Posix.openWrite fs cwd ((saves i).chunkPath tmp_path) = some l) :
    Saved cwd tmp_path (fs.insert l (.file (.file []))) (saves i) := by
  obtain ⟨d, n, rfl, hr, hn, hfree⟩ := Posix.openWrite_eq_some h
  refine ⟨[], ?_⟩
  rw [Posix.stat, (Posix.keeps_insert_file hfree []).locate hr, Option.bind_some,
    FileSystem.push_of_not_special hn, FileSystem.get_insert_self]

theorem chunkPath_dirname : Dirname ((saves i).chunkPath tmp_path) = (saves i).taskPath tmp_path :=
  FSUtil.Dirname_child ChunkManager.buildTaskPath_ne_nil (plain_index _).2.1

theorem OpenForWrite_ends : Ends cwd tmp_path saves i
    (OpenForWrite ((saves i).chunkPath tmp_path))
    (fun fs ofs => ofs.isSome ∧ Saved cwd tmp_path fs (saves i)) fs := by
  rw [OpenForWrite, openWrite]
  intro fs₁ h₁ hC
  refine ⟨evolves_perform hC.1, ?_⟩
  rw [SysCall.perform]
  cases hopen : Posix.openWrite fs₁ cwd ((saves i).chunkPath tmp_path) with
  | some l => exact fun fs₂ h₂ => ⟨rfl, h₂.saved i (saved_openWrite hopen)⟩
  | none =>
    simp only
    rw [chunkPath_dirname]
    refine Mkdir_ends.bind Evolves.refl fun _ fs₂ h₂ => ?_
    intro fs₃ h₃ hC₃
    refine ⟨evolves_perform hC₃.1, ?_⟩
    obtain ⟨l, hl⟩ := Option.isSome_iff_exists.mp (hC₃.1 (h₂.evolves h₃))
    rw [SysCall.perform, hl]
    exact fun fs₄ h₄ => ⟨rfl, h₄.saved i (saved_openWrite hl)⟩

theorem saveChunkContent_ends {content : Bytes} (hcontent : content ≠ []) :
    Ends cwd tmp_path saves i (saveChunkContent tmp_path (saves i).username (saves i).md5 content
      (saves i).index) (fun fs ret => ret = true ∧ Saved cwd tmp_path fs (saves i)) fs := by
  rw [saveChunkContent, if_neg hcontent]
  refine OpenForWrite_ends.bind Evolves.refl fun ofs fs₁ h₁ => ?_
  obtain ⟨l, rfl⟩ := Option.isSome_iff_exists.mp h₁.1
  simp only
  rw [write]
  intro fs₂ h₂ hC
  have hwrite := evolves_perform hC.1
  refine ⟨hwrite, fun fs₃ h₃ => ⟨?_, ((Evolves.trans _ _ _ h₂ hwrite).trans _ _ _ h₃).saved i h₁.2⟩⟩
  rw [SysCall.perform]
  split <;> rfl

theorem Unlink_ends {path : Str} :
    Ends cwd tmp_path saves i (Unlink path) (fun _ ret => ret = true) fs := by
  rw [Unlink, lstat]
  intro fs₁ h₁ hC
  refine ⟨evolves_perform hC.1, ?_⟩
  rw [SysCall.perform]
  cases Posix.lstat fs₁ cwd path with
  | none => exact fun _ _ => rfl
  | some x => exact fun fs₂ h₂ hC₂ => hC₂.1.elim

/-- `Rm` finds nothing, when nobody deletes anything. -/
theorem Rm_ends {fuel : Nat} {path : Str} :
    Ends cwd tmp_path saves i (Rm (fuel + 1) path) (fun _ ret => ret = some true) fs := by
  rw [Rm, lstat]
  intro fs₁ h₁ hC
  refine ⟨evolves_perform hC.1, ?_⟩
  rw [SysCall.perform]
  cases Posix.lstat fs₁ cwd path with
  | none => exact fun _ _ => rfl
  | some x =>
    show Ends cwd tmp_path saves i (if st_mode x &&& S_IFDIR = 0 then _ else _) _ fs₁
    split_ifs
    · refine Unlink_ends.bind Evolves.refl fun ret fs₂ h₂ => ?_
      exact fun _ _ => congrArg some h₂
    · exact fun fs₂ h₂ hC₂ => hC₂.1.elim

/-- The chunk that `rename` puts in its place. -/
theorem saved_rename {old : Str} (hthere : TaskThere cwd tmp_path fs (saves i))
    (hC : Undisturbed cwd tmp_path saves i fs
      (.change (.rename old ((saves i).chunkPath tmp_path)))) :
    ∃ fs', Posix.rename fs cwd old ((saves i).chunkPath tmp_path) = some fs'
      ∧ Saved cwd tmp_path fs' (saves i) := by
  obtain ⟨⟨src, hold, -⟩, hfree⟩ := id hC
  obtain ⟨d, hd⟩ := Option.isSome_iff_exists.mp hthere
  obtain ⟨hspecial, hslash, hn0⟩ := plain_index (saves i).index
  have hne : (saves i).taskPath tmp_path ≠ [] := ChunkManager.buildTaskPath_ne_nil
  have h0 : '\x00' ∉ (saves i).taskPath tmp_path := by
    -- behind a NUL the chunk would be the task directory itself
    intro hnul
    have hcstr : cstr ((saves i).chunkPath tmp_path) = cstr ((saves i).taskPath tmp_path) :=
      FileSystem.cstr_append_of_mem hnul
    rw [Posix.lstat, Posix.locate_congr hcstr] at hfree
    obtain ⟨x, hx⟩ := Option.isSome_iff_exists.mp (Posix.lstat_of_opendir hd)
    obtain ⟨c, rfl⟩ := hfree x hx
    exact Posix.lstat_ne_file_of_opendir hd hx
  have hnew : locate fs cwd false ((saves i).chunkPath tmp_path)
      = some (d, to_string (saves i).index) := by
    have hchild : locate fs cwd false ((saves i).chunkPath tmp_path)
        = (Posix.opendir fs cwd ((saves i).taskPath tmp_path)).map fun d =>
          (d, to_string (saves i).index) := Posix.locate_child hne h0 hn0 hslash
    rw [hchild, hd]
    rfl
  rw [Posix.lstat_eq hnew, FileSystem.push_of_not_special hspecial] at hfree
  obtain ⟨c, hsrc, hrename⟩ := Posix.rename_file hold hnew hspecial hfree
  refine ⟨_, hrename, c, ?_⟩
  have hkeeps := (evolves_rename hC hrename).keeps
  generalize hfs' : (if src = to_string (saves i).index :: d then fs
    else (fs.erase src).insert (to_string (saves i).index :: d) (.file (.file c))) = fs' at hkeeps ⊢
  have hget : get fs' (to_string (saves i).index :: d) = some (.file (.file c)) := by
    rw [← hfs']
    split_ifs with hsame
    · rw [← hsame, hsrc]
    · rw [FileSystem.get_insert_self]
  have hlink : Posix.linkAt fs' d (to_string (saves i).index) = none := by
    rw [Posix.linkAt, hget]
    split_ifs <;> rfl
  have hlocate : locate fs' cwd true ((saves i).chunkPath tmp_path)
      = some (d, to_string (saves i).index) :=
    Posix.locate_child_of_opendir hne h0 hn0 hslash (hkeeps.opendir hd) hlink true
  rw [Posix.stat, hlocate, Option.bind_some, FileSystem.push_of_not_special hspecial, hget]

theorem Mv_ends {fuel : Nat} {old : Str} (hthere : TaskThere cwd tmp_path fs (saves i)) :
    Ends cwd tmp_path saves i (Mv (fuel + 1) old ((saves i).chunkPath tmp_path))
      (fun fs ret => ret = some true ∧ Saved cwd tmp_path fs (saves i)) fs := by
  have hstays : ∀ fs fs', Evolves cwd tmp_path saves fs fs' →
      TaskThere cwd tmp_path fs (saves i) → TaskThere cwd tmp_path fs' (saves i) :=
    fun _ _ hfs h => h.evolves hfs
  rw [Mv]
  refine (Rm_ends.frame hstays hthere).bind Evolves.refl fun ret fs₁ h₁ => ?_
  obtain ⟨rfl, h₁⟩ := h₁
  simp only
  rw [change]
  intro fs₂ h₂ hC
  refine ⟨evolves_perform hC.1, ?_⟩
  obtain ⟨fs', hrename, hsaved⟩ := saved_rename (h₁.evolves h₂) hC.1
  rw [SysCall.perform, Change.apply, hrename]
  exact fun fs₃ h₃ => ⟨rfl, h₃.saved i hsaved⟩

theorem saveChunk_ends {fuel : Nat} {tmp_file_path : Str} :
    Ends cwd tmp_path saves i (saveChunk tmp_path (saves i).username (saves i).md5 (fuel + 1)
      tmp_file_path (saves i).index)
      (fun fs ret => ret = some true ∧ Saved cwd tmp_path fs (saves i)) fs := by
  rw [saveChunk]
  exact Mkdir_ends.bind Evolves.refl fun _ fs₁ h₁ => Mv_ends h₁

/-- **Each save on its own** returns `true`, and its chunk is there. -/
theorem program_ends {fuel : Nat} :
    Ends cwd tmp_path saves i ((saves i).program tmp_path (fuel + 1))
      (fun fs ret => ret = some true ∧ Saved cwd tmp_path fs (saves i)) fs := by
  rw [Save.program]
  cases (saves i).source with
  | content content nonempty =>
    refine (saveChunkContent_ends nonempty).bind Evolves.refl fun ret fs₁ h₁ => ?_
    exact fun fs₂ h₂ => ⟨congrArg some h₁.1, h₂.saved i h₁.2⟩
  | file tmp_file_path => exact saveChunk_ends

end

/-! ### All saves -/

section

variable {ι : Type*} [DecidableEq ι] (cwd : Loc) (tmp_path : Str) (fuel : Nat) (saves : ι → Save)
  (fs : Posix.FS Bytes)

/-- The saves before their first call. -/
def starts : State (Posix.FS Bytes) ι SysCall SysCall.Answer (Option Bool) where
  shared := fs
  progs := fun i => (saves i).program tmp_path (fuel + 1)

/-- The run in which the save `sched n` makes the call `n`. -/
def saving (sched : Nat → ι) :
    Nat → State (Posix.FS Bytes) ι SysCall SysCall.Answer (Option Bool) :=
  states (SysCall.perform cwd) (starts tmp_path fuel saves fs) sched

/-- In every run whose calls `C` allows, a save that has returned has returned `true` and its chunk
is there; and every save returns when it has its turn again and again. -/
structure AllSucceed (C : ι → Posix.FS Bytes → SysCall → Prop) : Prop where
  returned : ∀ (sched : Nat → ι) n,
    (∀ m < n, Allows C (saving cwd tmp_path fuel saves fs sched m) (sched m)) →
      ∀ i ret, result (saving cwd tmp_path fuel saves fs sched n) i = some ret →
        ret = some true ∧ Saved cwd tmp_path (saving cwd tmp_path fuel saves fs sched n).shared
          (saves i)
  returns : ∀ (sched : Nat → ι) i, (∀ n, ∃ m, n ≤ m ∧ sched m = i) →
    ∃ n, (result (saving cwd tmp_path fuel saves fs sched n) i).isSome

/-- **All saves succeed** when nobody disturbs them and no `mkdir` comes second while the task
directory is missing. -/
theorem saves_succeed : AllSucceed cwd tmp_path fuel saves fs fun i fs op =>
    Undisturbed cwd tmp_path saves i fs op ∧ NoRace cwd tmp_path saves i fs op := by
  refine ⟨fun sched n hC i ret hret => ?_, fun sched i hfair => ?_⟩
  · have hstart : ∀ j, Ends cwd tmp_path saves j ((starts tmp_path fuel saves fs).progs j)
        (fun fs ret => ret = some true ∧ Saved cwd tmp_path fs (saves j))
        (starts tmp_path fuel saves fs).shared := fun j => program_ends
    exact (Interleaving.survives_states Evolves.refl Evolves.trans hstart hC i).of_result
      Evolves.refl hret
  · exact Interleaving.exists_result _ _ hfair

end

/-! ### Two saves of a new task -/

/-- A save of content and a save of the file `n`. -/
def newTask (first : Bool) : Save where
  username := ['u']
  md5 := ['m']
  index := if first then 0 else 1
  source := if first then .content [1] (by decide) else .file ['n']

/-- What is there before the task. -/
def oneFile : Posix.FS Bytes := (∅ : Posix.FS Bytes).insert [['n']] (.file (.file [2]))

/-- One save after the other. -/
example : (∀ m < 20, Allows (fun i fs op => Undisturbed [] ['t'] newTask i fs op
        ∧ NoRace [] ['t'] newTask i fs op)
      (saving [] ['t'] 0 newTask oneFile (fun n => n < 12) m) (m < 12))
    ∧ ∀ i, result (saving [] ['t'] 0 newTask oneFile (fun n => n < 12) 20) i
      = some (some true) := by
  decide +kernel

/-- **One of two saves fails** when they make their calls in turn: both miss the directory `t/u`. -/
theorem second_save_fails : ¬ AllSucceed [] ['t'] 0 newTask oneFile
    (Undisturbed [] ['t'] newTask) := by
  intro h
  have hallowed : ∀ m < 12, Allows (Undisturbed [] ['t'] newTask)
      (saving [] ['t'] 0 newTask oneFile (fun n => n % 2 == 1) m) (m % 2 == 1) := by
    decide +kernel
  have hfails : result (saving [] ['t'] 0 newTask oneFile (fun n => n % 2 == 1) 12) true
      = some (some false) := by
    decide +kernel
  exact absurd (h.returned _ 12 hallowed true _ hfails).1 (by decide)

end Sys

end FiberServer
