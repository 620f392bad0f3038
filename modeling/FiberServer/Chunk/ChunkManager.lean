import FiberServer.Chunk.FSUtil
import FiberServer.Library.Transition

/-!
# `ChunkManager`

The static functions of `ChunkManager` for one value of `uploadfiles.tmp_path`
and one working directory, and the calls that save the chunks of one upload task
as a transition system: a step is an accepted call.

* `saved_reachable`: every regular file in the task directory is a chunk that was
  saved, with its last saved content.
-/

namespace FiberServer

open FileSystem FSUtil

namespace ChunkManager

section

variable (tmp_path : Str) (cwd : Loc) (username md5 : Str)

def buildTaskPath : Str := tmp_path ++ '/' :: (username ++ '/' :: md5)

def buildChunkPath (index : Int) : Str :=
  buildTaskPath tmp_path username md5 ++ '/' :: to_string index

def getUploadedChunks (fs : FS Bytes) : List Int :=
  GetIndices fs cwd (buildTaskPath tmp_path username md5)

def saveChunk (fs : FS Bytes) (tmp_file_path : Str) (index : Int) : FS Bytes × Bool :=
  let r := Mkdir fs cwd (buildTaskPath tmp_path username md5)
  Mv r.1 cwd tmp_file_path (buildChunkPath tmp_path username md5 index)

def saveChunkContent (fs : FS Bytes) (content : Bytes) (index : Int) : FS Bytes × Bool :=
  if content = [] then (fs, false)
  else
    let r := OpenForWrite fs cwd (buildChunkPath tmp_path username md5 index)
    match r.2 with
    | none => (r.1, false)
    | some l => (r.1.insert l (.file content), true)

def isAllChunksReady (fs : FS Bytes) (total_chunks : Nat) : Bool :=
  (GetIndices fs cwd (buildTaskPath tmp_path username md5)).length == total_chunks

def mergedFilePath : Str := buildTaskPath tmp_path username md5 ++ '/' :: md5

def mergeChunks (back : Bytes → Bytes) (fs : FS Bytes) (total_chunks : Nat) : FS Bytes × Str :=
  let path := buildTaskPath tmp_path username md5
  let indices := GetIndices fs cwd path
  if indices.length ≠ total_chunks then (fs, [])
  else
    let r := MergeFiles back fs cwd (mergedFilePath tmp_path username md5) path indices
    (r.1, if r.2 then mergedFilePath tmp_path username md5 else [])

end

/-! ### The accepted calls of one task -/

theorem neZero_index : NeZero (2 ^ 31) := inferInstance

/-- A call that saves a chunk; `chunk_index` is an `int` that is not negative. -/
inductive Save
  | content (content : Bytes) (chunk_index : Fin (2 ^ 31))
  | file (tmp_file_path : Str) (chunk_index : Fin (2 ^ 31))
  deriving DecidableEq, Repr

/-- The file system and, for each index, the content of its last accepted call. -/
structure Task where
  fs : FS Bytes
  saved : Nat → Option Bytes

/-- The content of the regular file at a path. -/
def fileContent (fs : FS Bytes) (cwd : Loc) (path : Str) : Option Bytes :=
  match stat fs cwd path with
  | some (.file c) => some c
  | _ => none

section

variable (tmp_path : Str) (cwd : Loc) (username md5 : Str)

/-- An accepted call. -/
def step (t : Task) : Save → Option Task
  | .content content i =>
    let r := saveChunkContent tmp_path cwd username md5 t.fs content i
    if r.2 then some ⟨r.1, Function.update t.saved i (some content)⟩ else none
  | .file tmp_file_path i =>
    let r := saveChunk tmp_path cwd username md5 t.fs tmp_file_path i
    -- the file as it is when `Mv` renames it
    let fs := (Mkdir t.fs cwd (buildTaskPath tmp_path username md5)).1
    let fs := (Rm fs cwd (buildChunkPath tmp_path username md5 i)).1
    if r.2 then some ⟨r.1, Function.update t.saved i (fileContent fs cwd tmp_file_path)⟩ else none

/-- The task directory, if all components of its path are there. -/
def taskDir : Loc :=
  normal (start cwd (buildTaskPath tmp_path username md5))
    ((buildTaskPath tmp_path username md5).splitOn '/')

/-- A task that nothing was saved for: its directory holds no file. -/
def Fresh (t : Task) : Prop :=
  (∀ n c, FileSystem.get t.fs (n :: taskDir tmp_path cwd username md5) ≠ some (.file c))
    ∧ ∀ i, t.saved i = none

/-- Every file in the task directory is a chunk with its last saved content. -/
def Saved (t : Task) : Prop :=
  ∀ n c, FileSystem.get t.fs (n :: taskDir tmp_path cwd username md5) = some (.file c) →
    ∃ i : Nat, i < 2 ^ 31 ∧ n = to_string i ∧ t.saved i = some c

end

variable {tmp_path : Str} {cwd : Loc} {username md5 : Str}

theorem buildTaskPath_ne_nil : buildTaskPath tmp_path username md5 ≠ [] := by
  simp [buildTaskPath]

theorem digits_to_string (i : Nat) : ∀ c ∈ to_string i, c.isDigit := by
  intro c hc
  rw [to_string, if_neg (by omega), Int.natAbs_natCast] at hc
  exact Nat.isDigit_of_mem_toDigits (by decide) (by decide) hc

theorem not_mem_to_string {i : Nat} {d : Char} (hd : d.isDigit = false) : d ∉ to_string i := by
  intro hmem
  have hdig := digits_to_string i d hmem
  rw [hd] at hdig
  exact nomatch hdig

theorem special_to_string (i : Nat) : special (to_string i) = false := by
  have hne : to_string i ≠ [] := by
    rw [to_string, if_neg (by omega)]
    exact Nat.toDigits_ne_nil
  have hdot : '.' ∉ to_string i := not_mem_to_string (by decide)
  simp only [special, Bool.or_eq_false_iff, beq_eq_false_iff_ne]
  refine ⟨⟨hne, ?_⟩, ?_⟩ <;> intro h <;> rw [h] at hdot <;> exact hdot List.mem_cons_self

theorem plain_to_string (i : Nat) : Plain (to_string i) :=
  ⟨special_to_string i, not_mem_to_string (by decide), not_mem_to_string (by decide)⟩

theorem to_string_inj {i j : Nat} (h : to_string i = to_string j) : i = j := by
  rw [to_string, to_string, if_neg (by omega), if_neg (by omega), Int.natAbs_natCast,
    Int.natAbs_natCast] at h
  have hval := congrArg (fun ds => Nat.ofDigitChars 10 ds 0) h
  simpa only [Nat.ofDigitChars_ten_toDigits] using hval

/-- Where a chunk path leads. -/
theorem locate_chunk (h0 : '\x00' ∉ buildTaskPath tmp_path username md5) {fs : FS Bytes} {i : Nat}
    {r : Loc × Name} (h : locate fs cwd (buildChunkPath tmp_path username md5 i) = some r) :
    r = (taskDir tmp_path cwd username md5, to_string i) := by
  rw [buildChunkPath, locate_append buildTaskPath_ne_nil h0 (not_mem_to_string (by decide))
    (not_mem_to_string (by decide)), Option.map_eq_some_iff] at h
  obtain ⟨l, hl, rfl⟩ := h
  rw [walk_eq_normal hl, taskDir]

theorem saved_of_fresh {t : Task} (h : Fresh tmp_path cwd username md5 t) :
    Saved tmp_path cwd username md5 t :=
  fun n c hc => absurd hc (h.1 n c)

/-- The file at one index is replaced. -/
theorem saved_of_update {t : Task} {fs : FS Bytes} {x : Option Bytes} {i : Fin (2 ^ 31)}
    (ht : Saved tmp_path cwd username md5 t)
    (hother : ∀ n c, n ≠ to_string i →
      FileSystem.get fs (n :: taskDir tmp_path cwd username md5) = some (.file c) →
      FileSystem.get t.fs (n :: taskDir tmp_path cwd username md5) = some (.file c))
    (hnew : ∀ c, FileSystem.get fs (to_string i :: taskDir tmp_path cwd username md5)
      = some (.file c) → x = some c) :
    Saved tmp_path cwd username md5 ⟨fs, Function.update t.saved i x⟩ := by
  intro n c hc
  by_cases hn : n = to_string i
  · subst hn
    exact ⟨i, i.isLt, rfl, (Function.update_self _ _ _).trans (hnew c hc)⟩
  · obtain ⟨j, hj, rfl, hsaved⟩ := ht n c (hother n c hn hc)
    refine ⟨j, hj, rfl, ?_⟩
    have hji : j ≠ i := by
      rintro rfl
      exact hn rfl
    simpa only [Function.update_of_ne hji] using hsaved

/-- What an accepted `saveChunkContent` does. -/
theorem saveChunkContent_accepted {fs : FS Bytes} {content : Bytes} {index : Int}
    (h : (saveChunkContent tmp_path cwd username md5 fs content index).2 = true) :
    ∃ fs' l, AddsDirs fs fs' ∧ openWrite fs' cwd (buildChunkPath tmp_path username md5 index) = some l
      ∧ (saveChunkContent tmp_path cwd username md5 fs content index).1
        = fs'.insert l (.file content) := by
  rw [saveChunkContent] at h ⊢
  split_ifs at h ⊢
  cases hopen : (OpenForWrite fs cwd (buildChunkPath tmp_path username md5 index)).2 with
  | none =>
    simp only [hopen] at h
    exact nomatch h
  | some l => exact ⟨_, l, OpenForWrite_adds fs cwd _, OpenForWrite_some hopen, by simp only [hopen]⟩

theorem openWrite_chunk (h0 : '\x00' ∉ buildTaskPath tmp_path username md5) {fs : FS Bytes}
    {i : Nat} {l : Loc} (h : openWrite fs cwd (buildChunkPath tmp_path username md5 i) = some l) :
    l = to_string i :: taskDir tmp_path cwd username md5 := by
  rw [openWrite, Option.bind_eq_some_iff] at h
  obtain ⟨r, hr, h⟩ := h
  obtain rfl := locate_chunk h0 hr
  split_ifs at h
  exact (Option.some.inj h).symm

theorem saved_step (h0 : '\x00' ∉ buildTaskPath tmp_path username md5) {t t' : Task} {a : Save}
    (ht : Saved tmp_path cwd username md5 t) (h : step tmp_path cwd username md5 t a = some t') :
    Saved tmp_path cwd username md5 t' := by
  cases a with
  | content content i =>
    rw [step] at h
    split_ifs at h with hok
    cases h
    obtain ⟨fs', l, hadds, hopen, hfs⟩ := saveChunkContent_accepted hok
    obtain rfl := openWrite_chunk h0 hopen
    rw [hfs]
    refine saved_of_update ht (fun n c hn hc => ?_) fun c hc => ?_
    · rw [get_insert_ne _ _ (by simpa using hn)] at hc
      exact hadds.file_iff.mp hc
    · rw [get_insert_self] at hc
      cases hc
      rfl
  | file tmp_file_path i =>
    rw [step] at h
    split_ifs at h with hok
    cases h
    have hmv : Mv (Mkdir t.fs cwd (buildTaskPath tmp_path username md5)).1 cwd tmp_file_path
        (buildChunkPath tmp_path username md5 i)
          = ((saveChunk tmp_path cwd username md5 t.fs tmp_file_path i).1, true) :=
      Prod.ext rfl hok
    obtain ⟨r, hr, -, hother, hnew⟩ := Mv_get hmv
    obtain rfl := locate_chunk h0 hr
    refine saved_of_update ht (fun n c hn hc => ?_) fun c hc => ?_
    · refine (Mkdir_adds t.fs cwd _).file_iff.mp (hother _ _ (fun hsuf => hn ?_) hc)
      exact (List.cons.inj (hsuf.eq_of_length rfl)).1.symm
    · rw [fileContent, hnew c hc]

/-- **Every regular file in the task directory is a saved chunk.** -/
theorem saved_reachable (h0 : '\x00' ∉ buildTaskPath tmp_path username md5) {t t' : Task}
    {saves : List Save} (ht : Fresh tmp_path cwd username md5 t)
    (h : Transition.exec (step tmp_path cwd username md5) t saves = some t') :
    Saved tmp_path cwd username md5 t' :=
  Transition.exec_invariant (fun _ _ _ => saved_step h0) (saved_of_fresh ht) h

end ChunkManager

end FiberServer
