import FiberServer.Chunk.Merge
import FiberServer.Library.Paths
import Mathlib.Data.Finset.Card
import Mathlib.Data.Int.Cast.Lemmas

/-!
# The indices of the saved chunks

`getUploadedChunks` reads the indices back from the names of the regular files in the
task directory.  The merged file stays there, under the checksum, when FastDFS or the
database fail after `mergeChunks`, and so does a chunk that `saveChunk` takes away.

* `kept_throughout`: in a run whose steps are `Harmless` the indices are always those
  of the saved chunks, and a chunk can be saved again and finds the upload ready.
* `harmless_merge`: a checksum that is one path component and that `stoi` does not read
  makes every merge harmless.
* `digest_not_kept`: a checksum that starts with a digit.
-/

namespace FiberServer

open FileSystem FSUtil

namespace ChunkManager

/-- The file system and the indices of the chunks saved so far. -/
structure Progress where
  fs : FS Bytes
  saved : Finset Nat

/-- What happens to an upload task before it is done: chunks are saved and merged, and
then `uploadBigFile` or the transaction fails. -/
inductive Action
  | save (a : Save)
  | mergeChunks (total_chunks : Nat)
  | uploadBigFile
  | transaction
  deriving DecidableEq, Repr

def Save.index : Save → Nat
  | .content _ chunk_index => chunk_index
  | .file _ chunk_index => chunk_index

section

variable (tmp_path : Str) (cwd : Loc) (username md5 : Str)

def performSave (fs : FS Bytes) : Save → FS Bytes × Bool
  | .content content chunk_index =>
    saveChunkContent tmp_path cwd username md5 fs content chunk_index
  | .file tmp_file_path chunk_index =>
    saveChunk tmp_path cwd username md5 fs tmp_file_path chunk_index

def advance (back : Bytes → Bytes) (t : Progress) : Action → Progress
  | .save a =>
    let r := performSave tmp_path cwd username md5 t.fs a
    ⟨r.1, if r.2 then insert a.index t.saved else t.saved⟩
  | .mergeChunks total_chunks =>
    ⟨(mergeChunks tmp_path cwd username md5 back t.fs total_chunks).1, t.saved⟩
  -- both read the merged file and leave it where it is
  | .uploadBigFile => t
  | .transaction => t

/-- Nothing was saved, and no regular file in the task directory is read as an index. -/
def Unbegun (t : Progress) : Prop :=
  (∀ n c, FileSystem.get t.fs (n :: taskDir tmp_path cwd username md5) = some (.file c) →
    stoi n = none) ∧ t.saved = ∅

/-- The indices are those of the saved chunks, in their order, and any of these can be
saved again and finds all chunks ready. -/
structure Kept (t : Progress) : Prop where
  ascending : (getUploadedChunks tmp_path cwd username md5 t.fs).Pairwise (· < ·)
  indices : ∀ v : Int, v ∈ getUploadedChunks tmp_path cwd username md5 t.fs ↔
    ∃ i ∈ t.saved, v = (i : Int)
  retry : ∀ i ∈ t.saved, ∀ content : Bytes, content ≠ [] →
    let r := saveChunkContent tmp_path cwd username md5 t.fs content i
    r.2 = true ∧ isAllChunksReady tmp_path cwd username md5 r.1 t.saved.card = true

/-- The file system when `saveChunk` comes to rename: the task directory is made and
what was at the chunk's path is removed. -/
def cleared (fs : FS Bytes) (chunk_index : Int) : FS Bytes :=
  (Rm (Mkdir fs cwd (buildTaskPath tmp_path username md5)).1 cwd
    (buildChunkPath tmp_path username md5 chunk_index)).1

/-- `l` is the file of a saved chunk. -/
def Progress.IsChunk (t : Progress) (l : Loc) : Prop :=
  ∃ i ∈ t.saved, l = to_string i :: taskDir tmp_path cwd username md5

/-- The step does not disturb the names in the task directory. -/
def Harmless (t : Progress) : Action → Prop
  | .save (.content _ _) => True
  | .save (.file tmp_file_path i) =>
    let fs := cleared tmp_path cwd username md5 t.fs i
    -- the way to the task directory does not lead through what is removed
    (t.saved.Nonempty → ∀ l ∈ visited (start cwd (buildTaskPath tmp_path username md5))
        ((buildTaskPath tmp_path username md5).splitOn '/'),
      ¬ (to_string i :: taskDir tmp_path cwd username md5) <:+ l)
    -- a regular file that is no other chunk is renamed, or nothing is and nothing was lost
    ∧ ((∃ l c, openWrite fs cwd tmp_file_path = some l ∧ FileSystem.get fs l = some (.file c)
        ∧ ¬ t.IsChunk tmp_path cwd username md5 l)
      ∨ (i : Nat) ∉ t.saved
        ∧ rename fs cwd tmp_file_path (buildChunkPath tmp_path username md5 i) = none)
  | .mergeChunks total_chunks =>
    isAllChunksReady tmp_path cwd username md5 t.fs total_chunks = true →
      ∀ n, openWrite t.fs cwd (mergedFilePath tmp_path username md5)
          = some (n :: taskDir tmp_path cwd username md5) →
        stoi n ≠ none → t.IsChunk tmp_path cwd username md5 (n :: taskDir tmp_path cwd username md5)
  | .uploadBigFile => True
  | .transaction => True

/-- The task directory is there when something was saved, the saved chunks are regular
files in it, and no other regular file there is read as an index. -/
structure Booked (t : Progress) : Prop where
  dir : t.saved.Nonempty → opendir t.fs cwd (buildTaskPath tmp_path username md5)
    = some (taskDir tmp_path cwd username md5)
  file : ∀ i ∈ t.saved, i < 2 ^ 31 ∧
    ∃ c, FileSystem.get t.fs (to_string i :: taskDir tmp_path cwd username md5) = some (.file c)
  name : ∀ n c, FileSystem.get t.fs (n :: taskDir tmp_path cwd username md5) = some (.file c) →
    stoi n ≠ none → ∃ i ∈ t.saved, n = to_string i

end

variable {tmp_path : Str} {cwd : Loc} {username md5 : Str} {back : Bytes → Bytes}

theorem booked_of_unbegun {t : Progress} (ht : Unbegun tmp_path cwd username md5 t) :
    Booked tmp_path cwd username md5 t := by
  obtain ⟨hname, hsaved⟩ := ht
  refine ⟨fun h => ?_, fun i hi => ?_, fun n c hget hstoi => ?_⟩
  · rw [hsaved] at h
    exact absurd h Finset.not_nonempty_empty
  · rw [hsaved] at hi
    exact absurd hi (Finset.notMem_empty i)
  · exact absurd (hname n c hget) hstoi

section

variable (tmp_path : Str) (cwd : Loc) (username md5 : Str)

/-- `saveChunkContent` writes the chunk, or it makes at most directories. -/
theorem saveChunkContent_cases (fs : FS Bytes) (content : Bytes) (index : Int) :
    (∃ fs' l, AddsDirs fs fs' ∧ openWrite fs' cwd (buildChunkPath tmp_path username md5 index) = some l
        ∧ saveChunkContent tmp_path cwd username md5 fs content index
          = (fs'.insert l (.file content), true))
      ∨ AddsDirs fs (saveChunkContent tmp_path cwd username md5 fs content index).1
        ∧ (saveChunkContent tmp_path cwd username md5 fs content index).2 = false := by
  cases hok : (saveChunkContent tmp_path cwd username md5 fs content index).2 with
  | true =>
    obtain ⟨fs', l, hadds, hopen, hfs⟩ := saveChunkContent_accepted hok
    exact .inl ⟨fs', l, hadds, hopen, Prod.ext hfs hok⟩
  | false =>
    refine .inr ⟨?_, rfl⟩
    rw [saveChunkContent] at hok ⊢
    split_ifs at hok ⊢
    · exact AddsDirs.refl fs
    · cases hopen : (OpenForWrite fs cwd (buildChunkPath tmp_path username md5 index)).2 with
      | none =>
        simp only [hopen]
        exact OpenForWrite_adds fs cwd _
      | some l =>
        simp only [hopen] at hok
        cases hok

/-- `saveChunk` renames, or it leaves what the preparations made. -/
theorem saveChunk_cases (fs : FS Bytes) (tmp_file_path : Str) (index : Int) :
    (∃ fs', rename (cleared tmp_path cwd username md5 fs index) cwd tmp_file_path
          (buildChunkPath tmp_path username md5 index) = some fs'
        ∧ saveChunk tmp_path cwd username md5 fs tmp_file_path index = (fs', true))
      ∨ saveChunk tmp_path cwd username md5 fs tmp_file_path index
          = (cleared tmp_path cwd username md5 fs index, false)
        ∧ ((Rm (Mkdir fs cwd (buildTaskPath tmp_path username md5)).1 cwd
            (buildChunkPath tmp_path username md5 index)).2 = true →
          rename (cleared tmp_path cwd username md5 fs index) cwd tmp_file_path
            (buildChunkPath tmp_path username md5 index) = none) := by
  rw [saveChunk, Mv]
  split_ifs with hrm
  · cases hren : rename (cleared tmp_path cwd username md5 fs index) cwd tmp_file_path
        (buildChunkPath tmp_path username md5 index) with
    | some fs' =>
      rw [cleared] at hren
      exact .inl ⟨fs', rfl, by simp only [hren]⟩
    | none =>
      refine .inr ⟨?_, fun _ => rfl⟩
      rw [cleared] at hren ⊢
      simp only [hren]
  · exact .inr ⟨rfl, fun h => absurd h hrm⟩

/-- `mergeChunks` writes at most the merged file, and only when all chunks are ready. -/
theorem mergeChunks_cases (back : Bytes → Bytes) (fs : FS Bytes) (total_chunks : Nat) :
    (mergeChunks tmp_path cwd username md5 back fs total_chunks).1 = fs
      ∨ isAllChunksReady tmp_path cwd username md5 fs total_chunks = true
        ∧ ∃ l c, openWrite fs cwd (mergedFilePath tmp_path username md5) = some l
          ∧ (mergeChunks tmp_path cwd username md5 back fs total_chunks).1
            = fs.insert l (.file c) := by
  rw [mergeChunks]
  split_ifs with hlen
  · exact .inl rfl
  · rw [MergeFiles, MergePaths]
    split
    · exact .inl rfl
    · next l hl =>
      exact .inr ⟨isAllChunksReady_iff.mpr (not_not.mp hlen), l, _, hl, rfl⟩

end

/-! ### What the invariant gives -/

section

variable (h0 : '\x00' ∉ buildTaskPath tmp_path username md5)
include h0

/-- Whether or not the task directory is there. -/
theorem Booked.mem_getUploadedChunks {t : Progress} (ht : Booked tmp_path cwd username md5 t)
    (v : Int) :
    v ∈ getUploadedChunks tmp_path cwd username md5 t.fs ↔ ∃ i ∈ t.saved, v = (i : Int) := by
  rw [getUploadedChunks]
  cases hdir : opendir t.fs cwd (buildTaskPath tmp_path username md5) with
  | none =>
    have hnone : ∀ i, i ∉ t.saved := by
      intro i hi
      rw [ht.dir ⟨i, hi⟩] at hdir
      cases hdir
    rw [GetIndices, hdir]
    refine iff_of_false List.not_mem_nil ?_
    rintro ⟨i, hi, -⟩
    exact hnone i hi
  | some l =>
    obtain rfl := opendir_taskDir h0 hdir
    rw [mem_GetIndices_iff hdir]
    constructor
    · rintro ⟨n, c, hget, hv⟩
      obtain ⟨i, hi, rfl⟩ := ht.name n c hget (by rw [hv]; exact Option.some_ne_none v)
      rw [stoi_to_string (ht.file i hi).1] at hv
      exact ⟨i, hi, (Option.some.inj hv).symm⟩
    · rintro ⟨i, hi, rfl⟩
      obtain ⟨hlt, c, hget⟩ := ht.file i hi
      exact ⟨to_string i, c, hget, stoi_to_string hlt⟩

theorem Booked.nodup_getUploadedChunks {t : Progress} (ht : Booked tmp_path cwd username md5 t) :
    (getUploadedChunks tmp_path cwd username md5 t.fs).Nodup := by
  rw [getUploadedChunks]
  cases hdir : opendir t.fs cwd (buildTaskPath tmp_path username md5) with
  | none =>
    rw [GetIndices, hdir]
    exact List.nodup_nil
  | some l =>
    obtain rfl := opendir_taskDir h0 hdir
    refine nodup_GetIndices_of_inj hdir fun n n' c c' x hget hx hget' hx' => ?_
    obtain ⟨i, hi, rfl⟩ := ht.name n c hget (by rw [hx]; exact Option.some_ne_none x)
    obtain ⟨j, hj, rfl⟩ := ht.name n' c' hget' (by rw [hx']; exact Option.some_ne_none x)
    rw [stoi_to_string (ht.file i hi).1] at hx
    rw [stoi_to_string (ht.file j hj).1] at hx'
    have hij : i = j := by exact_mod_cast Option.some.inj (hx.trans hx'.symm)
    rw [hij]

/-- All chunks are ready exactly when as many are saved. -/
theorem Booked.isAllChunksReady_iff {t : Progress} (ht : Booked tmp_path cwd username md5 t)
    {total_chunks : Nat} :
    isAllChunksReady tmp_path cwd username md5 t.fs total_chunks = true
      ↔ t.saved.card = total_chunks := by
  have hset : (getUploadedChunks tmp_path cwd username md5 t.fs).toFinset
      = t.saved.image (fun i : Nat => (i : Int)) := by
    ext v
    rw [List.mem_toFinset, ht.mem_getUploadedChunks h0, Finset.mem_image]
    exact exists_congr fun i => and_congr_right fun _ => eq_comm
  have hcard : t.saved.card = (getUploadedChunks tmp_path cwd username md5 t.fs).length := by
    rw [← List.toFinset_card_of_nodup (ht.nodup_getUploadedChunks h0), hset,
      Finset.card_image_of_injective _ Nat.cast_injective]
  rw [ChunkManager.isAllChunksReady_iff, hcard]
  rfl

/-! ### What the calls do to the task directory -/

/-- The task directory stays when the directories on the way stay. -/
theorem opendir_of_visited {fs fs' : FS Bytes}
    (hdirs : ∀ l ∈ visited (start cwd (buildTaskPath tmp_path username md5))
      ((buildTaskPath tmp_path username md5).splitOn '/'), isDir fs l → isDir fs' l)
    (h : opendir fs cwd (buildTaskPath tmp_path username md5)
      = some (taskDir tmp_path cwd username md5)) :
    opendir fs' cwd (buildTaskPath tmp_path username md5)
      = some (taskDir tmp_path cwd username md5) := by
  rw [opendir_taskPath h0] at h ⊢
  exact walk_of_visited hdirs h

/-- A chunk that can be opened is in the task directory. -/
theorem opendir_of_openWrite {fs : FS Bytes} {i : Nat} {l : Loc}
    (h : openWrite fs cwd (buildChunkPath tmp_path username md5 i) = some l) :
    opendir fs cwd (buildTaskPath tmp_path username md5)
      = some (taskDir tmp_path cwd username md5) := by
  rw [openWrite, Option.bind_eq_some_iff] at h
  obtain ⟨r, hr, -⟩ := h
  obtain rfl := locate_chunk h0 hr
  rw [buildChunkPath, locate_append buildTaskPath_ne_nil h0 (not_mem_to_string (by decide))
    (not_mem_to_string (by decide)), Option.map_eq_some_iff] at hr
  obtain ⟨l', hwalk, hl'⟩ := hr
  rw [opendir_taskPath h0, hwalk]
  exact congrArg some (Prod.ext_iff.mp hl').1

theorem Booked.adds {t : Progress} (ht : Booked tmp_path cwd username md5 t) {fs : FS Bytes}
    (h : AddsDirs t.fs fs) : Booked tmp_path cwd username md5 ⟨fs, t.saved⟩ := by
  refine ⟨fun hne => ?_, fun i hi => ?_, fun n c hget => ?_⟩
  · exact opendir_of_visited h0 (fun l _ => h.isDir) (ht.dir hne)
  · obtain ⟨hlt, c, hget⟩ := ht.file i hi
    exact ⟨hlt, c, h.file_iff.mpr hget⟩
  · exact ht.name n c (h.file_iff.mp hget)

/-- A file is written; it is read as an index only if that one counts as saved. -/
theorem Booked.insert_file {fs : FS Bytes} {saved saved' : Finset Nat} {p : Str} {l : Loc}
    (ht : Booked tmp_path cwd username md5 ⟨fs, saved⟩) (hopen : openWrite fs cwd p = some l)
    (hdir : saved'.Nonempty → opendir fs cwd (buildTaskPath tmp_path username md5)
      = some (taskDir tmp_path cwd username md5))
    (hsub : saved ⊆ saved')
    (hnew : ∀ i ∈ saved', i ∈ saved
      ∨ i < 2 ^ 31 ∧ l = to_string i :: taskDir tmp_path cwd username md5)
    (hname : ∀ n, l = n :: taskDir tmp_path cwd username md5 → stoi n ≠ none →
      ∃ i ∈ saved', n = to_string i) (c : Bytes) :
    Booked tmp_path cwd username md5 ⟨fs.insert l (.file c), saved'⟩ := by
  obtain ⟨n', l', rfl⟩ : ∃ n' l', l = n' :: l' := by
    rw [openWrite, Option.bind_eq_some_iff] at hopen
    obtain ⟨r, -, hl⟩ := hopen
    split_ifs at hl
    exact ⟨r.2, r.1, (Option.some.inj hl).symm⟩
  refine ⟨fun hne => ?_, fun i hi => ?_, fun n c' hget hstoi => ?_⟩
  · exact opendir_of_visited h0 (fun l _ => isDir_insert hopen) (hdir hne)
  · by_cases hl : to_string i :: taskDir tmp_path cwd username md5 = n' :: l'
    · have hlt : i < 2 ^ 31 := (hnew i hi).elim (fun h => (ht.file i h).1) And.left
      refine ⟨hlt, c, ?_⟩
      rw [hl]
      exact get_insert_self fs n' l' _
    · obtain hold | ⟨-, heq⟩ := hnew i hi
      · obtain ⟨hlt, c', hget⟩ := ht.file i hold
        exact ⟨hlt, c', (get_insert_ne fs _ hl).trans hget⟩
      · exact absurd heq.symm hl
  · by_cases hl : n :: taskDir tmp_path cwd username md5 = n' :: l'
    · exact hname n hl.symm hstoi
    · change FileSystem.get (fs.insert (n' :: l') _) _ = _ at hget
      rw [get_insert_ne fs _ hl] at hget
      obtain ⟨i, hi, hn⟩ := ht.name n c' hget hstoi
      exact ⟨i, hsub hi, hn⟩

/-- A chunk is written. -/
theorem Booked.insert_chunk {fs : FS Bytes} {saved : Finset Nat} {i : Fin (2 ^ 31)} {l : Loc}
    (ht : Booked tmp_path cwd username md5 ⟨fs, saved⟩)
    (hopen : openWrite fs cwd (buildChunkPath tmp_path username md5 i) = some l) (c : Bytes) :
    Booked tmp_path cwd username md5 ⟨fs.insert l (.file c), insert (i : Nat) saved⟩ := by
  have hl := openWrite_chunk h0 hopen
  refine ht.insert_file h0 hopen (fun _ => opendir_of_openWrite h0 hopen)
    (Finset.subset_insert _ _) (fun j hj => ?_)
    (fun n hn _ => ⟨i, Finset.mem_insert_self _ _, (List.cons.inj (hn.symm.trans hl)).1⟩) c
  obtain rfl | hj := Finset.mem_insert.mp hj
  · exact .inr ⟨i.isLt, hl⟩
  · exact .inl hj

/-- A regular file that is no chunk goes away. -/
theorem Booked.erase_file {t : Progress} (ht : Booked tmp_path cwd username md5 t) {l : Loc}
    {c : Bytes} (hget : FileSystem.get t.fs l = some (.file c))
    (hl : ¬ t.IsChunk tmp_path cwd username md5 l) :
    Booked tmp_path cwd username md5 ⟨t.fs.erase l, t.saved⟩ := by
  refine ⟨fun hne => ?_, fun i hi => ?_, fun n c' hget' => ?_⟩
  · exact opendir_of_visited h0 (fun m _ => isDir_erase hget) (ht.dir hne)
  · obtain ⟨hlt, c', hget'⟩ := ht.file i hi
    exact ⟨hlt, c', (get_erase_ne _ fun heq => hl ⟨i, hi, heq.symm⟩).trans hget'⟩
  · exact ht.name n c' (get_of_erase hget')

theorem resolve_chunk (i : Nat) : resolve cwd (buildChunkPath tmp_path username md5 i)
    = to_string i :: taskDir tmp_path cwd username md5 := by
  rw [buildChunkPath, resolve_plain buildTaskPath_ne_nil h0 (plain_to_string i), resolve,
    cstr_eq_self h0, taskDir]

/-- A saved chunk that is removed is gone. -/
theorem Booked.Rm_chunk {t : Progress} (ht : Booked tmp_path cwd username md5 t) {i : Nat}
    (hi : i ∈ t.saved) :
    Rm t.fs cwd (buildChunkPath tmp_path username md5 i)
      = (t.fs.erase (to_string i :: taskDir tmp_path cwd username md5), true) := by
  obtain ⟨-, c, hget⟩ := ht.file i hi
  have hnot : isDir t.fs (to_string i :: taskDir tmp_path cwd username md5) = false := by
    rw [isDir, hget]
  exact Rm_file (openWrite_chunk_of_opendir h0 (ht.dir ⟨i, hi⟩) hnot) hget

/-- What is at a chunk's path is removed. -/
theorem Booked.clear {t : Progress} (ht : Booked tmp_path cwd username md5 t) {i : Nat}
    (hway : t.saved.Nonempty → ∀ l ∈ visited (start cwd (buildTaskPath tmp_path username md5))
        ((buildTaskPath tmp_path username md5).splitOn '/'),
      ¬ (to_string i :: taskDir tmp_path cwd username md5) <:+ l) :
    Booked tmp_path cwd username md5
      ⟨(Rm t.fs cwd (buildChunkPath tmp_path username md5 i)).1, t.saved.erase i⟩ := by
  have houtside : ∀ {l}, ¬ (to_string i :: taskDir tmp_path cwd username md5) <:+ l →
      FileSystem.get (Rm t.fs cwd (buildChunkPath tmp_path username md5 i)).1 l
        = FileSystem.get t.fs l := by
    intro l hl
    rw [← resolve_chunk h0] at hl
    exact Rm_outside hl
  refine ⟨fun hne => ?_, fun j hj => ?_, fun n c hget hstoi => ?_⟩
  · have hsome : t.saved.Nonempty := hne.mono (Finset.erase_subset i t.saved)
    refine opendir_of_visited h0 (fun l hl hdir => ?_) (ht.dir hsome)
    rw [isDir_iff] at hdir ⊢
    rw [houtside (hway hsome l hl), hdir]
  · obtain ⟨hji, hj⟩ := Finset.mem_erase.mp hj
    obtain ⟨hlt, c, hget⟩ := ht.file j hj
    refine ⟨hlt, c, (houtside fun hsuf => hji ?_).trans hget⟩
    exact (to_string_inj (List.cons.inj (hsuf.eq_of_length rfl)).1).symm
  · obtain ⟨j, hj, rfl⟩ := ht.name n c (Rm_get hget) hstoi
    refine ⟨j, Finset.mem_erase.mpr ⟨?_, hj⟩, rfl⟩
    rintro rfl
    change FileSystem.get (Rm t.fs cwd (buildChunkPath tmp_path username md5 j)).1 _ = _ at hget
    rw [ht.Rm_chunk h0 hj, get_erase_self] at hget
    exact nomatch hget

/-- The file that `saveChunkContent` may put into the task directory is the chunk. -/
theorem saveChunkContent_files {fs : FS Bytes} {content : Bytes} {i : Nat} {n : Name} {c : Bytes}
    (hget : FileSystem.get (saveChunkContent tmp_path cwd username md5 fs content i).1
      (n :: taskDir tmp_path cwd username md5) = some (.file c)) :
    n = to_string i ∨ FileSystem.get fs (n :: taskDir tmp_path cwd username md5) = some (.file c) := by
  by_cases hn : n = to_string i
  · exact .inl hn
  refine .inr ?_
  obtain ⟨fs', l, hadds, hopen, hcall⟩ | ⟨hadds, -⟩ :=
    saveChunkContent_cases tmp_path cwd username md5 fs content i
  · obtain rfl := openWrite_chunk h0 hopen
    rw [hcall] at hget
    simp only at hget
    rw [get_insert_ne _ _ (by simpa using hn)] at hget
    exact hadds.file_iff.mp hget
  · exact hadds.file_iff.mp hget

/-- So it is with `saveChunk`. -/
theorem saveChunk_files {fs : FS Bytes} {tmp_file_path : Str} {i : Nat} {n : Name} {c : Bytes}
    (hget : FileSystem.get (saveChunk tmp_path cwd username md5 fs tmp_file_path i).1
      (n :: taskDir tmp_path cwd username md5) = some (.file c)) :
    n = to_string i ∨ FileSystem.get fs (n :: taskDir tmp_path cwd username md5) = some (.file c) := by
  by_cases hn : n = to_string i
  · exact .inl hn
  refine .inr ((Mkdir_adds fs cwd (buildTaskPath tmp_path username md5)).file_iff.mp ?_)
  rcases saveChunk_cases tmp_path cwd username md5 fs tmp_file_path i with
    ⟨fs', hren, hcall⟩ | ⟨hcall, -⟩
  · rw [hcall] at hget
    obtain ⟨r, hr, -, hother, -⟩ := get_rename hren
    obtain rfl := locate_chunk h0 hr
    refine Rm_get (hother _ _ (fun hsuf => hn ?_) hget)
    exact (List.cons.inj (hsuf.eq_of_length rfl)).1.symm
  · rw [hcall] at hget
    exact Rm_get hget

/-! ### The steps -/

theorem Booked.content {t : Progress} (ht : Booked tmp_path cwd username md5 t) (content : Bytes)
    (i : Fin (2 ^ 31)) :
    let r := saveChunkContent tmp_path cwd username md5 t.fs content i
    Booked tmp_path cwd username md5 ⟨r.1, if r.2 then insert (i : Nat) t.saved else t.saved⟩ := by
  obtain ⟨fs', l, hadds, hopen, hcall⟩ | ⟨hadds, hrefused⟩ :=
    saveChunkContent_cases tmp_path cwd username md5 t.fs content i
  · simp only [hcall, if_true]
    exact (ht.adds h0 hadds).insert_chunk h0 hopen content
  · simp only [hrefused, Bool.false_eq_true, if_false]
    exact ht.adds h0 hadds

/-- A chunk that is saved can be written again. -/
theorem Booked.content_accepted {t : Progress} (ht : Booked tmp_path cwd username md5 t) {i : Nat}
    (hi : i ∈ t.saved) {content : Bytes} (hne : content ≠ []) :
    (saveChunkContent tmp_path cwd username md5 t.fs content i).2 = true := by
  obtain ⟨-, c, hget⟩ := ht.file i hi
  have hnot : isDir t.fs (to_string i :: taskDir tmp_path cwd username md5) = false := by
    rw [isDir, hget]
  have hopen := openWrite_chunk_of_opendir h0 (ht.dir ⟨i, hi⟩) hnot
  rw [saveChunkContent, if_neg hne, OpenForWrite, hopen]

/-- A regular file that is no chunk becomes one, or nothing is renamed. -/
theorem Booked.renamed {fs : FS Bytes} {saved : Finset Nat} {i : Fin (2 ^ 31)} {tmp_file_path : Str}
    {l : Loc} {c : Bytes} (ht : Booked tmp_path cwd username md5 ⟨fs, saved⟩)
    (hsrc : openWrite fs cwd tmp_file_path = some l) (hget : FileSystem.get fs l = some (.file c))
    (hl : ¬ Progress.IsChunk tmp_path cwd username md5 ⟨fs, saved⟩ l) {fs' : FS Bytes}
    (h : rename fs cwd tmp_file_path (buildChunkPath tmp_path username md5 i) = some fs') :
    Booked tmp_path cwd username md5 ⟨fs', insert (i : Nat) saved⟩ := by
  rw [rename_file hsrc hget, Option.map_eq_some_iff] at h
  obtain ⟨dst, hdst, h⟩ := h
  have hchunk := openWrite_chunk h0 hdst
  have hne : l ≠ dst := by
    rintro rfl
    obtain ⟨j, hj, hji⟩ := ht.name _ c (hchunk ▸ hget)
      (by rw [stoi_to_string i.isLt]; exact Option.some_ne_none _)
    exact hl ⟨j, hj, hchunk.trans (congrArg (· :: _) hji)⟩
  rw [if_neg hne] at h
  subst h
  exact (ht.erase_file h0 hget hl).insert_chunk h0 (openWrite_erase hget hdst) c

/-- A chunk that is replaced by a regular file is not lost. -/
theorem Booked.replaced {t : Progress} (ht : Booked tmp_path cwd username md5 t) {i : Fin (2 ^ 31)}
    (hi : (i : Nat) ∈ t.saved) {tmp_file_path : Str} {l : Loc} {c : Bytes}
    (hsrc : openWrite (t.fs.erase (to_string i :: taskDir tmp_path cwd username md5)) cwd
      tmp_file_path = some l)
    (hget : FileSystem.get (t.fs.erase (to_string i :: taskDir tmp_path cwd username md5)) l
      = some (.file c)) :
    rename (t.fs.erase (to_string i :: taskDir tmp_path cwd username md5)) cwd tmp_file_path
      (buildChunkPath tmp_path username md5 i) ≠ none := by
  obtain ⟨-, c', hchunk⟩ := ht.file i hi
  have hnot : isDir t.fs (to_string i :: taskDir tmp_path cwd username md5) = false := by
    rw [isDir, hchunk]
  have hopen := openWrite_chunk_of_opendir h0 (ht.dir ⟨i, hi⟩) hnot
  rw [rename_file hsrc hget, openWrite_erase hchunk hopen]
  exact Option.some_ne_none _

theorem Booked.file_save {t : Progress} (ht : Booked tmp_path cwd username md5 t)
    {tmp_file_path : Str} {i : Fin (2 ^ 31)}
    (h : Harmless tmp_path cwd username md5 t (.save (.file tmp_file_path i))) :
    let r := saveChunk tmp_path cwd username md5 t.fs tmp_file_path i
    Booked tmp_path cwd username md5 ⟨r.1, if r.2 then insert (i : Nat) t.saved else t.saved⟩ := by
  obtain ⟨hway, hsrc⟩ := h
  have hmade := ht.adds h0 (Mkdir_adds t.fs cwd (buildTaskPath tmp_path username md5))
  have hcleared : Booked tmp_path cwd username md5
      ⟨cleared tmp_path cwd username md5 t.fs i, t.saved.erase i⟩ := hmade.clear h0 hway
  rcases saveChunk_cases tmp_path cwd username md5 t.fs tmp_file_path i with
    ⟨fs', hren, hcall⟩ | ⟨hcall, hlost⟩
  · rcases hsrc with ⟨l, c, hopen, hget, hl⟩ | ⟨_, hnone⟩
    · have hnew := hcleared.renamed h0 hopen hget
        (fun ⟨j, hj, hlj⟩ => hl ⟨j, Finset.mem_of_mem_erase hj, hlj⟩) hren
      have hset : insert (i : Nat) (t.saved.erase i) = insert (i : Nat) t.saved := by
        ext j
        rw [Finset.mem_insert, Finset.mem_insert, Finset.mem_erase]
        tauto
      rw [hset] at hnew
      rw [hcall]
      exact hnew
    · exact nomatch hnone.symm.trans hren
  · have hi : (i : Nat) ∉ t.saved := by
      intro hi
      have hrm := hmade.Rm_chunk h0 hi
      obtain ⟨l, c, hopen, hget, -⟩ | ⟨hi', -⟩ := hsrc
      · rw [cleared, hrm] at hopen hget hlost
        exact hmade.replaced h0 hi hopen hget (hlost rfl)
      · exact hi' hi
    rw [Finset.erase_eq_of_notMem hi] at hcleared
    rw [hcall]
    exact hcleared

theorem Booked.merge {t : Progress} (ht : Booked tmp_path cwd username md5 t) {total_chunks : Nat}
    (h : Harmless tmp_path cwd username md5 t (.mergeChunks total_chunks)) :
    Booked tmp_path cwd username md5
      ⟨(mergeChunks tmp_path cwd username md5 back t.fs total_chunks).1, t.saved⟩ := by
  obtain hfs | ⟨hready, l, c, hopen, hfs⟩ :=
    mergeChunks_cases tmp_path cwd username md5 back t.fs total_chunks
  · rw [hfs]
    exact ht
  · rw [hfs]
    refine ht.insert_file h0 hopen ht.dir subset_rfl (fun i hi => .inl hi) (fun n hn hstoi => ?_) c
    obtain ⟨i, hi, heq⟩ := h hready n (hn ▸ hopen) hstoi
    exact ⟨i, hi, (List.cons.inj heq).1⟩

theorem Booked.step {t : Progress} (ht : Booked tmp_path cwd username md5 t) {a : Action}
    (h : Harmless tmp_path cwd username md5 t a) :
    Booked tmp_path cwd username md5 (advance tmp_path cwd username md5 back t a) := by
  cases a with
  | save a =>
    cases a with
    | content content i => exact ht.content h0 content i
    | file tmp_file_path i => exact ht.file_save h0 h
  | mergeChunks total_chunks => exact ht.merge h0 h
  | uploadBigFile => exact ht
  | transaction => exact ht

theorem Booked.kept {t : Progress} (ht : Booked tmp_path cwd username md5 t) :
    Kept tmp_path cwd username md5 t := by
  refine ⟨?_, ht.mem_getUploadedChunks h0, fun i hi content hne => ?_⟩
  · have hle := sorted_GetIndices t.fs cwd (buildTaskPath tmp_path username md5)
    exact (hle.and (ht.nodup_getUploadedChunks h0)).imp fun h => lt_of_le_of_ne h.1 h.2
  · have hok := ht.content_accepted h0 hi hne
    have hnext := ht.content h0 content ⟨i, (ht.file i hi).1⟩
    simp only [hok, if_true, Finset.insert_eq_of_mem hi] at hnext
    exact ⟨hok, (hnext.isAllChunksReady_iff h0).mpr rfl⟩

/-- **The indices of the saved chunks are kept** in every run whose steps are harmless. -/
theorem kept_throughout (back : Bytes → Bytes) {t : Progress} {actions : List Action}
    (ht : Unbegun tmp_path cwd username md5 t)
    (h : Transition.Along (fun t a => some (advance tmp_path cwd username md5 back t a))
      (Harmless tmp_path cwd username md5) t actions) :
    Transition.Throughout (fun t a => some (advance tmp_path cwd username md5 back t a))
      (Kept tmp_path cwd username md5) t actions := by
  refine Transition.Along.throughout (I := Booked tmp_path cwd username md5) ?_
    (fun _ ht => ht.kept h0) (booked_of_unbegun ht) h
  intro t a t' ht hC heq
  cases heq
  exact ht.step h0 hC

end

/-! ### Merges that are harmless -/

/-- The merged file is named after the checksum when that is one path component. -/
theorem openWrite_merged (h0 : '\x00' ∉ buildTaskPath tmp_path username md5) (hmd5 : Plain md5)
    {fs : FS Bytes} {l : Loc}
    (h : openWrite fs cwd (mergedFilePath tmp_path username md5) = some l) :
    l = md5 :: taskDir tmp_path cwd username md5 := by
  obtain ⟨-, hslash, hnul⟩ := hmd5
  rw [openWrite, mergedFilePath, locate_append buildTaskPath_ne_nil h0 hnul hslash,
    Option.bind_map, Option.bind_eq_some_iff] at h
  obtain ⟨l', hwalk, h⟩ := h
  simp only [Function.comp_apply] at h
  split_ifs at h
  rw [walk_eq_normal hwalk] at h
  exact (Option.some.inj h).symm

/-- **A checksum that is one component and is not read as an index** makes every merge
harmless. -/
theorem harmless_merge (h0 : '\x00' ∉ buildTaskPath tmp_path username md5) (hmd5 : Plain md5)
    (hstoi : stoi md5 = none) (t : Progress) (total_chunks : Nat) :
    Harmless tmp_path cwd username md5 t (.mergeChunks total_chunks) := by
  intro _ n hopen hn
  obtain rfl := (List.cons.inj (openWrite_merged h0 hmd5 hopen)).1
  exact absurd hstoi hn

/-! ### Completions that fail -/

def noProgress : Progress := ⟨∅, ∅⟩

theorem unbegun_noProgress : Unbegun tmp_path cwd username md5 noProgress := by
  refine ⟨fun n c h => ?_, rfl⟩
  rw [noProgress, get_cons, AList.lookup_empty] at h
  exact nomatch h

attribute [local instance] neZero_index

/-- Both chunks are saved and merged, FastDFS fails, a chunk is saved again, and the
transaction fails. -/
def failedCompletions : List Action :=
  [.save (.content [1] 0), .save (.content [2] 1), .mergeChunks 2, .uploadBigFile,
    .save (.content [1] 0), .mergeChunks 2, .uploadBigFile, .transaction]

theorem kept_throughout_failedCompletions :
    Transition.Throughout (fun t a => some (advance ['t'] [] ['u'] ['d', '9'] id t a))
      (Kept ['t'] [] ['u'] ['d', '9']) noProgress failedCompletions := by
  have hmerge : ∀ t total_chunks, Harmless ['t'] [] ['u'] ['d', '9'] t (.mergeChunks total_chunks) :=
    harmless_merge (by decide) (by unfold Plain; decide) (by decide)
  refine kept_throughout (by decide) id unbegun_noProgress (Transition.Along.mono
    (C := fun _ a => ∀ t, Harmless ['t'] [] ['u'] ['d', '9'] t a) (fun t a h => h t)
    (Transition.Along.of_forall fun a ha => ?_))
  simp only [failedCompletions, List.mem_cons, List.not_mem_nil, or_false] at ha
  obtain rfl | rfl | rfl | rfl | rfl | rfl | rfl | rfl := ha
  case inr.inr.inl => exact fun t => hmerge t 2
  case inr.inr.inr.inr.inr.inl => exact fun t => hmerge t 2
  all_goals exact fun _ => trivial

def digest : Str := "9e107d9d372bb6826bd81d3542a419d6".toList

/-- **After a failed upload the merged file counts as chunk 9.** -/
theorem digest_not_kept :
    Unbegun ['t'] [] ['u'] digest noProgress
      ∧ ¬ Transition.Throughout (fun t a => some (advance ['t'] [] ['u'] digest id t a))
        (Kept ['t'] [] ['u'] digest) noProgress
        [.save (.content [1] 0), .mergeChunks 1, .uploadBigFile] := by
  refine ⟨unbegun_noProgress, fun h => ?_⟩
  have hlast := ((h.2 _ rfl).2 _ rfl).2 _ rfl
  have hnine := (hlast.indices 9).mp (by decide +kernel)
  exact absurd hnine (by decide +kernel)

end ChunkManager

end FiberServer
