import FiberServer.Chunk.ChunkManager

/-!
# What `mergeChunks` returns

`mergeChunks` compares the number of indices in the task directory with
`total_chunks` and writes the merged file under the checksum into the same
directory.  Neither the indices themselves nor the name of the merged file is
checked.

* `merged_iff`: the merged file is the upload exactly when the saved indices are
  the expected ones and the merged file is not written over a chunk.
* `mergeChunks_gap`: chunks 0 and 5 are merged as an upload of two chunks.
-/

namespace FiberServer

open FileSystem FSUtil

namespace ChunkManager

variable {tmp_path : Str} {cwd : Loc} {username md5 : Str}

/-- The concatenation of the saved contents of the chunks below `n`. -/
def Task.concat (t : Task) (n : Nat) : Bytes :=
  (List.range n).flatMap fun i => (t.saved i).getD []

/-- The saved indices are `0..total_chunks-1`. -/
def Task.Complete (t : Task) (total_chunks : Nat) : Prop :=
  ∀ i, (t.saved i).isSome ↔ i < total_chunks

section

variable (tmp_path : Str) (cwd : Loc) (username md5 : Str)

/-- If `mergeChunks` returns a path, the chunks are complete and the file there is
their concatenation. -/
def MergedIsUpload (back : Bytes → Bytes) (t : Task) (total_chunks : Nat) : Prop :=
  let r := mergeChunks tmp_path cwd username md5 back t.fs total_chunks
  r.2 ≠ [] → t.Complete total_chunks
    ∧ fileContent r.1 cwd r.2 = some (t.concat total_chunks)

/-- The merged file is written over chunk `i`. -/
def Overwrites (t : Task) (i : Nat) : Prop :=
  openWrite t.fs cwd (mergedFilePath tmp_path username md5)
    = openWrite t.fs cwd (buildChunkPath tmp_path username md5 i)

/-- When the number of chunks is right and the merged file can be opened, the
chunks are complete and the merged file is not written over a chunk (or what is
read back from it happens to be that chunk). -/
def MergeAllowed (back : Bytes → Bytes) (t : Task) (total_chunks : Nat) : Prop :=
  isAllChunksReady tmp_path cwd username md5 t.fs total_chunks →
    (openWrite t.fs cwd (mergedFilePath tmp_path username md5)).isSome →
      t.Complete total_chunks ∧ ∀ i < total_chunks, Overwrites tmp_path cwd username md5 t i →
        t.saved i = some (back (t.concat i))

end

/-! ### Concatenation with one part read back -/

/-- Replacing at most one part of a concatenation changes it unless the part is
replaced by itself. -/
theorem foldl_back_iff {c : Nat → Bytes} {back : Bytes → Bytes} {P : Nat → Prop}
    [DecidablePred P] (hP : ∀ i j, P i → P j → i = j) (n : Nat) :
    (List.range n).foldl (fun out i => out ++ if P i then back out else c i) []
        = (List.range n).flatMap c
      ↔ ∀ i < n, P i → c i = back ((List.range i).flatMap c) := by
  induction n with
  | zero => simp
  | succ n ih =>
    rw [List.range_succ, List.foldl_append, List.flatMap_append]
    simp only [List.foldl_cons, List.foldl_nil, List.flatMap_cons, List.flatMap_nil,
      List.append_nil]
    by_cases hn : P n
    · -- no part before the last one is replaced
      have hbefore : (List.range n).foldl (fun out i => out ++ if P i then back out else c i) []
          = (List.range n).flatMap c := by
        rw [ih]
        intro i hi hPi
        exact absurd (hP i n hPi hn) (by omega)
      rw [if_pos hn, hbefore, List.append_cancel_left_eq]
      constructor
      · intro heq i hi hPi
        obtain rfl := hP i n hPi hn
        exact heq.symm
      · intro h
        exact (h n (Nat.lt_succ_self n) hn).symm
    · rw [if_neg hn, List.append_cancel_right_eq, ih]
      constructor
      · intro h i hi hPi
        rcases Nat.lt_succ_iff_lt_or_eq.mp hi with hlt | rfl
        · exact h i hlt hPi
        · exact absurd hPi hn
      · intro h i hi hPi
        exact h i (by omega) hPi

/-! ### The task directory -/

theorem opendir_taskPath (h0 : '\x00' ∉ buildTaskPath tmp_path username md5) {fs : FS Bytes} :
    opendir fs cwd (buildTaskPath tmp_path username md5)
      = walk fs (start cwd (buildTaskPath tmp_path username md5))
          ((buildTaskPath tmp_path username md5).splitOn '/') := by
  have hcstr := cstr_eq_self h0
  rw [opendir_eq_walk (by rw [hcstr]; exact buildTaskPath_ne_nil), hcstr]

theorem opendir_taskDir (h0 : '\x00' ∉ buildTaskPath tmp_path username md5) {fs : FS Bytes}
    {l : Loc} (h : opendir fs cwd (buildTaskPath tmp_path username md5) = some l) :
    l = taskDir tmp_path cwd username md5 := by
  rw [opendir_taskPath h0] at h
  exact walk_eq_normal h

/-- In the task directory a chunk can be opened unless a directory has its name. -/
theorem openWrite_chunk_of_opendir (h0 : '\x00' ∉ buildTaskPath tmp_path username md5)
    {fs : FS Bytes} {i : Nat}
    (hdir : opendir fs cwd (buildTaskPath tmp_path username md5)
      = some (taskDir tmp_path cwd username md5))
    (hnot : isDir fs (to_string i :: taskDir tmp_path cwd username md5) = false) :
    openWrite fs cwd (buildChunkPath tmp_path username md5 i)
      = some (to_string i :: taskDir tmp_path cwd username md5) := by
  rw [opendir_taskPath h0] at hdir
  rw [openWrite, buildChunkPath, locate_append buildTaskPath_ne_nil h0
    (not_mem_to_string (by decide)) (not_mem_to_string (by decide)), hdir, Option.map_some,
    Option.bind_some]
  simp only [special_to_string, hnot, Bool.or_false, Bool.false_eq_true, if_false]

/-! ### The indices -/

/-- The indices in the task directory, when it is there. -/
theorem mem_GetIndices {t : Task} (ht : Saved tmp_path cwd username md5 t)
    (hdir : opendir t.fs cwd (buildTaskPath tmp_path username md5)
      = some (taskDir tmp_path cwd username md5)) {x : Int} :
    x ∈ GetIndices t.fs cwd (buildTaskPath tmp_path username md5) ↔
      ∃ (i : Nat) (c : Bytes), x = i ∧ i < 2 ^ 31 ∧ t.saved i = some c ∧
        FileSystem.get t.fs (to_string i :: taskDir tmp_path cwd username md5)
          = some (.file c) := by
  rw [mem_GetIndices_iff hdir]
  constructor
  · rintro ⟨n, c, hget, hx⟩
    obtain ⟨i, hi, rfl, hsaved⟩ := ht n c hget
    rw [stoi_to_string hi, Option.some.injEq] at hx
    exact ⟨i, c, hx.symm, hi, hsaved, hget⟩
  · rintro ⟨i, c, rfl, hi, -, hget⟩
    exact ⟨to_string i, c, hget, stoi_to_string hi⟩

theorem nodup_GetIndices {t : Task} (ht : Saved tmp_path cwd username md5 t)
    (hdir : opendir t.fs cwd (buildTaskPath tmp_path username md5)
      = some (taskDir tmp_path cwd username md5)) :
    (GetIndices t.fs cwd (buildTaskPath tmp_path username md5)).Nodup := by
  refine nodup_GetIndices_of_inj hdir fun n n' c c' x hget hx hget' hx' => ?_
  obtain ⟨i, hi, rfl, -⟩ := ht n c hget
  obtain ⟨j, hj, rfl, -⟩ := ht n' c' hget'
  rw [stoi_to_string hi] at hx
  rw [stoi_to_string hj] at hx'
  have hij : i = j := by exact_mod_cast Option.some.inj (hx.trans hx'.symm)
  rw [hij]

/-- With as many files as chunks, all of them expected, the indices are the
expected ones in their order. -/
theorem GetIndices_eq_range {t : Task} {total_chunks : Nat}
    (ht : Saved tmp_path cwd username md5 t)
    (hdir : opendir t.fs cwd (buildTaskPath tmp_path username md5)
      = some (taskDir tmp_path cwd username md5))
    (hcomplete : t.Complete total_chunks)
    (hlen : (GetIndices t.fs cwd (buildTaskPath tmp_path username md5)).length = total_chunks) :
    GetIndices t.fs cwd (buildTaskPath tmp_path username md5)
      = (List.range total_chunks).map (fun i : Nat => (i : Int)) := by
  have hsub : GetIndices t.fs cwd (buildTaskPath tmp_path username md5)
      ⊆ (List.range total_chunks).map (fun i : Nat => (i : Int)) := by
    intro x hx
    obtain ⟨i, c, rfl, -, hsaved, -⟩ := (mem_GetIndices ht hdir).mp hx
    have hi := (hcomplete i).mp (by rw [hsaved]; rfl)
    exact List.mem_map.mpr ⟨i, List.mem_range.mpr hi, rfl⟩
  have hperm := (List.subperm_of_subset (nodup_GetIndices ht hdir) hsub).perm_of_length_le
    (by rw [hlen]; simp)
  have hrange : ((List.range total_chunks).map (fun i : Nat => (i : Int))).Pairwise (· ≤ ·) := by
    rw [List.pairwise_map]
    exact List.pairwise_le_range.imp fun h => by exact_mod_cast h
  exact hperm.eq_of_pairwise' (sorted_GetIndices _ _ _) hrange

/-! ### Reading the chunks -/

/-- `src_dir` with a slash at its end, as `MergeFiles` makes it. -/
def slashed (src_dir : Str) : Str :=
  if src_dir.getLast? = some '/' then src_dir else src_dir ++ ['/']

/-- The path that `MergeFiles` builds from an index. -/
theorem locate_slashed (h0 : '\x00' ∉ buildTaskPath tmp_path username md5) {fs : FS Bytes} {l : Loc}
    (hwalk : walk fs (start cwd (buildTaskPath tmp_path username md5))
      ((buildTaskPath tmp_path username md5).splitOn '/') = some l) (i : Nat) :
    locate fs cwd (slashed (buildTaskPath tmp_path username md5) ++ to_string i)
      = some (l, to_string i) := by
  have hdigit : ∀ {d : Char}, d.isDigit = false → d ∉ to_string i := not_mem_to_string
  rw [slashed]
  split_ifs with hlast
  · obtain ⟨p, hp⟩ := List.getLast?_eq_some_iff.mp hlast
    have hne : p ≠ [] := by
      rintro rfl
      have hlen := congrArg List.length hp
      simp [buildTaskPath] at hlen
      omega
    have hp0 : '\x00' ∉ p := fun h => h0 (by rw [hp]; exact List.mem_append_left _ h)
    have hstart : start cwd (p ++ ['/']) = start cwd p := by
      cases p with
      | nil => exact absurd rfl hne
      | cons c p => rfl
    rw [hp] at hwalk ⊢
    rw [List.append_assoc, List.singleton_append,
      locate_append hne hp0 (hdigit (by decide)) (hdigit (by decide))]
    rw [hstart, List.splitOn_append_cons_self, List.splitOn_nil, walk_append,
      Option.bind_eq_some_iff] at hwalk
    obtain ⟨l', hl', hwalk⟩ := hwalk
    rw [walk] at hwalk
    split_ifs at hwalk
    cases hwalk
    rw [hl']
    rfl
  · rw [List.append_assoc, List.singleton_append,
      locate_append buildTaskPath_ne_nil h0 (hdigit (by decide)) (hdigit (by decide)), hwalk]
    rfl

theorem MergeFiles_eq {back : Bytes → Bytes} {fs : FS Bytes} {target_path src_dir : Str}
    {indices : List Int} {target : Loc} (h : openWrite fs cwd target_path = some target) :
    MergeFiles back fs cwd target_path src_dir indices =
      let r := copyAll back (fs.insert target (.file [])) cwd target []
        (indices.map fun idx => slashed src_dir ++ to_string idx)
      (fs.insert target (.file r.1), r.2) := by
  rw [MergeFiles, MergePaths, h]
  rfl

/-- A chunk whose index is listed can be read while the merged file is written. -/
theorem openRead_chunk (h0 : '\x00' ∉ buildTaskPath tmp_path username md5) {t : Task}
    (ht : Saved tmp_path cwd username md5 t)
    (hdir : opendir t.fs cwd (buildTaskPath tmp_path username md5)
      = some (taskDir tmp_path cwd username md5)) {M : Loc}
    (hM : openWrite t.fs cwd (mergedFilePath tmp_path username md5) = some M) {x : Int}
    (hx : x ∈ GetIndices t.fs cwd (buildTaskPath tmp_path username md5)) :
    ∃ c, openRead (t.fs.insert M (.file [])) cwd
        (slashed (buildTaskPath tmp_path username md5) ++ to_string x)
          = some (to_string x :: taskDir tmp_path cwd username md5, c)
      ∧ (to_string x :: taskDir tmp_path cwd username md5 ≠ M → c = (t.saved x.toNat).getD []) := by
  obtain ⟨i, c, rfl, -, hsaved, hget⟩ := (mem_GetIndices ht hdir).mp hx
  rw [opendir_taskPath h0] at hdir
  have hwalk := walk_mono (fun l => isDir_insert (x := FileSystem.Node.file []) hM) hdir
  rw [openRead, locate_slashed h0 hwalk, Option.bind_some]
  simp only [push_of_not_special (special_to_string i)]
  by_cases hiM : to_string i :: taskDir tmp_path cwd username md5 = M
  · subst hiM
    rw [get_insert_self]
    exact ⟨[], rfl, fun h => absurd rfl h⟩
  · rw [get_insert_ne _ _ hiM, hget]
    exact ⟨c, rfl, fun _ => by rw [Int.toNat_natCast, hsaved, Option.getD_some]⟩

/-- What `mergeChunks` writes when the number of chunks is right. -/
theorem mergeChunks_eq (h0 : '\x00' ∉ buildTaskPath tmp_path username md5) {t : Task}
    {back : Bytes → Bytes} {total_chunks : Nat} (ht : Saved tmp_path cwd username md5 t)
    (hdir : opendir t.fs cwd (buildTaskPath tmp_path username md5)
      = some (taskDir tmp_path cwd username md5)) {M : Loc}
    (hM : openWrite t.fs cwd (mergedFilePath tmp_path username md5) = some M)
    (hlen : (GetIndices t.fs cwd (buildTaskPath tmp_path username md5)).length = total_chunks) :
    mergeChunks tmp_path cwd username md5 back t.fs total_chunks
      = (t.fs.insert M (.file ((GetIndices t.fs cwd (buildTaskPath tmp_path username md5)).foldl
          (fun out x => out ++ if to_string x :: taskDir tmp_path cwd username md5 = M
            then back out else (t.saved x.toNat).getD []) [])),
        mergedFilePath tmp_path username md5) := by
  have hcopy : copyAll back (t.fs.insert M (.file [])) cwd M []
      ((GetIndices t.fs cwd (buildTaskPath tmp_path username md5)).map fun idx =>
        slashed (buildTaskPath tmp_path username md5) ++ to_string idx) = _ :=
    copyAll_eq fun x hx => openRead_chunk h0 ht hdir hM hx
  rw [mergeChunks, if_neg (not_not.mpr hlen), MergeFiles_eq hM]
  simp only [hcopy, if_true]

/-! ### When the merged file is the upload -/

/-- There is a task directory when a positive number of chunks is ready. -/
theorem opendir_of_ready {fs : FS Bytes} {total_chunks : Nat} (hpos : 0 < total_chunks)
    (hready : (GetIndices fs cwd (buildTaskPath tmp_path username md5)).length = total_chunks) :
    ∃ l, opendir fs cwd (buildTaskPath tmp_path username md5) = some l := by
  cases hdir : opendir fs cwd (buildTaskPath tmp_path username md5) with
  | some l => exact ⟨l, rfl⟩
  | none =>
    rw [GetIndices, hdir] at hready
    exact absurd hready (Nat.ne_of_lt hpos)

/-- `mergeChunks` returns a path only if the number of chunks is right and the
merged file can be opened. -/
theorem ready_of_mergeChunks {fs : FS Bytes} {back : Bytes → Bytes} {total_chunks : Nat}
    (h : (mergeChunks tmp_path cwd username md5 back fs total_chunks).2 ≠ []) :
    (GetIndices fs cwd (buildTaskPath tmp_path username md5)).length = total_chunks
      ∧ ∃ M, openWrite fs cwd (mergedFilePath tmp_path username md5) = some M := by
  rw [mergeChunks] at h
  split_ifs at h with hlen
  · exact absurd rfl h
  refine ⟨not_ne_iff.mp hlen, ?_⟩
  cases hM : openWrite fs cwd (mergedFilePath tmp_path username md5) with
  | some M => exact ⟨M, rfl⟩
  | none =>
    simp only [MergeFiles, MergePaths, hM] at h
    exact absurd rfl h

theorem isAllChunksReady_iff {fs : FS Bytes} {total_chunks : Nat} :
    isAllChunksReady tmp_path cwd username md5 fs total_chunks = true
      ↔ (GetIndices fs cwd (buildTaskPath tmp_path username md5)).length = total_chunks :=
  beq_iff_eq

/-- The merged file is written over a chunk exactly when it is that chunk's file. -/
theorem overwrites_iff (h0 : '\x00' ∉ buildTaskPath tmp_path username md5) {t : Task} {M : Loc}
    (hdir : opendir t.fs cwd (buildTaskPath tmp_path username md5)
      = some (taskDir tmp_path cwd username md5))
    (hM : openWrite t.fs cwd (mergedFilePath tmp_path username md5) = some M) {i : Nat} {c : Bytes}
    (hget : FileSystem.get t.fs (to_string i :: taskDir tmp_path cwd username md5)
      = some (.file c)) :
    Overwrites tmp_path cwd username md5 t i
      ↔ to_string i :: taskDir tmp_path cwd username md5 = M := by
  have hnotDir : isDir t.fs (to_string i :: taskDir tmp_path cwd username md5) = false := by
    rw [isDir, hget]
  rw [Overwrites, hM, openWrite_chunk_of_opendir h0 hdir hnotDir, Option.some.injEq]
  exact eq_comm

/-- The merged file of a complete task is its concatenation exactly when no chunk
is read back as something else. -/
theorem concat_iff {t : Task} {back : Bytes → Bytes} {total_chunks : Nat} {M : Loc}
    (hcomplete : t.Complete total_chunks) :
    ((List.range total_chunks).map (fun i : Nat => (i : Int))).foldl
        (fun out x => out ++ if to_string x :: taskDir tmp_path cwd username md5 = M
          then back out else (t.saved x.toNat).getD []) [] = t.concat total_chunks
      ↔ ∀ i < total_chunks, to_string i :: taskDir tmp_path cwd username md5 = M →
          t.saved i = some (back (t.concat i)) := by
  have hunique : ∀ i j : Nat, to_string i :: taskDir tmp_path cwd username md5 = M →
      to_string j :: taskDir tmp_path cwd username md5 = M → i = j := by
    intro i j hi hj
    exact to_string_inj (List.cons.inj (hi.trans hj.symm)).1
  rw [List.foldl_map]
  simp only [Int.toNat_natCast]
  rw [Task.concat, foldl_back_iff hunique]
  refine forall₂_congr fun i hi => imp_congr_right fun _ => ?_
  obtain ⟨c, hc⟩ := Option.isSome_iff_exists.mp ((hcomplete i).mpr hi)
  rw [hc, Option.getD_some, Option.some.injEq]
  rfl

/-- **The merged file is the upload** exactly when the saved indices are the
expected ones and the merged file is not written over a chunk. -/
theorem merged_iff {back : Bytes → Bytes} {t0 t : Task} {saves : List Save} {total_chunks : Nat}
    (hfresh : Fresh tmp_path cwd username md5 t0)
    (hrun : Transition.exec (step tmp_path cwd username md5) t0 saves = some t)
    (hpos : 0 < total_chunks) :
    MergedIsUpload tmp_path cwd username md5 back t total_chunks
      ↔ MergeAllowed tmp_path cwd username md5 back t total_chunks := by
  by_cases h0 : '\x00' ∈ buildTaskPath tmp_path username md5
  · -- the merged file has the name of the task directory
    have hname : cstr (buildTaskPath tmp_path username md5)
        = cstr (mergedFilePath tmp_path username md5) := (cstr_append_of_mem h0).symm
    have hclosed : (GetIndices t.fs cwd (buildTaskPath tmp_path username md5)).length = total_chunks →
        openWrite t.fs cwd (mergedFilePath tmp_path username md5) = none := by
      intro hlen
      obtain ⟨l, hl⟩ := opendir_of_ready hpos hlen
      exact openWrite_of_opendir hname hl
    constructor
    · intro _ hready hopen
      rw [hclosed (isAllChunksReady_iff.mp hready)] at hopen
      exact nomatch hopen
    · intro _ hr
      obtain ⟨hlen, M, hM⟩ := ready_of_mergeChunks hr
      rw [hclosed hlen] at hM
      exact nomatch hM
  · have ht := saved_reachable h0 hfresh hrun
    have key : ∀ {M : Loc}, openWrite t.fs cwd (mergedFilePath tmp_path username md5) = some M →
        (GetIndices t.fs cwd (buildTaskPath tmp_path username md5)).length = total_chunks →
        t.Complete total_chunks →
        (fileContent (mergeChunks tmp_path cwd username md5 back t.fs total_chunks).1 cwd
            (mergeChunks tmp_path cwd username md5 back t.fs total_chunks).2
              = some (t.concat total_chunks)
          ↔ ∀ i < total_chunks, Overwrites tmp_path cwd username md5 t i →
              t.saved i = some (back (t.concat i))) := by
      intro M hM hlen hcomplete
      obtain ⟨l, hdir⟩ := opendir_of_ready hpos hlen
      obtain rfl := opendir_taskDir h0 hdir
      have hindices := GetIndices_eq_range ht hdir hcomplete hlen
      rw [mergeChunks_eq h0 ht hdir hM hlen, fileContent, stat_insert hM, Option.some.injEq,
        hindices, concat_iff hcomplete]
      refine forall₂_congr fun i hi => imp_congr_left ?_
      have hmem : (i : Int) ∈ GetIndices t.fs cwd (buildTaskPath tmp_path username md5) := by
        rw [hindices]
        exact List.mem_map.mpr ⟨i, List.mem_range.mpr hi, rfl⟩
      obtain ⟨j, c, hij, -, -, hget⟩ := (mem_GetIndices ht hdir).mp hmem
      obtain rfl : i = j := by exact_mod_cast hij
      exact (overwrites_iff h0 hdir hM hget).symm
    constructor
    · intro hup hready hopen
      have hlen := isAllChunksReady_iff.mp hready
      obtain ⟨M, hM⟩ := Option.isSome_iff_exists.mp hopen
      obtain ⟨l, hdir⟩ := opendir_of_ready hpos hlen
      obtain rfl := opendir_taskDir h0 hdir
      have hr : (mergeChunks tmp_path cwd username md5 back t.fs total_chunks).2 ≠ [] := by
        rw [mergeChunks_eq h0 ht hdir hM hlen]
        simp [mergedFilePath]
      obtain ⟨hcomplete, hcontent⟩ := hup hr
      exact ⟨hcomplete, (key hM hlen hcomplete).mp hcontent⟩
    · intro hallowed hr
      obtain ⟨hlen, M, hM⟩ := ready_of_mergeChunks hr
      obtain ⟨hcomplete, hback⟩ := hallowed (isAllChunksReady_iff.mpr hlen) (by rw [hM]; rfl)
      exact ⟨hcomplete, (key hM hlen hcomplete).mpr hback⟩

/-! ### Runs from an empty file system -/

def emptyTask : Task := ⟨∅, fun _ => none⟩

theorem fresh_emptyTask : Fresh tmp_path cwd username md5 emptyTask := by
  refine ⟨fun n c => ?_, fun i => rfl⟩
  rw [emptyTask, get_cons, AList.lookup_empty]
  exact Option.some_ne_none _ ∘ Eq.symm

/-- Two chunks in the other order, the first one saved again. -/
def orderlySaves : List Save := [.content [2] 1, .content [7] 0, .content [1] 0]

theorem merged_iff_orderly : ∃ t,
    Transition.exec (step ['t'] [] ['u'] ['d']) emptyTask orderlySaves = some t
      ∧ (MergedIsUpload ['t'] [] ['u'] ['d'] id t 2
        ↔ MergeAllowed ['t'] [] ['u'] ['d'] id t 2) := by
  have hrun : Transition.exec (step ['t'] [] ['u'] ['d']) emptyTask orderlySaves = some _ := rfl
  exact ⟨_, hrun, merged_iff fresh_emptyTask hrun (by decide)⟩

/-- The first and the sixth chunk. -/
def gapSaves : List Save := [.content [1] 0, .content [2] 5]

/-- **Chunks 0 and 5 are merged as an upload of two chunks.** -/
theorem mergeChunks_gap : ∃ t,
    Fresh ['t'] [] ['u'] ['d'] emptyTask
      ∧ Transition.exec (step ['t'] [] ['u'] ['d']) emptyTask gapSaves = some t
      ∧ ¬ MergedIsUpload ['t'] [] ['u'] ['d'] id t 2 := by
  refine ⟨_, fresh_emptyTask, rfl, fun h => ?_⟩
  have hcomplete := (h (by decide +kernel)).1 5
  exact absurd (hcomplete.mp rfl) (by decide)

end ChunkManager

end FiberServer
