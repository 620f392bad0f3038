import FiberServer.Artifact.Servlets
import FiberServer.Chunk.ChunkManager
import FiberServer.Library.Paths

/-!
# Where the task directories are

`buildTaskPath` puts the project and the checksum of a request behind the temporary
root as they are.

* `isolated_iff`: two uploads stay below the temporary root, in directories of their
  own, exactly when what is left of `project_name/checksum` without detours goes down
  below the root and is not the same for both.
* `isolated_of_plain`: so it is for names that are single components.
* `rmTask_outside`: `Rm` of a confined task directory leaves everything that is not
  below the temporary root.
* `parent_not_isolated`: the project `..`, and a slash on either side.
-/

namespace FiberServer

open FileSystem FSUtil

namespace ChunkManager

/-- What `ChunkUploadServlet` demands of a project and a checksum. -/
structure Upload where
  project_name : Str
  checksum : Str
  project_name_ne : project_name ≠ []
  checksum_ne : checksum ≠ []
  deriving DecidableEq

section

variable (tmp_path : Str) (cwd : Loc)

/-- The directory that the task paths continue. -/
def tmpRoot : Loc := resolve cwd (tmp_path ++ ['/'])

/-- Where the task directory is. -/
def Upload.dir (u : Upload) : Loc :=
  resolve cwd (buildTaskPath tmp_path u.project_name u.checksum)

/-- Where a chunk is. -/
def Upload.chunk (u : Upload) (chunk_index : Int) : Loc :=
  resolve cwd (buildChunkPath tmp_path u.project_name u.checksum chunk_index)

/-- The task directory and the chunks are strictly below the temporary root. -/
def Confined (u : Upload) : Prop :=
  Below (tmpRoot tmp_path cwd) (u.dir tmp_path cwd)
    ∧ ∀ chunk_index : Int, 0 ≤ chunk_index →
      Below (tmpRoot tmp_path cwd) (u.chunk tmp_path cwd chunk_index)

/-- Both uploads are confined, and they do not share their directory. -/
structure Isolated (u u' : Upload) : Prop where
  left : Confined tmp_path cwd u
  right : Confined tmp_path cwd u'
  apart : u ≠ u' → u.dir tmp_path cwd ≠ u'.dir tmp_path cwd

/-- The names below the temporary root that are left of `project_name/checksum`, which
a NUL ends, when `""`, `.` and every name with its `..` are gone; `none` when it goes
up and does not come back. -/
def Upload.inside (u : Upload) : Option Loc :=
  (reduce (parts (u.project_name ++ '/' :: u.checksum))).inside (tmpRoot tmp_path cwd)

/-- At least one name is left. -/
def Upload.GoesDown (u : Upload) : Prop :=
  u.inside tmp_path cwd ≠ none ∧ u.inside tmp_path cwd ≠ some []

end

variable {tmp_path : Str} {cwd : Loc} {u u' : Upload}

theorem dir_eq_iff (h0 : '\x00' ∉ tmp_path) {ns : Loc} :
    u.dir tmp_path cwd = ns ++ tmpRoot tmp_path cwd ↔ u.inside tmp_path cwd = some ns :=
  resolve_below_iff h0

/-- A task path under a root with a NUL leads to the root. -/
theorem dir_of_nul (h0 : '\x00' ∈ tmp_path) : u.dir tmp_path cwd = tmpRoot tmp_path cwd := by
  rw [Upload.dir, buildTaskPath, resolve_of_nul h0, tmpRoot, resolve_of_nul h0]

theorem below_dir_iff :
    Below (tmpRoot tmp_path cwd) (u.dir tmp_path cwd)
      ↔ '\x00' ∉ tmp_path ∧ u.GoesDown tmp_path cwd := by
  by_cases h0 : '\x00' ∈ tmp_path
  · refine iff_of_false ?_ fun h => h.1 h0
    rintro ⟨ns, hns, h⟩
    rw [dir_of_nul h0] at h
    exact hns (List.self_eq_append_left.mp h)
  constructor
  · rintro ⟨ns, hns, h⟩
    rw [dir_eq_iff h0] at h
    refine ⟨h0, ?_, ?_⟩ <;> rw [h]
    · exact Option.some_ne_none ns
    · simpa using hns
  · rintro ⟨-, hsome, hne⟩
    obtain ⟨ns, hns⟩ := Option.ne_none_iff_exists'.mp hsome
    refine ⟨ns, ?_, (dir_eq_iff h0).mpr hns⟩
    rintro rfl
    exact hne hns

/-! ### Chunks -/

/-- A chunk is in the task directory; behind a NUL its path is that of the directory. -/
theorem chunk_eq (u : Upload) (i : Nat) :
    u.chunk tmp_path cwd i = u.dir tmp_path cwd
      ∨ u.chunk tmp_path cwd i = to_string i :: u.dir tmp_path cwd := by
  by_cases h0 : '\x00' ∈ buildTaskPath tmp_path u.project_name u.checksum
  · exact .inl (resolve_of_nul h0)
  · exact .inr (resolve_plain buildTaskPath_ne_nil h0 (plain_to_string i))

theorem confined_iff :
    Confined tmp_path cwd u ↔ '\x00' ∉ tmp_path ∧ u.GoesDown tmp_path cwd := by
  rw [Confined, below_dir_iff, and_iff_left_iff_imp]
  intro h chunk_index hindex
  obtain ⟨ns, hns, hdir⟩ := below_dir_iff.mpr h
  obtain ⟨i, rfl⟩ := Int.eq_ofNat_of_zero_le hindex
  have hchunk : u.chunk tmp_path cwd i = u.dir tmp_path cwd
      ∨ u.chunk tmp_path cwd i = to_string i :: u.dir tmp_path cwd := chunk_eq u i
  obtain heq | heq := hchunk
  · exact ⟨ns, hns, heq.trans hdir⟩
  · exact ⟨to_string i :: ns, List.cons_ne_nil _ _, heq.trans (congrArg _ hdir)⟩

/-- Confined uploads share their directory when the same names are left of them. -/
theorem dir_eq_dir_iff (hu : Confined tmp_path cwd u) :
    u.dir tmp_path cwd = u'.dir tmp_path cwd ↔ u.inside tmp_path cwd = u'.inside tmp_path cwd := by
  obtain ⟨h0, -⟩ := confined_iff.mp hu
  obtain ⟨ns, -, hdir⟩ := hu.1
  rw [(dir_eq_iff h0).mp hdir, hdir]
  exact ⟨fun h => ((dir_eq_iff h0).mp h.symm).symm, fun h => ((dir_eq_iff h0).mpr h.symm).symm⟩

theorem isolated_of_goesDown (h0 : '\x00' ∉ tmp_path) (hu : u.GoesDown tmp_path cwd)
    (hu' : u'.GoesDown tmp_path cwd)
    (hapart : u ≠ u' → u.inside tmp_path cwd ≠ u'.inside tmp_path cwd) :
    Isolated tmp_path cwd u u' := by
  have hconf : Confined tmp_path cwd u := confined_iff.mpr ⟨h0, hu⟩
  have hconf' : Confined tmp_path cwd u' := confined_iff.mpr ⟨h0, hu'⟩
  exact ⟨hconf, hconf', fun hne h => hapart hne ((dir_eq_dir_iff hconf).mp h)⟩

/-- **Isolation.** -/
theorem isolated_iff (tmp_path : Str) (cwd : Loc) (u u' : Upload) :
    Isolated tmp_path cwd u u'
      ↔ '\x00' ∉ tmp_path ∧ u.GoesDown tmp_path cwd ∧ u'.GoesDown tmp_path cwd
        ∧ (u ≠ u' → u.inside tmp_path cwd ≠ u'.inside tmp_path cwd) := by
  constructor
  · rintro ⟨hu, hu', hapart⟩
    obtain ⟨h0, hdown⟩ := confined_iff.mp hu
    obtain ⟨-, hdown'⟩ := confined_iff.mp hu'
    exact ⟨h0, hdown, hdown', fun hne h => hapart hne ((dir_eq_dir_iff hu).mpr h)⟩
  · rintro ⟨h0, hdown, hdown', hapart⟩
    exact isolated_of_goesDown h0 hdown hdown' hapart

/-! ### Names that are single components -/

theorem inside_of_plain (hp : Plain u.project_name) (hc : Plain u.checksum) :
    u.inside tmp_path cwd = some [u.checksum, u.project_name] := by
  have hcstr : cstr (u.project_name ++ '/' :: u.checksum) = u.project_name ++ '/' :: u.checksum := by
    refine cstr_eq_self fun hmem => ?_
    rcases List.mem_append.mp hmem with hmem | hmem
    · exact hp.2.2 hmem
    · exact hc.2.2 ((List.mem_cons.mp hmem).resolve_left (by decide))
  rw [Upload.inside, parts, hcstr, List.splitOn_append_cons_self, List.splitOn_eq_singleton hp.2.1,
    List.splitOn_eq_singleton hc.2.1, Route.inside_eq_some]
  simp [reduce, Route.push_plain hp.1, Route.push_plain hc.1]

theorem isolated_of_plain (h0 : '\x00' ∉ tmp_path) (hp : Plain u.project_name)
    (hc : Plain u.checksum) (hp' : Plain u'.project_name) (hc' : Plain u'.checksum) :
    Isolated tmp_path cwd u u' := by
  have hu : u.inside tmp_path cwd = some [u.checksum, u.project_name] := inside_of_plain hp hc
  have hu' : u'.inside tmp_path cwd = some [u'.checksum, u'.project_name] :=
    inside_of_plain hp' hc'
  refine isolated_of_goesDown h0 ?_ ?_ fun hne h => hne ?_
  · simp [Upload.GoesDown, hu]
  · simp [Upload.GoesDown, hu']
  · rw [hu, hu'] at h
    obtain ⟨p, c, _, _⟩ := u
    obtain ⟨p', c', _, _⟩ := u'
    simp_all

/-! ### The removal of a task directory -/

theorem rmTask_outside {fs : FS Bytes} (hu : Confined tmp_path cwd u) {l : Loc}
    (hl : ¬ Below (tmpRoot tmp_path cwd) l) :
    FileSystem.get (Rm fs cwd (buildTaskPath tmp_path u.project_name u.checksum)).1 l
      = FileSystem.get fs l := by
  refine Rm_outside ?_
  rintro ⟨ms, rfl⟩
  obtain ⟨ns, hns, hdir⟩ := hu.1
  refine hl ⟨ms ++ ns, by simp [hns], ?_⟩
  rw [List.append_assoc, ← hdir]
  rfl

/-! ### Two dots and slashes -/

/-- A first and only chunk of this project and this checksum. -/
def chunkOf (project_name checksum : Str) : ChunkRequest where
  param key :=
    if key = "project_name".toList then project_name
    else if key = "checksum".toList then checksum
    else if key = "artifact_type".toList then "bin".toList
    else if key = "size".toList then "1".toList
    else if key = "chunk_index".toList then "0".toList
    else if key = "total_chunks".toList then "1".toList
    else []
  file_path := []
  meta_header := none
  body := [0]

/-- The metadata of the chunk pass the checks of the servlet. -/
def Accepts (r : ChunkRequest) (u : Upload) : Prop :=
  ∃ c, ChunkUploadServlet.chunkMeta r = some c
    ∧ c.request_meta.owner = u.project_name ∧ c.request_meta.checksum = u.checksum
    ∧ ¬ (c.request_meta.owner = [] ∨ c.request_meta.checksum = [] ∨ c.request_meta.size ≤ 0
      ∨ c.chunk_index < 0 ∨ c.request_meta.type = [] ∨ c.total_chunks ≤ 0)

instance (r : ChunkRequest) (u : Upload) : Decidable (Accepts r u) :=
  match h : ChunkUploadServlet.chunkMeta r with
  | none => isFalse fun ⟨_, hc, _⟩ => nomatch h.symm.trans hc
  | some c =>
    decidable_of_iff
      (c.request_meta.owner = u.project_name ∧ c.request_meta.checksum = u.checksum
        ∧ ¬ (c.request_meta.owner = [] ∨ c.request_meta.checksum = [] ∨ c.request_meta.size ≤ 0
          ∨ c.chunk_index < 0 ∨ c.request_meta.type = [] ∨ c.total_chunks ≤ 0))
      ⟨fun hc => ⟨c, h, hc⟩, fun ⟨_, hc, hrest⟩ => Option.some.inj (h.symm.trans hc) ▸ hrest⟩

def parentUpload : Upload := ⟨"..".toList, "x".toList, by decide, by decide⟩

def leftUpload : Upload := ⟨"a/b".toList, "c".toList, by decide, by decide⟩

def rightUpload : Upload := ⟨"a".toList, "b/c".toList, by decide, by decide⟩

/-- The project `..` leaves the temporary root; `a/b` with `c` and `a` with `b/c` share
a directory below it. -/
theorem parent_not_isolated :
    Accepts (chunkOf "..".toList "x".toList) parentUpload
      ∧ Accepts (chunkOf "a/b".toList "c".toList) leftUpload
      ∧ Accepts (chunkOf "a".toList "b/c".toList) rightUpload
      ∧ ¬ Confined "/var/data/tmp_uploads".toList [] parentUpload
      ∧ leftUpload ≠ rightUpload
      ∧ leftUpload.dir "/var/data/tmp_uploads".toList [] = rightUpload.dir "/var/data/tmp_uploads".toList []
      ∧ ¬ Isolated "/var/data/tmp_uploads".toList [] leftUpload rightUpload
      ∧ ¬ Isolated "/var/data/tmp_uploads".toList [] parentUpload leftUpload := by
  have hparent : ¬ Confined "/var/data/tmp_uploads".toList [] parentUpload := by
    rintro ⟨⟨ns, hns, hdir⟩, -⟩
    have hlength := congrArg List.length hdir
    have hroot : (tmpRoot "/var/data/tmp_uploads".toList []).length = 3 := by decide +kernel
    have hup : (parentUpload.dir "/var/data/tmp_uploads".toList []).length = 3 := by decide +kernel
    rw [List.length_append, hroot, hup] at hlength
    exact hns (List.eq_nil_of_length_eq_zero (by omega))
  have hne : leftUpload ≠ rightUpload := by decide
  have hshare : leftUpload.dir "/var/data/tmp_uploads".toList []
      = rightUpload.dir "/var/data/tmp_uploads".toList [] := by decide +kernel
  exact ⟨by decide +kernel, by decide +kernel, by decide +kernel, hparent, hne, hshare,
    fun h => h.apart hne hshare, fun h => hparent h.left⟩

end ChunkManager

end FiberServer
