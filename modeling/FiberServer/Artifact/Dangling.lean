import FiberServer.Artifact.Atomicity
import FiberServer.Artifact.References
import FiberServer.Library.Transition

/-!
# Artifacts without a file

* `Linked`: the references of every checksum cover its artifacts.
* `noDangling_throughout`: no artifact loses its file as long as no precheck records an
  artifact without a reference that is left for it.
* `reuse_dangling`: two artifacts of one project with the same checksum.
-/

namespace FiberServer

open Transition (Along Throughout)

variable {env : Env} {fates : Fates} {s s' : Store}

/-- Every artifact has a row in `file_shared` and its file is in FastDFS. -/
def NoDangling (s : Store) : Prop :=
  ∀ a ∈ s.db.artifact_info, a.file_id ∈ s.files.map Prod.fst
    ∧ ∃ sh ∈ s.db.file_shared, sh.file_md5 = a.checksum ∧ sh.file_id = a.file_id ∧ 1 ≤ sh.ref_count

/-- A precheck reuses a checksum of its own project, and the artifacts of the checksum hold
all its references. -/
def Uncounted (env : Env) (s : Store) : Request → Prop
  | .precheck token (some (.object members)) =>
    let m := ArtifactMetadata.FromJson members
    s.db.ReusedBy env token m
      ∧ ∃ sh ∈ s.db.file_shared, sh.file_md5 = m.checksum
        ∧ sh.ref_count ≤ s.db.artifactsOf m.checksum
  | _ => False

/-- The references of a checksum cover its artifacts. -/
structure Linked (env : Env) (s : Store) : Prop extends Filed env s where
  counted : s.db.Counted fun n k => (n : Int) ≤ k

theorem Linked.noDangling (h : Linked env s) : NoDangling s := by
  intro a ha
  obtain ⟨sh, hsh, hmd5, hid⟩ := h.linked a ha
  refine ⟨?_, sh, hsh, hmd5, hid, h.positive sh hsh⟩
  rw [← hid]
  exact (h.taken sh hsh).1

theorem linked_of_empty (h : s.Empty) : Linked env s where
  toFiled := .of_empty h
  counted := fun sh hsh => by simp [h.file_shared] at hsh

theorem Linked.uploads {m : ArtifactMetadata} {r : Option Response}
    (hnew : Function.Injective env.newFileId) (h : Linked env s) (hu : Uploads env s m r s') :
    Linked env s' := by
  refine ⟨h.toFiled.uploads hnew hu, ?_⟩
  cases hu with
  | quiet hq => exact hq.1 ▸ h.counted
  | received file_id ht hr => exact ht.1 ▸ h.counted
  | stored file_id ht howner hfree hfresh hdb =>
    rw [hdb]
    exact h.counted.stored h.toFiled hfresh (by split_ifs <;> decide)

theorem Linked.prechecks {token : Str} {m : ArtifactMetadata} (h : Linked env s)
    (hroom : s.db.ReusedBy env token m → ∀ sh ∈ s.db.file_shared, sh.file_md5 = m.checksum →
      (s.db.artifactsOf m.checksum : Int) < sh.ref_count)
    (hp : Prechecks env s token m s') : Linked env s' := by
  refine ⟨h.toFiled.prechecks hp, ?_⟩
  cases hp with
  | quiet hq => exact hq.1 ▸ h.counted
  | shared sh hq howner hfree howns hsh hdb =>
    rw [hdb]
    refine h.counted.shared fun hnk => ?_
    split_ifs <;> push_cast <;> omega
  | reused sh hq howner hr hsh hdb =>
    rw [hdb]
    intro x hx
    have hbefore := h.counted x hx
    rw [artifactsOf_addArtifact]
    split_ifs with hmd5
    · have hlt := hroom hr x hx hmd5.symm
      rw [show m.checksum = x.file_md5 from hmd5] at hlt
      push_cast
      omega
    · exact hbefore

/-- **A request keeps the artifacts linked** if it takes a reference where it records an
artifact, or one is left. -/
theorem Linked.serve (hnew : Function.Injective env.newFileId) (hsql : SqlOk fates)
    (h : Linked env s) {req : Request} (hcounted : ¬ Uncounted env s req) :
    Linked env (serve env fates req s).2 := by
  cases req with
  | precheck token body =>
    obtain hq | ⟨members, rfl, hp⟩ := precheck_prechecks env s hsql token body
    · exact ⟨h.toFiled.quiet hq, hq.1 ▸ h.counted⟩
    · refine h.prechecks (fun hr sh hsh hmd5 => ?_) hp
      by_contra hfull
      exact hcounted ⟨hr, sh, hsh, hmd5, by omega⟩
  | direct token params body => exact h.uploads hnew (direct_uploads env s hsql token params body)
  | chunk token r =>
    obtain hq | ⟨c, -, hu⟩ := chunk_uploads env s hsql token r
    · exact ⟨h.toFiled.quiet hq, hq.1 ▸ h.counted⟩
    · exact h.uploads hnew hu
  | delete token body =>
    obtain ⟨r, s', hrun, hcases⟩ :=
      DeleteFileServlet.handle_cases env fates s ⟨DeleteFileServlet.path, token⟩ body
    rw [serve_eq hrun]
    obtain ⟨-, rfl, -⟩ | ⟨m, a, d, db, hfinds, hout, hanswers⟩ := hcases
    · exact h
    have ha := hfinds.artifact
    obtain ⟨sh, hsh, hfound, -, -⟩ := h.toFiled.shared (artifact_eq_some ha).1
    have hafter := h.toFiled.refAfter hfound
    have hpos := h.positive sh hsh
    obtain ⟨rfl, rfl⟩ := hout.deleted_of_shared hsql (by omega)
    have hdb : s'.db = s.db.without m a := hanswers.db
    refine ⟨h.toFiled.without h.counted ha hdb hanswers.uploads fun id hid hne => ?_, ?_⟩
    · rw [hanswers.files]
      obtain ⟨f, hf, rfl⟩ := List.mem_map.mp hid
      refine List.mem_map_of_mem (List.mem_filter.mpr ⟨hf, ?_⟩)
      rw [decide_eq_true_iff, DeleteFileServlet.removes]
      split_ifs with hremoved
      · intro heq
        exact hne (by simpa using hremoved.2.1) (Option.some.inj heq)
      · exact Option.some_ne_none _
    · rw [hdb]
      exact h.counted.without h.keyed ha h.positive fun hnk => by push_cast at hnk; omega

/-! ### Runs -/

/-- **No artifact loses its file** in a run from empty tables in which no precheck records
an artifact of a checksum of its own project while the artifacts of the checksum hold all
references. -/
theorem noDangling_throughout (hnew : Function.Injective env.newFileId) (hempty : s.Empty)
    {xs : List (Fates × Request)} (hsql : ∀ x ∈ xs, SqlOk x.1)
    (hcounted : Along (serveStep env) (fun s x => ¬ Uncounted env s x.2) s xs) :
    Throughout (serveStep env) NoDangling s xs := by
  have hguard := (Along.of_forall (C := fun x : Fates × Request => SqlOk x.1) hsql).and hcounted
  refine hguard.throughout (I := Linked env) ?_ (fun s hs => hs.noDangling) (linked_of_empty hempty)
  rintro s x t hs ⟨hok, hx⟩ ht
  obtain rfl := Option.some.inj ht
  exact hs.serve hnew hok hx

/-! ### Two artifacts with one checksum -/

/-- Two projects with tokens. -/
def twoProjects : Store where
  db := ⟨[], [], [], [⟨"p".toList, sampleEnv.sha1 "t".toList, 1⟩,
    ⟨"q".toList, sampleEnv.sha1 "t".toList, 1⟩]⟩
  files := []
  uploads := 0
  fs := ∅

def sampleMembers (project build_no : Str) (key : Str) : Option Value :=
  if key = "project_name".toList then some (.string project)
  else if key = "version".toList then some (.string "1".toList)
  else if key = "build_no".toList then some (.string build_no)
  else if key = "artifact_name".toList then some (.string "a".toList)
  else if key = "checksum".toList then some (.string "c".toList)
  else if key = "size".toList then some (.int64 1)
  else none

/-- The artifact of `sampleUpload` once more, in a project and a build. -/
def samplePrecheck (project build_no : String) : Request :=
  .precheck "t".toList (some (.object (sampleMembers project.toList build_no.toList)))

/-- Delete the artifact of `sampleUpload` in a project and a build. -/
def sampleDelete (project build_no : String) : Request :=
  .delete "t".toList (some (.object (sampleMembers project.toList build_no.toList)))

def allOk : Fates := fun _ _ => .ok

/-- The state after `sampleUpload` and a precheck. -/
def sampleReuse (s : Store) (project build_no : String) : Store :=
  (serve sampleEnv allOk (samplePrecheck project build_no) (serve sampleEnv allOk sampleUpload s).2).2

theorem newFileId_injective : Function.Injective sampleEnv.newFileId := by
  intro m n h
  have hzeros : List.replicate m '0' = List.replicate n '0' := List.append_cancel_left h
  have hlength := congrArg List.length hzeros
  rwa [List.length_replicate, List.length_replicate] at hlength

/-- The second project does not have the checksum of the first. -/
theorem unowned_twoProjects {token : Str} :
    ¬ (serve sampleEnv allOk sampleUpload twoProjects).2.db.ReusedBy sampleEnv token
      (.FromJson (sampleMembers "q".toList "1".toList)) := by
  rintro ⟨-, -, -, f, hf, howner, -⟩
  have hnone : ∀ f ∈ (serve sampleEnv allOk sampleUpload twoProjects).2.db.file_info,
      f.owner ≠ "q".toList := by decide +kernel
  exact hnone f hf (howner.trans (by decide +kernel))

/-- Another project shares the checksum. -/
theorem noDangling_throughout_twoProjects :
    Throughout (serveStep sampleEnv) NoDangling twoProjects
      [(allOk, sampleUpload), (allOk, samplePrecheck "q" "1"), (allOk, sampleDelete "p" "1")] := by
  refine noDangling_throughout newFileId_injective ⟨rfl, rfl, rfl, rfl⟩ (fun x hx => ?_) ?_
  · simp only [List.mem_cons, List.not_mem_nil, or_false] at hx
    rcases hx with rfl | rfl | rfl <;> exact fun _ _ _ => rfl
  exact .cons id rfl (.cons (fun h => unowned_twoProjects h.1) rfl (.cons id rfl .nil))

/-- One project has the checksum twice; with one of the artifacts goes the file of both. -/
theorem reuse_dangling :
    ¬ Throughout (serveStep sampleEnv) NoDangling sampleStore
      [(allOk, sampleUpload), (allOk, samplePrecheck "p" "2"), (allOk, sampleDelete "p" "1")] := by
  intro h
  have hlast := ((h.2 _ rfl).2 _ rfl).2 _ rfl
  have hrows : ∃ a ∈ (serve sampleEnv allOk (sampleDelete "p" "1")
        (sampleReuse sampleStore "p" "2")).2.db.artifact_info,
      a.file_id ∉ (serve sampleEnv allOk (sampleDelete "p" "1")
        (sampleReuse sampleStore "p" "2")).2.files.map Prod.fst := by decide +kernel
  obtain ⟨a, ha, hfile⟩ := hrows
  exact hfile (hlast a ha).1

end FiberServer
