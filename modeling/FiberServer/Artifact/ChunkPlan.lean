import FiberServer.Artifact.Dangling
import FiberServer.Artifact.Numbers
import Mathlib.Order.Bounds.Basic

/-!
# The chunk plan

The precheck answers with the number of chunks of the declared size.  The size of a chunk is a
setting, a `uint64_t` that `getChunkSizes` returns as an `int64_t`.

* `handle_chunk`: the number in every answer with a plan is `totalChunks` of the declared size, and
  that size is larger than a chunk.
* `chunk_plan_iff`: the expression is defined and the number is the least one with enough room if
  and only if the numbers fit (`Fits`).
* `chunk_plan_negative`: a plan with a negative number of chunks.
-/

namespace FiberServer

open TypeUtil (wrap wrap_of_fits wrap_emod)

/-- `ChunkManager::getChunkSizes` for a value of `uploadfiles.chunk_sizes`. -/
def ChunkManager.getChunkSizes (chunk_sizes : UInt64) : Int := wrap 64 chunk_sizes.toNat

namespace UploadServlet

open ChunkManager (getChunkSizes)

/-- `v` is a value of `int64_t`. -/
def IsInt64 (v : Int) : Prop := -2 ^ 63 ≤ v ∧ v < 2 ^ 63

instance (v : Int) : Decidable (IsInt64 v) := inferInstanceAs (Decidable (_ ∧ _))

/-- `(size + chunk_sizes - 1) / chunk_sizes` neither divides by zero nor overflows. -/
structure Defined (size chunk_sizes : Int) : Prop where
  divisor : chunk_sizes ≠ 0
  sum : IsInt64 (size + chunk_sizes)
  dividend : IsInt64 (size + chunk_sizes - 1)
  quotient : IsInt64 ((size + chunk_sizes - 1).tdiv chunk_sizes)

/-- The numbers of chunks with room for the size. -/
def Suffices (size chunk_size : Int) : Set Int := {n | 1 ≤ n ∧ size ≤ n * chunk_size}

/-- A setting below 2 ^ 63: the sum is below 2 ^ 63 and there are less than 2 ^ 31 chunks.  A larger
one is negative, and the quotient is 1 for the size 1 only; other quotients are 1 up to a multiple
of 2 ^ 32. -/
def Fits (size chunk_size : Int) : Prop :=
  (0 < chunk_size ∧ chunk_size < 2 ^ 63 ∧ size + chunk_size < 2 ^ 63
    ∧ size ≤ (2 ^ 31 - 1) * chunk_size)
  ∨ (2 ^ 63 ≤ chunk_size
    ∧ (size = 1 ∨ 2 ^ 64 - chunk_size < size ∧ 2 ^ 32 ∣ (size - 1) / (2 ^ 64 - chunk_size)))

instance (size chunk_size : Int) : Decidable (Fits size chunk_size) :=
  inferInstanceAs (Decidable (_ ∨ _))

/-! ### The answers of the servlet -/

/-- Whatever the operations answer, the program ends with `Q`. -/
abbrev Returns {α : Type} (p : Servlet α) (Q : α → Prop) : Prop :=
  Prog.Safe (fun (_ : Unit) _ => True) (fun _ _ _ _ => True) p (fun _ => Q) ()

theorem Returns.run {α σ : Type} {p : Servlet α} {Q : α → Prop} (h : Returns p Q)
    (step : (op : Op) → σ → op.Answer × σ) (s : σ) : Q (p.run step s).1 := by
  obtain ⟨-, -, hQ⟩ := Prog.Safe.run (h := step) (I := fun _ _ => True)
    (fun t _ _ _ _ => ⟨t, trivial, trivial⟩) h (s := s) trivial
  exact hQ

theorem returns_true {α : Type} (p : Servlet α) : Returns p fun _ => True := by
  induction p with
  | done a => exact trivial
  | call op k ih => exact ⟨trivial, fun x _ _ => ih x⟩

theorem Returns.bind {α β : Type} {p : Servlet α} {f : α → Servlet β} {Q : α → Prop}
    {R : β → Prop} (h : Returns p Q) (hf : ∀ a, Q a → Returns (f a) R) : Returns (p >>= f) R :=
  Prog.Safe.bind h fun a _ ha => hf a ha

theorem RequireArtifactToken_code (access : Access) (owner : Str) :
    Returns (RequireArtifactToken access owner) fun refused =>
      ∀ r, refused = some r → r.code ≠ 2 := by
  have hreply : ∀ msg : String, ∀ r, some (reply (-1) 1 msg) = some r → r.code ≠ 2 := by
    rintro msg r ⟨⟩
    exact (by decide : (1 : Nat) ≠ 2)
  have hnone : ∀ r : Response, (none : Option Response) = some r → r.code ≠ 2 :=
    fun _ h => nomatch h
  rw [RequireArtifactToken]
  refine Prog.safe_ite_iff.mpr ⟨fun _ => hnone, fun _ => ?_⟩
  refine Prog.safe_ite_iff.mpr ⟨fun _ => hreply _, fun _ => ?_⟩
  refine ⟨trivial, fun mysql _ _ => ?_⟩
  refine Prog.safe_ite_iff.mpr ⟨fun _ => hreply _, fun _ => ?_⟩
  refine ⟨trivial, fun valid _ _ => ?_⟩
  exact Prog.safe_ite_iff.mpr ⟨fun _ => hreply _, fun _ => hnone⟩

/-- An answer with the code `chunk` has the number of chunks of a size above `chunk_sizes`. -/
theorem plan_chunk (chunk_sizes : Int) (m : ArtifactMetadata) :
    Returns (plan chunk_sizes m) fun r =>
      r.code = 2 → chunk_sizes < m.size ∧ r.totalChunks = totalChunks m.size chunk_sizes := by
  rw [plan]
  refine ⟨trivial, fun uploadedChunks _ _ => Prog.safe_ite_iff.mpr ⟨fun _ => ?_, fun hsize => ?_⟩⟩
  · intro hcode
    exact absurd hcode (by decide)
  · exact ⟨trivial, fun _ _ _ _ => ⟨Int.not_le.mp hsize, rfl⟩⟩

theorem respond_chunk (chunk_sizes : Int) (m : ArtifactMetadata) (d : Option DbResult) :
    Returns (respond chunk_sizes m d) fun answer => ∀ r, answer = some r →
      r.code = 2 → chunk_sizes < m.size ∧ r.totalChunks = totalChunks m.size chunk_sizes := by
  cases d with
  | none =>
    rintro r ⟨⟩ hcode
    exact absurd hcode (by decide)
  | some d =>
    rw [respond]
    refine Prog.safe_ite_iff.mpr ⟨fun _ => ?_, fun _ => ?_⟩
    · rintro r ⟨⟩ hcode
      exact absurd hcode (by decide : ¬ 0 = 2)
    refine Prog.safe_ite_iff.mpr ⟨fun _ => ?_, fun _ => ?_⟩
    · rintro r ⟨⟩ hcode
      exact absurd hcode (by decide : ¬ 3 = 2)
    refine (plan_chunk chunk_sizes m).bind fun r hr => ?_
    rintro _ ⟨⟩
    exact hr

/-- The number of chunks in an answer is the one of the declared size, which is positive and above
`chunk_sizes`. -/
theorem handle_chunk (chunk_sizes : Int) (access : Access) (members : Str → Option Value) :
    Returns (handle chunk_sizes access (some (.object members))) fun answer =>
      ∀ r, answer = some r → r.code = 2 →
        0 < (ArtifactMetadata.FromJson members).size
        ∧ chunk_sizes < (ArtifactMetadata.FromJson members).size
        ∧ r.totalChunks = totalChunks (ArtifactMetadata.FromJson members).size chunk_sizes := by
  rw [handle]
  generalize ArtifactMetadata.FromJson members = m
  refine Prog.safe_ite_iff.mpr ⟨fun _ => ?_, fun haccepted => ?_⟩
  · rintro r ⟨⟩ hcode
    exact absurd hcode (by decide)
  have hsize : 0 < m.size := by
    apply Int.not_le.mp
    intro hle
    exact haccepted (.inr (.inr hle))
  refine (RequireArtifactToken_code access m.owner).bind fun refused hrefused => ?_
  cases refused with
  | some r =>
    rintro _ ⟨⟩ hcode
    exact absurd hcode (hrefused r rfl)
  | none =>
    refine (returns_true (precheck m)).bind fun d _ => ?_
    refine Prog.Safe.mono ?_ (respond_chunk chunk_sizes m d)
    intro _ answer h r hr hcode
    exact ⟨hsize, h r hr hcode⟩

/-! ### The arithmetic -/

section

variable {size c : Int}

/-- The quotient, rounded up, is the least number with enough room. -/
theorem isLeast_suffices (hc : 0 < c) (hsize : 0 < size) :
    IsLeast (Suffices size c) ((size + c - 1) / c) := by
  refine ⟨⟨?_, ?_⟩, ?_⟩
  · rw [Int.le_ediv_iff_mul_le hc]
    omega
  · have hlt := Int.lt_ediv_add_one_mul_self (size + c - 1) hc
    rw [Int.add_mul] at hlt
    omega
  · rintro n ⟨-, hn⟩
    rw [← Int.lt_add_one_iff, Int.ediv_lt_iff_lt_mul hc, Int.add_mul]
    omega

theorem isLeast_iff_eq {S : Set Int} {n m : Int} (h : IsLeast S n) : IsLeast S m ↔ m = n := by
  constructor
  · exact fun hm => hm.unique h
  · rintro rfl
    exact h

theorem wrap_eq_iff {v : Int} (hv : 0 ≤ v) : wrap 32 v = v ↔ v < 2 ^ 31 := by
  constructor
  · intro h
    have hlt := Int.bmod_lt (x := v) (m := 2 ^ 32) (by decide)
    rw [wrap] at h
    omega
  · intro h
    exact wrap_of_fits (by decide) (by omega) h

/-- A plan for a positive setting. -/
theorem total_small_iff (hc : 0 < c) (hc' : c < 2 ^ 63) (hsize : 0 < size) :
    (Defined size c ∧ ∃ n, totalChunks size c = some n ∧ IsLeast (Suffices size c) n)
      ↔ size + c < 2 ^ 63 ∧ size ≤ (2 ^ 31 - 1) * c := by
  have hdiv : (size + c - 1).tdiv c = (size + c - 1) / c :=
    Int.tdiv_eq_ediv_of_nonneg (by omega)
  have hq : 0 ≤ (size + c - 1) / c := Int.ediv_nonneg (by omega) (by omega)
  have htotal : totalChunks size c = some (wrap 32 ((size + c - 1) / c)) := by
    rw [totalChunks, if_neg (by omega), hdiv]
  have hleast := isLeast_suffices hc hsize
  have hexact : (∃ n, totalChunks size c = some n ∧ IsLeast (Suffices size c) n)
      ↔ size ≤ (2 ^ 31 - 1) * c := by
    rw [htotal]
    simp only [Option.some.injEq, exists_eq_left', isLeast_iff_eq hleast]
    rw [wrap_eq_iff hq, Int.ediv_lt_iff_lt_mul hc, Int.sub_mul]
    omega
  rw [hexact]
  refine and_congr_left fun _ => ⟨fun h => h.sum.2, fun hsum => ?_⟩
  have hle : (size + c - 1) / c ≤ size + c - 1 := Int.ediv_le_self _ (by omega)
  refine ⟨by omega, ⟨by omega, hsum⟩, ⟨by omega, by omega⟩, ?_⟩
  rw [hdiv]
  exact ⟨by omega, by omega⟩

/-- The quotient for a setting of `2 ^ 64 - d`. -/
theorem tdiv_neg_setting {d : Int} (hd : 0 < d) (hsize : 0 < size) :
    (size + -d - 1).tdiv (-d)
      = if size = 1 then 1 else if size ≤ d then 0 else 1 - (size - 1) / d := by
  rw [Int.tdiv_neg, ← Int.neg_tdiv]
  have hneg : -(size + -d - 1) = d + 1 - size := by omega
  rw [hneg]
  split_ifs with h1 hle
  · rw [h1, Int.add_sub_cancel, Int.tdiv_self (by omega)]
  · exact Int.tdiv_eq_zero_of_lt (by omega) (by omega)
  · have hopp : d + 1 - size = -(size - 1 - d) := by omega
    have hsub : (size - 1 - d) / d = (size - 1) / d - 1 := Int.sub_ediv_of_dvd _ (Int.dvd_refl d) ▸
      by rw [Int.ediv_self (by omega)]
    rw [hopp, Int.neg_tdiv, Int.tdiv_eq_ediv_of_nonneg (by omega), hsub]
    omega

/-- A plan for a setting that `getChunkSizes` makes negative. -/
theorem total_large_iff {d : Int} (hd : 0 < d) (hd' : d ≤ 2 ^ 63) (hsize : 0 < size)
    (hsize' : size < 2 ^ 63) :
    (Defined size (-d)
        ∧ ∃ n, totalChunks size (-d) = some n ∧ IsLeast (Suffices size (2 ^ 64 - d)) n)
      ↔ size = 1 ∨ d < size ∧ 2 ^ 32 ∣ (size - 1) / d := by
  have hleast : IsLeast (Suffices size (2 ^ 64 - d)) 1 :=
    ⟨⟨le_rfl, by omega⟩, fun n hn => hn.1⟩
  have hq := tdiv_neg_setting hd hsize
  have hdefined : Defined size (-d) := by
    refine ⟨by omega, ⟨by omega, by omega⟩, ⟨by omega, by omega⟩, ?_⟩
    have hnonneg : 0 ≤ (size - 1) / d := Int.ediv_nonneg (by omega) (by omega)
    have hle : (size - 1) / d ≤ size - 1 := Int.ediv_le_self _ (by omega)
    rw [hq, IsInt64]
    split_ifs <;> omega
  have htotal : totalChunks size (-d) = some (wrap 32 ((size + -d - 1).tdiv (-d))) := by
    rw [totalChunks, if_neg (by omega)]
  rw [htotal, hq]
  simp only [Option.some.injEq, exists_eq_left', isLeast_iff_eq hleast]
  rw [and_iff_right hdefined]
  split_ifs with h1 hle
  · exact ⟨fun _ => .inl h1, fun _ => by decide⟩
  · constructor
    · intro h
      exact absurd h (by decide)
    · rintro (h | h) <;> omega
  · rw [or_iff_right h1, and_iff_right (by omega)]
    generalize (size - 1) / d = k
    constructor
    · intro h
      have hmod := wrap_emod 32 (1 - k)
      rw [h] at hmod
      omega
    · rintro ⟨j, rfl⟩
      have hmod : wrap 32 (1 - 2 ^ 32 * j) = wrap 32 1 := by
        rw [wrap, wrap, ← Int.emod_bmod]
        have hone : (1 - 2 ^ 32 * j) % (2 ^ 32 : Nat) = 1 := by omega
        rw [hone]
      rw [hmod]
      decide

end

/-- Every answer with a plan, for every setting and every size that is accepted. -/
theorem chunk_plan_iff {σ : Type} (step : (op : Op) → σ → op.Answer × σ) (s : σ)
    (chunk_sizes : UInt64) (access : Access) (members : Str → Option Value) {r : Response}
    (hrun : ((handle (getChunkSizes chunk_sizes) access (some (.object members))).run step s).1
      = some r)
    (hchunk : r.code = 2) (hsize : IsInt64 (ArtifactMetadata.FromJson members).size) :
    (Defined (ArtifactMetadata.FromJson members).size (getChunkSizes chunk_sizes)
        ∧ ∃ n, r.totalChunks = some n
          ∧ IsLeast (Suffices (ArtifactMetadata.FromJson members).size chunk_sizes.toNat) n)
      ↔ Fits (ArtifactMetadata.FromJson members).size chunk_sizes.toNat := by
  obtain ⟨hpos, hlarger, htotal⟩ :=
    (handle_chunk (getChunkSizes chunk_sizes) access members).run step s r hrun hchunk
  rw [htotal]
  generalize (ArtifactMetadata.FromJson members).size = size at *
  have hbound : chunk_sizes.toNat < 2 ^ 64 := chunk_sizes.toNat_lt
  rw [Fits]
  rcases Nat.lt_or_ge chunk_sizes.toNat (2 ^ 63) with hsmall | hlarge
  · have hcast : getChunkSizes chunk_sizes = chunk_sizes.toNat :=
      wrap_of_fits (by decide) (by omega) (by omega)
    rw [hcast]
    rcases Nat.eq_zero_or_pos chunk_sizes.toNat with hzero | hnonzero
    · rw [hzero]
      constructor
      · rintro ⟨h, -⟩
        exact absurd rfl h.divisor
      · omega
    · rw [total_small_iff (by omega) (by omega) hpos]
      omega
  · obtain ⟨d, hd⟩ : ∃ d : Int, (chunk_sizes.toNat : Int) = 2 ^ 64 - d :=
      ⟨2 ^ 64 - chunk_sizes.toNat, by omega⟩
    have hcast : getChunkSizes chunk_sizes = -d := by
      have hmod := wrap_emod 64 chunk_sizes.toNat
      have hlo := Int.le_bmod (x := chunk_sizes.toNat) (m := 2 ^ 64) (by decide)
      have hhi := Int.bmod_lt (x := chunk_sizes.toNat) (m := 2 ^ 64) (by decide)
      rw [getChunkSizes, wrap] at *
      omega
    have hsub : (2 : Int) ^ 64 - (2 ^ 64 - d) = d := by omega
    rw [hcast, hd, total_large_iff (by omega) (by omega) hpos hsize.2, hsub]
    constructor
    · intro h
      exact .inr ⟨by omega, h⟩
    · rintro (h | h)
      · omega
      · exact h.2

/-- A precheck of a file of this size. -/
def sizeMembers (size : Int) (key : Str) : Option Value :=
  if key = "project".toList then some (.string "p".toList)
  else if key = "checksum".toList then some (.string "c".toList)
  else if key = "size".toList then some (.int64 size)
  else none

/-- The answer of the sample store to a precheck, with the default setting. -/
def sampleAnswer (size : Int) : Option Response :=
  ((handle (getChunkSizes 5242880) ⟨path, "t".toList⟩ (some (.object (sizeMembers size)))).run
    (performOp sampleEnv allOk) sampleStore.idle).1

theorem chunk_plan_iff_two :
    ∃ r, sampleAnswer 5242881 = some r ∧ ∃ n, r.totalChunks = some n
      ∧ IsLeast (Suffices 5242881 5242880) n := by
  have hrun : sampleAnswer 5242881 = some ⟨0, 2, "chunk upload", some 2, []⟩ := by decide +kernel
  have hfits := chunk_plan_iff (performOp sampleEnv allOk) sampleStore.idle 5242880
    ⟨path, "t".toList⟩ (sizeMembers 5242881) hrun rfl (by decide +kernel)
  exact ⟨_, hrun, (hfits.mpr (by decide +kernel)).2⟩

/-- With the default setting, the plan for 2 ^ 31 chunks has a negative number of them. -/
theorem chunk_plan_negative :
    ¬ ∀ (chunk_sizes : UInt64) (access : Access) (members : Str → Option Value) (r : Response),
      ((handle (getChunkSizes chunk_sizes) access (some (.object members))).run
        (performOp sampleEnv allOk) sampleStore.idle).1 = some r →
      r.code = 2 → IsInt64 (ArtifactMetadata.FromJson members).size →
      Defined (ArtifactMetadata.FromJson members).size (getChunkSizes chunk_sizes)
        ∧ ∃ n, r.totalChunks = some n
          ∧ IsLeast (Suffices (ArtifactMetadata.FromJson members).size chunk_sizes.toNat) n := by
  intro h
  have hrun : sampleAnswer 11258999068426240
      = some ⟨0, 2, "chunk upload", some (-2147483648), []⟩ := by decide +kernel
  obtain ⟨-, n, hn, hleast⟩ := h 5242880 ⟨path, "t".toList⟩ (sizeMembers 11258999068426240) _ hrun
    rfl (by decide +kernel)
  obtain rfl := Option.some.inj hn
  exact absurd hleast.1.1 (by decide)

end UploadServlet

end FiberServer
