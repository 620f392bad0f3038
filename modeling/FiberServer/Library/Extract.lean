import Mathlib.Data.List.Basic

/-!
# Taking the first of a kind out of a list

A loop goes through a list, takes the members of a kind out of it until it has enough, and leaves
the others where they stand.  `Taken` says what it has come to; a loop is shown to do so by the
rules `Taken.nil`, `Taken.enough`, `Taken.take` and `Taken.skip`, one for each of its branches.

* `Taken.length_taken`: how many are taken.
-/

namespace Extract

variable {α : Type*} {p : α → Bool} {k : Nat} {x : α} {l seen rest taken left : List α}

/-- Of the list `l` the members `seen` were looked at: those with `p` were taken, at most `k`, and
the others left. -/
structure Taken (p : α → Bool) (k : Nat) (l seen rest taken left : List α) : Prop where
  split : l = seen ++ rest
  taken_eq : taken = seen.filter p
  left_eq : left = seen.filter (fun x => !p x) ++ rest
  /-- It ends with the list, or with the member that makes `k`. -/
  stops : taken.length < k ∧ rest = [] ∨ taken.length = k ∧ ∀ x ∈ seen.getLast?, p x = true

/-! ### The branches of a loop -/

/-- The list has ended. -/
theorem Taken.nil (p : α → Bool) (k : Nat) : Taken p k [] [] [] [] [] := by
  refine ⟨rfl, rfl, rfl, ?_⟩
  cases k with
  | zero => exact .inr ⟨rfl, fun _ hx => nomatch hx⟩
  | succ k => exact .inl ⟨Nat.succ_pos k, rfl⟩

/-- There are enough. -/
theorem Taken.enough (p : α → Bool) (l : List α) : Taken p 0 l [] l [] l :=
  ⟨rfl, rfl, rfl, .inr ⟨rfl, fun _ hx => nomatch hx⟩⟩

theorem last_cons (hx : seen = [] → p x = true) (hlast : ∀ y ∈ seen.getLast?, p y = true) :
    ∀ y ∈ (x :: seen).getLast?, p y = true := by
  intro y hy
  rw [List.getLast?_cons] at hy
  cases hseen : seen.getLast? with
  | none =>
    rw [hseen] at hy
    exact Option.some.inj hy ▸ hx (List.getLast?_eq_none_iff.mp hseen)
  | some z =>
    rw [hseen] at hy
    exact Option.some.inj hy ▸ hlast z hseen

theorem Taken.take (hx : p x = true) (h : Taken p k l seen rest taken left) :
    Taken p (k + 1) (x :: l) (x :: seen) rest (x :: taken) left := by
  refine ⟨?_, ?_, ?_, ?_⟩
  · rw [h.split, List.cons_append]
  · rw [h.taken_eq, List.filter_cons_of_pos hx]
  · rw [h.left_eq, List.filter_cons_of_neg (by simp [hx])]
  · rcases h.stops with ⟨hlt, hrest⟩ | ⟨hlength, hlast⟩
    · exact .inl ⟨Nat.succ_lt_succ hlt, hrest⟩
    · exact .inr ⟨congrArg Nat.succ hlength, last_cons (fun _ => hx) hlast⟩

theorem Taken.skip (hx : p x = false) (h : Taken p (k + 1) l seen rest taken left) :
    Taken p (k + 1) (x :: l) (x :: seen) rest taken (x :: left) := by
  refine ⟨?_, ?_, ?_, ?_⟩
  · rw [h.split, List.cons_append]
  · rw [h.taken_eq, List.filter_cons_of_neg (by simp [hx])]
  · rw [h.left_eq, List.filter_cons_of_pos (by simpa using hx), List.cons_append]
  · rcases h.stops with hend | ⟨hlength, hlast⟩
    · exact .inl hend
    · refine .inr ⟨hlength, last_cons (fun hseen => ?_) hlast⟩
      -- one was still to be taken
      rw [h.taken_eq, hseen] at hlength
      exact nomatch hlength

/-! ### What follows -/

/-- **How many are taken.** -/
theorem Taken.length_taken (h : Taken p k l seen rest taken left) :
    taken.length = min k (l.countP p) := by
  have hcount : l.countP p = taken.length + rest.countP p := by
    rw [h.split, List.countP_append, h.taken_eq, List.countP_eq_length_filter]
  rcases h.stops with ⟨hlt, hrest⟩ | ⟨hlength, -⟩
  · rw [hrest, List.countP_nil] at hcount
    omega
  · omega

/-- When none is wanted, none is looked at. -/
theorem Taken.seen_of_zero (h : Taken p 0 l seen rest taken left) : seen = [] := by
  rcases h.stops with ⟨hlt, -⟩ | ⟨hlength, hlast⟩
  · exact absurd hlt (Nat.not_lt_zero _)
  · rw [← List.getLast?_eq_none_iff, Option.eq_none_iff_forall_not_mem]
    intro x hx
    have hmem : x ∈ taken := by
      rw [h.taken_eq]
      exact List.mem_filter.mpr ⟨List.mem_of_getLast? hx, hlast x hx⟩
    rw [List.length_eq_zero_iff.mp hlength] at hmem
    exact absurd hmem List.not_mem_nil

end Extract
