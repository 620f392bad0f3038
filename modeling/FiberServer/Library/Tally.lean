import Mathlib.Algebra.BigOperators.Group.Finset.Basic
import Mathlib.Algebra.Order.Ring.Int
import Mathlib.Data.Fintype.BigOperators

/-!
# Counting over a family that changes in one place

A system of `n` parties is a family `c : ι → β`.  A step of one party replaces
`c i` by one value, so a total `∑ j, f (c j)` changes by `f` of the old value
against `f` of the new one (`sum_update`).  `tally p c` counts the parties that
satisfy `p`; `tally_update` is the same law for it.
-/

namespace Tally

variable {ι β : Type*} [Fintype ι] [DecidableEq ι]

/-- Replacing one member changes a total by the difference of the two values. -/
theorem sum_update (f : β → Nat) (c : ι → β) (i : ι) (b : β) :
    (∑ j, f (Function.update c i b j)) + f (c i) = (∑ j, f (c j)) + f b := by
  have hnew := Finset.add_sum_erase Finset.univ
    (fun j => f (Function.update c i b j)) (Finset.mem_univ i)
  have hold := Finset.add_sum_erase Finset.univ (fun j => f (c j)) (Finset.mem_univ i)
  have hrest : ∑ j ∈ Finset.univ.erase i, f (Function.update c i b j)
      = ∑ j ∈ Finset.univ.erase i, f (c j) := by
    refine Finset.sum_congr rfl fun j hj => ?_
    rw [Function.update_of_ne (Finset.ne_of_mem_erase hj)]
  rw [Function.update_self, hrest] at hnew
  omega

/-- One member is at most the total. -/
theorem le_sum (f : β → Nat) (c : ι → β) (i : ι) : f (c i) ≤ ∑ j, f (c j) := by
  rw [← Finset.add_sum_erase Finset.univ (fun j => f (c j)) (Finset.mem_univ i)]
  exact Nat.le_add_right ..

/-- How many members of the family satisfy `p`. -/
def tally (p : β → Bool) (c : ι → β) : Nat := ∑ j, if p (c j) then 1 else 0

theorem tally_update (p : β → Bool) (c : ι → β) (i : ι) (b : β) :
    tally p (Function.update c i b) + (if p (c i) then 1 else 0)
      = tally p c + (if p b then 1 else 0) :=
  sum_update (fun x => if p x then 1 else 0) c i b

theorem tally_pos_of {p : β → Bool} {c : ι → β} {i : ι} (h : p (c i)) : 0 < tally p c := by
  have hsplit := Finset.add_sum_erase Finset.univ (fun j => if p (c j) then 1 else 0)
    (Finset.mem_univ i)
  simp only [h, if_true] at hsplit
  rw [tally, ← hsplit]
  omega

theorem tally_eq_zero {p : β → Bool} {c : ι → β} (h : tally p c = 0) (i : ι) : p (c i) = false := by
  by_contra hp
  have hpos : 0 < tally p c := tally_pos_of (by simpa using hp)
  omega

/-- The same law for a list. -/
theorem sum_map_set {α : Type*} (f : α → Nat) {l : List α} {i : Nat} {a b : α}
    (h : l[i]? = some a) : ((l.set i b).map f).sum + f a = (l.map f).sum + f b := by
  induction l generalizing i with
  | nil => simp at h
  | cons x xs ih =>
    cases i with
    | zero =>
      simp only [List.getElem?_cons_zero, Option.some.injEq] at h
      subst h
      simp only [List.set_cons_zero, List.map_cons, List.sum_cons]
      omega
    | succ j =>
      have hrest := ih (by simpa using h)
      simp only [List.set_cons_succ, List.map_cons, List.sum_cons]
      omega

/-- A member that satisfies `p` stays, unless it is the one that is replaced. -/
theorem any_set {α : Type*} {p : α → Bool} {l : List α} {i : Nat} {a b : α} (ha : l[i]? = some a)
    (hab : p a = true → p b = true) (h : l.any p = true) : (l.set i b).any p = true := by
  obtain ⟨x, hx, hp⟩ := List.any_eq_true.mp h
  obtain ⟨j, hj⟩ := List.getElem?_of_mem hx
  by_cases hij : i = j
  · subst hij
    rw [ha] at hj
    cases hj
    exact List.any_eq_true.mpr ⟨b, List.mem_set (List.getElem?_eq_some_iff.mp ha).1 b, hab hp⟩
  · exact List.any_eq_true.mpr ⟨x, List.mem_of_getElem? ((List.getElem?_set_ne hij).trans hj), hp⟩

theorem any_set_self {α : Type*} {p : α → Bool} {l : List α} {i : Nat} {a b : α}
    (ha : l[i]? = some a) (hb : p b = true) : (l.set i b).any p = true :=
  List.any_eq_true.mpr ⟨b, List.mem_set (List.getElem?_eq_some_iff.mp ha).1 b, hb⟩

/-- A member after one was replaced is the new one, or it was there. -/
theorem getElem?_set_cases {α : Type*} {l : List α} {k j : Nat} {a b : α}
    (h : (l.set k b)[j]? = some a) : j = k ∧ a = b ∨ j ≠ k ∧ l[j]? = some a := by
  by_cases hj : j = k
  · subst hj
    obtain ⟨hlt, hget⟩ := List.getElem?_eq_some_iff.mp h
    rw [List.getElem_set_self] at hget
    exact .inl ⟨rfl, hget.symm⟩
  · rw [List.getElem?_set_ne (Ne.symm hj)] at h
    exact .inr ⟨hj, h⟩

/-- A member after one was appended is the new one, or it was there. -/
theorem getElem?_concat_cases {α : Type*} {l : List α} {j : Nat} {a b : α}
    (h : (l ++ [b])[j]? = some a) : l[j]? = some a ∨ j = l.length ∧ a = b := by
  by_cases hj : j < l.length
  · rw [List.getElem?_append_left hj] at h
    exact .inl h
  · rw [List.getElem?_append_right (by omega), List.getElem?_singleton] at h
    split_ifs at h with hzero
    cases h
    exact .inr ⟨by omega, rfl⟩

end Tally
