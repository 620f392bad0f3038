import Mathlib.Data.List.Basic
import Mathlib.Data.List.TakeWhile
import Mathlib.Data.List.Perm.Basic

/-!
# A set kept in the order of a comparison

The members of the set in their order, as a list.  `lowerBound`, `find` and `insert` look at the
set through the comparison alone, as a search tree does; on an ordered list they come to the same
places as a search from the root.  The comparison may read fields of the members that change, so
it is a parameter of each operation and not of the set.

* `find_of_mem`: a member of an ordered set is found.
* `mem_eraseIdx_find`: what is erased where a member was found is that member, and only that.
* `insert_perm`, `insert_sorted`: a new member that compares with every member is inserted.
-/

namespace OrderedSet

variable {α β : Type*}

/-- In the order of the comparison, and no member twice. -/
def Sorted (lt : α → α → Bool) (l : List α) : Prop := l.Pairwise fun x y => lt x y = true

/-- The place of the first member that does not come before `x`. -/
def lowerBound (lt : α → β → Bool) (x : β) (l : List α) : Nat :=
  (l.takeWhile fun y => lt y x).length

def find (lt : α → α → Bool) (x : α) (l : List α) : Option Nat :=
  match l[lowerBound lt x l]? with
  | some y => if lt x y then none else some (lowerBound lt x l)
  | none => none

/-- Nothing is inserted beside a member that does not differ in the comparison. -/
def insert (lt : α → α → Bool) (x : α) (l : List α) : List α :=
  match l[lowerBound lt x l]? with
  | some y => if lt x y then l.insertIdx (lowerBound lt x l) x else l
  | none => l.insertIdx (lowerBound lt x l) x

variable {lt lt' : α → α → Bool} {x y : α} {l : List α}

theorem Sorted.nodup (hirrefl : ∀ x, lt x x = false) (h : Sorted lt l) : l.Nodup := by
  refine List.Pairwise.imp ?_ h
  rintro x y hxy rfl
  rw [hirrefl] at hxy
  exact nomatch hxy

theorem Sorted.sublist {l' : List α} (h : Sorted lt l) (hl : l'.Sublist l) : Sorted lt l' :=
  List.Pairwise.sublist hl h

/-- Two comparisons that agree on the members order the set alike. -/
theorem Sorted.congr (h : Sorted lt l) (hlt : ∀ x ∈ l, ∀ y ∈ l, lt' x y = lt x y) : Sorted lt' l :=
  List.Pairwise.imp_of_mem (fun hx hy hxy => (hlt _ hx _ hy).trans hxy) h

/-- The members before a member come before it in the comparison, and it does not. -/
theorem lowerBound_of_mem (hirrefl : ∀ x, lt x x = false) (h : Sorted lt l) (hx : x ∈ l) :
    l[lowerBound lt x l]? = some x := by
  obtain ⟨before, after, rfl⟩ := List.append_of_mem hx
  have hbefore : ∀ y ∈ before, lt y x = true := fun y hy =>
    (List.pairwise_append.mp h).2.2 y hy x List.mem_cons_self
  have htake : (before ++ x :: after).takeWhile (fun y => lt y x) = before := by
    rw [List.takeWhile_append_of_pos hbefore, List.takeWhile_cons_of_neg (by simp [hirrefl]),
      List.append_nil]
  rw [lowerBound, htake, List.getElem?_append_right (Nat.le_refl _), Nat.sub_self,
    List.getElem?_cons_zero]

/-- **A member is found.** -/
theorem find_of_mem (hirrefl : ∀ x, lt x x = false) (h : Sorted lt l) (hx : x ∈ l) :
    find lt x l = some (lowerBound lt x l) ∧ l[lowerBound lt x l]? = some x := by
  have hplace := lowerBound_of_mem hirrefl h hx
  refine ⟨?_, hplace⟩
  rw [find, hplace]
  simp only [hirrefl, Bool.false_eq_true, if_false]

theorem mem_eraseIdx_find (hirrefl : ∀ x, lt x x = false) (h : Sorted lt l) {i : Nat}
    (hi : l[i]? = some x) : y ∈ l.eraseIdx i ↔ y ∈ l ∧ y ≠ x := by
  have hnodup := h.nodup hirrefl
  rw [List.mem_eraseIdx_iff_getElem?]
  constructor
  · rintro ⟨j, hj, hy⟩
    refine ⟨List.mem_of_getElem? hy, ?_⟩
    rintro rfl
    have hlt := (List.getElem?_eq_some_iff.mp hi).1
    exact hj ((List.getElem?_inj hlt hnodup).mp (hi.trans hy.symm)).symm
  · rintro ⟨hy, hne⟩
    obtain ⟨j, hj⟩ := List.getElem?_of_mem hy
    refine ⟨j, ?_, hj⟩
    rintro rfl
    exact hne (Option.some.inj (hj.symm.trans hi))

/-- What is in front of the place of `x`, and what is behind it. -/
theorem split_lowerBound (lt : α → α → Bool) (x : α) (l : List α) :
    ∃ before after, l = before ++ after ∧ lowerBound lt x l = before.length
      ∧ l[lowerBound lt x l]? = after.head?
      ∧ (∀ y ∈ before, lt y x = true) ∧ ∀ y ∈ after.head?, lt y x = false := by
  have hl : l = (l.takeWhile fun y => lt y x) ++ l.dropWhile fun y => lt y x :=
    List.takeWhile_append_dropWhile.symm
  refine ⟨_, _, hl, rfl, ?_, fun y hy => ?_, fun y hy => ?_⟩
  · conv_lhs => rw [hl]
    rw [lowerBound, List.getElem?_append_right (Nat.le_of_eq (by rw [← hl])), ← hl, Nat.sub_self,
      List.head?_eq_getElem?]
  · exact List.mem_takeWhile_imp (p := fun y => lt y x) hy
  · have hhead := List.head?_dropWhile_not (fun y => lt y x) l
    rw [Option.mem_def.mp hy] at hhead
    simpa using hhead

/-- What stands at the place that was found does not differ in the comparison. -/
theorem of_find {i : Nat} (h : find lt x l = some i) :
    ∃ y, l[i]? = some y ∧ lt x y = false ∧ lt y x = false := by
  obtain ⟨before, after, -, -, hget, -, hafter⟩ := split_lowerBound lt x l
  rw [find, hget] at h
  cases hhead : after.head? with
  | none =>
    rw [hhead] at h
    exact nomatch h
  | some y =>
    rw [hhead] at h
    simp only at h
    split_ifs at h with hxy
    obtain rfl := Option.some.inj h
    rw [Bool.not_eq_true] at hxy
    exact ⟨y, hget.trans hhead, hxy, hafter y hhead⟩

theorem insertIdx_between (x : α) (before after : List α) :
    (before ++ after).insertIdx before.length x = before ++ x :: after := by
  induction before with
  | nil => rfl
  | cons y before ih =>
    rw [List.cons_append, List.length_cons, List.insertIdx_succ_cons, ih, List.cons_append]

/-- A new member is put in its place. -/
theorem insert_eq (hnew : ∀ y ∈ l, lt x y = true ∨ lt y x = true) :
    ∃ before after, l = before ++ after ∧ insert lt x l = before ++ x :: after
      ∧ (∀ y ∈ before, lt y x = true) ∧ ∀ y ∈ after.head?, lt x y = true := by
  obtain ⟨before, after, hl, hplace, hget, hbefore, hafter⟩ := split_lowerBound lt x l
  have hgreater : ∀ y ∈ after.head?, lt x y = true := by
    intro y hy
    have hmem : y ∈ l := by
      rw [hl]
      exact List.mem_append_right _ (List.mem_of_mem_head? hy)
    refine (hnew y hmem).resolve_right fun hyx => ?_
    rw [hafter y hy] at hyx
    exact nomatch hyx
  refine ⟨before, after, hl, ?_, hbefore, hgreater⟩
  have hinsert : l.insertIdx (lowerBound lt x l) x = before ++ x :: after := by
    rw [hplace, hl, insertIdx_between]
  rw [insert, hget]
  cases hhead : after.head? with
  | none => exact hinsert
  | some y =>
    simp only
    rw [if_pos (hgreater y hhead)]
    exact hinsert

theorem insert_perm (hnew : ∀ y ∈ l, lt x y = true ∨ lt y x = true) :
    (insert lt x l).Perm (x :: l) := by
  obtain ⟨before, after, hl, hinsert, -, -⟩ := insert_eq hnew
  rw [hinsert, hl]
  exact List.perm_middle

/-- **Insertion keeps the order.** -/
theorem insert_sorted (htrans : ∀ x y z, lt x y = true → lt y z = true → lt x z = true)
    (h : Sorted lt l) (hnew : ∀ y ∈ l, lt x y = true ∨ lt y x = true) :
    Sorted lt (insert lt x l) := by
  obtain ⟨before, after, rfl, hinsert, hbefore, hhead⟩ := insert_eq hnew
  obtain ⟨hsorted, hsorted', hacross⟩ := List.pairwise_append.mp h
  have hafter : ∀ y ∈ after, lt x y = true := by
    intro y hy
    cases after with
    | nil => exact absurd hy List.not_mem_nil
    | cons z zs =>
      have hz : lt x z = true := hhead z rfl
      rcases List.mem_cons.mp hy with rfl | hy
      · exact hz
      · exact htrans x z y hz ((List.pairwise_cons.mp hsorted').1 y hy)
  rw [hinsert]
  refine List.pairwise_append.mpr ⟨hsorted, List.pairwise_cons.mpr ⟨hafter, hsorted'⟩, ?_⟩
  intro y hy z hz
  rcases List.mem_cons.mp hz with rfl | hz
  · exact hbefore y hy
  · exact hacross y hy z hz

/-! ### Beginnings -/

/-- Members of a kind that come before all others. -/
theorem filter_eq_takeWhile {p : α → Bool} (h : l.Pairwise fun x y => p y = true → p x = true) :
    l.filter p = l.takeWhile p := by
  induction l with
  | nil => rfl
  | cons x l ih =>
    obtain ⟨hx, hl⟩ := List.pairwise_cons.mp h
    by_cases hp : p x = true
    · rw [List.filter_cons_of_pos hp, List.takeWhile_cons_of_pos hp, ih hl]
    · rw [List.filter_cons_of_neg hp, List.takeWhile_cons_of_neg hp, List.filter_eq_nil_iff]
      exact fun y hy hpy => hp (hx y hy hpy)

theorem takeWhile_congr {p r : α → Bool} (h : ∀ x ∈ l, r x = p x) :
    l.takeWhile r = l.takeWhile p := by
  induction l with
  | nil => rfl
  | cons x l ih =>
    rw [List.takeWhile_cons, List.takeWhile_cons, h x List.mem_cons_self,
      ih fun y hy => h y (List.mem_cons_of_mem x hy)]

/-- A beginning that is found in two parts, the second behind the first. -/
theorem takeWhile_append_takeWhile {p q r : α → Bool} (hq : ∀ x ∈ l, q x = true → p x = true)
    (hr : ∀ x ∈ l, q x = false → (r x = p x))
    (h : l.Pairwise fun x y => q y = true → q x = true) :
    l.takeWhile q ++ (l.dropWhile q).takeWhile r = l.takeWhile p := by
  induction l with
  | nil => rfl
  | cons x l ih =>
    obtain ⟨hx, hl⟩ := List.pairwise_cons.mp h
    by_cases hqx : q x = true
    · rw [List.takeWhile_cons_of_pos hqx, List.dropWhile_cons_of_pos hqx,
        List.takeWhile_cons_of_pos (hq x List.mem_cons_self hqx), List.cons_append,
        ih (fun y hy => hq y (List.mem_cons_of_mem x hy))
          (fun y hy => hr y (List.mem_cons_of_mem x hy)) hl]
    · rw [List.takeWhile_cons_of_neg hqx, List.dropWhile_cons_of_neg hqx, List.nil_append]
      refine takeWhile_congr fun y hy => hr y hy ?_
      rcases List.mem_cons.mp hy with rfl | hy
      · exact Bool.not_eq_true _ ▸ hqx
      · exact Bool.eq_false_iff.mpr fun hqy => hqx (hx y hy hqy)

end OrderedSet
