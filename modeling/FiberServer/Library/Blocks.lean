import Mathlib.Data.List.Basic

/-!
# A flat list kept in blocks

A list of blocks of one length `n` holds the flat list `bs.flatten`.  Its position
`i * n + p` is position `p` of block `i`, so writing inside a block and reading from
one are writing and reading at that position.

* `overwrite`, `slice`: writing and reading a range of a list.
* `flatten_set_overwrite`, `slice_flatten`: **the same range of one block**.
-/

namespace Blocks

variable {α : Type*}

/-- The list with `xs` written at `p`. -/
def overwrite (l : List α) (p : Nat) (xs : List α) : List α :=
  l.take p ++ xs ++ l.drop (p + xs.length)

/-- The `n` entries from `p` on. -/
def slice (l : List α) (p n : Nat) : List α := (l.drop p).take n

/-! ### Ranges of one list -/

theorem length_overwrite {l xs : List α} {p : Nat} (h : p + xs.length ≤ l.length) :
    (overwrite l p xs).length = l.length := by
  simp only [overwrite, List.length_append, List.length_take, List.length_drop]
  omega

@[simp] theorem overwrite_nil (l : List α) (p : Nat) : overwrite l p [] = l := by
  simp [overwrite]

theorem overwrite_append (a l xs : List α) (p : Nat) :
    overwrite (a ++ l) (a.length + p) xs = a ++ overwrite l p xs := by
  rw [overwrite, overwrite, Nat.add_assoc, List.take_length_add_append,
    List.drop_length_add_append, List.append_assoc, List.append_assoc, List.append_assoc]

theorem overwrite_append_of_le {a xs : List α} {p : Nat} (b : List α)
    (h : p + xs.length ≤ a.length) : overwrite (a ++ b) p xs = overwrite a p xs ++ b := by
  rw [overwrite, overwrite, List.take_append_of_le_length (by omega),
    List.drop_append_of_le_length h, List.append_assoc _ _ b]

/-- Two writes, the second one where the first ends. -/
theorem overwrite_overwrite_of_le {l xs ys : List α} {p : Nat} (h : p ≤ l.length) :
    overwrite (overwrite l p xs) (p + xs.length) ys = overwrite l p (xs ++ ys) := by
  have hlen : (l.take p ++ xs).length = p + xs.length := by
    rw [List.length_append, List.length_take_of_le h]
  have hsplit := overwrite_append (l.take p ++ xs) (l.drop (p + xs.length)) ys 0
  rw [hlen, Nat.add_zero] at hsplit
  calc overwrite (overwrite l p xs) (p + xs.length) ys
      = l.take p ++ xs ++ overwrite (l.drop (p + xs.length)) 0 ys := hsplit
    _ = l.take p ++ xs ++ (ys ++ l.drop (p + xs.length + ys.length)) := by
        rw [overwrite, List.take_zero, List.nil_append, Nat.zero_add, List.drop_drop]
    _ = overwrite l p (xs ++ ys) := by
        rw [overwrite, List.length_append, ← Nat.add_assoc, List.append_assoc, List.append_assoc,
          List.append_assoc]

theorem overwrite_overwrite {l xs ys : List α} {p : Nat} (h : p + xs.length ≤ l.length) :
    overwrite (overwrite l p xs) (p + xs.length) ys = overwrite l p (xs ++ ys) :=
  overwrite_overwrite_of_le (Nat.le_trans (Nat.le_add_right ..) h)

/-- A prefix that has the whole range is overwritten in the same way. -/
theorem take_overwrite {l xs : List α} {p n : Nat} (hp : p ≤ n) (hn : n ≤ l.length) :
    (overwrite l p xs).take (max n (p + xs.length)) = overwrite (l.take n) p xs := by
  rcases Nat.le_total (p + xs.length) n with h | h
  · have hlen : (l.take n).length = n := List.length_take_of_le hn
    have hle : p + xs.length ≤ (l.take n).length := by omega
    have hin := overwrite_append_of_le (l.drop n) hle
    rw [List.take_append_drop] at hin
    rw [Nat.max_eq_left h, hin, List.take_left' ((length_overwrite hle).trans hlen)]
  · have hlen : (l.take p ++ xs).length = p + xs.length := by
      rw [List.length_append, List.length_take_of_le (by omega)]
    rw [Nat.max_eq_right h, overwrite, overwrite, List.take_left' hlen, List.take_take,
      Nat.min_eq_left hp, List.drop_take, Nat.sub_eq_zero_of_le h, List.take_zero, List.append_nil]

/-- A write of the whole list. -/
theorem overwrite_all {l xs : List α} (h : xs.length = l.length) : overwrite l 0 xs = xs := by
  rw [overwrite, List.take_zero, List.nil_append, List.drop_of_length_le (by omega),
    List.append_nil]

theorem set_eq_overwrite {l : List α} {p : Nat} (h : p < l.length) (x : α) :
    l.set p x = overwrite l p [x] := by
  rw [List.set_eq_take_append_cons_drop, if_pos h, overwrite, List.append_assoc]
  rfl

/-- An entry in front of a write. -/
theorem overwrite_set {l : List α} {p : Nat} (h : p < l.length) (x : α) (xs : List α) :
    overwrite (l.set p x) (p + 1) xs = overwrite l p (x :: xs) := by
  rw [set_eq_overwrite h]
  show overwrite (overwrite l p [x]) (p + [x].length) xs = overwrite l p ([x] ++ xs)
  exact overwrite_overwrite_of_le (Nat.le_of_lt h)

@[simp] theorem slice_zero (l : List α) (p : Nat) : slice l p 0 = [] := by simp [slice]

theorem slice_add (l : List α) (p m n : Nat) :
    slice l p (m + n) = slice l p m ++ slice l (p + m) n := by
  rw [slice, slice, slice, List.take_add, List.drop_drop]

theorem slice_take {l : List α} {p n m : Nat} (h : p + n ≤ m) : slice (l.take m) p n = slice l p n := by
  rw [slice, slice, List.drop_take, List.take_take, Nat.min_eq_left (by omega)]

theorem slice_append (a l : List α) (p n : Nat) : slice (a ++ l) (a.length + p) n = slice l p n := by
  simp [slice]

theorem slice_append_of_le {a : List α} {p n : Nat} (b : List α) (h : p + n ≤ a.length) :
    slice (a ++ b) p n = slice a p n := by
  rw [slice, slice, List.drop_append_of_le_length (by omega),
    List.take_append_of_le_length (by rw [List.length_drop]; omega)]

/-! ### Blocks -/

theorem length_flatten {bs : List (List α)} {n : Nat} (h : ∀ b ∈ bs, b.length = n) :
    bs.flatten.length = bs.length * n := by
  induction bs with
  | nil => simp
  | cons b bs ih =>
    rw [List.flatten_cons, List.length_append, h b List.mem_cons_self,
      ih fun c hc => h c (List.mem_cons_of_mem b hc), List.length_cons, Nat.add_mul,
      Nat.one_mul, Nat.add_comm]

/-- The blocks before block `i`, the block, and the rest. -/
theorem flatten_eq_of_getElem? {bs : List (List α)} {b : List α} {i : Nat} (hb : bs[i]? = some b) :
    bs.flatten = (bs.take i).flatten ++ (b ++ (bs.drop (i + 1)).flatten) := by
  obtain ⟨hi, rfl⟩ := List.getElem?_eq_some_iff.mp hb
  conv_lhs => rw [← List.take_append_drop i bs, List.drop_eq_getElem_cons hi]
  rw [List.flatten_append, List.flatten_cons]

/-- A position in front of the end is in one of the blocks. -/
theorem block_lt {i n count : Nat} (h : i * n < n * count) : i < count := by
  rw [Nat.mul_comm n] at h
  exact Nat.lt_of_mul_lt_mul_right h

theorem length_flatten_take {bs : List (List α)} {n i : Nat} (h : ∀ b ∈ bs, b.length = n)
    (hi : i ≤ bs.length) : (bs.take i).flatten.length = i * n := by
  rw [length_flatten fun b hb => h b (List.mem_of_mem_take hb), List.length_take_of_le hi]

/-- **Writing inside block `i`.** -/
theorem flatten_set_overwrite {bs : List (List α)} {b xs : List α} {n i p : Nat}
    (h : ∀ b ∈ bs, b.length = n) (hb : bs[i]? = some b) (hp : p + xs.length ≤ n) :
    (bs.set i (overwrite b p xs)).flatten = overwrite bs.flatten (i * n + p) xs := by
  obtain ⟨hi, -⟩ := List.getElem?_eq_some_iff.mp hb
  have hset : (bs.set i (overwrite b p xs))[i]? = some (overwrite b p xs) := by
    rw [List.getElem?_set_self hi]
  have hlen := length_flatten_take h (Nat.le_of_lt hi)
  rw [flatten_eq_of_getElem? hb, flatten_eq_of_getElem? hset, List.take_set_of_le (Nat.le_refl i),
    List.drop_set_of_lt (Nat.lt_succ_self i), ← hlen, overwrite_append, overwrite_append_of_le]
  rw [h b (List.mem_of_getElem? hb)]
  exact hp

/-- **Reading inside block `i`.** -/
theorem slice_flatten {bs : List (List α)} {b : List α} {n i p m : Nat}
    (h : ∀ b ∈ bs, b.length = n) (hb : bs[i]? = some b) (hp : p + m ≤ n) :
    slice bs.flatten (i * n + p) m = slice b p m := by
  obtain ⟨hi, -⟩ := List.getElem?_eq_some_iff.mp hb
  have hlen := length_flatten_take h (Nat.le_of_lt hi)
  rw [flatten_eq_of_getElem? hb, ← hlen, slice_append, slice_append_of_le]
  rw [h b (List.mem_of_getElem? hb)]
  exact hp

end Blocks
