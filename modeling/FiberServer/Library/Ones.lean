import FiberServer.Library.Words
import Mathlib.Algebra.Order.Ring.Int

/-!
# The ones of a binary number

`ones n` counts the ones of `n`.

* `ones_add`: the digits may be cut anywhere; `ones_value` and `ones_swap` for bytes.
* `ones_and_pred`: `n &&& (n - 1)` is `n` without its last one.
* `ones_leading`: the word of `n` ones and then zeros.
-/

namespace Ones

open Words (value bytes swap leading)

def ones (n : Nat) : Nat :=
  if n = 0 then 0 else ones (n / 2) + n % 2
termination_by n
decreasing_by exact Nat.div_lt_self (by omega) (by decide)

@[simp] theorem ones_zero : ones 0 = 0 := by
  rw [ones, if_pos rfl]

theorem ones_eq (n : Nat) : ones n = ones (n / 2) + n % 2 := by
  by_cases hn : n = 0
  · rw [hn, ones_zero]
  · rw [ones, if_neg hn]

/-- The last `k` digits and those in front of them. -/
theorem ones_add (a : Nat) {b k : Nat} (hb : b < 2 ^ k) :
    ones (a * 2 ^ k + b) = ones a + ones b := by
  induction k generalizing b with
  | zero =>
    have hzero : b = 0 := by simpa using hb
    rw [hzero, Nat.pow_zero, Nat.mul_one, Nat.add_zero, ones_zero, Nat.add_zero]
  | succ k ih =>
    rw [Nat.pow_succ] at hb
    have hhalf : (a * 2 ^ (k + 1) + b) / 2 = a * 2 ^ k + b / 2 := by
      rw [Nat.pow_succ, ← Nat.mul_assoc]
      omega
    have hlast : (a * 2 ^ (k + 1) + b) % 2 = b % 2 := by
      rw [Nat.pow_succ, ← Nat.mul_assoc]
      omega
    rw [ones_eq, hhalf, hlast, ih (by omega), ones_eq b, Nat.add_assoc]

/-- **The last one goes.** -/
theorem ones_and_pred {n : Nat} (hn : n ≠ 0) : ones (n &&& (n - 1)) + 1 = ones n := by
  induction n using Nat.strongRecOn with
  | ind n ih =>
    have hlast : (n &&& (n - 1)) % 2 = 0 := by
      by_contra hone
      obtain ⟨hn1, hn2⟩ := Nat.and_mod_two_eq_one.mp (show (n &&& (n - 1)) % 2 = 1 by omega)
      omega
    rw [ones_eq (n &&& (n - 1)), ones_eq n, Nat.and_div_two, hlast]
    by_cases hodd : n % 2 = 1
    · have hhalf : (n - 1) / 2 = n / 2 := by omega
      rw [hhalf, Nat.and_self, hodd]
    · have hhalf : (n - 1) / 2 = n / 2 - 1 := by omega
      have hmore := ih (n / 2) (by omega) (by omega)
      rw [hhalf]
      omega

theorem and_pred_lt {n : Nat} (hn : n ≠ 0) : n &&& (n - 1) < n :=
  Nat.lt_of_le_of_lt Nat.and_le_right (by omega)

/-- A number of ones only. -/
theorem ones_two_pow_sub_one (n : Nat) : ones (2 ^ n - 1) = n := by
  induction n with
  | zero => rw [Nat.pow_zero, Nat.sub_self, ones_zero]
  | succ n ih =>
    have hpos := Nat.two_pow_pos n
    have hhalf : (2 ^ (n + 1) - 1) / 2 = 2 ^ n - 1 := by
      rw [Nat.pow_succ]
      omega
    have hlast : (2 ^ (n + 1) - 1) % 2 = 1 := by
      rw [Nat.pow_succ]
      omega
    rw [ones_eq, hhalf, hlast, ih]

/-! ### Bytes and words -/

theorem ones_value (bs : List UInt8) : ones (value bs) = (bs.map fun b => ones b.toNat).sum := by
  induction bs with
  | nil => exact ones_zero
  | cons b bs ih =>
    have hb : b.toNat < 2 ^ 8 := b.toNat_lt
    have hvalue : value (b :: bs) = value bs * 2 ^ 8 + b.toNat := by
      rw [value]
      omega
    rw [hvalue, ones_add _ hb, ih, List.map_cons, List.sum_cons, Nat.add_comm]

theorem ones_toNat {n : Nat} (v : BitVec (8 * n)) :
    ones v.toNat = ((bytes v).map fun b => ones b.toNat).sum := by
  rw [← ones_value, bytes, Words.value_digits, ← Words.two_pow_eight_mul,
    Nat.mod_eq_of_lt v.isLt]

/-- The order of the bytes makes no difference. -/
theorem ones_swap {n : Nat} (v : BitVec (8 * n)) : ones (swap v).toNat = ones v.toNat := by
  rw [ones_toNat, ones_toNat, Words.bytes_swap, List.map_reverse, List.sum_reverse]

theorem ones_leading {w n : Nat} (h : n ≤ w) : ones (leading w n).toNat = n := by
  have hpow : 2 ^ w = 2 ^ n * 2 ^ (w - n) := by
    rw [← Nat.pow_add, Nat.add_sub_cancel' h]
  have hpos := Nat.two_pow_pos (w - n)
  have hposn := Nat.two_pow_pos n
  have hle : 2 ^ (w - n) ≤ 2 ^ w := Nat.pow_le_pow_right (by decide) (Nat.sub_le w n)
  have hvalue : (leading w n).toNat = (2 ^ n - 1) * 2 ^ (w - n) + 0 := by
    rw [leading, BitVec.toNat_shiftLeft, BitVec.toNat_allOnes, Nat.shiftLeft_eq,
      Nat.sub_mul (2 ^ n), ← hpow, Nat.one_mul, Nat.add_zero]
    -- `(2 ^ w - 1) * 2 ^ (w - n)` is a multiple of `2 ^ w` and what is left
    have hsplit :
        (2 ^ w - 1) * 2 ^ (w - n) = (2 ^ w - 2 ^ (w - n)) + 2 ^ w * (2 ^ (w - n) - 1) := by
      rw [Nat.sub_mul, Nat.mul_sub, Nat.mul_one, Nat.one_mul]
      have hmul : 2 ^ w ≤ 2 ^ w * 2 ^ (w - n) := Nat.le_mul_of_pos_right _ hpos
      omega
    rw [hsplit, Nat.add_mul_mod_self_left, Nat.mod_eq_of_lt (by omega)]
  rw [hvalue, ones_add _ hpos, ones_zero, ones_two_pow_sub_one, Nat.add_zero]

end Ones
