import Mathlib.Algebra.Order.Ring.Int
import Mathlib.Tactic.SplitIfs

/-!
# Integer expressions with their faults

An expression is evaluated with results that wrap around, and with a record of what the language
leaves undefined on the way: a signed result that is not in the type, a shift by the width of
the type or more, and an index that is not in the array.

* `overflow_neg`, `overflow_mul_two`: when a negation and a doubling are not in the type.
-/

namespace Arithmetic

inductive Fault
  /-- the exact result of a signed operation is not in the type -/
  | overflow
  /-- the shift count is not below the width -/
  | shift
  /-- the index is not below the size -/
  | index
  deriving DecidableEq, Repr

structure Eval (α : Type) where
  value : α
  faults : List Fault
  deriving DecidableEq, Repr

instance : Monad Eval where
  pure a := ⟨a, []⟩
  bind x f := ⟨(f x.value).value, x.faults ++ (f x.value).faults⟩

@[simp] theorem value_pure {α : Type} (a : α) : (pure a : Eval α).value = a := rfl

@[simp] theorem faults_pure {α : Type} (a : α) : (pure a : Eval α).faults = [] := rfl

@[simp] theorem value_bind {α β : Type} (x : Eval α) (f : α → Eval β) :
    (x >>= f).value = (f x.value).value := rfl

@[simp] theorem faults_bind {α β : Type} (x : Eval α) (f : α → Eval β) :
    (x >>= f).faults = x.faults ++ (f x.value).faults := rfl

variable {w : Nat}

/-- `-v` of a signed type -/
def neg (v : BitVec w) : Eval (BitVec w) := ⟨-v, if v.negOverflow then [.overflow] else []⟩

/-- `v * u` of a signed type -/
def mul (v u : BitVec w) : Eval (BitVec w) :=
  ⟨v * u, if v.smulOverflow u then [.overflow] else []⟩

/-- `v - u` of a signed type -/
def sub (v u : BitVec w) : Eval (BitVec w) :=
  ⟨v - u, if v.ssubOverflow u then [.overflow] else []⟩

/-- `v << n`.  Of a count that is too large, machines take the rest by the width. -/
def shl (v : BitVec w) (n : Nat) : Eval (BitVec w) :=
  ⟨v <<< (n % w), if n < w then [] else [.shift]⟩

theorem overflow_neg (v : BitVec (w + 1)) :
    Fault.overflow ∉ (neg v).faults ↔ -2 ^ w < v.toInt := by
  have hle : -2 ^ w ≤ v.toInt := v.le_toInt
  have hiff : v.negOverflow = true ↔ v.toInt = -2 ^ w := beq_iff_eq
  rw [neg]
  split_ifs with h
  · have heq := hiff.mp h
    simp only [List.mem_singleton, not_true_eq_false, false_iff]
    omega
  · have hne := mt hiff.mpr h
    simp only [List.not_mem_nil, not_false_eq_true, true_iff]
    omega

theorem toInt_two (hw : 2 ≤ w) : (2 : BitVec (w + 1)).toInt = 2 := by
  have hpow : 2 ^ 2 ≤ 2 ^ w := Nat.pow_le_pow_right (by decide) hw
  have hlt : 2 * 2 < 2 ^ (w + 1) := by
    rw [Nat.pow_succ]
    omega
  have hnat : (2 : BitVec (w + 1)).toNat = 2 % 2 ^ (w + 1) := rfl
  rw [Nat.mod_eq_of_lt (by omega)] at hnat
  rw [BitVec.toInt_eq_toNat_cond, hnat, if_pos hlt]
  rfl

theorem overflow_mul_two (hw : 2 ≤ w) (v : BitVec (w + 1)) :
    Fault.overflow ∉ (mul v 2).faults ↔ -2 ^ w ≤ 2 * v.toInt ∧ 2 * v.toInt < 2 ^ w := by
  have hiff : v.smulOverflow 2 = true ↔ 2 ^ w ≤ v.toInt * 2 ∨ v.toInt * 2 < -2 ^ w := by
    rw [BitVec.smulOverflow, toInt_two hw, Bool.or_eq_true, decide_eq_true_iff, decide_eq_true_iff]
    rfl
  rw [mul]
  split_ifs with h
  · have hout := hiff.mp h
    simp only [List.mem_singleton, not_true_eq_false, false_iff]
    omega
  · have hin := mt hiff.mpr h
    simp only [List.not_mem_nil, not_false_eq_true, true_iff]
    omega

end Arithmetic
