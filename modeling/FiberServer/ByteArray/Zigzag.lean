import FiberServer.ByteArray.Typed
import FiberServer.Library.Arithmetic

/-!
# The arithmetic of the zigzag code

`EncodeZigzag32` and `EncodeZigzag64` negate and double on the signed type, and convert to the
unsigned one only then.

* `value_encode`: with results that wrap around they are the codes of the typed calls.
* `zigzag_exact_iff`: the numbers for which every signed result is in the type.
-/

namespace FiberServer

namespace Zigzag

open Arithmetic Words FiberServer.ByteArray

/-- `if(v < 0) return ((U)(-v)) * 2 - 1; else return v * 2;`, where `U` is the unsigned type.  The
doubling of the negative is one of `U`. -/
def encode {w : Nat} (v : BitVec w) : Eval (BitVec w) :=
  if v.slt 0 then do
    let n ← neg v
    return n * 2 - 1
  else mul v 2

def EncodeZigzag32 (v : BitVec 32) : Eval (BitVec 32) := encode v
def EncodeZigzag64 (v : BitVec 64) : Eval (BitVec 64) := encode v

/-- The code of a number: no signed result is outside the type, the code is that of the zigzag
order, and it is decoded to the number. -/
structure Exact {w : Nat} (encode : BitVec w → Eval (BitVec w)) (decode : BitVec w → BitVec w)
    (v : BitVec w) : Prop where
  inType : Fault.overflow ∉ (encode v).faults
  code : ((encode v).value.toNat : Int) = if 0 ≤ v.toInt then 2 * v.toInt else -2 * v.toInt - 1
  decoded : decode (encode v).value = v

theorem value_encode {w : Nat} (v : BitVec w) : (encode v).value = zigzag v := by
  rw [encode, zigzag]
  split_ifs
  · rfl
  · rfl

theorem toInt_eq {w : Nat} (v : BitVec (w + 1)) :
    v.toInt = if 2 ^ w ≤ v.toNat then (v.toNat : Int) - (2 ^ (w + 1) : Nat) else v.toNat := by
  have hpow : 2 ^ (w + 1) = 2 * 2 ^ w := Nat.pow_succ'
  rw [BitVec.toInt_eq_toNat_cond]
  split_ifs <;> omega

theorem toNat_value_encode {w : Nat} (v : BitVec (w + 1)) :
    ((encode v).value.toNat : Int) = if 0 ≤ v.toInt then 2 * v.toInt else -2 * v.toInt - 1 := by
  have hlt := v.isLt
  have hpow : 2 ^ (w + 1) = 2 * 2 ^ w := Nat.pow_succ'
  rw [value_encode, toNat_zigzag, toInt_eq]
  split_ifs <;> omega

theorem overflow_encode {w : Nat} (hw : 2 ≤ w) (v : BitVec (w + 1)) :
    Fault.overflow ∉ (encode v).faults ↔ -2 ^ w < v.toInt ∧ 2 * v.toInt < 2 ^ w := by
  have hle : -2 ^ w ≤ v.toInt := v.le_toInt
  have hslt : v.slt 0 = true ↔ v.toInt < 0 := by
    rw [BitVec.slt_iff_toInt_lt]
    exact Iff.of_eq (congrArg (v.toInt < ·) BitVec.toInt_zero)
  rw [encode]
  split_ifs with hneg
  · have hlt := hslt.mp hneg
    rw [faults_bind, faults_pure, List.append_nil, overflow_neg]
    omega
  · have hge := mt hslt.mpr hneg
    rw [overflow_mul_two hw]
    omega

theorem exact_encode {w : Nat} (hw : 2 ≤ w) (v : BitVec (w + 1)) :
    Exact encode unzigzag v ↔ -2 ^ w < v.toInt ∧ 2 * v.toInt < 2 ^ w := by
  rw [← overflow_encode hw]
  constructor
  · intro h
    exact h.inType
  · intro h
    exact ⟨h, toNat_value_encode v, by rw [value_encode, unzigzag_zigzag]⟩

/-- **The numbers that are coded without an overflow.**  The code of a number has no signed result
outside the type, is the one of the zigzag order and is decoded to the number, if and only if twice
the number is in the type and the number is not the lowest one. -/
theorem zigzag_exact_iff (v : BitVec 32) (v' : BitVec 64) :
    (Exact EncodeZigzag32 DecodeZigzag32 v ↔ -2 ^ 31 < v.toInt ∧ v.toInt < 2 ^ 30)
      ∧ (Exact EncodeZigzag64 DecodeZigzag64 v' ↔ -2 ^ 63 < v'.toInt ∧ v'.toInt < 2 ^ 62) := by
  constructor
  · have h := exact_encode (w := 31) (by decide) v
    exact h.trans (by omega)
  · have h := exact_encode (w := 63) (by decide) v'
    exact h.trans (by omega)

/-- Half of the positive numbers, and the lowest one. -/
theorem zigzag_not_exact :
    ¬ Exact EncodeZigzag32 DecodeZigzag32 0x40000000
      ∧ ¬ Exact EncodeZigzag32 DecodeZigzag32 0x80000000
      ∧ ¬ Exact EncodeZigzag64 DecodeZigzag64 0x4000000000000000
      ∧ ¬ Exact EncodeZigzag64 DecodeZigzag64 0x8000000000000000 := by
  refine ⟨fun h => ?_, fun h => ?_, fun h => ?_, fun h => ?_⟩
  · exact h.inType (by decide)
  · exact h.inType (by decide)
  · exact h.inType (by decide)
  · exact h.inType (by decide)

end Zigzag

end FiberServer
