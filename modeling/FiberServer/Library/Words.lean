import Mathlib.Data.List.Basic
import Mathlib.Data.Nat.Digits.Defs
import Mathlib.Tactic.SplitIfs

/-!
# Words as bytes

How numbers of a fixed width are written as bytes.

* `ofBytes_bytes`, `bytes_ofBytes`: the bytes of a word, lowest first, and back;
  `swap_swap` and `bytes_swap` for the other order, `swap_and`, `swap_or` and `swap_not` for
  words of bits.
* `leading`: the words that begin with ones and end in zeros.
* `unzigzag_zigzag`: signed words as unsigned ones, small in absolute value first.
* `groups`: a number in groups of seven bits, every byte but the last with its high bit
  set.  `length_groups` and `length_groups_eq`: how many there are.
* `ungroup`: the number at the front of any bytes.  `ungroup_groups`: groups are read back;
  `ungroup_eq_none_iff`: the bytes end inside the number.
-/

namespace Words

/-! ### Bytes -/

/-- The `n` lowest bytes of a number, the lowest first. -/
def digits : Nat → Nat → List UInt8
  | 0, _ => []
  | n + 1, m => UInt8.ofNat m :: digits n (m / 256)

/-- The number with these bytes, the lowest first. -/
def value : List UInt8 → Nat
  | [] => 0
  | b :: bs => b.toNat + 256 * value bs

@[simp] theorem length_digits (n m : Nat) : (digits n m).length = n := by
  induction n generalizing m with
  | zero => rfl
  | succ n ih => rw [digits, List.length_cons, ih]

theorem value_lt (bs : List UInt8) : value bs < 256 ^ bs.length := by
  induction bs with
  | nil => exact Nat.one_pos
  | cons b bs ih =>
    have hb := b.toNat_lt
    rw [value, List.length_cons, Nat.pow_succ]
    omega

theorem value_digits (n m : Nat) : value (digits n m) = m % 256 ^ n := by
  induction n generalizing m with
  | zero => rw [Nat.pow_zero, Nat.mod_one]; rfl
  | succ n ih =>
    rw [digits, value, ih, UInt8.toNat_ofNat', Nat.pow_succ' (n := n), Nat.mod_mul]

theorem digits_value (bs : List UInt8) : digits bs.length (value bs) = bs := by
  induction bs with
  | nil => rfl
  | cons b bs ih =>
    have hb := b.toNat_lt
    have hlow : UInt8.ofNat (b.toNat + 256 * value bs) = b := by
      apply UInt8.toNat_inj.mp
      rw [UInt8.toNat_ofNat']
      omega
    have hhigh : (b.toNat + 256 * value bs) / 256 = value bs := by omega
    rw [value, List.length_cons, digits, hlow, hhigh, ih]

/-- The bytes of a word, the lowest first. -/
def bytes {n : Nat} (v : BitVec (8 * n)) : List UInt8 := digits n v.toNat

/-- The word with these bytes. -/
def ofBytes (n : Nat) (bs : List UInt8) : BitVec (8 * n) := BitVec.ofNat (8 * n) (value bs)

@[simp] theorem length_bytes {n : Nat} (v : BitVec (8 * n)) : (bytes v).length = n :=
  length_digits n v.toNat

theorem two_pow_eight_mul (n : Nat) : 2 ^ (8 * n) = 256 ^ n := by rw [Nat.pow_mul]

theorem ofBytes_bytes {n : Nat} (v : BitVec (8 * n)) : ofBytes n (bytes v) = v := by
  apply BitVec.eq_of_toNat_eq
  rw [ofBytes, bytes, BitVec.toNat_ofNat, value_digits, ← two_pow_eight_mul, Nat.mod_mod,
    Nat.mod_eq_of_lt v.isLt]

theorem bytes_ofBytes {n : Nat} {bs : List UInt8} (h : bs.length = n) :
    bytes (ofBytes n bs) = bs := by
  subst h
  have hlt : value bs < 2 ^ (8 * bs.length) := two_pow_eight_mul _ ▸ value_lt bs
  rw [bytes, ofBytes, BitVec.toNat_ofNat, Nat.mod_eq_of_lt hlt, digits_value]

/-- The bytes in the other order. -/
def swap {n : Nat} (v : BitVec (8 * n)) : BitVec (8 * n) := ofBytes n (bytes v).reverse

theorem bytes_swap {n : Nat} (v : BitVec (8 * n)) : bytes (swap v) = (bytes v).reverse :=
  bytes_ofBytes (by rw [List.length_reverse, length_bytes])

theorem swap_swap {n : Nat} (v : BitVec (8 * n)) : swap (swap v) = v := by
  rw [swap, bytes_swap, List.reverse_reverse, ofBytes_bytes]

theorem eq_of_bytes {n : Nat} {v u : BitVec (8 * n)} (h : bytes v = bytes u) : v = u := by
  rw [← ofBytes_bytes v, h, ofBytes_bytes]

/-! ### Words of bits -/

/-- An operation on numbers that works on their bytes one by one. -/
theorem digits_zipWith {f : Nat → Nat → Nat} {g : UInt8 → UInt8 → UInt8}
    (hlow : ∀ m k, UInt8.ofNat (f m k) = g (UInt8.ofNat m) (UInt8.ofNat k))
    (hhigh : ∀ m k, f m k / 256 = f (m / 256) (k / 256)) (n m k : Nat) :
    digits n (f m k) = List.zipWith g (digits n m) (digits n k) := by
  induction n generalizing m k with
  | zero => rfl
  | succ n ih => rw [digits, digits, digits, List.zipWith_cons_cons, hlow, hhigh, ih]

theorem bytes_and {n : Nat} (v u : BitVec (8 * n)) :
    bytes (v &&& u) = List.zipWith (· &&& ·) (bytes v) (bytes u) := by
  rw [bytes, BitVec.toNat_and]
  refine digits_zipWith (fun m k => ?_) (fun m k => Nat.and_div_two_pow (n := 8)) n _ _
  apply UInt8.toNat_inj.mp
  rw [UInt8.toNat_ofNat', UInt8.toNat_and, UInt8.toNat_ofNat', UInt8.toNat_ofNat',
    Nat.and_mod_two_pow]

theorem bytes_or {n : Nat} (v u : BitVec (8 * n)) :
    bytes (v ||| u) = List.zipWith (· ||| ·) (bytes v) (bytes u) := by
  rw [bytes, BitVec.toNat_or]
  refine digits_zipWith (fun m k => ?_) (fun m k => Nat.or_div_two_pow (n := 8)) n _ _
  apply UInt8.toNat_inj.mp
  rw [UInt8.toNat_ofNat', UInt8.toNat_or, UInt8.toNat_ofNat', UInt8.toNat_ofNat',
    Nat.or_mod_two_pow]

theorem digits_not {n m : Nat} (hm : m < 256 ^ n) :
    digits n (256 ^ n - 1 - m) = (digits n m).map (~~~ ·) := by
  induction n generalizing m with
  | zero => rfl
  | succ n ih =>
    rw [Nat.pow_succ'] at hm ⊢
    have hlow : UInt8.ofNat (256 * 256 ^ n - 1 - m) = ~~~ UInt8.ofNat m := by
      apply UInt8.toNat_inj.mp
      rw [UInt8.toNat_ofNat', UInt8.toNat_not, UInt8.toNat_ofNat']
      simp only [UInt8.size]
      omega
    have hhigh : (256 * 256 ^ n - 1 - m) / 256 = 256 ^ n - 1 - m / 256 := by omega
    rw [digits, digits, List.map_cons, hlow, hhigh, ih (by omega)]

theorem bytes_not {n : Nat} (v : BitVec (8 * n)) : bytes (~~~ v) = (bytes v).map (~~~ ·) := by
  have hlt := v.isLt
  rw [two_pow_eight_mul] at hlt
  rw [bytes, BitVec.toNat_not, two_pow_eight_mul, digits_not hlt, bytes]

theorem swap_and {n : Nat} (v u : BitVec (8 * n)) : swap (v &&& u) = swap v &&& swap u := by
  apply eq_of_bytes
  rw [bytes_swap, bytes_and, bytes_and, bytes_swap, bytes_swap,
    List.reverse_zipWith (by rw [length_bytes, length_bytes])]

theorem swap_or {n : Nat} (v u : BitVec (8 * n)) : swap (v ||| u) = swap v ||| swap u := by
  apply eq_of_bytes
  rw [bytes_swap, bytes_or, bytes_or, bytes_swap, bytes_swap,
    List.reverse_zipWith (by rw [length_bytes, length_bytes])]

theorem swap_not {n : Nat} (v : BitVec (8 * n)) : swap (~~~ v) = ~~~ swap v := by
  apply eq_of_bytes
  rw [bytes_swap, bytes_not, bytes_not, bytes_swap, List.map_reverse]

/-- The word of `n` ones and then zeros. -/
def leading (w n : Nat) : BitVec w := BitVec.allOnes w <<< (w - n)

theorem getMsbD_leading {w n i : Nat} (hi : i < w) : (leading w n).getMsbD i = decide (i < n) := by
  rw [leading, BitVec.getMsbD_shiftLeft, BitVec.getMsbD_allOnes]
  exact decide_eq_decide.mpr (by omega)

/-- The parts of a word in front of and behind a place are the same only if both are zero. -/
theorem and_not_eq_and_iff {w : Nat} (v m : BitVec w) : v &&& ~~~ m = v &&& m ↔ v = 0 := by
  constructor
  · intro h
    apply BitVec.eq_of_getLsbD_eq
    intro i hi
    have hbit := congrArg (fun u => u.getLsbD i) h
    simp only [BitVec.getLsbD_and, BitVec.getLsbD_not, hi, decide_true, Bool.true_and] at hbit
    rw [show (0 : BitVec w) = 0#w from rfl, BitVec.getLsbD_zero]
    cases hv : v.getLsbD i with
    | false => rfl
    | true =>
      rw [hv] at hbit
      cases hm : m.getLsbD i <;> rw [hm] at hbit <;> exact nomatch hbit
  · rintro rfl
    exact (BitVec.zero_and).trans BitVec.zero_and.symm

/-! ### Signed words -/

/-- `0, -1, 1, -2, 2, …` in this order. -/
def zigzag {w : Nat} (v : BitVec w) : BitVec w := if v.slt 0 then -v * 2 - 1 else v * 2

def unzigzag {w : Nat} (v : BitVec w) : BitVec w := (v >>> 1) ^^^ (-(v &&& 1))

theorem slt_zero_eq {w : Nat} (v : BitVec (w + 1)) : v.slt 0 = decide (2 ^ w ≤ v.toNat) := by
  rw [show (0 : BitVec (w + 1)) = 0#(w + 1) from rfl, BitVec.slt_zero_eq_msb, BitVec.msb_eq_decide]
  rfl

theorem toNat_one (w : Nat) : (1 : BitVec (w + 1)).toNat = 1 :=
  Nat.mod_eq_of_lt (Nat.one_lt_two_pow (Nat.succ_ne_zero w))

theorem toNat_zigzag {w : Nat} (v : BitVec (w + 1)) :
    (zigzag v).toNat = if 2 ^ w ≤ v.toNat then 2 * (2 ^ (w + 1) - 1 - v.toNat) + 1
      else 2 * v.toNat := by
  have hlt := v.isLt
  have hpow : 2 ^ (w + 1) = 2 * 2 ^ w := Nat.pow_succ'
  have hpos : 0 < 2 ^ w := Nat.two_pow_pos w
  have htwo : (2 : BitVec (w + 1)).toNat = 2 % 2 ^ (w + 1) := rfl
  have hone := toNat_one w
  rw [zigzag, slt_zero_eq]
  by_cases hneg : 2 ^ w ≤ v.toNat
  · have hdouble : (-v * 2).toNat = (2 ^ (w + 1) - v.toNat) * 2 % 2 ^ (w + 1) := by
      rw [BitVec.toNat_mul, htwo, Nat.mul_mod_mod, BitVec.toNat_neg, Nat.mod_mul_mod]
    rw [decide_eq_true hneg, if_pos rfl, if_pos hneg, BitVec.toNat_sub, hone, hdouble]
    rcases Nat.eq_or_lt_of_le hneg with heq | hgt
    · -- the lowest number of the width is its own negative
      have hzero : (2 ^ (w + 1) - v.toNat) * 2 % 2 ^ (w + 1) = 0 := by
        rw [← heq, hpow]
        have hhalf : (2 * 2 ^ w - 2 ^ w) * 2 = 2 * 2 ^ w := by omega
        rw [hhalf, Nat.mod_self]
      rw [hzero, Nat.add_zero, Nat.mod_eq_of_lt (by omega)]
      omega
    · rw [Nat.mod_eq_of_lt (a := (2 ^ (w + 1) - v.toNat) * 2) (by omega)]
      have hsum : 2 ^ (w + 1) - 1 + (2 ^ (w + 1) - v.toNat) * 2
          = 2 ^ (w + 1) + (2 * (2 ^ (w + 1) - 1 - v.toNat) + 1) := by omega
      rw [hsum, Nat.add_mod_left, Nat.mod_eq_of_lt (by omega)]
  · rw [decide_eq_false hneg, if_neg (by decide), if_neg hneg, BitVec.toNat_mul, htwo,
      Nat.mul_mod_mod, Nat.mod_eq_of_lt (by omega), Nat.mul_comm]

/-- The lowest bit decides. -/
theorem toNat_unzigzag {w : Nat} (u : BitVec (w + 1)) :
    (unzigzag u).toNat = if u.toNat % 2 = 0 then u.toNat / 2
      else 2 ^ (w + 1) - 1 - u.toNat / 2 := by
  have hlow : (u &&& 1).toNat = u.toNat % 2 := by
    rw [BitVec.toNat_and, toNat_one, Nat.and_one_is_mod]
  have hhalf : (u >>> 1).toNat = u.toNat / 2 := by
    rw [BitVec.toNat_ushiftRight, Nat.shiftRight_eq_div_pow, Nat.pow_one]
  rw [unzigzag]
  by_cases heven : u.toNat % 2 = 0
  · have hzero : u &&& 1 = 0#(w + 1) := by
      apply BitVec.eq_of_toNat_eq
      rw [hlow, heven, BitVec.toNat_ofNat, Nat.zero_mod]
    rw [if_pos heven, hzero, BitVec.neg_zero, BitVec.xor_zero, hhalf]
  · have hone : u &&& 1 = 1#(w + 1) := by
      apply BitVec.eq_of_toNat_eq
      rw [hlow, ← BitVec.ofNat_eq_ofNat, toNat_one]
      omega
    rw [if_neg heven, hone, BitVec.neg_one_eq_allOnes, BitVec.xor_allOnes, BitVec.toNat_not, hhalf]

theorem unzigzag_zigzag {w : Nat} (v : BitVec (w + 1)) : unzigzag (zigzag v) = v := by
  have hlt := v.isLt
  apply BitVec.eq_of_toNat_eq
  rw [toNat_unzigzag, toNat_zigzag]
  split_ifs <;> omega

/-! ### Groups of seven bits -/

/-- A number in at most `n + 1` groups, the lowest first. -/
def groups : Nat → Nat → List UInt8
  | 0, m => [UInt8.ofNat m]
  | n + 1, m => if 128 ≤ m then UInt8.ofNat (m % 128 + 128) :: groups n (m / 128)
      else [UInt8.ofNat m]

theorem length_groups (n m : Nat) : 1 ≤ (groups n m).length ∧ (groups n m).length ≤ n + 1 := by
  induction n generalizing m with
  | zero => exact ⟨Nat.le_refl 1, Nat.le_refl 1⟩
  | succ n ih =>
    rw [groups]
    split_ifs
    · rw [List.length_cons]
      have h := ih (m / 128)
      omega
    · exact ⟨Nat.le_refl 1, Nat.le_add_left 1 _⟩

/-- Without the bound on their number, there are as many groups as digits of seven bits. -/
theorem length_groups_eq {n m : Nat} (hm : m < 128 ^ (n + 1)) :
    (groups n m).length = max 1 (Nat.digits 128 m).length := by
  have hone (k : Nat) (hk : k < 128) : max 1 (Nat.digits 128 k).length = 1 := by
    rcases Nat.eq_zero_or_pos k with rfl | hpos
    · rw [Nat.digits_zero]
      rfl
    · rw [Nat.digits_of_lt 128 k (Nat.ne_of_gt hpos) hk]
      rfl
  induction n generalizing m with
  | zero => rw [groups, hone m (by omega), List.length_singleton]
  | succ n ih =>
    have hnext : m / 128 < 128 ^ (n + 1) := by
      rw [Nat.div_lt_iff_lt_mul (by decide)]
      exact hm
    rw [groups]
    by_cases hmore : 128 ≤ m
    · have hpos : m / 128 ≠ 0 := by omega
      have hdigits : 1 ≤ (Nat.digits 128 (m / 128)).length :=
        List.length_pos_iff.mpr (Nat.digits_ne_nil_iff_ne_zero.mpr hpos)
      have hsplit : Nat.digits 128 m = m % 128 :: Nat.digits 128 (m / 128) :=
        Nat.digits_def' (by decide) (by omega)
      rw [if_pos hmore, hsplit, List.length_cons, List.length_cons, ih hnext]
      omega
    · rw [if_neg hmore, hone m (by omega), List.length_singleton]

/-- The number at the front of the bytes, in at most `n` groups, and what is behind it. -/
def ungroup : Nat → List UInt8 → Option (Nat × List UInt8)
  | 0, bs => some (0, bs)
  | _ + 1, [] => none
  | n + 1, b :: bs =>
    if b < 0x80 then some (b.toNat, bs)
    else (ungroup n bs).map fun (m, rest) => (b.toNat % 128 + 128 * m, rest)

/-- Groups are read back, whatever is behind them. -/
theorem ungroup_groups {n m k : Nat} (hm : m < 128 ^ (n + 1)) (hk : n < k) (rest : List UInt8) :
    ungroup k (groups n m ++ rest) = some (m, rest) := by
  have hlast (k m : Nat) (hm : m < 128) : ungroup (k + 1) (UInt8.ofNat m :: rest) = some (m, rest) := by
    have hnat : (UInt8.ofNat m).toNat = m := by
      rw [UInt8.toNat_ofNat', Nat.mod_eq_of_lt (by omega)]
    have hlt : UInt8.ofNat m < 0x80 := by
      rw [UInt8.lt_iff_toNat_lt, hnat]
      exact hm
    rw [ungroup, if_pos hlt, hnat]
  induction n generalizing m k with
  | zero =>
    obtain ⟨k, rfl⟩ : ∃ j, k = j + 1 := ⟨k - 1, by omega⟩
    exact hlast k m (by omega)
  | succ n ih =>
    obtain ⟨k, rfl⟩ : ∃ j, k = j + 1 := ⟨k - 1, by omega⟩
    rw [groups]
    by_cases hmore : 128 ≤ m
    · have hnat : (UInt8.ofNat (m % 128 + 128)).toNat = m % 128 + 128 := by
        rw [UInt8.toNat_ofNat', Nat.mod_eq_of_lt (by omega)]
      have hge : ¬ UInt8.ofNat (m % 128 + 128) < 0x80 := by
        rw [UInt8.lt_iff_toNat_lt, hnat]
        show ¬ m % 128 + 128 < 128
        omega
      have hnext : m / 128 < 128 ^ (n + 1) := by
        rw [Nat.div_lt_iff_lt_mul (by decide)]
        exact hm
      have hsum : (m % 128 + 128) % 128 + 128 * (m / 128) = m := by omega
      rw [if_pos hmore, List.cons_append, ungroup, if_neg hge, ih hnext (by omega), hnat,
        Option.map_some]
      exact congrArg (fun sum => some (sum, rest)) hsum
    · rw [if_neg hmore]
      exact hlast k m (by omega)

/-- The bytes end inside the number. -/
theorem ungroup_eq_none_iff {n : Nat} {bs : List UInt8} :
    ungroup n bs = none ↔ bs.length < n ∧ ∀ b ∈ bs, 0x80 ≤ b := by
  induction n generalizing bs with
  | zero => simp [ungroup]
  | succ n ih =>
    cases bs with
    | nil => simp [ungroup]
    | cons b bs =>
      rw [ungroup]
      by_cases hlast : b < 0x80
      · have hnot : ¬ 0x80 ≤ b := UInt8.not_le.mpr hlast
        simp [hlast, hnot]
      · have hmore : 0x80 ≤ b := UInt8.not_lt.mp hlast
        rw [if_neg hlast, Option.map_eq_none_iff, ih, List.forall_mem_cons, List.length_cons,
          Nat.add_lt_add_iff_right]
        simp only [hmore, true_and]

theorem length_lt_of_ungroup {n m : Nat} {bs rest : List UInt8}
    (h : ungroup (n + 1) bs = some (m, rest)) : rest.length < bs.length := by
  induction n generalizing bs m with
  | zero =>
    cases bs with
    | nil => exact nomatch h
    | cons b bs =>
      rw [ungroup] at h
      split_ifs at h with hlast
      · cases h
        exact Nat.lt_succ_self _
      · cases h
        exact Nat.lt_succ_self _
  | succ n ih =>
    cases bs with
    | nil => exact nomatch h
    | cons b bs =>
      rw [ungroup] at h
      split_ifs at h with hlast
      · cases h
        exact Nat.lt_succ_self _
      · obtain ⟨⟨m', rest'⟩, hm, heq⟩ := Option.map_eq_some_iff.mp h
        cases heq
        exact Nat.lt_succ_of_lt (ih hm)

end Words
