import FiberServer.Chunk.FSUtil
import FiberServer.Library.Blocks
import FiberServer.Library.Words

/-!
# `base64encode` and `base64decode`

The encoder packs up to three bytes into an `unsigned int` and appends four characters; the decoder
packs four characters into an `int` and writes up to three bytes through a pointer.  Here the
pointers to the text and to the bytes are what is left of them, and the one that is written through
is a position.

* `decodeLoop_encode`: what the decoder writes for an encoded text.
* `packed_text`, `writeBuf_le`: which texts a group is read from, and how far the decoder writes.
* `base64_roundTrip`: all of it.
-/

namespace FiberServer

namespace Base64

open Blocks

def base64 : Bytes :=
  "ABCDEFGHIJKLMNOPQRSTUVWXYZabcdefghijklmnopqrstuvwxyz0123456789+/".toList.map Char.toUInt8

/-- What an inner loop leaves: the number of its rounds, what it has packed, and the rest. -/
structure Group where
  i : Nat
  padding : Nat
  packed : BitVec 32
  ptr : Bytes
  deriving DecidableEq, Repr

/-! ### Encoding -/

/-- `for(; i < 3 && ptr < end; ++i, ++ptr)` -/
def packBytes (i : Nat) (packed : BitVec 32) : Bytes → Group
  | [] => ⟨i, 0, packed, []⟩
  | b :: ptr =>
    if i < 3 then packBytes (i + 1) (packed <<< 8 ||| b.toBitVec.setWidth 32) ptr
    else ⟨i, 0, packed, b :: ptr⟩

/-- What is appended for a group. -/
def appended (g : Group) : Bytes :=
  let padding := if g.i = 2 then 1 else if g.i = 1 then 2 else 0
  let packed := (fun packed : BitVec 32 => packed <<< 8)^[3 - g.i] g.packed
  [base64.getD (packed >>> 18).toNat 0, base64.getD (packed >>> 12 &&& 0x3f).toNat 0]
    ++ (if padding ≠ 2 then [base64.getD (packed >>> 6 &&& 0x3f).toNat 0] else [])
    ++ (if padding = 0 then [base64.getD (packed &&& 0x3f).toNat 0] else [])
    ++ List.replicate padding '='.toUInt8

theorem length_packBytes_le (i : Nat) (packed : BitVec 32) (ptr : Bytes) :
    (packBytes i packed ptr).ptr.length ≤ ptr.length := by
  induction ptr generalizing i packed with
  | nil => exact Nat.le_refl _
  | cons b ptr ih =>
    rw [packBytes]
    split_ifs
    · exact Nat.le_succ_of_le (ih _ _)
    · exact Nat.le_refl _

/-- `while(ptr < end)` -/
def encodeLoop : Bytes → Bytes → Bytes
  | [], ret => ret
  | b :: ptr, ret =>
    encodeLoop (packBytes 0 0 (b :: ptr)).ptr (ret ++ appended (packBytes 0 0 (b :: ptr)))
  termination_by ptr => ptr.length
  decreasing_by exact Nat.lt_succ_of_le (length_packBytes_le 1 _ ptr)

def base64encode (data : Bytes) : Bytes := encodeLoop data []

/-! ### Decoding -/

/-- `val`, unless the character is invalid. -/
def value (c : UInt8) : Option (BitVec 32) :=
  if 'A'.toUInt8 ≤ c ∧ c ≤ 'Z'.toUInt8 then some ((c - 'A'.toUInt8).toBitVec.setWidth 32)
  else if 'a'.toUInt8 ≤ c ∧ c ≤ 'z'.toUInt8 then some ((c - 'a'.toUInt8).toBitVec.setWidth 32 + 26)
  else if '0'.toUInt8 ≤ c ∧ c ≤ '9'.toUInt8 then some ((c - '0'.toUInt8).toBitVec.setWidth 32 + 52)
  else if c = '+'.toUInt8 then some 62
  else if c = '/'.toUInt8 then some 63
  else none

/-- `for(; i < 4 && ptr < end; ++i, ++ptr)`; nothing where the function returns `""`. -/
def packChars (i padding : Nat) (packed : BitVec 32) : Bytes → Option Group
  | [] => some ⟨i, padding, packed, []⟩
  | c :: ptr =>
    if i < 4 then
      if c = '='.toUInt8 then packChars (i + 1) (padding + 1) (packed <<< 6) ptr
      else if padding > 0 then none
      else
        match value c with
        | some val => packChars (i + 1) padding (packed <<< 6 ||| val) ptr
        | none => none
    else some ⟨i, padding, packed, c :: ptr⟩

/-- The bytes that are written for a group. -/
def written (g : Group) : Bytes :=
  [UInt8.ofBitVec ((g.packed >>> 16 &&& 0xff).setWidth 8)]
    ++ (if g.padding ≠ 2 then [UInt8.ofBitVec ((g.packed >>> 8 &&& 0xff).setWidth 8)] else [])
    ++ (if g.padding = 0 then [UInt8.ofBitVec ((g.packed &&& 0xff).setWidth 8)] else [])

/-- `*writeBuf++ = b` for one byte after the other. -/
def writeAll : Bytes → Nat → Bytes → Nat × Bytes
  | [], writeBuf, result => (writeBuf, result)
  | b :: bs, writeBuf, result => writeAll bs (writeBuf + 1) (result.set writeBuf b)

/-- The end of the decoder: whether it goes on to the end of the text, and where it writes to. -/
structure Decoded where
  complete : Bool
  writeBuf : Nat
  result : Bytes
  deriving DecidableEq, Repr

theorem length_packChars_le {i padding : Nat} {packed : BitVec 32} {ptr : Bytes} {g : Group}
    (h : packChars i padding packed ptr = some g) : g.ptr.length ≤ ptr.length := by
  induction ptr generalizing i padding packed with
  | nil =>
    cases h
    exact Nat.le_refl _
  | cons c ptr ih =>
    rw [packChars] at h
    split_ifs at h
    · exact Nat.le_succ_of_le (ih h)
    · split at h
      · exact Nat.le_succ_of_le (ih h)
      · exact nomatch h
    · cases h
      exact Nat.le_refl _

/-- The first character of a group is taken. -/
theorem length_packChars_lt {c : UInt8} {ptr : Bytes} {g : Group}
    (h : packChars 0 0 0 (c :: ptr) = some g) : g.ptr.length < (c :: ptr).length := by
  rw [packChars, if_pos (by decide)] at h
  split_ifs at h
  · exact Nat.lt_succ_of_le (length_packChars_le h)
  · split at h
    · exact Nat.lt_succ_of_le (length_packChars_le h)
    · exact nomatch h

/-- `while(ptr < end)` -/
def decodeLoop : Bytes → (writeBuf : Nat) → (result : Bytes) → Decoded
  | [], writeBuf, result => ⟨true, writeBuf, result⟩
  | c :: ptr, writeBuf, result =>
    match _ : packChars 0 0 0 (c :: ptr) with
    | none => ⟨false, writeBuf, result⟩
    | some g =>
      if g.i ≠ 4 then ⟨false, writeBuf, result⟩
      else if g.padding > 0 ∧ g.ptr ≠ [] then ⟨false, writeBuf, result⟩
      else if g.padding > 2 then ⟨false, writeBuf, result⟩
      else
        let w := writeAll (written g) writeBuf result
        decodeLoop g.ptr w.1 w.2
  termination_by ptr => ptr.length
  decreasing_by exact length_packChars_lt ‹_›

/-- The loop over the text `src`, with the buffer of the result. -/
def decodeRun (src : Bytes) : Decoded := decodeLoop src 0 (List.replicate (src.length * 3 / 4) 0)

def base64decode (src : Bytes) : Bytes :=
  if (decodeRun src).complete then (decodeRun src).result.take (decodeRun src).writeBuf else []

/-! ### Six and eight bits -/

/-- The character of a number. -/
def char (n : Nat) : UInt8 := base64.getD n 0

theorem value_char : ∀ n < 64, value (char n) = some (BitVec.ofNat 32 n) ∧ char n ≠ '='.toUInt8
    ∧ char n ∈ base64 := by
  decide +kernel

theorem mem_of_value {c : UInt8} (h : (value c).isSome) : c ∈ base64 := by
  have hall : ∀ c : BitVec 8, (value ⟨c⟩).isSome → (⟨c⟩ : UInt8) ∈ base64 := by
    decide +kernel
  exact hall c.toBitVec h

/-- Bits behind other bits. -/
theorem toNat_shl_or {x y : BitVec 32} {k : Nat} (hx : x.toNat * 2 ^ k < 2 ^ 32)
    (hy : y.toNat < 2 ^ k) : (x <<< k ||| y).toNat = x.toNat * 2 ^ k + y.toNat := by
  rw [BitVec.toNat_or, BitVec.toNat_shiftLeft, Nat.shiftLeft_eq, Nat.mod_eq_of_lt hx,
    ← Nat.shiftLeft_eq, Nat.shiftLeft_add_eq_or_of_lt hy]

theorem toNat_shr_and {x : BitVec 32} {k m : Nat} (hm : m < 32) :
    (x >>> k &&& BitVec.ofNat 32 (2 ^ m - 1)).toNat = x.toNat / 2 ^ k % 2 ^ m := by
  have hlt : 2 ^ m < 2 ^ 32 := Nat.pow_lt_pow_right (by decide) hm
  rw [BitVec.toNat_and, BitVec.toNat_ushiftRight, BitVec.toNat_ofNat,
    Nat.mod_eq_of_lt (by omega), Nat.and_two_pow_sub_one_eq_mod, Nat.shiftRight_eq_div_pow]

/-! ### What the encoder writes -/

/-- The characters of the three bytes `a`, `b`, `c`. -/
def chars (a b c : UInt8) : Bytes :=
  let n := a.toNat * 2 ^ 16 + b.toNat * 2 ^ 8 + c.toNat
  [char (n / 2 ^ 18), char (n / 2 ^ 12 % 64), char (n / 2 ^ 6 % 64), char (n % 64)]

/-- A text of bytes: of the last one or two only the characters that they have bits in. -/
def encode : Bytes → Bytes
  | [] => []
  | [a] => (chars a 0 0).take 2 ++ ['='.toUInt8, '='.toUInt8]
  | [a, b] => (chars a b 0).take 3 ++ ['='.toUInt8]
  | a :: b :: c :: rest => chars a b c ++ encode rest

theorem toNat_byte (b : UInt8) : (b.toBitVec.setWidth 32).toNat = b.toNat := by
  rw [BitVec.toNat_setWidth, UInt8.toNat_toBitVec]
  exact Nat.mod_eq_of_lt (Nat.lt_trans b.toNat_lt (by decide))

/-- The groups of six bits of a number. -/
theorem toNat_sextets {p : BitVec 32} {n : Nat} (h : p.toNat = n) :
    (p >>> 18).toNat = n / 2 ^ 18 ∧ (p >>> 12 &&& 0x3f).toNat = n / 2 ^ 12 % 64
      ∧ (p >>> 6 &&& 0x3f).toNat = n / 2 ^ 6 % 64 ∧ (p &&& 0x3f).toNat = n % 64 := by
  subst h
  refine ⟨?_, toNat_shr_and (m := 6) (by decide), toNat_shr_and (m := 6) (by decide), ?_⟩
  · rw [BitVec.toNat_ushiftRight, Nat.shiftRight_eq_div_pow]
  · have hshift := toNat_shr_and (x := p) (k := 0) (m := 6) (by decide)
    rw [BitVec.ushiftRight_zero, Nat.pow_zero, Nat.div_one] at hshift
    exact hshift

section

variable {packed : BitVec 32} {ptr : Bytes} {a b c : UInt8}

theorem appended_one
    (h : (packed <<< 8 <<< 8).toNat = a.toNat * 2 ^ 16 + b.toNat * 2 ^ 8 + c.toNat) :
    appended ⟨1, 0, packed, ptr⟩ = (chars a b c).take 2 ++ ['='.toUInt8, '='.toUInt8] := by
  obtain ⟨h18, h12, -, -⟩ := toNat_sextets h
  have hpacked : (fun packed : BitVec 32 => packed <<< 8)^[3 - 1] packed = packed <<< 8 <<< 8 := rfl
  simp only [appended, hpacked, h18, h12]
  rfl

theorem appended_two
    (h : (packed <<< 8).toNat = a.toNat * 2 ^ 16 + b.toNat * 2 ^ 8 + c.toNat) :
    appended ⟨2, 0, packed, ptr⟩ = (chars a b c).take 3 ++ ['='.toUInt8] := by
  obtain ⟨h18, h12, h6, -⟩ := toNat_sextets h
  have hpacked : (fun packed : BitVec 32 => packed <<< 8)^[3 - 2] packed = packed <<< 8 := rfl
  simp only [appended, hpacked, h18, h12, h6]
  rfl

theorem appended_three (h : packed.toNat = a.toNat * 2 ^ 16 + b.toNat * 2 ^ 8 + c.toNat) :
    appended ⟨3, 0, packed, ptr⟩ = chars a b c := by
  obtain ⟨h18, h12, h6, h0⟩ := toNat_sextets h
  have hpacked : (fun packed : BitVec 32 => packed <<< 8)^[3 - 3] packed = packed := rfl
  simp only [appended, hpacked, h18, h12, h6, h0]
  rfl

end

/-- The number that is packed. -/
def pack (a b c : UInt8) : BitVec 32 :=
  (((0 : BitVec 32) <<< 8 ||| a.toBitVec.setWidth 32) <<< 8 ||| b.toBitVec.setWidth 32) <<< 8
    ||| c.toBitVec.setWidth 32

theorem toNat_pack (a b c : UInt8) :
    (pack a b c).toNat = a.toNat * 2 ^ 16 + b.toNat * 2 ^ 8 + c.toNat := by
  have hbyte (x : UInt8) : (x.toBitVec.setWidth 32).toNat < 2 ^ 8 := toNat_byte x ▸ x.toNat_lt
  have ha := a.toNat_lt
  have hb := b.toNat_lt
  have hsum : (a.toNat * 2 ^ 8 + b.toNat) * 2 ^ 8 + c.toNat
      = a.toNat * 2 ^ 16 + b.toNat * 2 ^ 8 + c.toNat := by
    rw [Nat.add_mul, Nat.mul_assoc, ← Nat.pow_add]
  have hzero : (0 : BitVec 32).toNat * 2 ^ 8 = 0 := rfl
  have h1 : ((0 : BitVec 32) <<< 8 ||| a.toBitVec.setWidth 32).toNat = a.toNat := by
    rw [toNat_shl_or (by decide) (hbyte a), toNat_byte, hzero, Nat.zero_add]
  have h2 : (((0 : BitVec 32) <<< 8 ||| a.toBitVec.setWidth 32) <<< 8
        ||| b.toBitVec.setWidth 32).toNat
      = a.toNat * 2 ^ 8 + b.toNat := by
    rw [toNat_shl_or (by rw [h1]; omega) (hbyte b), toNat_byte, h1]
  rw [pack, toNat_shl_or (by rw [h2]; omega) (hbyte c), toNat_byte, h2, hsum]

theorem packBytes_cons {i : Nat} (hi : i < 3) (packed : BitVec 32) (b : UInt8) (ptr : Bytes) :
    packBytes i packed (b :: ptr)
      = packBytes (i + 1) (packed <<< 8 ||| b.toBitVec.setWidth 32) ptr := by
  rw [packBytes, if_pos hi]

theorem packBytes_three (packed : BitVec 32) (ptr : Bytes) :
    packBytes 3 packed ptr = ⟨3, 0, packed, ptr⟩ := by
  cases ptr with
  | nil => rw [packBytes]
  | cons b ptr => rw [packBytes, if_neg (Nat.lt_irrefl 3)]

theorem or_zero_byte (x : BitVec 32) : x ||| (0 : UInt8).toBitVec.setWidth 32 = x := BitVec.or_zero

/-- **What `base64encode` makes of the bytes.** -/
theorem encodeLoop_eq (data : Bytes) (ret : Bytes) : encodeLoop data ret = ret ++ encode data := by
  induction data using encode.induct generalizing ret with
  | case1 => rw [encodeLoop, encode, List.append_nil]
  | case2 a =>
    have hpacked := toNat_pack a 0 0
    rw [pack, or_zero_byte, or_zero_byte] at hpacked
    rw [encodeLoop, packBytes_cons (by decide), packBytes, appended_one hpacked, encodeLoop, encode]
  | case3 a b =>
    have hpacked := toNat_pack a b 0
    rw [pack, or_zero_byte] at hpacked
    rw [encodeLoop, packBytes_cons (by decide), packBytes_cons (by decide), packBytes,
      appended_two hpacked, encodeLoop, encode]
  | case4 a b c rest ih =>
    rw [encodeLoop, packBytes_cons (by decide), packBytes_cons (by decide),
      packBytes_cons (by decide), packBytes_three, ← pack, appended_three (toNat_pack a b c), ih,
      encode, List.append_assoc]

@[simp] theorem length_chars (a b c : UInt8) : (chars a b c).length = 4 := rfl

theorem length_encode (data : Bytes) : (encode data).length = 4 * ((data.length + 2) / 3) := by
  induction data using encode.induct with
  | case1 => rfl
  | case2 a => simp [encode]
  | case3 a b => simp [encode]
  | case4 a b c rest ih =>
    rw [encode, List.length_append, ih, List.length_cons, List.length_cons, List.length_cons]
    rw [length_chars]
    omega

/-- A text of the alphabet that ends in at most two `=`. -/
structure WellFormed (t : Bytes) : Prop where
  groups : t.length % 4 = 0
  text : ∃ body padding, t = body ++ List.replicate padding '='.toUInt8 ∧ padding ≤ 2
    ∧ ∀ c ∈ body, c ∈ base64

theorem WellFormed.append {group rest : Bytes} (hlen : group.length = 4)
    (hgroup : ∀ c ∈ group, c ∈ base64) (h : WellFormed rest) : WellFormed (group ++ rest) := by
  obtain ⟨hgroups, body, padding, rfl, hpadding, hbody⟩ := h
  refine ⟨by rw [List.length_append, hlen]; omega, group ++ body, padding,
    (List.append_assoc ..).symm, hpadding, fun c hc => ?_⟩
  obtain hc | hc := List.mem_append.mp hc
  · exact hgroup c hc
  · exact hbody c hc

theorem mem_of_mem_chars {a b c d : UInt8} (h : d ∈ chars a b c) : d ∈ base64 := by
  have ha := a.toNat_lt
  have hb := b.toNat_lt
  have hc := c.toNat_lt
  simp only [chars, List.mem_cons, List.not_mem_nil, or_false] at h
  obtain rfl | rfl | rfl | rfl := h
  · exact (value_char _ (by omega)).2.2
  · exact (value_char _ (by omega)).2.2
  · exact (value_char _ (by omega)).2.2
  · exact (value_char _ (by omega)).2.2

theorem wellFormed_encode (data : Bytes) : WellFormed (encode data) := by
  induction data using encode.induct with
  | case1 =>
    rw [encode]
    exact ⟨rfl, [], 0, rfl, by decide, fun _ h => absurd h List.not_mem_nil⟩
  | case2 a =>
    rw [encode]
    exact ⟨by simp, (chars a 0 0).take 2, 2, rfl, by decide,
      fun c hc => mem_of_mem_chars (List.mem_of_mem_take hc)⟩
  | case3 a b =>
    rw [encode]
    exact ⟨by simp, (chars a b 0).take 3, 1, rfl, by decide,
      fun c hc => mem_of_mem_chars (List.mem_of_mem_take hc)⟩
  | case4 a b c rest ih =>
    rw [encode]
    exact ih.append rfl fun c hc => mem_of_mem_chars hc

/-! ### What the decoder writes -/

theorem writeAll_eq (bs : Bytes) : ∀ {writeBuf : Nat} {result : Bytes},
    writeBuf + bs.length ≤ result.length →
    writeAll bs writeBuf result = (writeBuf + bs.length, overwrite result writeBuf bs) := by
  induction bs with
  | nil =>
    intro writeBuf result _
    rw [writeAll, overwrite_nil]
    rfl
  | cons b bs ih =>
    intro writeBuf result hroom
    rw [List.length_cons] at hroom
    rw [writeAll, ih (by rw [List.length_set]; omega), overwrite_set (by omega), List.length_cons,
      Nat.add_assoc, Nat.add_comm 1]

theorem writeBuf_writeAll (bs : Bytes) (writeBuf : Nat) (result : Bytes) :
    (writeAll bs writeBuf result).1 = writeBuf + bs.length := by
  induction bs generalizing writeBuf result with
  | nil => rfl
  | cons b bs ih => rw [writeAll, ih, List.length_cons, Nat.add_assoc, Nat.add_comm 1]

theorem packChars_char {i n : Nat} (hi : i < 4) (hn : n < 64) (packed : BitVec 32) (ptr : Bytes) :
    packChars i 0 packed (char n :: ptr)
      = packChars (i + 1) 0 (packed <<< 6 ||| BitVec.ofNat 32 n) ptr := by
  obtain ⟨hvalue, hne, -⟩ := value_char n hn
  rw [packChars, if_pos hi, if_neg hne, if_neg (Nat.lt_irrefl 0), hvalue]

theorem packChars_padding {i : Nat} (hi : i < 4) (padding : Nat) (packed : BitVec 32)
    (ptr : Bytes) :
    packChars i padding packed ('='.toUInt8 :: ptr)
      = packChars (i + 1) (padding + 1) (packed <<< 6 ||| BitVec.ofNat 32 0) ptr := by
  rw [packChars, if_pos hi, if_pos rfl, BitVec.or_zero]

theorem packChars_four (padding : Nat) (packed : BitVec 32) (ptr : Bytes) :
    packChars 4 padding packed ptr = some ⟨4, padding, packed, ptr⟩ := by
  cases ptr with
  | nil => rw [packChars]
  | cons c ptr => rw [packChars, if_neg (Nat.lt_irrefl 4)]

/-- The number that is packed of four characters. -/
def unpack (n : Nat) : BitVec 32 :=
  ((((0 : BitVec 32) <<< 6 ||| BitVec.ofNat 32 (n / 2 ^ 18)) <<< 6
    ||| BitVec.ofNat 32 (n / 2 ^ 12 % 64)) <<< 6 ||| BitVec.ofNat 32 (n / 2 ^ 6 % 64)) <<< 6
    ||| BitVec.ofNat 32 (n % 64)

/-- One more group of six bits. -/
theorem toNat_push {x : BitVec 32} {n m : Nat} (hx : x.toNat = n / 64) (hn : n < 2 ^ 24)
    (hm : m = n % 64) : (x <<< 6 ||| BitVec.ofNat 32 m).toNat = n := by
  have hlow : (BitVec.ofNat 32 m).toNat = n % 64 := by
    rw [BitVec.toNat_ofNat, hm]
    omega
  rw [toNat_shl_or (by rw [hx]; omega) (by rw [hlow]; omega), hx, hlow]
  omega

theorem toNat_unpack {n : Nat} (hn : n < 2 ^ 24) : (unpack n).toNat = n := by
  have h1 : ((0 : BitVec 32) <<< 6 ||| BitVec.ofNat 32 (n / 2 ^ 18)).toNat = n / 64 / 64 / 64 :=
    toNat_push (show 0 = _ by omega) (by omega) (by omega)
  have h2 := toNat_push (m := n / 2 ^ 12 % 64) h1 (by omega) (by omega)
  have h3 := toNat_push (m := n / 2 ^ 6 % 64) h2 (by omega) (by omega)
  exact toNat_push h3 hn rfl

/-- The bytes that are written for a group. -/
theorem written_eq {a b c : UInt8} {padding : Nat} {packed : BitVec 32} (i : Nat) (ptr : Bytes)
    (h : packed.toNat = a.toNat * 2 ^ 16 + b.toNat * 2 ^ 8 + c.toNat) (hpadding : padding ≤ 2) :
    written ⟨i, padding, packed, ptr⟩ = [a, b, c].take (3 - padding) := by
  have ha := a.toNat_lt
  have hb := b.toNat_lt
  have hc := c.toNat_lt
  have hbyte (x : BitVec 32) (d : UInt8) (hx : x.toNat = d.toNat) :
      UInt8.ofBitVec (x.setWidth 8) = d := by
    apply UInt8.toNat_inj.mp
    rw [UInt8.toNat_ofBitVec, BitVec.toNat_setWidth, hx, Nat.mod_eq_of_lt d.toNat_lt]
  have h16 := hbyte (packed >>> 16 &&& 0xff) a
    ((toNat_shr_and (m := 8) (by decide)).trans (by rw [h]; omega))
  have h8 := hbyte (packed >>> 8 &&& 0xff) b
    ((toNat_shr_and (m := 8) (by decide)).trans (by rw [h]; omega))
  have h0 := hbyte (packed >>> 0 &&& 0xff) c
    ((toNat_shr_and (m := 8) (by decide)).trans (by rw [h]; omega))
  rw [BitVec.ushiftRight_zero] at h0
  simp only [written, h16, h8, h0]
  obtain rfl | rfl | rfl : padding = 0 ∨ padding = 1 ∨ padding = 2 := by omega
  · rfl
  · rfl
  · rfl

/-- A round of the loop that goes on. -/
theorem decodeLoop_group {text ptr bs result : Bytes} {padding writeBuf : Nat} {packed : BitVec 32}
    (hgroup : packChars 0 0 0 text = some ⟨4, padding, packed, ptr⟩) (htext : text ≠ [])
    (hpadding : padding ≤ 2) (hend : 0 < padding → ptr = [])
    (hbs : written ⟨4, padding, packed, ptr⟩ = bs) (hroom : writeBuf + bs.length ≤ result.length) :
    decodeLoop text writeBuf result
      = decodeLoop ptr (writeBuf + bs.length) (overwrite result writeBuf bs) := by
  cases text with
  | nil => exact absurd rfl htext
  | cons c text =>
    rw [decodeLoop]
    split
    · rename_i h
      rw [hgroup] at h
      exact nomatch h
    · rename_i g h
      rw [hgroup] at h
      cases h
      rw [if_neg (by simp), if_neg (fun h => h.2 (hend h.1)), if_neg (by simpa using hpadding), hbs]
      simp only [writeAll_eq bs hroom]

section

variable {n : Nat} (rest : Bytes)

theorem packChars_three (hn : n < 2 ^ 24) :
    packChars 0 0 0 (char (n / 2 ^ 18) :: char (n / 2 ^ 12 % 64) :: char (n / 2 ^ 6 % 64)
      :: char (n % 64) :: rest) = some ⟨4, 0, unpack n, rest⟩ := by
  rw [packChars_char (by decide) (by omega), packChars_char (by decide) (by omega),
    packChars_char (by decide) (by omega), packChars_char (by decide) (by omega), packChars_four,
    unpack]

theorem packChars_two (hn : n < 2 ^ 24) (hzero : n % 64 = 0) :
    packChars 0 0 0 (char (n / 2 ^ 18) :: char (n / 2 ^ 12 % 64) :: char (n / 2 ^ 6 % 64)
      :: '='.toUInt8 :: rest) = some ⟨4, 1, unpack n, rest⟩ := by
  rw [packChars_char (by decide) (by omega), packChars_char (by decide) (by omega),
    packChars_char (by decide) (by omega), packChars_padding (by decide), packChars_four, unpack,
    hzero]

theorem packChars_one (hn : n < 2 ^ 24) (hzero : n % 2 ^ 12 = 0) :
    packChars 0 0 0 (char (n / 2 ^ 18) :: char (n / 2 ^ 12 % 64) :: '='.toUInt8 :: '='.toUInt8
      :: rest) = some ⟨4, 2, unpack n, rest⟩ := by
  have hsix : n / 2 ^ 6 % 64 = 0 := by omega
  have hlow : n % 64 = 0 := by omega
  rw [packChars_char (by decide) (by omega), packChars_char (by decide) (by omega),
    packChars_padding (by decide), packChars_padding (by decide), packChars_four, unpack, hsix,
    hlow]

end

/-- **An encoded text is decoded to the bytes.** -/
theorem decodeLoop_encode (data : Bytes) : ∀ {writeBuf : Nat} {result : Bytes},
    writeBuf + data.length ≤ result.length →
    decodeLoop (encode data) writeBuf result
      = ⟨true, writeBuf + data.length, overwrite result writeBuf data⟩ := by
  have hlt (a b c : UInt8) : a.toNat * 2 ^ 16 + b.toNat * 2 ^ 8 + c.toNat < 2 ^ 24 := by
    have ha := a.toNat_lt
    have hb := b.toNat_lt
    have hc := c.toNat_lt
    omega
  induction data using encode.induct with
  | case1 =>
    intro writeBuf result _
    rw [encode, decodeLoop, overwrite_nil]
    rfl
  | case2 a =>
    intro writeBuf result hroom
    have hgroup := packChars_one [] (hlt a 0 0) (by
      show (a.toNat * 2 ^ 16 + 0 * 2 ^ 8 + 0) % 2 ^ 12 = 0
      omega)
    have hbs := written_eq 4 [] (toNat_unpack (hlt a 0 0)) (Nat.le_refl 2)
    rw [encode]
    exact (decodeLoop_group hgroup (List.cons_ne_nil _ _) (Nat.le_refl 2) (fun _ => rfl) hbs
      hroom).trans (by rw [decodeLoop]; rfl)
  | case3 a b =>
    intro writeBuf result hroom
    have hgroup := packChars_two [] (hlt a b 0) (by
      show (a.toNat * 2 ^ 16 + b.toNat * 2 ^ 8 + 0) % 64 = 0
      omega)
    have hbs := written_eq 4 [] (toNat_unpack (hlt a b 0)) (by decide : 1 ≤ 2)
    rw [encode]
    exact (decodeLoop_group hgroup (List.cons_ne_nil _ _) (by decide) (fun _ => rfl) hbs
      hroom).trans (by rw [decodeLoop]; rfl)
  | case4 a b c rest ih =>
    intro writeBuf result hroom
    rw [List.length_cons, List.length_cons, List.length_cons] at hroom
    have hbytes : writeBuf + [a, b, c].length ≤ result.length := by
      show _ + 3 ≤ _
      omega
    have hgroup := packChars_three (encode rest) (hlt a b c)
    have hbs := written_eq 4 (encode rest) (toNat_unpack (hlt a b c)) (Nat.zero_le 2)
    have hstep := decodeLoop_group hgroup (List.cons_ne_nil _ _) (Nat.zero_le 2)
      (fun h => absurd h (Nat.lt_irrefl 0)) hbs hbytes
    have hrest : writeBuf + 3 + rest.length ≤ (overwrite result writeBuf [a, b, c]).length := by
      rw [length_overwrite hbytes]
      omega
    have hover : overwrite (overwrite result writeBuf [a, b, c]) (writeBuf + 3) rest
        = overwrite result writeBuf (a :: b :: c :: rest) := overwrite_overwrite hbytes
    have hend : writeBuf + 3 + rest.length = writeBuf + (a :: b :: c :: rest).length := by
      rw [List.length_cons, List.length_cons, List.length_cons]
      omega
    rw [encode, ← hover, ← hend]
    exact hstep.trans (ih hrest)

theorem base64decode_encode (data : Bytes) : base64decode (encode data) = data := by
  have hlen := length_encode data
  have hroom : data.length ≤ (encode data).length * 3 / 4 := by omega
  have hrun : decodeRun (encode data) = ⟨true, 0 + data.length, _⟩ :=
    decodeLoop_encode data (by rw [List.length_replicate, Nat.zero_add]; exact hroom)
  rw [base64decode, hrun, if_pos rfl, Nat.zero_add, overwrite, List.take_zero, List.nil_append,
    List.take_left]

/-! ### Which texts are decoded -/

/-- **What a group is read from**: characters of the alphabet, and then `=`. -/
theorem packed_text {i padding : Nat} {packed : BitVec 32} {text : Bytes} {g : Group} (hi : i ≤ 4)
    (h : packChars i padding packed text = some g) :
    ∃ body k, text = body ++ List.replicate k '='.toUInt8 ++ g.ptr ∧ (∀ c ∈ body, c ∈ base64)
      ∧ (0 < padding → body = []) ∧ g.padding = padding + k ∧ g.i = i + body.length + k := by
  induction text generalizing i padding packed with
  | nil =>
    cases h
    exact ⟨[], 0, rfl, fun _ h => absurd h List.not_mem_nil, fun _ => rfl, rfl, rfl⟩
  | cons c text ih =>
    rw [packChars] at h
    split_ifs at h with hlt hpad hpositive
    · obtain ⟨body, k, rfl, hbody, hnil, hpadding, hcount⟩ := ih hlt h
      have hempty := hnil (Nat.succ_pos _)
      subst hempty hpad
      refine ⟨[], k + 1, rfl, hbody, fun _ => rfl, by omega, ?_⟩
      rw [List.length_nil] at hcount ⊢
      omega
    · split at h
      · rename_i val hval
        obtain ⟨body, k, rfl, hbody, -, hpadding, hcount⟩ := ih hlt h
        have hc : c ∈ base64 := mem_of_value (by rw [hval]; rfl)
        refine ⟨c :: body, k, rfl, List.forall_mem_cons.mpr ⟨hc, hbody⟩,
          fun hp => absurd hp hpositive, hpadding, ?_⟩
        rw [List.length_cons]
        omega
      · exact nomatch h
    · cases h
      exact ⟨[], 0, rfl, fun _ h => absurd h List.not_mem_nil, fun _ => rfl, rfl, rfl⟩

theorem length_written_le (g : Group) : (written g).length ≤ 3 := by
  rw [written]
  split_ifs <;> simp

/-- A text that is decoded to its end is well formed. -/
theorem wellFormed_of_complete {text : Bytes} {writeBuf : Nat} {result : Bytes}
    (h : (decodeLoop text writeBuf result).complete = true) : WellFormed text := by
  fun_induction decodeLoop text writeBuf result with
  | case1 => exact ⟨rfl, [], 0, rfl, by decide, fun _ h => absurd h List.not_mem_nil⟩
  | case2 => exact nomatch h
  | case3 => exact nomatch h
  | case4 => exact nomatch h
  | case5 => exact nomatch h
  | case6 c ptr writeBuf result g hg hfour hend hpadding w ih =>
    obtain ⟨body, k, htext, hbody, -, hk, hcount⟩ := packed_text (Nat.zero_le 4) hg
    rw [Nat.zero_add] at hk hcount
    rw [not_not.mp hfour] at hcount
    rw [htext]
    rcases Nat.eq_zero_or_pos k with rfl | hpos
    · rw [List.replicate_zero, List.append_nil]
      exact (ih h).append hcount.symm hbody
    · have hptr : g.ptr = [] := not_not.mp fun hne => hend ⟨by omega, hne⟩
      rw [hptr, List.append_nil]
      refine ⟨?_, body, k, rfl, by omega, hbody⟩
      rw [List.length_append, List.length_replicate, ← hcount]

/-- How far the decoder writes. -/
theorem writeBuf_le (text : Bytes) (writeBuf : Nat) (result : Bytes) :
    (decodeLoop text writeBuf result).writeBuf ≤ writeBuf + text.length * 3 / 4 := by
  fun_induction decodeLoop text writeBuf result with
  | case1 => exact Nat.le_refl _
  | case2 => exact Nat.le_add_right _ _
  | case3 => exact Nat.le_add_right _ _
  | case4 => exact Nat.le_add_right _ _
  | case5 => exact Nat.le_add_right _ _
  | case6 c ptr writeBuf result g hg hfour hend hpadding w ih =>
    obtain ⟨body, k, htext, -, -, -, hcount⟩ := packed_text (Nat.zero_le 4) hg
    rw [not_not.mp hfour] at hcount
    have hlen : (c :: ptr).length = 4 + g.ptr.length := by
      rw [htext, List.length_append, List.length_append, List.length_replicate]
      omega
    have hwrite : w.1 = writeBuf + (written g).length := writeBuf_writeAll ..
    have hthree := length_written_le g
    rw [hlen]
    omega

/-- **Bytes and their texts.**  The text of `n` bytes has four characters for each three of them,
begun ones included; they are of the alphabet, up to two `=` at the end, and are decoded to the
bytes.  A text of which something is decoded is well formed, and of no text the decoder writes more
than three bytes for each four characters. -/
theorem base64_roundTrip :
    (∀ x : Bytes, (base64encode x).length = 4 * ((x.length + 2) / 3) ∧ WellFormed (base64encode x)
      ∧ base64decode (base64encode x) = x)
    ∧ ∀ t : Bytes, (base64decode t = [] ∨ WellFormed t)
      ∧ (decodeRun t).writeBuf ≤ t.length * 3 / 4 := by
  constructor
  · intro x
    rw [base64encode, encodeLoop_eq, List.nil_append]
    exact ⟨length_encode x, wellFormed_encode x, base64decode_encode x⟩
  · intro t
    refine ⟨?_, ?_⟩
    · by_cases hcomplete : (decodeRun t).complete = true
      · exact .inr (wellFormed_of_complete hcomplete)
      · exact .inl (if_neg hcomplete)
    · have hle := writeBuf_le t 0 (List.replicate (t.length * 3 / 4) 0)
      rw [Nat.zero_add] at hle
      exact hle

end Base64

end FiberServer
