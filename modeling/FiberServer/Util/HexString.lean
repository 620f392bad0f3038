import FiberServer.Base.UrlCoding
import FiberServer.Library.Blocks

/-!
# `hexstring_from_data` and `data_from_hexstring`

Both write through a pointer into a string that was resized before.  Here the pointer is a position
in the string.

* `hexLoop_eq`, `decodeLoop_eq`: what the loops write.
* `hexstring_bijection`: bytes and their texts.
-/

namespace FiberServer

namespace HexString

open Blocks
open UrlCoding (isxdigit)

/-- `c = (c > 9) ? c + 'a' - 10 : c + '0'` -/
def hexChar (c : UInt8) : UInt8 := if c > 9 then c + 'a'.toUInt8 - 10 else c + '0'.toUInt8

/-- The loop of `hexstring_from_data` over the rest of the bytes. -/
def hexLoop : Bytes → (j : Nat) → Bytes → Bytes
  | [], _, output => output
  | b :: rest, j, output =>
    hexLoop rest (j + 2)
      ((output.set j (hexChar (b >>> 4 &&& 0xf))).set (j + 1) (hexChar (b &&& 0xf)))

def hexstring_from_data (data : Bytes) : Bytes :=
  if data.length = 0 then [] else hexLoop data 0 (List.replicate (data.length * 2) 0)

/-- The cases of both `switch`es, without the default. -/
def digit (c : UInt8) : Option UInt8 :=
  if 'a'.toUInt8 ≤ c ∧ c ≤ 'f'.toUInt8 then some (c - 'a'.toUInt8 + 10)
  else if 'A'.toUInt8 ≤ c ∧ c ≤ 'F'.toUInt8 then some (c - 'A'.toUInt8 + 10)
  else if '0'.toUInt8 ≤ c ∧ c ≤ '9'.toUInt8 then some (c - '0'.toUInt8)
  else none

/-- `std::invalid_argument` -/
structure InvalidArgument where
  what : String
  deriving DecidableEq, Repr

def InvalidArgument.odd : InvalidArgument := ⟨"data_from_hexstring length % 2 != 0"⟩

def InvalidArgument.invalid : InvalidArgument := ⟨"data_from_hexstring invalid hexstring"⟩

def readDigit (c : UInt8) : Except InvalidArgument UInt8 :=
  match digit c with
  | some value => .ok value
  | none => .error .invalid

/-- The loop of `data_from_hexstring`; `buf` is the position of the pointer.  Behind the last
character the string has a 0, which is no digit. -/
def decodeLoop : Bytes → (buf : Nat) → Bytes → Except InvalidArgument Bytes
  | [], _, output => .ok output
  | [_], _, _ => .error .invalid
  | c :: c' :: rest, buf, output => do
    let high ← readDigit c
    let low ← readDigit c'
    decodeLoop rest (buf + 1) (output.set buf (high <<< 4 ||| low))

/-- `data_from_hexstring(const char*, size_t, void*)` -/
def data_from_hexstring_to (hexstring output : Bytes) : Except InvalidArgument Bytes :=
  if hexstring.length % 2 ≠ 0 then .error .odd else decodeLoop hexstring 0 output

def data_from_hexstring (hexstring : Bytes) : Except InvalidArgument Bytes :=
  if hexstring.length % 2 ≠ 0 then .error .odd
  else if hexstring.length = 0 then .ok []
  else data_from_hexstring_to hexstring (List.replicate (hexstring.length / 2) 0)

/-- `tolower` of the C locale. -/
def tolower (c : UInt8) : UInt8 :=
  if 'A'.toUInt8 ≤ c ∧ c ≤ 'Z'.toUInt8 then c + 32 else c

/-- `0-9a-f` -/
def lowerDigits : Bytes :=
  ['0', '1', '2', '3', '4', '5', '6', '7', '8', '9', 'a', 'b', 'c', 'd', 'e', 'f'].map Char.toUInt8

/-! ### Digits -/

/-- A number of four bits. -/
def nibble (n : BitVec 4) : UInt8 := ⟨n.setWidth 8⟩

/-- The two digits of a byte. -/
def hexPair (b : UInt8) : Bytes := [hexChar (b >>> 4 &&& 0xf), hexChar (b &&& 0xf)]

theorem digit_hexChar (n : BitVec 4) :
    digit (hexChar (nibble n)) = some (nibble n) ∧ hexChar (nibble n) ∈ lowerDigits := by
  revert n
  decide

theorem hexPair_nibble (high low : BitVec 4) :
    hexPair (nibble high <<< 4 ||| nibble low) = [hexChar (nibble high), hexChar (nibble low)] := by
  revert high low
  decide

theorem exists_nibble (b : UInt8) : ∃ high low, b = nibble high <<< 4 ||| nibble low := by
  have h : ∀ c : BitVec 8,
      (⟨c⟩ : UInt8) = nibble ((c >>> 4).setWidth 4) <<< 4 ||| nibble (c.setWidth 4) := by decide
  exact ⟨_, _, h b.toBitVec⟩

/-- The bytes that are digits. -/
theorem isSome_digit (c : UInt8) : (digit c).isSome = isxdigit c := by
  have h : ∀ c : BitVec 8, (digit ⟨c⟩).isSome = isxdigit ⟨c⟩ := by decide
  exact h c.toBitVec

theorem hexChar_digit {c d : UInt8} (h : digit c = some d) :
    ∃ n, d = nibble n ∧ hexChar (nibble n) = tolower c := by
  have hall : ∀ c : BitVec 8, (digit ⟨c⟩).all (fun d => d = nibble (d.toBitVec.setWidth 4)
      ∧ hexChar (nibble (d.toBitVec.setWidth 4)) = tolower ⟨c⟩) = true := by
    decide
  exact ⟨_, of_decide_eq_true ((Option.all_eq_true _ _).mp (hall c.toBitVec) d h)⟩

/-! ### The loops without the buffer -/

/-- What `data_from_hexstring` makes of a text. -/
def decode : Bytes → Option Bytes
  | [] => some []
  | [_] => none
  | c :: c' :: rest => do
    let high ← digit c
    let low ← digit c'
    (decode rest).map ((high <<< 4 ||| low) :: ·)

theorem hexLoop_eq (data : Bytes) : ∀ {j : Nat} {output : Bytes},
    j + 2 * data.length ≤ output.length →
    hexLoop data j output = overwrite output j (data.flatMap hexPair) := by
  induction data with
  | nil =>
    intro j output _
    exact (overwrite_nil output j).symm
  | cons b rest ih =>
    intro j output hroom
    rw [List.length_cons] at hroom
    rw [hexLoop, ih (by rw [List.length_set, List.length_set]; omega),
      overwrite_set (by rw [List.length_set]; omega), overwrite_set (by omega)]
    rfl

theorem length_flatMap_hexPair (x : Bytes) : (x.flatMap hexPair).length = 2 * x.length := by
  induction x with
  | nil => rfl
  | cons b x ih =>
    rw [List.flatMap_cons, List.length_append, ih, List.length_cons]
    show 2 + _ = _
    omega

/-- **`hexstring_from_data`** writes the digits of every byte. -/
theorem hexstring_from_data_eq (data : Bytes) :
    hexstring_from_data data = data.flatMap hexPair := by
  rw [hexstring_from_data]
  split_ifs with h
  · rw [List.length_eq_zero_iff.mp h]
    rfl
  · rw [hexLoop_eq data (by rw [List.length_replicate]; omega)]
    exact overwrite_all (by rw [length_flatMap_hexPair, List.length_replicate, Nat.mul_comm])

theorem decodeLoop_eq (t : Bytes) : ∀ {buf : Nat} {output : Bytes},
    t.length % 2 = 0 → buf + t.length / 2 ≤ output.length →
    decodeLoop t buf output = match decode t with
      | some x => .ok (overwrite output buf x)
      | none => .error .invalid := by
  induction t using decode.induct with
  | case1 =>
    intro buf output _ _
    exact congrArg Except.ok (overwrite_nil output buf).symm
  | case2 c =>
    intro buf output heven _
    exact nomatch heven
  | case3 c c' rest ih =>
    intro buf output heven hroom
    rw [List.length_cons, List.length_cons] at heven hroom
    rw [decodeLoop, decode, readDigit, readDigit]
    cases digit c with
    | none => rfl
    | some high =>
      cases digit c' with
      | none => rfl
      | some low =>
        show decodeLoop rest (buf + 1) (output.set buf (high <<< 4 ||| low)) = _
        rw [ih (by omega) (by rw [List.length_set]; omega)]
        cases decode rest with
        | none => rfl
        | some x => exact congrArg Except.ok (overwrite_set (by omega) _ x)

/-- **What a text is as bytes**: if it has digits only, it is the text of its bytes but for the case
of the letters. -/
theorem decode_map {t : Bytes} (heven : t.length % 2 = 0) : (decode t).map (List.flatMap hexPair)
    = if t.all isxdigit then some (t.map tolower) else none := by
  induction t using decode.induct with
  | case1 => rfl
  | case2 c => exact absurd heven (by simp)
  | case3 c c' rest ih =>
    rw [List.length_cons, List.length_cons] at heven
    rw [decode]
    simp only [List.all_cons, ← isSome_digit, Bool.and_eq_true]
    cases hhigh : digit c with
    | none => exact (if_neg fun h => nomatch h.1).symm
    | some high =>
      cases hlow : digit c' with
      | none => exact (if_neg fun h => nomatch h.2.1).symm
      | some low =>
        obtain ⟨n, rfl, hn⟩ := hexChar_digit hhigh
        obtain ⟨n', rfl, hn'⟩ := hexChar_digit hlow
        have hcons : List.flatMap hexPair ∘ ((nibble n <<< 4 ||| nibble n') :: ·)
            = (tolower c :: tolower c' :: ·) ∘ List.flatMap hexPair := by
          funext x
          show hexPair _ ++ _ = _
          rw [hexPair_nibble, hn, hn']
          rfl
        show ((decode rest).map _).map _ = _
        rw [Option.map_map, hcons, ← Option.map_map, ih (by omega)]
        simp only [Option.isSome_some, true_and]
        split_ifs
        · rfl
        · rfl

theorem length_of_decode {t x : Bytes} (heven : t.length % 2 = 0) (h : decode t = some x) :
    t.length = 2 * x.length := by
  have hmap := decode_map heven
  rw [h, Option.map_some] at hmap
  split_ifs at hmap
  have hlen := congrArg List.length (Option.some.inj hmap)
  rw [length_flatMap_hexPair, List.length_map] at hlen
  exact hlen.symm

/-- **`data_from_hexstring`**, with its errors. -/
theorem data_from_hexstring_eq (t : Bytes) : data_from_hexstring t =
    if t.length % 2 ≠ 0 then .error .odd
    else match decode t with
      | some x => .ok x
      | none => .error .invalid := by
  rw [data_from_hexstring, data_from_hexstring_to]
  by_cases hodd : t.length % 2 ≠ 0
  · rw [if_pos hodd, if_pos hodd]
  · rw [if_neg hodd, if_neg hodd, if_neg hodd]
    split_ifs with hempty
    · rw [List.length_eq_zero_iff.mp hempty]
      rfl
    · rw [decodeLoop_eq t (not_not.mp hodd) (by rw [List.length_replicate]; omega)]
      cases hx : decode t with
      | none => rfl
      | some x =>
        have hlen := length_of_decode (not_not.mp hodd) hx
        exact congrArg Except.ok (overwrite_all (by rw [List.length_replicate]; omega))

theorem parses_hexPair : Codes.Parses (fun _ => True) hexPair decode where
  nil := rfl
  append := by
    intro b rest _
    obtain ⟨high, low, rfl⟩ := exists_nibble b
    rw [hexPair_nibble]
    show decode (hexChar (nibble high) :: hexChar (nibble low) :: rest) = _
    rw [decode, (digit_hexChar high).1, (digit_hexChar low).1]
    rfl

theorem lower_of_mem {x : Bytes} {c : UInt8} (h : c ∈ x.flatMap hexPair) : c ∈ lowerDigits := by
  obtain ⟨b, -, hc⟩ := List.mem_flatMap.mp h
  obtain ⟨high, low, rfl⟩ := exists_nibble b
  rw [hexPair_nibble, List.mem_cons, List.mem_singleton] at hc
  obtain rfl | rfl := hc
  · exact (digit_hexChar high).2
  · exact (digit_hexChar low).2

/-- **Bytes and their texts.**  The text of `n` bytes has `2n` characters, all of them digits in
lower case, and is read as the bytes.  A text is read if and only if its length is even and it has
digits of either case only; the text of what is read is then the text in lower case.  Of any other
text an exception comes. -/
theorem hexstring_bijection :
    (∀ x : Bytes, (hexstring_from_data x).length = 2 * x.length
      ∧ (∀ c ∈ hexstring_from_data x, c ∈ lowerDigits)
      ∧ data_from_hexstring (hexstring_from_data x) = .ok x)
    ∧ ∀ t : Bytes, (data_from_hexstring t).map hexstring_from_data =
      if t.length % 2 ≠ 0 then .error .odd
      else if t.all isxdigit then .ok (t.map tolower)
      else .error .invalid := by
  constructor
  · intro x
    have hlen := length_flatMap_hexPair x
    rw [hexstring_from_data_eq]
    refine ⟨hlen, fun c hc => lower_of_mem hc, ?_⟩
    rw [data_from_hexstring_eq, parses_hexPair.flatMap fun _ _ => trivial,
      if_neg (by rw [hlen]; omega)]
  · intro t
    rw [data_from_hexstring_eq]
    by_cases hodd : t.length % 2 ≠ 0
    · rw [if_pos hodd, if_pos hodd]
      rfl
    · have hmap := decode_map (not_not.mp hodd)
      rw [if_neg hodd, if_neg hodd]
      by_cases hall : t.all isxdigit = true
      · rw [if_pos hall] at hmap ⊢
        obtain ⟨x, hx, htext⟩ := Option.map_eq_some_iff.mp hmap
        rw [hx]
        exact congrArg Except.ok ((hexstring_from_data_eq x).trans htext)
      · rw [if_neg hall] at hmap ⊢
        rw [Option.map_eq_none_iff.mp hmap]
        rfl

end HexString

end FiberServer
