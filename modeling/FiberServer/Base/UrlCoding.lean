import FiberServer.Chunk.FSUtil
import FiberServer.Library.Codes

/-!
# `StringUtil::UrlEncode` and `StringUtil::UrlDecode`

Both walk over the text with a pointer and begin a buffer `ss` at the first character that they
change; what lies before that character is copied then.  Here the text is `seen ++ rest`, and the
pointer stands between the two.

* `getD_encodeLoop`, `getD_decodeLoop`: what the loops return, without the buffer.
* `UrlDecode_UrlEncode`: decoding takes an encoded text back.
* `marks_encode`: `=` is left alone, though the comment at the table does not list it.
-/

namespace FiberServer

namespace UrlCoding

/-- `CHAR_IS_UNRESERVED` looks up this table. -/
def uri_chars : List Nat :=
  [ -- 0
    0, 0, 0, 0, 0, 0, 0, 0,   0, 0, 0, 0, 0, 0, 0, 0,
    0, 0, 0, 0, 0, 0, 0, 0,   0, 0, 0, 0, 0, 0, 0, 0,
    0, 0, 0, 0, 0, 0, 0, 0,   0, 0, 0, 0, 0, 1, 1, 0,
    1, 1, 1, 1, 1, 1, 1, 1,   1, 1, 0, 0, 0, 1, 0, 0,
    -- 64
    0, 1, 1, 1, 1, 1, 1, 1,   1, 1, 1, 1, 1, 1, 1, 1,
    1, 1, 1, 1, 1, 1, 1, 1,   1, 1, 1, 0, 0, 0, 0, 1,
    0, 1, 1, 1, 1, 1, 1, 1,   1, 1, 1, 1, 1, 1, 1, 1,
    1, 1, 1, 1, 1, 1, 1, 1,   1, 1, 1, 0, 0, 0, 1, 0,
    -- 128
    0, 0, 0, 0, 0, 0, 0, 0,   0, 0, 0, 0, 0, 0, 0, 0,
    0, 0, 0, 0, 0, 0, 0, 0,   0, 0, 0, 0, 0, 0, 0, 0,
    0, 0, 0, 0, 0, 0, 0, 0,   0, 0, 0, 0, 0, 0, 0, 0,
    0, 0, 0, 0, 0, 0, 0, 0,   0, 0, 0, 0, 0, 0, 0, 0,
    -- 192
    0, 0, 0, 0, 0, 0, 0, 0,   0, 0, 0, 0, 0, 0, 0, 0,
    0, 0, 0, 0, 0, 0, 0, 0,   0, 0, 0, 0, 0, 0, 0, 0,
    0, 0, 0, 0, 0, 0, 0, 0,   0, 0, 0, 0, 0, 0, 0, 0,
    0, 0, 0, 0, 0, 0, 0, 0,   0, 0, 0, 0, 0, 0, 0, 0 ]

def xdigit_chars : List Nat :=
  [ 0,0,0,0,0,0,0,0,0,0,0,0,0,0,0,0,
    0,0,0,0,0,0,0,0,0,0,0,0,0,0,0,0,
    0,0,0,0,0,0,0,0,0,0,0,0,0,0,0,0,
    0,1,2,3,4,5,6,7,8,9,0,0,0,0,0,0,
    0,10,11,12,13,14,15,0,0,0,0,0,0,0,0,0,
    0,0,0,0,0,0,0,0,0,0,0,0,0,0,0,0,
    0,10,11,12,13,14,15,0,0,0,0,0,0,0,0,0,
    0,0,0,0,0,0,0,0,0,0,0,0,0,0,0,0,
    0,0,0,0,0,0,0,0,0,0,0,0,0,0,0,0,
    0,0,0,0,0,0,0,0,0,0,0,0,0,0,0,0,
    0,0,0,0,0,0,0,0,0,0,0,0,0,0,0,0,
    0,0,0,0,0,0,0,0,0,0,0,0,0,0,0,0,
    0,0,0,0,0,0,0,0,0,0,0,0,0,0,0,0,
    0,0,0,0,0,0,0,0,0,0,0,0,0,0,0,0,
    0,0,0,0,0,0,0,0,0,0,0,0,0,0,0,0,
    0,0,0,0,0,0,0,0,0,0,0,0,0,0,0,0 ]

def CHAR_IS_UNRESERVED (c : UInt8) : Bool := uri_chars.getD c.toNat 0 != 0

def hexdigits : Bytes :=
  ['0', '1', '2', '3', '4', '5', '6', '7', '8', '9', 'A', 'B', 'C', 'D', 'E', 'F'].map
    Char.toUInt8

/-- `isxdigit` of the C locale: no character from 128 on is a digit. -/
def isxdigit (c : UInt8) : Bool :=
  ('0'.toUInt8 ≤ c && c ≤ '9'.toUInt8) || ('A'.toUInt8 ≤ c && c ≤ 'F'.toUInt8)
    || ('a'.toUInt8 ≤ c && c ≤ 'f'.toUInt8)

/-- What is appended for a character that is not left alone. -/
def escape (space_as_plus : Bool) (c : UInt8) : Bytes :=
  if c = ' '.toUInt8 ∧ space_as_plus then ['+'.toUInt8]
  else ['%'.toUInt8, hexdigits.getD (c.toNat >>> 4) 0, hexdigits.getD (c.toNat &&& 0xf) 0]

/-- The loop of `UrlEncode`. -/
def encodeLoop (space_as_plus : Bool) : Bytes → Bytes → Option Bytes → Option Bytes
  | _, [], ss => ss
  | seen, c :: rest, ss =>
    if !CHAR_IS_UNRESERVED c then
      encodeLoop space_as_plus (seen ++ [c]) rest (some (ss.getD seen ++ escape space_as_plus c))
    else
      encodeLoop space_as_plus (seen ++ [c]) rest (ss.map (· ++ [c]))

def UrlEncode (str : Bytes) (space_as_plus : Bool) : Bytes :=
  (encodeLoop space_as_plus [] str none).getD str

/-- The character of two hexadecimal digits. -/
def unescape (c1 c2 : UInt8) : UInt8 :=
  UInt8.ofNat (xdigit_chars.getD c1.toNat 0 <<< 4 ||| xdigit_chars.getD c2.toNat 0)

/-- The loop of `UrlDecode`; `(c + 2) < end` says that two characters follow. -/
def decodeLoop (space_as_plus : Bool) : Bytes → Bytes → Option Bytes → Option Bytes
  | _, [], ss => ss
  | seen, c :: rest, ss =>
    if c = '+'.toUInt8 ∧ space_as_plus then
      decodeLoop space_as_plus (seen ++ [c]) rest (some (ss.getD seen ++ [' '.toUInt8]))
    else
      match rest with
      | c1 :: c2 :: rest' =>
        if c = '%'.toUInt8 ∧ isxdigit c1 ∧ isxdigit c2 then
          decodeLoop space_as_plus (seen ++ [c, c1, c2]) rest'
            (some (ss.getD seen ++ [unescape c1 c2]))
        else decodeLoop space_as_plus (seen ++ [c]) (c1 :: c2 :: rest') (ss.map (· ++ [c]))
      | [c1] => decodeLoop space_as_plus (seen ++ [c]) [c1] (ss.map (· ++ [c]))
      | [] => decodeLoop space_as_plus (seen ++ [c]) [] (ss.map (· ++ [c]))

def UrlDecode (str : Bytes) (space_as_plus : Bool) : Bytes :=
  (decodeLoop space_as_plus [] str none).getD str

/-! ### The loops without the buffer -/

/-- The code of a character. -/
def encode (space_as_plus : Bool) (c : UInt8) : Bytes :=
  if CHAR_IS_UNRESERVED c then [c] else escape space_as_plus c

/-- What `UrlDecode` makes of a text. -/
def decode (space_as_plus : Bool) : Bytes → Bytes
  | [] => []
  | c :: rest =>
    if c = '+'.toUInt8 ∧ space_as_plus then ' '.toUInt8 :: decode space_as_plus rest
    else
      match rest with
      | c1 :: c2 :: rest' =>
        if c = '%'.toUInt8 ∧ isxdigit c1 ∧ isxdigit c2 then
          unescape c1 c2 :: decode space_as_plus rest'
        else c :: decode space_as_plus (c1 :: c2 :: rest')
      | [c1] => c :: decode space_as_plus [c1]
      | [] => c :: decode space_as_plus []

variable {space_as_plus : Bool}

theorem append_cons (seen rest : Bytes) (c : UInt8) :
    (seen ++ [c]) ++ rest = seen ++ c :: rest := by
  rw [List.append_assoc, List.singleton_append]

/-- A character that is left alone is copied if there is a buffer; else it is behind `seen`. -/
theorem getD_map_append (ss : Option Bytes) (seen rest : Bytes) (c : UInt8) :
    (ss.map (· ++ [c])).getD (seen ++ [c]) ++ rest = ss.getD seen ++ c :: rest := by
  cases ss with
  | none => exact append_cons seen rest c
  | some buffer => exact append_cons buffer rest c

/-- The buffer, once it is there, has what the loop has made of `seen`. -/
theorem getD_encodeLoop (seen rest : Bytes) (ss : Option Bytes) :
    (encodeLoop space_as_plus seen rest ss).getD (seen ++ rest)
      = ss.getD seen ++ rest.flatMap (encode space_as_plus) := by
  induction rest generalizing seen ss with
  | nil => rw [encodeLoop, List.append_nil, List.flatMap_nil, List.append_nil]
  | cons c rest ih =>
    rw [encodeLoop, List.flatMap_cons, encode, ← append_cons seen rest c]
    cases hc : CHAR_IS_UNRESERVED c with
    | false =>
      rw [if_pos (by rfl), if_neg (by decide), ih, Option.getD_some, List.append_assoc]
    | true =>
      rw [if_neg (by decide), if_pos rfl, ih, getD_map_append, List.singleton_append]

theorem getD_decodeLoop (seen rest : Bytes) (ss : Option Bytes) :
    (decodeLoop space_as_plus seen rest ss).getD (seen ++ rest)
      = ss.getD seen ++ decode space_as_plus rest := by
  fun_induction decode space_as_plus rest generalizing seen ss with
  | case1 => rw [decodeLoop, List.append_nil, List.append_nil]
  | case2 c rest hplus ih =>
    rw [decodeLoop.eq_def]
    simp only [if_pos hplus]
    rw [← append_cons seen rest c, ih, Option.getD_some, List.append_assoc,
      List.singleton_append]
  | case3 c hplus c1 c2 rest' hpercent ih =>
    have hseen : seen ++ c :: c1 :: c2 :: rest' = (seen ++ [c, c1, c2]) ++ rest' := by
      rw [List.append_assoc]
      rfl
    rw [decodeLoop, if_neg hplus]
    simp only [if_pos hpercent]
    rw [hseen, ih, Option.getD_some, List.append_assoc, List.singleton_append]
  | case4 c hplus c1 c2 rest' hpercent ih =>
    rw [decodeLoop, if_neg hplus]
    simp only [if_neg hpercent]
    rw [← append_cons seen (c1 :: c2 :: rest') c, ih, getD_map_append]
  | case5 c hplus c1 ih =>
    rw [decodeLoop, if_neg hplus, ← append_cons seen [c1] c, ih, getD_map_append]
  | case6 c hplus ih =>
    rw [decodeLoop, if_neg hplus, decodeLoop, decode, ← getD_map_append, List.append_nil]

theorem UrlEncode_eq (str : Bytes) (space_as_plus : Bool) :
    UrlEncode str space_as_plus = str.flatMap (encode space_as_plus) :=
  getD_encodeLoop [] str none

theorem UrlDecode_eq (str : Bytes) (space_as_plus : Bool) :
    UrlDecode str space_as_plus = decode space_as_plus str :=
  getD_decodeLoop [] str none

/-! ### One character -/

theorem isxdigit_hexdigits : ∀ n < 16, isxdigit (hexdigits.getD n 0) = true := by decide

theorem xdigit_chars_hexdigits : ∀ n < 16,
    xdigit_chars.getD (hexdigits.getD n 0).toNat 0 = n := by
  decide

/-- The two digits of a character. -/
theorem digits_lt (c : UInt8) : c.toNat >>> 4 < 16 ∧ c.toNat &&& 0xf < 16 := by
  have hc := c.toNat_lt
  rw [Nat.shiftRight_eq_div_pow]
  exact ⟨by omega, Nat.and_lt_two_pow _ (n := 4) (by decide)⟩

theorem unescape_hexdigits (c : UInt8) :
    unescape (hexdigits.getD (c.toNat >>> 4) 0) (hexdigits.getD (c.toNat &&& 0xf) 0) = c := by
  obtain ⟨hhigh, hlow⟩ := digits_lt c
  have hsplit : c.toNat >>> 4 <<< 4 ||| c.toNat &&& 0xf = c.toNat := by
    rw [← Nat.shiftLeft_add_eq_or_of_lt hlow, Nat.shiftLeft_eq, Nat.shiftRight_eq_div_pow,
      Nat.and_two_pow_sub_one_eq_mod _ 4]
    omega
  rw [unescape, xdigit_chars_hexdigits _ hhigh, xdigit_chars_hexdigits _ hlow, hsplit,
    UInt8.ofNat_toNat]

/-- The two characters that `decode` changes are not left alone. -/
theorem ne_of_unreserved {c : UInt8} (h : CHAR_IS_UNRESERVED c = true) :
    c ≠ '+'.toUInt8 ∧ c ≠ '%'.toUInt8 := by
  constructor
  · rintro rfl
    exact absurd h (by decide)
  · rintro rfl
    exact absurd h (by decide)

theorem decode_cons_of_ne {c : UInt8} (hplus : c ≠ '+'.toUInt8) (hpercent : c ≠ '%'.toUInt8)
    (rest : Bytes) : decode space_as_plus (c :: rest) = c :: decode space_as_plus rest := by
  rw [decode.eq_def]
  simp only [if_neg (fun h : c = '+'.toUInt8 ∧ _ => hplus h.1)]
  cases rest with
  | nil => rfl
  | cons c1 rest =>
    cases rest with
    | nil => rfl
    | cons c2 rest => exact if_neg fun h => hpercent h.1

theorem decode_escape (c : UInt8) (rest : Bytes) :
    decode space_as_plus (escape space_as_plus c ++ rest) = c :: decode space_as_plus rest := by
  rw [escape]
  split_ifs with hspace
  · obtain ⟨rfl, hp⟩ := hspace
    rw [List.singleton_append, decode.eq_def]
    exact if_pos ⟨rfl, hp⟩
  · obtain ⟨hhigh, hlow⟩ := digits_lt c
    rw [List.cons_append, List.cons_append, List.singleton_append, decode.eq_def]
    simp only [if_neg (fun h : '%'.toUInt8 = '+'.toUInt8 ∧ _ => absurd h.1 (by decide)),
      isxdigit_hexdigits _ hhigh, isxdigit_hexdigits _ hlow, and_self, if_true, unescape_hexdigits]

theorem reads_encode : Codes.Reads (encode space_as_plus) (decode space_as_plus) where
  nil := by rw [decode]
  append := by
    intro c rest
    rw [encode]
    split_ifs with hc
    · obtain ⟨hplus, hpercent⟩ := ne_of_unreserved hc
      rw [List.singleton_append, decode_cons_of_ne hplus hpercent]
    · exact decode_escape c rest

/-- **`UrlDecode`** takes back what `UrlEncode` has made of any text, for either way to write a
space. -/
theorem UrlDecode_UrlEncode (s : Bytes) (p : Bool) : UrlDecode (UrlEncode s p) p = s := by
  rw [UrlDecode_eq, UrlEncode_eq]
  exact reads_encode.flatMap s

/-! ### Separators -/

/-- The digits and the two marks of a code. -/
theorem mem_escape {c b : UInt8} (h : b ∈ escape space_as_plus c) :
    b = '+'.toUInt8 ∨ b = '%'.toUInt8 ∨ isxdigit b = true := by
  rw [escape] at h
  split_ifs at h
  · exact .inl (List.mem_singleton.mp h)
  · obtain ⟨hhigh, hlow⟩ := digits_lt c
    simp only [List.mem_cons, List.not_mem_nil, or_false] at h
    obtain rfl | rfl | rfl := h
    · exact .inr (.inl rfl)
    · exact .inr (.inr (isxdigit_hexdigits _ hhigh))
    · exact .inr (.inr (isxdigit_hexdigits _ hlow))

/-- A text that is encoded has no `&`. -/
theorem ampersand_not_mem_encode (c : UInt8) : '&'.toUInt8 ∉ encode space_as_plus c := by
  intro h
  rw [encode] at h
  split_ifs at h with hc
  · rw [← List.mem_singleton.mp h] at hc
    exact absurd hc (by decide)
  · obtain h | h | h := mem_escape h <;> exact absurd h (by decide)

/-- `=` is left alone: the table has a one for it. -/
theorem marks_encode : Codes.Marks (encode space_as_plus) '='.toUInt8 where
  self := if_pos (by decide)
  other := by
    intro a ha h
    rw [encode] at h
    split_ifs at h
    · exact ha (List.mem_singleton.mp h).symm
    · obtain h | h | h := mem_escape h <;> exact absurd h (by decide)

end UrlCoding

end FiberServer
