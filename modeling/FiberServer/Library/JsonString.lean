import FiberServer.Library.Codes

/-!
# The inside of a JSON string literal

`unescape` reads the bytes between the quotes as RFC 8259 says: a byte that is neither a quote, nor
a backslash, nor a control byte stands for itself, and a backslash begins an escape.

* `unescape_plain`, `unescape_short`: what the two kinds of a character give.
* `Unquoted`: no quote and no control byte stands on its own.
-/

namespace JsonString

/-- `\"`, `\\`, `\/`, `\b`, `\f`, `\n`, `\r` and `\t` by what follows the backslash. -/
def short (e : UInt8) : Option UInt8 :=
  if e = '"'.toUInt8 then some '"'.toUInt8
  else if e = '\\'.toUInt8 then some '\\'.toUInt8
  else if e = '/'.toUInt8 then some '/'.toUInt8
  else if e = 'b'.toUInt8 then some 8
  else if e = 'f'.toUInt8 then some 12
  else if e = 'n'.toUInt8 then some 10
  else if e = 'r'.toUInt8 then some 13
  else if e = 't'.toUInt8 then some 9
  else none

def hexValue (c : UInt8) : Option Nat :=
  if '0'.toUInt8 ≤ c ∧ c ≤ '9'.toUInt8 then some (c.toNat - '0'.toNat)
  else if 'a'.toUInt8 ≤ c ∧ c ≤ 'f'.toUInt8 then some (c.toNat - 'a'.toNat + 10)
  else if 'A'.toUInt8 ≤ c ∧ c ≤ 'F'.toUInt8 then some (c.toNat - 'A'.toNat + 10)
  else none

/-- The four digits behind `\u`. -/
def codeUnit : List UInt8 → Option (Nat × List UInt8)
  | a :: b :: c :: d :: rest => do
    let a ← hexValue a
    let b ← hexValue b
    let c ← hexValue c
    let d ← hexValue d
    return (((a * 16 + b) * 16 + c) * 16 + d, rest)
  | _ => none

/-- The code point behind `\u`; one from `0x10000` on is written as a pair of code units. -/
def codePoint (text : List UInt8) : Option (Nat × List UInt8) := do
  let (high, rest) ← codeUnit text
  if 0xdc00 ≤ high ∧ high < 0xe000 then none
  else if 0xd800 ≤ high ∧ high < 0xdc00 then
    match rest with
    | backslash :: u :: rest =>
      if backslash = '\\'.toUInt8 ∧ u = 'u'.toUInt8 then
        let (low, rest) ← codeUnit rest
        if 0xdc00 ≤ low ∧ low < 0xe000 then
          return (0x10000 + (high - 0xd800) * 0x400 + (low - 0xdc00), rest)
        else none
      else none
    | _ => none
  else return (high, rest)

/-- What follows a backslash. -/
def escaped : List UInt8 → Option (List UInt8 × List UInt8)
  | [] => none
  | e :: rest =>
    if e = 'u'.toUInt8 then
      (codePoint rest).map fun (n, rest) => (String.utf8EncodeChar (Char.ofNat n), rest)
    else (short e).map fun b => ([b], rest)

/-- The first character, as the bytes it stands for, and what follows it. -/
def character : List UInt8 → Option (List UInt8 × List UInt8)
  | [] => none
  | c :: rest =>
    if c = '\\'.toUInt8 then escaped rest
    else if c = '"'.toUInt8 ∨ c < 0x20 then none
    else some ([c], rest)

theorem length_of_codeUnit {text rest : List UInt8} {n : Nat}
    (h : codeUnit text = some (n, rest)) : rest.length < text.length := by
  unfold codeUnit at h
  split at h
  · simp only [Option.bind_eq_bind, Option.bind_eq_some_iff, Option.pure_def,
      Option.some.injEq, Prod.mk.injEq] at h
    obtain ⟨_, -, _, -, _, -, _, -, -, rfl⟩ := h
    simp only [List.length_cons]
    omega
  · exact absurd h (by simp)

theorem length_of_codePoint {text rest : List UInt8} {n : Nat}
    (h : codePoint text = some (n, rest)) : rest.length < text.length := by
  unfold codePoint at h
  obtain ⟨⟨high, behind⟩, hhigh, h⟩ := Option.bind_eq_some_iff.mp h
  have hlength := length_of_codeUnit hhigh
  simp only at h
  split_ifs at h with hlow hpair
  · split at h
    · split_ifs at h with hescape
      obtain ⟨⟨low, last⟩, hlast, h⟩ := Option.bind_eq_some_iff.mp h
      have hsecond := length_of_codeUnit hlast
      simp only at h
      split_ifs at h with hrange
      obtain ⟨-, rfl⟩ := Prod.mk.inj (Option.some.inj h)
      simp only [List.length_cons] at hlength
      omega
    · exact absurd h (by simp)
  · obtain ⟨-, rfl⟩ := Prod.mk.inj (Option.some.inj h)
    exact hlength

theorem length_of_escaped {text bytes rest : List UInt8}
    (h : escaped text = some (bytes, rest)) : rest.length < text.length := by
  unfold escaped at h
  split at h
  · exact absurd h (by simp)
  · split_ifs at h
    · obtain ⟨⟨n, behind⟩, hpoint, heq⟩ := Option.map_eq_some_iff.mp h
      obtain ⟨-, rfl⟩ := Prod.mk.inj heq
      exact Nat.lt_succ_of_lt (length_of_codePoint hpoint)
    · obtain ⟨b, -, heq⟩ := Option.map_eq_some_iff.mp h
      obtain ⟨-, rfl⟩ := Prod.mk.inj heq
      exact Nat.lt_succ_self _

theorem length_of_character {text bytes rest : List UInt8}
    (h : character text = some (bytes, rest)) : rest.length < text.length := by
  unfold character at h
  split at h
  · exact absurd h (by simp)
  · split_ifs at h
    · exact Nat.lt_succ_of_lt (length_of_escaped h)
    · obtain ⟨-, rfl⟩ := Prod.mk.inj (Option.some.inj h)
      exact Nat.lt_succ_self _

/-- The bytes that a text stands for; `none` if it is not the inside of a literal. -/
def unescape (text : List UInt8) : Option (List UInt8) :=
  if text = [] then some []
  else
    match _h : character text with
    | none => none
    | some (bytes, rest) => (unescape rest).map (bytes ++ ·)
termination_by text.length
decreasing_by exact length_of_character _h

theorem unescape_nil : unescape [] = some [] := by
  rw [unescape, if_pos rfl]

theorem unescape_of_character {text bytes rest : List UInt8}
    (h : character text = some (bytes, rest)) :
    unescape text = (unescape rest).map (bytes ++ ·) := by
  have hne : text ≠ [] := by
    rintro rfl
    exact absurd h (by simp [character])
  rw [unescape, if_neg hne]
  split
  · rename_i hnone
    exact absurd (h.symm.trans hnone) (by simp)
  · rename_i bytes' rest' hsome
    obtain ⟨rfl, rfl⟩ := Prod.mk.inj (Option.some.inj (h.symm.trans hsome))
    rfl

/-- A byte that stands for itself. -/
def Plain (c : UInt8) : Prop := c ≠ '\\'.toUInt8 ∧ c ≠ '"'.toUInt8 ∧ ¬ c < 0x20

theorem unescape_plain {c : UInt8} (h : Plain c) (rest : List UInt8) :
    unescape (c :: rest) = (unescape rest).map (c :: ·) := by
  have hcharacter : character (c :: rest) = some ([c], rest) := by
    rw [character, if_neg h.1, if_neg (not_or.mpr h.2)]
  exact unescape_of_character hcharacter

theorem unescape_short {e b : UInt8} (h : short e = some b) (rest : List UInt8) :
    unescape ('\\'.toUInt8 :: e :: rest) = (unescape rest).map (b :: ·) := by
  have hnone : short 'u'.toUInt8 = none := by decide
  have hu : e ≠ 'u'.toUInt8 := by
    rintro rfl
    exact absurd (hnone.symm.trans h) (by simp)
  have hcharacter : character ('\\'.toUInt8 :: e :: rest) = some ([b], rest) := by
    rw [character, if_pos rfl, escaped, if_neg hu, h, Option.map_some]
  exact unescape_of_character hcharacter

/-- No text begins with a control byte. -/
theorem unescape_control {c : UInt8} (h : c < 0x20) (rest : List UInt8) :
    unescape (c :: rest) = none := by
  have hne : c ≠ '\\'.toUInt8 := by
    rintro rfl
    exact absurd h (by decide)
  have hcharacter : character (c :: rest) = none := by
    rw [character, if_neg hne, if_pos (Or.inr h)]
  rw [unescape, if_neg (List.cons_ne_nil _ _)]
  split
  · rfl
  · rename_i hsome
    exact absurd (hcharacter.symm.trans hsome) (by simp)

/-- There is no control byte, and no quote without a backslash in front that begins an escape. -/
def Unquoted : List UInt8 → Prop
  | [] => True
  | [c] => c ≠ '"'.toUInt8 ∧ ¬ c < 0x20
  | c :: e :: rest =>
    if c = '\\'.toUInt8 then ¬ e < 0x20 ∧ Unquoted rest
    else c ≠ '"'.toUInt8 ∧ ¬ c < 0x20 ∧ Unquoted (e :: rest)

theorem unquoted_plain {c : UInt8} {rest : List UInt8} (h : Plain c) (hrest : Unquoted rest) :
    Unquoted (c :: rest) := by
  cases rest with
  | nil => exact h.2
  | cons e rest =>
    rw [Unquoted, if_neg h.1]
    exact ⟨h.2.1, h.2.2, hrest⟩

theorem unquoted_escape {e : UInt8} {rest : List UInt8} (h : ¬ e < 0x20) (hrest : Unquoted rest) :
    Unquoted ('\\'.toUInt8 :: e :: rest) := by
  rw [Unquoted, if_pos rfl]
  exact ⟨h, hrest⟩

end JsonString
