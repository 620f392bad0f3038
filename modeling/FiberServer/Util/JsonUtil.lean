import FiberServer.Chunk.FSUtil
import FiberServer.Library.Codes
import FiberServer.Library.JsonString

/-!
# `JsonUtil::Escape`

The first pass over a text counts the bytes of the result, and the second one appends them to a
buffer that was resized to that count.

* `Escape_eq`: the result is the escaped text behind as many null bytes.
* `escape_faithful_iff`: the texts whose result is read back.
-/

namespace FiberServer

namespace JsonUtil

open JsonString

/-- What the `switch`es of `Escape` append for a byte with a case of its own. -/
def letter (c : UInt8) : Option UInt8 :=
  -- '\f', '\t', '\r', '\n', '\b'
  if c = 12 then some 'f'.toUInt8
  else if c = 9 then some 't'.toUInt8
  else if c = 13 then some 'r'.toUInt8
  else if c = 10 then some 'n'.toUInt8
  else if c = 8 then some 'b'.toUInt8
  else if c = '"'.toUInt8 then some '"'.toUInt8
  else if c = '\\'.toUInt8 then some '\\'.toUInt8
  else none

def NeedEscape : Bytes → Bool
  | [] => false
  | c :: rest =>
    match letter c with
    | some _ => true
    | none => NeedEscape rest

/-- The first loop of `Escape`. -/
def sizeLoop : Bytes → (size : Nat) → Nat
  | [], size => size
  | c :: rest, size =>
    match letter c with
    | some _ => sizeLoop rest (size + 2)
    | none => sizeLoop rest (size + 1)

/-- The second loop. -/
def appendLoop : Bytes → (rt : Bytes) → Bytes
  | [], rt => rt
  | c :: rest, rt =>
    match letter c with
    | some e => appendLoop rest (rt ++ ['\\'.toUInt8, e])
    | none => appendLoop rest (rt ++ [c])

def Escape (v : Bytes) : Bytes :=
  let size := sizeLoop v 0
  if size = v.length then v
  else appendLoop v (List.replicate size 0)

/-! ### The loops -/

/-- The escape of a byte. -/
def escaped (c : UInt8) : Bytes :=
  match letter c with
  | some e => ['\\'.toUInt8, e]
  | none => [c]

theorem needEscape_eq_false_iff (v : Bytes) :
    NeedEscape v = false ↔ ∀ c ∈ v, letter c = none := by
  induction v with
  | nil => simp [NeedEscape]
  | cons c rest ih =>
    rw [NeedEscape, List.forall_mem_cons, ← ih]
    cases letter c <;> simp

theorem sizeLoop_eq (v : Bytes) (size : Nat) :
    sizeLoop v size = size + (v.flatMap escaped).length := by
  induction v generalizing size with
  | nil => rfl
  | cons c rest ih =>
    rw [sizeLoop, List.flatMap_cons, List.length_append, escaped]
    cases letter c with
    | none =>
      simp only [ih, List.length_cons, List.length_nil]
      omega
    | some e =>
      simp only [ih, List.length_cons, List.length_nil]
      omega

theorem appendLoop_eq (v rt : Bytes) : appendLoop v rt = rt ++ v.flatMap escaped := by
  induction v generalizing rt with
  | nil => exact (List.append_nil rt).symm
  | cons c rest ih =>
    rw [appendLoop, List.flatMap_cons, escaped]
    cases letter c with
    | none => exact (ih _).trans (List.append_assoc _ _ _)
    | some e => exact (ih _).trans (List.append_assoc _ _ _)

theorem flatMap_escaped_of_none {v : Bytes} (h : ∀ c ∈ v, letter c = none) :
    v.flatMap escaped = v := by
  induction v with
  | nil => rfl
  | cons c rest ih =>
    rw [List.forall_mem_cons] at h
    rw [List.flatMap_cons, ih h.2, escaped, h.1]
    rfl

theorem length_escaped (c : UInt8) : 1 ≤ (escaped c).length := by
  rw [escaped]
  cases letter c <;> simp

theorem length_le_flatMap (v : Bytes) : v.length ≤ (v.flatMap escaped).length := by
  induction v with
  | nil => exact Nat.le_refl 0
  | cons c rest ih =>
    have hone := length_escaped c
    rw [List.flatMap_cons, List.length_append, List.length_cons]
    omega

/-- A text grows by each byte with a case of its own. -/
theorem length_flatMap_eq_iff (v : Bytes) :
    (v.flatMap escaped).length = v.length ↔ ∀ c ∈ v, letter c = none := by
  induction v with
  | nil => simp
  | cons c rest ih =>
    have hle := length_le_flatMap rest
    rw [List.flatMap_cons, List.length_append, List.length_cons, List.forall_mem_cons, ← ih,
      escaped]
    cases hletter : letter c with
    | none =>
      simp only [List.length_cons, List.length_nil, true_and]
      omega
    | some e =>
      simp only [List.length_cons, List.length_nil, reduceCtorEq, false_and, iff_false]
      omega

/-- The buffer keeps its null bytes in front. -/
theorem Escape_eq (v : Bytes) :
    Escape v
      = if NeedEscape v = false then v
        else List.replicate (v.flatMap escaped).length 0 ++ v.flatMap escaped := by
  simp only [Escape, sizeLoop_eq, Nat.zero_add, appendLoop_eq, length_flatMap_eq_iff,
    needEscape_eq_false_iff]

/-! ### What the text stands for -/

theorem short_letter {c e : UInt8} (h : letter c = some e) : short e = some c ∧ ¬ e < 0x20 := by
  have hall : ∀ c : BitVec 8,
      (letter ⟨c⟩).all (fun e => short e = some ⟨c⟩ ∧ ¬ e < 0x20) = true := by
    decide
  exact of_decide_eq_true ((Option.all_eq_true _ _).mp (hall c.toBitVec) e h)

theorem letter_eq_none_iff (c : UInt8) :
    letter c = none ↔ c ∉ [12, 9, 13, 10, 8, '"'.toUInt8, '\\'.toUInt8] := by
  have hall : ∀ c : BitVec 8,
      letter ⟨c⟩ = none ↔ (⟨c⟩ : UInt8) ∉ [12, 9, 13, 10, 8, '"'.toUInt8, '\\'.toUInt8] := by
    decide
  exact hall c.toBitVec

/-- A byte below 32 with a case of its own, or any other byte. -/
def Printable (c : UInt8) : Prop := c < 0x20 → c = 9 ∨ c = 10 ∨ c = 13 ∨ c = 12 ∨ c = 8

theorem plain_of_letter {c : UInt8} (hc : Printable c) (h : letter c = none) : Plain c := by
  refine ⟨?_, ?_, fun hlt => ?_⟩
  · rintro rfl
    exact absurd h (by decide)
  · rintro rfl
    exact absurd h (by decide)
  · rcases hc hlt with rfl | rfl | rfl | rfl | rfl
    all_goals exact absurd h (by decide)

/-- Behind the null bytes there is what the text should be. -/
theorem parses_escaped : Codes.Parses Printable escaped unescape where
  nil := unescape_nil
  append c rest hc := by
    rw [escaped]
    cases hletter : letter c with
    | none => exact unescape_plain (plain_of_letter hc hletter) rest
    | some e => exact unescape_short (short_letter hletter).1 rest

theorem unquoted_escaped {v : Bytes} (h : ∀ c ∈ v, Printable c) :
    Unquoted (v.flatMap escaped) := by
  induction v with
  | nil => exact trivial
  | cons c rest ih =>
    rw [List.forall_mem_cons] at h
    rw [List.flatMap_cons, escaped]
    cases hletter : letter c with
    | none => exact unquoted_plain (plain_of_letter h.1 hletter) (ih h.2)
    | some e => exact unquoted_escape (short_letter hletter).2 (ih h.2)

/-- `Escape` changes the texts that `NeedEscape` says. -/
theorem Escape_eq_self_iff (v : Bytes) : Escape v = v ↔ NeedEscape v = false := by
  rw [Escape_eq]
  split_ifs with hnone
  · exact iff_of_true rfl hnone
  · refine iff_of_false (fun heq => ?_) hnone
    have hlength := congrArg List.length heq
    have hle := length_le_flatMap v
    rw [List.length_append, List.length_replicate] at hlength
    rw [needEscape_eq_false_iff] at hnone
    exact hnone ((length_flatMap_eq_iff v).mp (by omega))

/-- The result is read as the text, holds nothing that ends the literal, and is the text itself if
nothing needs an escape. -/
structure Faithful (v : Bytes) : Prop where
  decodes : unescape (Escape v) = some v
  unquoted : Unquoted (Escape v)
  unchanged : Escape v = v ↔ NeedEscape v = false

/-- `Escape` is right for the texts without any byte that it escapes. -/
theorem escape_faithful_iff (v : Bytes) (h : ∀ c ∈ v, Printable c) :
    Faithful v ↔ ∀ c ∈ v, c ∉ [12, 9, 13, 10, 8, '"'.toUInt8, '\\'.toUInt8] := by
  simp only [← letter_eq_none_iff]
  constructor
  · intro hfaithful
    by_contra hnone
    have hdecodes := hfaithful.decodes
    rw [Escape_eq, if_neg (mt (needEscape_eq_false_iff v).mp hnone)] at hdecodes
    -- the first byte is null
    cases hsize : (v.flatMap escaped).length with
    | zero =>
      have hle := length_le_flatMap v
      have hnil : v = [] := List.length_eq_zero_iff.mp (by omega)
      exact hnone (by simp [hnil])
    | succ size =>
      rw [hsize, List.replicate_succ, List.cons_append, unescape_control (by decide)] at hdecodes
      exact absurd hdecodes (by simp)
  · intro hnone
    have hself : Escape v = v.flatMap escaped := by
      rw [Escape_eq, if_pos ((needEscape_eq_false_iff v).mpr hnone), flatMap_escaped_of_none hnone]
    exact
      { decodes := hself ▸ parses_escaped.flatMap h
        unquoted := hself ▸ unquoted_escaped h
        unchanged := Escape_eq_self_iff v }

/-- `a` -/
theorem escape_faithful_letter :
    (∀ c ∈ ['a'.toUInt8], Printable c)
      ∧ (Faithful ['a'.toUInt8]
        ↔ ∀ c ∈ ['a'.toUInt8], c ∉ [12, 9, 13, 10, 8, '"'.toUInt8, '\\'.toUInt8]) := by
  have h : ∀ c ∈ ['a'.toUInt8], Printable c := by
    simp only [List.mem_singleton, forall_eq]
    exact fun hlt => absurd hlt (by decide)
  exact ⟨h, escape_faithful_iff _ h⟩

/-- A quote alone gets two null bytes in front. -/
theorem escape_not_faithful :
    ¬ ∀ v : Bytes, (∀ c ∈ v, Printable c) → Faithful v := by
  intro h
  have hquote : ∀ c ∈ ['"'.toUInt8], Printable c := by
    simp only [List.mem_singleton, forall_eq]
    exact fun hlt => absurd hlt (by decide)
  have hdecodes := (h _ hquote).decodes
  have hescape : Escape ['"'.toUInt8] = [0, 0, '\\'.toUInt8, '"'.toUInt8] := by decide
  rw [hescape, unescape_control (by decide)] at hdecodes
  exact absurd hdecodes (by simp)

end JsonUtil

end FiberServer
