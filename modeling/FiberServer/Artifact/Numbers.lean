import FiberServer.Artifact.Servlets
import Mathlib.Data.Int.ModEq

/-!
# Numbers in texts

A number arrives as a text in a query and in a JSON string.  `std::stoll` refuses what does not fit
into 64 bits, `TypeUtil::Atoi` takes what `strtoull` saturates and the signed type wraps, and the
narrower types cut that once more.

* `fromParams_eq_fromJson_iff`: a query and a JSON object with the same strings name the same
  artifact if and only if the number at the front of the size fits into 64 bits.
* `get_string_iff`: an integer of a JSON string is its value, or the default for a text that is not
  a number of the type, if and only if it is such a number, or the default is what the conversion
  makes of it.
-/

namespace FiberServer

namespace TypeUtil

open FSUtil (isspace)

/-- The number at the front of a text, 0 when there are no digits. -/
def leading (s : Str) : Int :=
  let v : Int := Nat.ofDigitChars 10 (signDigits s).2 0
  if (signDigits s).1 then -v else v

/-- The value of a decimal number; `none` for every other text. -/
def decimal (s : Str) : Option Int :=
  let neg := s.head? == some '-'
  let ds := if neg || s.head? == some '+' then s.tail else s
  let v : Int := Nat.ofDigitChars 10 ds 0
  if ds ≠ [] ∧ ds.all Char.isDigit then some (if neg then -v else v) else none

theorem wrap_of_fits {bits : Nat} {v : Int} (hbits : 0 < bits) (hlo : -2 ^ (bits - 1) ≤ v)
    (hhi : v < 2 ^ (bits - 1)) : wrap bits v = v := by
  obtain ⟨n, rfl⟩ : ∃ n, bits = n + 1 := ⟨bits - 1, by omega⟩
  have hpow : ((2 ^ (n + 1) : Nat) : Int) = 2 * 2 ^ n := by rw [Nat.pow_succ]; push_cast; omega
  rw [Nat.add_sub_cancel] at hlo hhi
  rw [wrap]
  apply Int.bmod_eq_of_le
  · rw [hpow]; omega
  · rw [hpow]; omega

theorem wrap_emod (bits : Nat) (v : Int) : wrap bits v % 2 ^ bits = v % 2 ^ bits := by
  have h := Int.bmod_emod (x := v) (m := 2 ^ bits)
  push_cast at h
  exact h

/-- `Atoi` wraps a number of up to 64 bits and makes -1 of a longer one. -/
theorem Atoi_eq (s : Str) :
    Atoi s = if (leading s).natAbs < 2 ^ 64 then wrap 64 (leading s) else -1 := by
  have habs : (leading s).natAbs = Nat.ofDigitChars 10 (signDigits s).2 0 := by
    rw [leading]
    split
    · rw [Int.natAbs_neg, Int.natAbs_natCast]
    · rw [Int.natAbs_natCast]
  rw [habs, Atoi, strtoull, leading]
  generalize Nat.ofDigitChars 10 (signDigits s).2 0 = v
  split
  case isTrue hlarge =>
    rw [if_neg (show ¬ v < 2 ^ 64 by omega)]
    decide
  case isFalse hsmall =>
    rw [if_pos (show v < 2 ^ 64 by omega)]
    cases (signDigits s).1 with
    | false => rfl
    | true =>
      -- the negative is taken in the unsigned type
      have hcast : (((2 ^ 64 - v) % 2 ^ 64 : Nat) : Int) = (-(v : Int)) % (2 ^ 64 : Nat) := by omega
      show wrap 64 (((2 ^ 64 - v) % 2 ^ 64 : Nat) : Int) = wrap 64 (-(v : Int))
      rw [hcast, wrap, wrap, Int.emod_bmod]

theorem leading_of_no_digits {s : Str} (h : (signDigits s).2 = []) : leading s = 0 := by
  rw [leading, h]
  cases (signDigits s).1 <;> rfl

/-- `stoll` gives the number at the front, or 0, unless the number does not fit. -/
theorem stoll_getD (s : Str) :
    (stoll s).getD 0 = if -2 ^ 63 ≤ leading s ∧ leading s < 2 ^ 63 then leading s else 0 := by
  have hstoll : stoll s = if (signDigits s).2 ≠ [] ∧ -2 ^ 63 ≤ leading s ∧ leading s < 2 ^ 63
      then some (leading s) else none := rfl
  rw [hstoll]
  by_cases hdigits : (signDigits s).2 = []
  · rw [if_neg fun h => h.1 hdigits, leading_of_no_digits hdigits]
    rfl
  · by_cases hfits : -2 ^ 63 ≤ leading s ∧ leading s < 2 ^ 63
    · rw [if_pos ⟨hdigits, hfits⟩, if_pos hfits]
      rfl
    · rw [if_neg fun h => hfits h.2, if_neg hfits]
      rfl

/-- A number that does not fit into 64 signed bits is never wrapped to 0. -/
theorem stoll_eq_Atoi_iff (s : Str) :
    (stoll s).getD 0 = Atoi s ↔ -2 ^ 63 ≤ leading s ∧ leading s < 2 ^ 63 := by
  rw [stoll_getD, Atoi_eq]
  constructor
  · intro h
    by_contra hfits
    rw [if_neg hfits] at h
    split at h
    case isTrue hsmall =>
      have hmod := wrap_emod 64 (leading s)
      rw [← h] at hmod
      omega
    case isFalse => exact absurd h (by decide)
  · intro hfits
    rw [if_pos hfits, if_pos (by omega), wrap_of_fits (by decide) hfits.1 hfits.2]

theorem isspace_of_isDigit {c : Char} (h : c.isDigit) : isspace c = false := by
  apply eq_false_of_ne_true
  intro hspace
  have hmem : c = ' ' ∨ c = '\t' ∨ c = '\n' ∨ c = '\x0b' ∨ c = '\x0c' ∨ c = '\r' := by
    simpa [isspace] using hspace
  rcases hmem with rfl | rfl | rfl | rfl | rfl | rfl <;> exact absurd h (by decide)

/-- Nothing of a decimal number is skipped or left over. -/
theorem leading_of_decimal {s : Str} {v : Int} (h : decimal s = some v) : leading s = v := by
  obtain ⟨⟨hne, hall⟩, hv⟩ := Option.ite_none_right_eq_some.mp h
  cases s with
  | nil => exact absurd rfl hne
  | cons c cs =>
    have hspace : isspace c = false := by
      by_cases hsign : c = '-' ∨ c = '+'
      · rcases hsign with hc | hc <;> rw [hc] <;> rfl
      · have hnone : ((c :: cs).head? == some '-' || (c :: cs).head? == some '+') = false := by
          simpa using hsign
        rw [hnone] at hall
        exact isspace_of_isDigit (List.all_eq_true.mp hall c List.mem_cons_self)
    have hskip : (c :: cs).dropWhile isspace = c :: cs :=
      List.dropWhile_cons_of_neg (by simp [hspace])
    rw [leading, signDigits, hskip, List.takeWhile_eq_self_iff.mpr (List.all_eq_true.mp hall)]
    exact Option.some.inj hv

end TypeUtil

/-! ### A query and a JSON object -/

namespace ArtifactMetadata

open TypeUtil (leading)

/-- The JSON object with these strings as its members. -/
def asJson (params : Str → Option Str) : Str → Option Value :=
  fun name => (params name).map .string

variable (params : Str → Option Str)

theorem GetString_asJson (name : Str) :
    JsonUtil.GetString (asJson params) name = (params name).getD [] := by
  rw [JsonUtil.GetString, asJson]
  cases params name <;> rfl

theorem isSome_asJson (name : Str) : (asJson params name).isSome = (params name).isSome :=
  Option.isSome_map

/-- The two ways agree on everything but the size. -/
theorem fromJson_asJson :
    FromJson (asJson params)
      = { FromParams params with size := JsonUtil.GetInt64 (asJson params) "size".toList 0 } := by
  have hget : JsonUtil.GetString (asJson params) = fun name => (params name).getD [] :=
    funext (GetString_asJson params)
  have hhas : (fun name => (asJson params name).isSome) = fun name => (params name).isSome :=
    funext (isSome_asJson params)
  rw [FromJson, hget, hhas]
  rfl

theorem int64Param_of_some {s : Str} (h : params "size".toList = some s) :
    int64Param params "size".toList = (TypeUtil.stoll s).getD 0 := by
  rw [int64Param, h]
  by_cases hs : s = []
  · subst hs
    rfl
  · exact if_neg hs

/-- The sizes agree unless a number does not fit into 64 signed bits. -/
theorem int64Param_eq_iff :
    int64Param params "size".toList = JsonUtil.GetInt64 (asJson params) "size".toList 0
      ↔ ∀ s, params "size".toList = some s → -2 ^ 63 ≤ leading s ∧ leading s < 2 ^ 63 := by
  cases hsize : params "size".toList with
  | none =>
    have hparam : int64Param params "size".toList = 0 := by rw [int64Param, hsize]
    have hjson : JsonUtil.GetInt64 (asJson params) "size".toList 0 = 0 := by
      rw [JsonUtil.GetInt64, asJson, hsize]
      rfl
    rw [hparam, hjson]
    exact ⟨fun _ _ h => (nomatch h), fun _ => rfl⟩
  | some s =>
    have hjson : JsonUtil.GetInt64 (asJson params) "size".toList 0 = TypeUtil.Atoi s := by
      rw [JsonUtil.GetInt64, asJson, hsize]
      rfl
    rw [int64Param_of_some params hsize, hjson, TypeUtil.stoll_eq_Atoi_iff]
    constructor
    · rintro h _ ⟨⟩
      exact h
    · intro h
      exact h s rfl

theorem fromParams_eq_fromJson_iff :
    FromParams params = FromJson (asJson params)
      ↔ ∀ s, params "size".toList = some s → -2 ^ 63 ≤ leading s ∧ leading s < 2 ^ 63 := by
  rw [← int64Param_eq_iff, fromJson_asJson]
  constructor
  · exact congrArg ArtifactMetadata.size
  · intro h
    rw [← h]
    rfl

/-- The size is 2 ^ 63: a query has the size 0, a JSON object the size -2 ^ 63. -/
theorem fromParams_ne_fromJson : ¬ ∀ params, FromParams params = FromJson (asJson params) := by
  intro h
  have hsize := congrArg ArtifactMetadata.size
    (h fun name => if name = "size".toList then some "9223372036854775808".toList else none)
  exact absurd hsize (by decide)

end ArtifactMetadata

/-! ### The integer types of a JSON number -/

/-- The types that `JsonUtil` reads. -/
inductive IntType
  | int32
  | uint32
  | int64
  | uint64
  deriving DecidableEq, Repr

namespace IntType

open TypeUtil (Atoi decimal leading wrap wrap_emod)

def bits : IntType → Nat
  | int32 | uint32 => 32
  | int64 | uint64 => 64

/-- The values of the type. -/
def Holds : IntType → Int → Prop
  | int32, v => -2 ^ 31 ≤ v ∧ v < 2 ^ 31
  | uint32, v => 0 ≤ v ∧ v < 2 ^ 32
  | int64, v => -2 ^ 63 ≤ v ∧ v < 2 ^ 63
  | uint64, v => 0 ≤ v ∧ v < 2 ^ 64

instance (T : IntType) (v : Int) : Decidable (T.Holds v) := by
  cases T <;> exact inferInstanceAs (Decidable (_ ∧ _))

/-- The conversion to the type. -/
def cast : IntType → Int → Int
  | int32, v => wrap 32 v
  | uint32, v => v % 2 ^ 32
  | int64, v => wrap 64 v
  | uint64, v => v % 2 ^ 64

/-- The function of `JsonUtil` that reads the type. -/
def Get : IntType → (Str → Option Value) → Str → Int → Int
  | int32 => JsonUtil.GetInt32
  | uint32 => JsonUtil.GetUint32
  | int64 => JsonUtil.GetInt64
  | uint64 => JsonUtil.GetUint64

/-- The value of a decimal number of the type, the default for every other text. -/
def exactOr (T : IntType) (s : Str) (default_value : Int) : Int :=
  match decimal s with
  | some v => if T.Holds v then v else default_value
  | none => default_value

/-- The text is a decimal number of the type. -/
def Reads (T : IntType) (s : Str) : Prop := ∃ v, decimal s = some v ∧ T.Holds v

/-- The number at the front of the text is the default up to a multiple of `2 ^ bits`; one of more
than 64 bits counts as -1. -/
def LandsOn (T : IntType) (s : Str) (default_value : Int) : Prop :=
  (if (leading s).natAbs < 2 ^ 64 then leading s else -1) ≡ default_value [ZMOD 2 ^ T.bits]

variable {T : IntType} {v w : Int} {s : Str}

theorem cast_of_holds (h : T.Holds v) : T.cast v = v := by
  cases T with
  | int32 => exact TypeUtil.wrap_of_fits (by decide) h.1 h.2
  | uint32 => exact Int.emod_eq_of_lt h.1 h.2
  | int64 => exact TypeUtil.wrap_of_fits (by decide) h.1 h.2
  | uint64 => exact Int.emod_eq_of_lt h.1 h.2

theorem cast_modEq (T : IntType) (v : Int) : T.cast v ≡ v [ZMOD 2 ^ T.bits] := by
  cases T with
  | int32 => exact wrap_emod 32 v
  | uint32 => exact Int.emod_emod_of_dvd v (Int.dvd_refl _)
  | int64 => exact wrap_emod 64 v
  | uint64 => exact Int.emod_emod_of_dvd v (Int.dvd_refl _)

theorem cast_congr (h : v ≡ w [ZMOD 2 ^ T.bits]) : T.cast v = T.cast w := by
  have hwrap : ∀ n, v % (2 ^ n : Nat) = w % (2 ^ n : Nat) → wrap n v = wrap n w := by
    intro n hn
    rw [wrap, wrap, ← Int.emod_bmod, hn, Int.emod_bmod]
  cases T with
  | int32 => exact hwrap 32 h
  | uint32 => exact h
  | int64 => exact hwrap 64 h
  | uint64 => exact h

/-- A conversion ends at a value of the type if and only if it starts at one of its residue. -/
theorem cast_eq_iff (hw : T.Holds w) : T.cast v = w ↔ v ≡ w [ZMOD 2 ^ T.bits] := by
  constructor
  · intro h
    rw [← h]
    exact (cast_modEq T v).symm
  · intro h
    rw [cast_congr h, cast_of_holds hw]

theorem Get_string {members : Str → Option Value} {name : Str} {default_value : Int}
    (h : members name = some (.string s)) : T.Get members name default_value = T.cast (Atoi s) := by
  cases T with
  | int32 => rw [Get, JsonUtil.GetInt32, h]; rfl
  | uint32 => rw [Get, JsonUtil.GetUint32, h]; rfl
  | int64 =>
    rw [Get, JsonUtil.GetInt64, h]
    show Atoi s = wrap 64 (Atoi s)
    rw [Atoi, wrap, wrap, Int.bmod_bmod]
  | uint64 => rw [Get, JsonUtil.GetUint64, h]; rfl

/-- What `Atoi` does to the number at the front is a matter of 64 bits, and of fewer. -/
theorem Atoi_modEq (T : IntType) (s : Str) :
    Atoi s ≡ (if (leading s).natAbs < 2 ^ 64 then leading s else -1) [ZMOD 2 ^ T.bits] := by
  rw [TypeUtil.Atoi_eq]
  split
  case isTrue =>
    have hdvd : (2 : Int) ^ T.bits ∣ 2 ^ 64 := by
      cases T <;> decide
    exact Int.ModEq.of_dvd hdvd (wrap_emod 64 (leading s))
  case isFalse => exact Int.ModEq.rfl

theorem natAbs_lt_of_holds (h : T.Holds v) : v.natAbs < 2 ^ 64 := by
  cases T <;> (rw [Holds] at h; omega)

theorem cast_Atoi_of_reads (hv : decimal s = some v) (hT : T.Holds v) : T.cast (Atoi s) = v := by
  rw [cast_eq_iff hT]
  have h := Atoi_modEq T s
  rw [TypeUtil.leading_of_decimal hv, if_pos (natAbs_lt_of_holds hT)] at h
  exact h

theorem cast_Atoi_eq_iff (hw : T.Holds w) : T.cast (Atoi s) = w ↔ T.LandsOn s w := by
  rw [cast_eq_iff hw, LandsOn]
  constructor
  · exact (Atoi_modEq T s).symm.trans
  · exact (Atoi_modEq T s).trans

theorem exactOr_of_not_reads (h : ¬ T.Reads s) : T.exactOr s w = w := by
  rw [exactOr]
  cases hv : decimal s with
  | none => rfl
  | some v => exact if_neg fun hT => h ⟨v, hv, hT⟩

/-- The conversion is exact if and only if the text is a number of the type, or the conversion
happens to end at the default. -/
theorem cast_eq_exactOr_iff (hw : T.Holds w) :
    T.cast (Atoi s) = T.exactOr s w ↔ T.Reads s ∨ T.LandsOn s w := by
  by_cases hreads : T.Reads s
  · obtain ⟨v, hv, hT⟩ := hreads
    have hexact : T.exactOr s w = v := by rw [exactOr, hv]; exact if_pos hT
    rw [hexact]
    exact ⟨fun _ => .inl ⟨v, hv, hT⟩, fun _ => cast_Atoi_of_reads hv hT⟩
  · rw [exactOr_of_not_reads hreads, cast_Atoi_eq_iff hw]
    constructor
    · exact .inr
    · intro h
      exact h.resolve_left hreads

end IntType

open IntType ChunkUploadServlet in
/-- Every reader of `JsonUtil`, and the two numbers of a chunk in `X-Chunk-Meta`. -/
theorem get_string_iff {members : Str → Option Value} {name s : Str}
    (hs : members name = some (.string s)) :
    (∀ T : IntType, ∀ default_value, T.Holds default_value →
      (T.Get members name default_value = T.exactOr s default_value
        ↔ T.Reads s ∨ T.LandsOn s default_value))
    ∧ (name = "chunk_index".toList → ∀ c : Chunk, c.chunk_index < 0 →
      ((withHeader c members).chunk_index = int32.exactOr s (-1)
        ↔ int32.Reads s ∨ int32.LandsOn s (-1)))
    ∧ (name = "total_chunks".toList → ∀ c : Chunk, c.total_chunks ≤ 0 →
      ((withHeader c members).total_chunks = int32.exactOr s 0
        ↔ int32.Reads s ∨ int32.LandsOn s 0)) := by
  have hget : ∀ T : IntType, ∀ default_value, T.Holds default_value →
      (T.Get members name default_value = T.exactOr s default_value
        ↔ T.Reads s ∨ T.LandsOn s default_value) := by
    intro T default_value hd
    rw [Get_string hs, cast_eq_exactOr_iff hd]
  refine ⟨hget, ?_, ?_⟩
  · rintro rfl c hc
    have hindex : (withHeader c members).chunk_index
        = int32.Get members "chunk_index".toList (-1) := if_pos hc
    rw [hindex]
    exact hget int32 (-1) (by decide)
  · rintro rfl c hc
    have htotal : (withHeader c members).total_chunks
        = int32.Get members "total_chunks".toList 0 := if_pos hc
    rw [htotal]
    exact hget int32 0 (by decide)

/-- A header that numbers its chunk with this text. -/
def indexMembers (s : Str) (name : Str) : Option Value :=
  if name = "chunk_index".toList then some (.string s) else none

/-- A chunk without a number. -/
def unnumbered : ChunkUploadServlet.Chunk where
  request_meta := ArtifactMetadata.FromParams fun _ => none
  total_chunks := 3
  chunk_index := -1

open IntType ChunkUploadServlet in
theorem get_string_iff_seven :
    indexMembers "7".toList "chunk_index".toList = some (.string "7".toList)
      ∧ (withHeader unnumbered (indexMembers "7".toList)).chunk_index
        = int32.exactOr "7".toList (-1) := by
  have hmem : indexMembers "7".toList "chunk_index".toList = some (.string "7".toList) := if_pos rfl
  refine ⟨hmem, ?_⟩
  refine ((get_string_iff hmem).2.1 rfl unnumbered (by decide)).mpr (.inl ?_)
  exact ⟨7, by decide, by decide⟩

open IntType ChunkUploadServlet in
/-- The number 2 ^ 32 is none of an `int32_t`; the chunk is saved as the first one. -/
theorem get_string_wraps :
    ¬ ∀ (members : Str → Option Value) (name s : Str), members name = some (.string s) →
      (∀ T : IntType, ∀ default_value, T.Holds default_value →
        T.Get members name default_value = T.exactOr s default_value)
      ∧ (name = "chunk_index".toList → ∀ c : Chunk, c.chunk_index < 0 →
        (withHeader c members).chunk_index = int32.exactOr s (-1)) := by
  intro h
  have hmem : indexMembers "4294967296".toList "chunk_index".toList
      = some (.string "4294967296".toList) := if_pos rfl
  have hindex := (h _ _ _ hmem).2 rfl unnumbered (by decide)
  exact absurd hindex (by decide)

end FiberServer
