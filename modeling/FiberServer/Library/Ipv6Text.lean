import Mathlib.Data.List.Basic
import Mathlib.Tactic.SplitIfs

/-!
# IPv6 addresses as text

`pton` reads the texts of RFC 4291, section 2.2: eight groups of one to four hexadecimal digits, of
which the last two may be written as an IPv4 address, or fewer of them with one `::` that stands for
one or more groups of zeros.

* `Writes`: the texts of groups, with or without a `::`.  `Writes.pton`: eight groups are read
  back; `Writes.doubles_le`: there is no second `::`.
-/

namespace Ipv6

def hexDigit (c : Char) : Option Nat :=
  if '0' ≤ c ∧ c ≤ '9' then some (c.toNat - '0'.toNat)
  else if 'a' ≤ c ∧ c ≤ 'f' then some (c.toNat - 'a'.toNat + 10)
  else if 'A' ≤ c ∧ c ≤ 'F' then some (c.toNat - 'A'.toNat + 10)
  else none

/-- The number with these digits behind `n`. -/
def number : List Char → Nat → Option Nat
  | [], n => some n
  | c :: rest, n => (hexDigit c).bind fun d => number rest (16 * n + d)

/-- A group has one to four digits. -/
def field (s : List Char) : Option Nat := if s = [] ∨ 4 < s.length then none else number s 0

/-- A decimal number up to 255 without leading zeros. -/
def octet (s : List Char) : Option Nat :=
  if s ≠ [] ∧ s.all Char.isDigit ∧ (s.head? = some '0' → s.length = 1)
    ∧ Nat.ofDigitChars 10 s 0 < 256 then some (Nat.ofDigitChars 10 s 0)
  else none

/-- The two groups of an IPv4 address. -/
def dotted (s : List Char) : Option (List Nat) :=
  match (s.splitOn '.').mapM octet with
  | some [a, b, c, d] => some [a * 256 + b, c * 256 + d]
  | _ => none

/-- The groups of the parts between the colons; only the last part may be an IPv4 address, if
`quad` says so. -/
def fields (quad : Bool) : List (List Char) → Option (List Nat)
  | [] => some []
  | s :: rest =>
    match field s with
    | some g => (fields quad rest).map (g :: ·)
    | none => if quad ∧ rest = [] then dotted s else none

def groups (quad : Bool) (s : List Char) : Option (List Nat) :=
  if s = [] then some [] else fields quad (s.splitOn ':')

/-- What stands in front of the first `::`, and behind it. -/
def cut : List Char → Option (List Char × List Char)
  | [] => none
  | [_] => none
  | c :: d :: rest =>
    if c = ':' ∧ d = ':' then some ([], rest)
    else (cut (d :: rest)).map fun (l, r) => (c :: l, r)

/-- The bytes of groups, the high one first. -/
def octets (gs : List Nat) : List UInt8 :=
  gs.flatMap fun g => [UInt8.ofNat (g / 256), UInt8.ofNat g]

/-- The 16 bytes of an address. -/
def pton (s : List Char) : Option (List UInt8) :=
  match cut s with
  | none => do
    let gs ← groups true s
    if gs.length = 8 then some (octets gs) else none
  | some (l, r) => do
    let left ← groups false l
    let right ← groups true r
    if left.length + right.length < 8 then
      some (octets (left ++ List.replicate (8 - left.length - right.length) 0 ++ right))
    else none

theorem length_octets (gs : List Nat) : (octets gs).length = 2 * gs.length := by
  induction gs with
  | nil => rfl
  | cons g gs ih =>
    rw [octets, List.flatMap_cons, List.length_append, ← octets, ih, List.length_cons]
    simp only [List.length_cons, List.length_nil]
    omega

theorem length_pton {s : List Char} {bytes : List UInt8} (h : pton s = some bytes) :
    bytes.length = 16 := by
  rw [pton] at h
  cases hcut : cut s with
  | none =>
    rw [hcut] at h
    obtain ⟨gs, -, h⟩ := Option.bind_eq_some_iff.mp h
    split_ifs at h with hlength
    rw [← Option.some.inj h, length_octets, hlength]
  | some lr =>
    obtain ⟨l, r⟩ := lr
    rw [hcut] at h
    obtain ⟨left, -, h⟩ := Option.bind_eq_some_iff.mp h
    obtain ⟨right, -, h⟩ := Option.bind_eq_some_iff.mp h
    split_ifs at h with hlength
    rw [← Option.some.inj h, length_octets, List.length_append, List.length_append,
      List.length_replicate]
    omega

/-- How often `::` stands in a text. -/
def doubles : List Char → Nat
  | [] => 0
  | [_] => 0
  | c :: d :: rest => (if c = ':' ∧ d = ':' then 1 else 0) + doubles (d :: rest)

/-- The text of groups, in small letters and without leading zeros. -/
def join (gs : List Nat) : List Char := [':'].intercalate (gs.map (Nat.toDigits 16))

/-! ### One group -/

theorem hexDigit_digitChar {d : Nat} (h : d < 16) : hexDigit d.digitChar = some d := by
  have hall : ∀ d < 16, hexDigit (Nat.digitChar d) = some d := by decide
  exact hall d h

theorem number_append (s t : List Char) (n : Nat) :
    number (s ++ t) n = (number s n).bind (number t) := by
  induction s generalizing n with
  | nil => rfl
  | cons c s ih =>
    rw [List.cons_append, number, number]
    cases hexDigit c with
    | none => rfl
    | some d => exact ih (16 * n + d)

theorem number_toDigits (g : Nat) : number (Nat.toDigits 16 g) 0 = some g := by
  induction g using Nat.base_induction 16 (by decide) with
  | single d hd =>
    rw [Nat.toDigits_of_lt_base hd, number, hexDigit_digitChar hd]
    simp [number]
  | digit g d hd hg ih =>
    rw [← Nat.toDigits_append_toDigits (by decide) hg hd, number_append, ih,
      Nat.toDigits_of_lt_base hd, Option.bind_some, number, hexDigit_digitChar hd]
    rfl

theorem field_toDigits {g : Nat} (h : g < 65536) : field (Nat.toDigits 16 g) = some g := by
  have hlength : (Nat.toDigits 16 g).length ≤ 4 :=
    (Nat.length_toDigits_le_iff (by decide) (by decide)).mpr h
  have hne : Nat.toDigits 16 g ≠ [] := Nat.toDigits_ne_nil
  rw [field, if_neg (not_or.mpr ⟨hne, Nat.not_lt.mpr hlength⟩), number_toDigits]

/-- A colon is no digit. -/
theorem not_mem_of_number {s : List Char} {n m : Nat} (h : number s n = some m) {c : Char}
    (hc : hexDigit c = none) : c ∉ s := by
  induction s generalizing n with
  | nil => exact List.not_mem_nil
  | cons d s ih =>
    rw [number] at h
    obtain ⟨value, hvalue, hrest⟩ := Option.bind_eq_some_iff.mp h
    rw [List.mem_cons, not_or]
    refine ⟨fun heq => ?_, ih hrest⟩
    rw [← heq, hc] at hvalue
    exact absurd hvalue (by simp)

theorem not_mem_toDigits (g : Nat) {c : Char} (hc : hexDigit c = none) :
    c ∉ Nat.toDigits 16 g := not_mem_of_number (number_toDigits g) hc

/-! ### Several groups -/

theorem join_cons {g : Nat} {gs : List Nat} (hne : gs ≠ []) :
    join (g :: gs) = Nat.toDigits 16 g ++ ':' :: join gs := by
  rw [join, List.map_cons, List.intercalate_cons_of_ne_nil (by simpa using hne)]
  simp [join]

theorem join_singleton (g : Nat) : join [g] = Nat.toDigits 16 g := List.intercalate_singleton

theorem join_append_singleton {gs : List Nat} (hne : gs ≠ []) (g : Nat) :
    join (gs ++ [g]) = join gs ++ ':' :: Nat.toDigits 16 g := by
  induction gs with
  | nil => exact absurd rfl hne
  | cons g' gs ih =>
    by_cases hgs : gs = []
    · rw [hgs, List.singleton_append, join_cons (List.cons_ne_nil _ _), join_singleton,
        join_singleton]
    · rw [List.cons_append, join_cons (by simp), ih hgs, join_cons hgs, List.append_assoc,
        List.cons_append]

/-- A text of groups begins with a digit. -/
theorem exists_join {gs : List Nat} (hne : gs ≠ []) : ∃ c rest, join gs = c :: rest ∧ c ≠ ':' := by
  cases gs with
  | nil => exact absurd rfl hne
  | cons g gs =>
    obtain ⟨c, digits, hdigits⟩ :=
      List.exists_cons_of_ne_nil (Nat.toDigits_ne_nil (b := 16) (n := g))
    have hc : c ≠ ':' := by
      rintro rfl
      have hmem := not_mem_toDigits g (show hexDigit ':' = none by decide)
      rw [hdigits] at hmem
      exact hmem List.mem_cons_self
    by_cases hgs : gs = []
    · exact ⟨c, digits, by rw [hgs, join_singleton, hdigits], hc⟩
    · exact ⟨c, digits ++ ':' :: join gs, by rw [join_cons hgs, hdigits, List.cons_append], hc⟩

theorem not_mem_join (gs : List Nat) {c : Char} (hc : hexDigit c = none) (hcolon : c ≠ ':') :
    c ∉ join gs := by
  induction gs with
  | nil => exact List.not_mem_nil
  | cons g gs ih =>
    have hdigits := not_mem_toDigits g hc
    by_cases hgs : gs = []
    · rw [hgs, join_singleton]
      exact hdigits
    · rw [join_cons hgs, List.mem_append, List.mem_cons, not_or, not_or]
      exact ⟨hdigits, hcolon, ih⟩

theorem fields_toDigits (quad : Bool) {gs : List Nat} (h : ∀ g ∈ gs, g < 65536) :
    fields quad (gs.map (Nat.toDigits 16)) = some gs := by
  induction gs with
  | nil => rfl
  | cons g gs ih =>
    rw [List.forall_mem_cons] at h
    rw [List.map_cons, fields, field_toDigits h.1, ih h.2]
    rfl

theorem groups_join (quad : Bool) {gs : List Nat} (h : ∀ g ∈ gs, g < 65536) :
    groups quad (join gs) = some gs := by
  by_cases hgs : gs = []
  · rw [hgs]
    rfl
  · obtain ⟨c, rest, hjoin, -⟩ := exists_join hgs
    have hsplit : (join gs).splitOn ':' = gs.map (Nat.toDigits 16) := by
      refine List.splitOn_intercalate ':' (fun s hs => ?_) (by simpa using hgs)
      obtain ⟨g, -, rfl⟩ := List.mem_map.mp hs
      exact not_mem_toDigits g (by decide)
    rw [groups, if_neg (by rw [hjoin]; exact List.cons_ne_nil _ _), hsplit, fields_toDigits quad h]

/-! ### The colons -/

/-- A character other than a colon is passed over. -/
theorem cut_cons {c : Char} (hc : c ≠ ':') (rest : List Char) :
    cut (c :: rest) = (cut rest).map fun (l, r) => (c :: l, r) := by
  cases rest with
  | nil => rfl
  | cons d rest => rw [cut, if_neg fun h => hc h.1]

theorem doubles_cons {c : Char} (hc : c ≠ ':') (rest : List Char) :
    doubles (c :: rest) = doubles rest := by
  cases rest with
  | nil => rfl
  | cons d rest => rw [doubles, if_neg fun h => hc h.1, Nat.zero_add]

/-- So is a colon in front of another character. -/
theorem cut_colon {c : Char} (hc : c ≠ ':') (rest : List Char) :
    cut (':' :: c :: rest) = (cut (c :: rest)).map fun (l, r) => (':' :: l, r) := by
  rw [cut, if_neg fun h => hc h.2]

theorem doubles_colon {c : Char} (hc : c ≠ ':') (rest : List Char) :
    doubles (':' :: c :: rest) = doubles (c :: rest) := by
  rw [doubles, if_neg fun h => hc h.2, Nat.zero_add]

theorem cut_append {s : List Char} (hs : ':' ∉ s) (t : List Char) :
    cut (s ++ t) = (cut t).map fun (l, r) => (s ++ l, r) := by
  induction s with
  | nil => exact (congrFun Option.map_id (cut t)).symm
  | cons c s ih =>
    rw [List.mem_cons, not_or] at hs
    rw [List.cons_append, cut_cons (Ne.symm hs.1), ih hs.2, Option.map_map]
    rfl

theorem doubles_append {s : List Char} (hs : ':' ∉ s) (t : List Char) :
    doubles (s ++ t) = doubles t := by
  induction s with
  | nil => rfl
  | cons c s ih =>
    rw [List.mem_cons, not_or] at hs
    rw [List.cons_append, doubles_cons (Ne.symm hs.1), ih hs.2]

theorem cut_join (gs : List Nat) (t : List Char) :
    cut (join gs ++ t) = (cut t).map fun (l, r) => (join gs ++ l, r) := by
  induction gs with
  | nil => exact (congrFun Option.map_id (cut t)).symm
  | cons g gs ih =>
    have hdigits : ':' ∉ Nat.toDigits 16 g := not_mem_toDigits g (by decide)
    by_cases hgs : gs = []
    · rw [hgs, join_singleton, cut_append hdigits]
    · obtain ⟨c, rest, hjoin, hc⟩ := exists_join hgs
      rw [hjoin] at ih
      rw [join_cons hgs, List.append_assoc, cut_append hdigits, hjoin, List.cons_append,
        List.cons_append, cut_colon hc, ← List.cons_append, ih, Option.map_map, Option.map_map]
      refine congrArg (Option.map · (cut t)) (funext fun parts => ?_)
      simp

theorem doubles_join (gs : List Nat) (t : List Char) : doubles (join gs ++ t) = doubles t := by
  induction gs with
  | nil => rfl
  | cons g gs ih =>
    have hdigits : ':' ∉ Nat.toDigits 16 g := not_mem_toDigits g (by decide)
    by_cases hgs : gs = []
    · rw [hgs, join_singleton, doubles_append hdigits]
    · obtain ⟨c, rest, hjoin, hc⟩ := exists_join hgs
      rw [hjoin] at ih
      rw [join_cons hgs, List.append_assoc, doubles_append hdigits, hjoin, List.cons_append,
        List.cons_append, doubles_colon hc, ← List.cons_append, ih]

/-! ### Both forms of a text -/

/-- A text of groups, perhaps with `::` for some of the zeros. -/
inductive Writes : List Nat → List Char → Prop
  | plain (gs : List Nat) : Writes gs (join gs)
  | double (l : List Nat) (k : Nat) (r : List Nat) (hk : 0 < k) :
    Writes (l ++ List.replicate k 0 ++ r) (join l ++ ':' :: ':' :: join r)

theorem doubles_double (l r : List Nat) : doubles (join l ++ ':' :: ':' :: join r) = 1 := by
  have hright : doubles (':' :: join r) = 0 := by
    by_cases hr : r = []
    · rw [hr]
      rfl
    · obtain ⟨c, rest, hjoin, hc⟩ := exists_join hr
      have hrest := doubles_join r []
      rw [List.append_nil, hjoin] at hrest
      rw [hjoin, doubles_colon hc, hrest]
      rfl
  rw [doubles_join, doubles, if_pos ⟨rfl, rfl⟩, hright]

namespace Writes

variable {gs : List Nat} {text : List Char}

/-- Eight groups are read back. -/
theorem pton (h : Writes gs text) (hgs : ∀ g ∈ gs, g < 65536) (hlength : gs.length = 8) :
    pton text = some (octets gs) := by
  cases h with
  | plain =>
    have hcut : cut (join gs) = none := by
      have hjoin := cut_join gs []
      rw [List.append_nil] at hjoin
      exact hjoin
    simp [Ipv6.pton, hcut, groups_join true hgs, hlength]
  | double l k r hk =>
    rw [List.append_assoc, List.forall_mem_append, List.forall_mem_append] at hgs
    rw [List.length_append, List.length_append, List.length_replicate] at hlength
    have hcut : cut (join l ++ ':' :: ':' :: join r) = some (join l, join r) := by
      rw [cut_join, cut, if_pos ⟨rfl, rfl⟩, Option.map_some]
      simp
    have hzeros : 8 - l.length - r.length = k := by omega
    have hroom : l.length + r.length < 8 := by omega
    simp [Ipv6.pton, hcut, groups_join false hgs.1, groups_join true hgs.2.2, hroom, hzeros]

theorem doubles_le (h : Writes gs text) : doubles text ≤ 1 := by
  cases h with
  | plain =>
    have hjoin := doubles_join gs []
    rw [List.append_nil] at hjoin
    rw [hjoin]
    exact Nat.zero_le 1
  | double l k r hk => exact Nat.le_of_eq (doubles_double l r)

theorem not_mem (h : Writes gs text) {c : Char} (hc : hexDigit c = none) (hcolon : c ≠ ':') :
    c ∉ text := by
  cases h with
  | plain => exact not_mem_join gs hc hcolon
  | double l k r hk =>
    simp only [List.mem_append, List.mem_cons, not_or]
    exact ⟨not_mem_join l hc hcolon, hcolon, hcolon, not_mem_join r hc hcolon⟩

end Writes

end Ipv6
