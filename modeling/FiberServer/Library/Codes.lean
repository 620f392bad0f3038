import Mathlib.Data.List.Basic

/-!
# Codes of single characters

`enc` writes each character of a text on its own, and `dec` reads such texts.  If `dec` takes the
code of one character off the front, it takes the codes of a whole text (`Reads.flatMap`, and
`Parses.flatMap` for a decoder that may fail).  A character that no code contains is not in a coded text (`not_mem_flatMap`), and one that `enc`
leaves alone and no other code contains is there if and only if it is in the text
(`Marks.mem_flatMap`).
-/

namespace Codes

variable {α β : Type*}

/-- `dec` takes the code of a character off the front of any text. -/
structure Reads (enc : α → List β) (dec : List β → List α) : Prop where
  nil : dec [] = []
  append : ∀ a rest, dec (enc a ++ rest) = a :: dec rest

theorem Reads.flatMap {enc : α → List β} {dec : List β → List α} (h : Reads enc dec) (s : List α) :
    dec (s.flatMap enc) = s := by
  induction s with
  | nil => exact h.nil
  | cons a s ih => rw [List.flatMap_cons, h.append, ih]

/-- The same of a decoder that may fail, for the characters of which `P` holds. -/
structure Parses (P : α → Prop) (enc : α → List β) (dec : List β → Option (List α)) : Prop where
  nil : dec [] = some []
  append : ∀ a rest, P a → dec (enc a ++ rest) = (dec rest).map (a :: ·)

theorem Parses.flatMap {P : α → Prop} {enc : α → List β} {dec : List β → Option (List α)}
    (h : Parses P enc dec) {s : List α} (hs : ∀ a ∈ s, P a) : dec (s.flatMap enc) = some s := by
  induction s with
  | nil => exact h.nil
  | cons a s ih =>
    rw [List.forall_mem_cons] at hs
    rw [List.flatMap_cons, h.append a _ hs.1, ih hs.2, Option.map_some]

theorem not_mem_flatMap {enc : α → List β} {b : β} (h : ∀ a, b ∉ enc a) (s : List α) :
    b ∉ s.flatMap enc := by
  intro hb
  obtain ⟨a, -, ha⟩ := List.mem_flatMap.mp hb
  exact h a ha

/-- The character `c` is its own code, and no other code contains it. -/
structure Marks (enc : α → List α) (c : α) : Prop where
  self : enc c = [c]
  other : ∀ a, a ≠ c → c ∉ enc a

variable {enc : α → List α} {c : α}

theorem Marks.mem_flatMap (h : Marks enc c) (s : List α) : c ∈ s.flatMap enc ↔ c ∈ s := by
  rw [List.mem_flatMap]
  constructor
  · rintro ⟨a, ha, hc⟩
    by_cases hac : a = c
    · exact hac ▸ ha
    · exact absurd hc (h.other a hac)
  · intro hc
    exact ⟨c, hc, by rw [h.self]; exact List.mem_singleton_self c⟩

end Codes
