import Mathlib.Algebra.Order.Ring.Int
import FiberServer.Library.Ipv6Text

/-!
# IPv4 addresses as text

Four decimal numbers up to 255 with dots between them, without leading zeros.

* `pton_quad`: an address is read back from its text.
-/

namespace Ipv4

open Ipv6 (octet)

/-- The address, its first number in the highest byte. -/
def pton (s : List Char) : Option Nat :=
  match (s.splitOn '.').mapM octet with
  | some [a, b, c, d] => some (((a * 256 + b) * 256 + c) * 256 + d)
  | _ => none

/-- The four numbers of an address. -/
def numbers (n : Nat) : List Nat := [n / 256 ^ 3 % 256, n / 256 ^ 2 % 256, n / 256 % 256, n % 256]

/-- The text of an address. -/
def quad (n : Nat) : List Char := ['.'].intercalate ((numbers n).map (Nat.toDigits 10))

theorem not_mem_toDigits (n : Nat) {c : Char} (hc : c.isDigit = false) : c ∉ Nat.toDigits 10 n := by
  intro hmem
  have hdigit := Nat.isDigit_of_mem_toDigits (by decide) (by decide) hmem
  rw [hc] at hdigit
  exact Bool.false_ne_true hdigit

/-- Digits begin with a zero only if it is the only one. -/
theorem head?_toDigits {n : Nat} (h : (Nat.toDigits 10 n).head? = some '0') :
    (Nat.toDigits 10 n).length = 1 := by
  induction n using Nat.base_induction 10 (by decide) with
  | single d hd => rw [Nat.toDigits_of_lt_base hd, List.length_singleton]
  | digit g d hd hg ih =>
    have hne : Nat.toDigits 10 g ≠ [] := Nat.toDigits_ne_nil
    rw [← Nat.toDigits_append_toDigits (by decide) hg hd, List.head?_append_of_ne_nil _ hne] at h
    -- a number that begins with a zero and has one digit is zero
    have hone := ih h
    obtain ⟨c, hc⟩ := List.length_eq_one_iff.mp hone
    rw [hc, List.head?_cons, Option.some.injEq] at h
    have hvalue : Nat.ofDigitChars 10 (Nat.toDigits 10 g) 0 = g := Nat.ofDigitChars_ten_toDigits
    rw [hc, h] at hvalue
    exact absurd hvalue.symm (Nat.ne_of_gt hg)

theorem octet_toDigits {n : Nat} (h : n < 256) : octet (Nat.toDigits 10 n) = some n := by
  have hvalue : Nat.ofDigitChars 10 (Nat.toDigits 10 n) 0 = n := Nat.ofDigitChars_ten_toDigits
  have hdigits : (Nat.toDigits 10 n).all Char.isDigit = true :=
    List.all_eq_true.mpr fun c hc => Nat.isDigit_of_mem_toDigits (by decide) (by decide) hc
  rw [octet, hvalue, if_pos ⟨Nat.toDigits_ne_nil, hdigits, head?_toDigits, h⟩]

theorem mapM_octet {ns : List Nat} (h : ∀ n ∈ ns, n < 256) :
    (ns.map (Nat.toDigits 10)).mapM octet = some ns := by
  induction ns with
  | nil => rfl
  | cons n ns ih =>
    rw [List.forall_mem_cons] at h
    rw [List.map_cons, List.mapM_cons, octet_toDigits h.1, ih h.2]
    rfl

/-- **Round trip.** -/
theorem pton_quad {n : Nat} (h : n < 2 ^ 32) : pton (quad n) = some n := by
  have hbyte : ∀ m ∈ numbers n, m < 256 := by
    intro m hm
    simp only [numbers, List.mem_cons, List.not_mem_nil, or_false] at hm
    omega
  have hsplit : (quad n).splitOn '.' = (numbers n).map (Nat.toDigits 10) := by
    refine List.splitOn_intercalate '.' (fun s hs => ?_) (by simp [numbers])
    obtain ⟨m, -, rfl⟩ := List.mem_map.mp hs
    exact not_mem_toDigits m (by decide)
  rw [pton, hsplit, mapM_octet hbyte, numbers]
  dsimp only
  exact congrArg some (by omega)

theorem quad_ne_nil (n : Nat) : quad n ≠ [] := by
  intro hnil
  simp [quad, numbers, List.intercalate_cons_cons] at hnil

theorem mem_intercalate {l : List (List Char)} {sep : List Char} {c : Char}
    (h : c ∈ sep.intercalate l) : c ∈ sep ∨ ∃ s ∈ l, c ∈ s := by
  induction l with
  | nil => exact absurd h (by simp)
  | cons s l ih =>
    cases l with
    | nil =>
      rw [List.intercalate_singleton] at h
      exact Or.inr ⟨s, List.mem_cons_self, h⟩
    | cons t l =>
      rw [List.intercalate_cons_cons, List.mem_append, List.mem_append] at h
      rcases h with (h | h) | h
      · exact Or.inr ⟨s, List.mem_cons_self, h⟩
      · exact Or.inl h
      · exact (ih h).imp_right fun ⟨u, hu, hc⟩ => ⟨u, List.mem_cons_of_mem s hu, hc⟩

theorem not_mem_quad (n : Nat) {c : Char} (hc : c.isDigit = false) (hdot : c ≠ '.') :
    c ∉ quad n := by
  intro hmem
  rcases mem_intercalate hmem with hsep | ⟨s, hs, hcs⟩
  · exact hdot (List.mem_singleton.mp hsep)
  · obtain ⟨m, -, rfl⟩ := List.mem_map.mp hs
    exact not_mem_toDigits m hc hcs

end Ipv4
