import Mathlib.Data.List.Basic

/-!
# The lines in front of an empty line

A text as a receiver reads it: a line ends at `lf`, and one `cr` in front of that does not belong to
it.  The lines up to the first empty one are the head of the text, and the rest follows.

* `head_lines`: the head of lines that were written one after the other is these lines.
* `not_mem_of_head`: no line of a head contains `lf`, so lines that do are never read back.
-/

namespace Lines

variable {α : Type*} [DecidableEq α]

/-- A line without the `cr` at its end; the line is given from its end. -/
def chop (cr : α) : List α → List α
  | [] => []
  | c :: line => if c = cr then line.reverse else (c :: line).reverse

/-- The lines up to the first empty one and the rest; `line` is what has been read of a line, from
its end. -/
def headFrom (cr lf : α) (line : List α) : List α → Option (List (List α) × List α)
  | [] => none
  | c :: text =>
    if c = lf then
      if chop cr line = [] then some ([], text)
      else (headFrom cr lf [] text).map fun r => (chop cr line :: r.1, r.2)
    else headFrom cr lf (c :: line) text

def head (cr lf : α) (text : List α) : Option (List (List α) × List α) := headFrom cr lf [] text

/-- The lines, each with its end. -/
def join (cr lf : α) (lines : List (List α)) : List α := lines.flatMap fun l => l ++ [cr, lf]

variable {cr lf : α}

theorem headFrom_append {l : List α} (hl : lf ∉ l) (line rest : List α) :
    headFrom cr lf line (l ++ rest) = headFrom cr lf (l.reverse ++ line) rest := by
  induction l generalizing line with
  | nil => rfl
  | cons c l ih =>
    rw [List.mem_cons, not_or] at hl
    rw [List.cons_append, headFrom, if_neg (Ne.symm hl.1), ih hl.2, List.reverse_cons,
      List.append_assoc, List.singleton_append]

/-- The end of a line. -/
theorem headFrom_end (hcr : cr ≠ lf) (line rest : List α) :
    headFrom cr lf line (cr :: lf :: rest) = if line = [] then some ([], rest)
      else (head cr lf rest).map fun r => (line.reverse :: r.1, r.2) := by
  rw [headFrom, if_neg hcr, headFrom, if_pos rfl, chop, if_pos rfl]
  simp only [List.reverse_eq_nil_iff]
  rfl

theorem head_empty (hcr : cr ≠ lf) (rest : List α) :
    head cr lf (cr :: lf :: rest) = some ([], rest) := by
  rw [head, headFrom_end hcr, if_pos rfl]

theorem head_line (hcr : cr ≠ lf) {l : List α} (hne : l ≠ []) (hl : lf ∉ l) (rest : List α) :
    head cr lf (l ++ cr :: lf :: rest) = (head cr lf rest).map fun r => (l :: r.1, r.2) := by
  rw [head, headFrom_append hl, List.append_nil, headFrom_end hcr, List.reverse_reverse,
    if_neg (List.reverse_eq_nil_iff.not.mpr hne)]

/-- **The lines that were written are read**, and what follows the empty line is the rest. -/
theorem head_lines (hcr : cr ≠ lf) {lines : List (List α)} (h : ∀ l ∈ lines, l ≠ [] ∧ lf ∉ l)
    (rest : List α) : head cr lf (join cr lf lines ++ cr :: lf :: rest) = some (lines, rest) := by
  induction lines with
  | nil => exact head_empty hcr rest
  | cons l lines ih =>
    obtain ⟨hne, hl⟩ := h l List.mem_cons_self
    have hjoin : join cr lf (l :: lines) ++ cr :: lf :: rest
        = l ++ cr :: lf :: (join cr lf lines ++ cr :: lf :: rest) := by
      simp [join]
    rw [hjoin, head_line hcr hne hl, ih fun l' hl' => h l' (List.mem_cons_of_mem l hl')]
    rfl

theorem not_mem_chop {line : List α} (h : lf ∉ line) : lf ∉ chop cr line := by
  cases line with
  | nil => exact List.not_mem_nil
  | cons c line =>
    rw [chop]
    split
    · exact fun hmem => h (List.mem_cons_of_mem c (List.mem_reverse.mp hmem))
    · exact fun hmem => h (List.mem_reverse.mp hmem)

theorem not_mem_of_headFrom {text line : List α} {lines : List (List α)} {rest : List α}
    (hline : lf ∉ line) (h : headFrom cr lf line text = some (lines, rest)) :
    ∀ l ∈ lines, lf ∉ l := by
  induction text generalizing line lines with
  | nil => exact nomatch h
  | cons c text ih =>
    rw [headFrom] at h
    split at h
    · split at h
      · obtain ⟨rfl, rfl⟩ := Prod.mk.inj (Option.some.inj h)
        exact fun l hl => absurd hl List.not_mem_nil
      · obtain ⟨r, hr, heq⟩ := Option.map_eq_some_iff.mp h
        obtain ⟨rfl, rfl⟩ := Prod.mk.inj heq
        intro l hl
        rcases List.mem_cons.mp hl with rfl | hl
        · exact not_mem_chop hline
        · exact ih List.not_mem_nil hr l hl
    case isFalse hc =>
      refine ih ?_ h
      rw [List.mem_cons, not_or]
      exact ⟨Ne.symm hc, hline⟩

/-- **No line of a head contains the end of a line.** -/
theorem not_mem_of_head {text : List α} {lines : List (List α)} {rest : List α}
    (h : head cr lf text = some (lines, rest)) : ∀ l ∈ lines, lf ∉ l :=
  not_mem_of_headFrom List.not_mem_nil h

end Lines
