import Mathlib.Data.List.Basic

/-!
# Scanning a text until something stops

`scan step p bs s` takes the characters `bs` one after the other, the first one at
position `p`.  A step goes on, it stops behind its character, or it fails in front of
it.

* `steps`: what the steps of a scan are taken from.
* `scan_append`: what comes behind the place where a scan stops does not matter.
* `scan_state`, `exists_stop`: what the steps keep and where a scan stops.
-/

namespace Scanner

variable {σ β : Type*}

/-- What a step does with the state. -/
inductive Outcome (σ : Type*)
  | go (s : σ)
  | stop (s : σ)
  | fail (s : σ)

def Outcome.state : Outcome σ → σ
  | .go s => s
  | .stop s => s
  | .fail s => s

/-- How a scan ends. -/
inductive Halt
  | ended
  | stopped
  | failed
  deriving DecidableEq, Repr

/-- How the scan ends, where, and the state then. -/
structure Result (σ : Type*) where
  halt : Halt
  position : Nat
  state : σ

def scan (step : Nat → β → σ → Outcome σ) : Nat → List β → σ → Result σ
  | p, [], s => ⟨.ended, p, s⟩
  | p, b :: bs, s =>
    match step p b s with
    | .go s' => scan step (p + 1) bs s'
    | .stop s' => ⟨.stopped, p + 1, s'⟩
    | .fail s' => ⟨.failed, p, s'⟩

variable {step step' : Nat → β → σ → Outcome σ}

/-- The positions, characters and states of the steps of a scan. -/
def steps (step : Nat → β → σ → Outcome σ) : Nat → List β → σ → List (Nat × β × σ)
  | _, [], _ => []
  | p, b :: bs, s =>
    (p, b, s) :: match step p b s with
      | .go s' => steps step (p + 1) bs s'
      | .stop _ => []
      | .fail _ => []

theorem position_of_mem_steps {x : Nat × β × σ} :
    ∀ {bs : List β} {p : Nat} {s : σ}, x ∈ steps step p bs s → x.1 < p + bs.length := by
  intro bs
  induction bs with
  | nil => intro p s h; exact absurd h List.not_mem_nil
  | cons b bs ih =>
    intro p s h
    rw [steps] at h
    rw [List.length_cons]
    rcases List.mem_cons.mp h with rfl | h
    · simp only
      omega
    · cases hstep : step p b s with
      | go s' =>
        rw [hstep] at h
        have hlt := ih h
        omega
      | stop s' =>
        rw [hstep] at h
        exact absurd h List.not_mem_nil
      | fail s' =>
        rw [hstep] at h
        exact absurd h List.not_mem_nil

/-- **What follows the place where a scan stops does not matter.**  The step may know
the whole text; it must agree where it is taken. -/
theorem scan_append {more : List β} :
    ∀ {bs : List β} {p : Nat} {s : σ},
      (∀ x ∈ steps step p bs s, step' x.1 x.2.1 x.2.2 = step x.1 x.2.1 x.2.2) →
      (scan step p bs s).halt = .stopped → scan step' p (bs ++ more) s = scan step p bs s := by
  intro bs
  induction bs with
  | nil => intro p s _ h; exact nomatch h
  | cons b bs ih =>
    intro p s hagree h
    rw [scan] at h
    rw [steps] at hagree
    rw [List.cons_append, scan, scan, hagree (p, b, s) List.mem_cons_self]
    cases hstep : step p b s with
    | go s' =>
      rw [hstep] at h hagree
      exact ih (fun x hx => hagree x (List.mem_cons_of_mem _ hx)) h
    | stop s' => rfl
    | fail s' => rfl

/-- **What every step keeps is kept by the scan.** -/
theorem scan_state {P : σ → Prop} (hkeep : ∀ p b s, P s → P (step p b s).state) :
    ∀ {bs : List β} {p : Nat} {s : σ}, P s → P (scan step p bs s).state := by
  intro bs
  induction bs with
  | nil => intro p s h; exact h
  | cons b bs ih =>
    intro p s h
    have hstep := hkeep p b s h
    rw [scan]
    cases hs : step p b s with
    | go s' =>
      rw [hs] at hstep
      exact ih hstep
    | stop s' =>
      rw [hs] at hstep
      exact hstep
    | fail s' =>
      rw [hs] at hstep
      exact hstep

/-- A scan that has stopped is in the state some step has stopped in. -/
theorem exists_stop :
    ∀ {bs : List β} {p : Nat} {s : σ}, (scan step p bs s).halt = .stopped →
      ∃ q b s', step q b s' = .stop (scan step p bs s).state := by
  intro bs
  induction bs with
  | nil => intro p s h; exact nomatch h
  | cons b bs ih =>
    intro p s h
    rw [scan] at h ⊢
    cases hs : step p b s with
    | go s' =>
      rw [hs] at h
      exact ih h
    | stop s' => exact ⟨p, b, s, hs⟩
    | fail s' =>
      rw [hs] at h
      exact nomatch h

end Scanner
