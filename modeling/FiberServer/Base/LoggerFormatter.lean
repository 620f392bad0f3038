import FiberServer.Library.Transition
import Mathlib.Logic.Function.Basic
import Mathlib.Tactic.SplitIfs

/-!
# The formatters of a logger and its appenders

An appender without a formatter of its own uses that of its logger.  `m_hasFormatter` is to say
which appenders have one, but `Logger::setFormatter` passes its formatter on by
`LogAppender::setFormatter`, which sets the flag.

Formatters are pointers here, and may be null; an appender goes by its address, so that it can be
added twice, and again after it was taken out.

* `appenders_setFormatter`: what a call of `Logger::setFormatter` does to each appender.
* `inherits_iff`: the appenders use the formatters that they should in every state of exactly the
  runs in which no change comes to an appender whose flag the logger itself has set.
-/

namespace FiberServer

namespace LoggerFormatter

open Transition

variable {F : Type*}

structure LogAppender (F : Type*) where
  m_formatter : Option F
  m_hasFormatter : Bool
  deriving DecidableEq, Repr

namespace LogAppender

def make : LogAppender F :=
  { m_formatter := none
    m_hasFormatter := false }

def setFormatter (_ : LogAppender F) (formatter : Option F) : LogAppender F :=
  { m_formatter := formatter
    m_hasFormatter := true }

end LogAppender

structure State (F : Type*) where
  /-- of the logger -/
  m_formatter : Option F
  m_appenders : List Nat
  /-- the appenders by their addresses -/
  appenders : Nat → LogAppender F
  /-- the formatter that the user has given to an appender, the last one -/
  given : Nat → Option (Option F)

/-- A new logger, and new appenders. -/
def init (m_formatter : Option F) : State F :=
  { m_formatter := m_formatter
    m_appenders := []
    appenders := fun _ => .make
    given := fun _ => none }

/-- The body of the loop of `Logger::setFormatter`. -/
def passFormatter (val : Option F) (appenders : Nat → LogAppender F) (i : Nat) :
    Nat → LogAppender F :=
  if (appenders i).m_hasFormatter then appenders
  else Function.update appenders i ((appenders i).setFormatter val)

namespace State

/-- `Logger::setFormatter(LogFormatter::ptr)`.  The one of a pattern calls it with a new
formatter. -/
def setFormatter (s : State F) (val : Option F) : State F :=
  { s with
    m_formatter := val
    appenders := s.m_appenders.foldl (passFormatter val) s.appenders }

/-- `Logger::addAppender(LogAppender::ptr)`.  The one of a type calls it with a new appender. -/
def addAppender (s : State F) (appender : Nat) : State F :=
  { s with
    m_appenders := s.m_appenders ++ [appender]
    appenders :=
      if (s.appenders appender).m_hasFormatter then s.appenders
      else Function.update s.appenders appender
        { s.appenders appender with m_formatter := s.m_formatter } }

/-- All pointers to the appender go. -/
def delAppender (s : State F) (appender : Nat) : State F :=
  { s with m_appenders := s.m_appenders.filter (· ≠ appender) }

/-- The user calls `LogAppender::setFormatter`. -/
def giveFormatter (s : State F) (appender : Nat) (formatter : Option F) : State F :=
  { s with
    appenders := Function.update s.appenders appender ((s.appenders appender).setFormatter formatter)
    given := Function.update s.given appender (some formatter) }

end State

inductive Action (F : Type*)
  | setFormatter (val : Option F)
  | addAppender (appender : Nat)
  | delAppender (appender : Nat)
  | giveFormatter (appender : Nat) (formatter : Option F)
  deriving DecidableEq, Repr

def step (s : State F) : Action F → Option (State F)
  | .setFormatter val => some (s.setFormatter val)
  | .addAppender appender => some (s.addAppender appender)
  | .delAppender appender => some (s.delAppender appender)
  | .giveFormatter appender formatter => some (s.giveFormatter appender formatter)

/-- An appender uses the formatter that the user has given it, or else that of the logger. -/
def Inherits (s : State F) : Prop :=
  ∀ i ∈ s.m_appenders, (s.appenders i).m_formatter = (s.given i).getD s.m_formatter

/-- An appender without a formatter of its own has no flag when another formatter comes, and when
it is added, unless it has the formatter of the logger already. -/
def Reaches (s : State F) : Action F → Prop
  | .setFormatter val => val = s.m_formatter
    ∨ ∀ i ∈ s.m_appenders, s.given i = none → (s.appenders i).m_hasFormatter = false
  | .addAppender i => s.given i = none → (s.appenders i).m_hasFormatter = true →
    (s.appenders i).m_formatter = s.m_formatter
  | .delAppender _ | .giveFormatter _ _ => True

instance [DecidableEq F] (s : State F) (a : Action F) : Decidable (Reaches s a) :=
  match a with
  | .setFormatter val => inferInstanceAs (Decidable (val = s.m_formatter
    ∨ ∀ i ∈ s.m_appenders, s.given i = none → (s.appenders i).m_hasFormatter = false))
  | .addAppender i => inferInstanceAs (Decidable (s.given i = none →
    (s.appenders i).m_hasFormatter = true → (s.appenders i).m_formatter = s.m_formatter))
  | .delAppender _ | .giveFormatter _ _ => .isTrue trivial

/-- A formatter of its own is there, with the flag. -/
def Marked (s : State F) : Prop :=
  ∀ i formatter, s.given i = some formatter →
    (s.appenders i).m_hasFormatter = true ∧ (s.appenders i).m_formatter = formatter

/-! ### What a step does -/

section

variable {s t : State F}

theorem foldl_passFormatter (val : Option F) (i : Nat) :
    ∀ {is : List Nat} {appenders : Nat → LogAppender F}, is.foldl (passFormatter val) appenders i
      = if i ∈ is ∧ (appenders i).m_hasFormatter = false then (appenders i).setFormatter val
        else appenders i := by
  intro is
  induction is with
  | nil =>
    intro appenders
    rw [List.foldl_nil, if_neg (fun h => List.not_mem_nil h.1)]
  | cons k is ih =>
    intro appenders
    rw [List.foldl_cons, ih, passFormatter]
    by_cases hflag : (appenders k).m_hasFormatter = true
    · rw [if_pos hflag]
      by_cases hik : i = k
      · subst hik
        simp only [hflag, Bool.true_eq_false, and_false]
      · simp only [List.mem_cons, hik, false_or]
    · rw [if_neg hflag]
      by_cases hik : i = k
      · subst hik
        have hunset : (appenders i).m_hasFormatter = false := eq_false_of_ne_true hflag
        rw [Function.update_self, if_neg (fun h => nomatch h.2),
          if_pos ⟨List.mem_cons_self, hunset⟩]
      · rw [Function.update_of_ne hik]
        simp only [List.mem_cons, hik, false_or]

/-- **The formatter is passed on** to the appenders in the list without a flag. -/
theorem appenders_setFormatter (s : State F) (val : Option F) (i : Nat) :
    (s.setFormatter val).appenders i
      = if i ∈ s.m_appenders ∧ (s.appenders i).m_hasFormatter = false
        then (s.appenders i).setFormatter val else s.appenders i :=
  foldl_passFormatter val i

theorem appenders_addAppender (s : State F) (appender i : Nat) :
    (s.addAppender appender).appenders i
      = if i = appender ∧ (s.appenders i).m_hasFormatter = false
        then { s.appenders i with m_formatter := s.m_formatter } else s.appenders i := by
  show (if (s.appenders appender).m_hasFormatter then s.appenders else _) i = _
  by_cases hflag : (s.appenders appender).m_hasFormatter = true
  · rw [if_pos hflag, if_neg ?_]
    rintro ⟨rfl, hunset⟩
    rw [hflag] at hunset
    exact nomatch hunset
  · have hunset : (s.appenders appender).m_hasFormatter = false := eq_false_of_ne_true hflag
    rw [if_neg hflag]
    by_cases hi : i = appender
    · subst hi
      rw [Function.update_self, if_pos ⟨rfl, hunset⟩]
    · rw [Function.update_of_ne hi, if_neg (fun h => hi h.1)]

/-! The flag keeps an appender from any other formatter. -/

theorem setFormatter_of_flag {i : Nat} (hflag : (s.appenders i).m_hasFormatter = true)
    (val : Option F) : (s.setFormatter val).appenders i = s.appenders i := by
  rw [appenders_setFormatter, if_neg ?_]
  rintro ⟨-, hunset⟩
  exact nomatch hflag.symm.trans hunset

theorem addAppender_of_flag {i : Nat} (hflag : (s.appenders i).m_hasFormatter = true)
    (appender : Nat) : (s.addAppender appender).appenders i = s.appenders i := by
  rw [appenders_addAppender, if_neg ?_]
  rintro ⟨-, hunset⟩
  exact nomatch hflag.symm.trans hunset

theorem marked_step {a : Action F} (hs : Marked s) (h : step s a = some t) : Marked t := by
  intro i formatter hgiven
  cases a with
  | setFormatter val =>
    cases h
    obtain ⟨hflag, hformatter⟩ := hs i formatter hgiven
    rw [setFormatter_of_flag hflag]
    exact ⟨hflag, hformatter⟩
  | addAppender appender =>
    cases h
    obtain ⟨hflag, hformatter⟩ := hs i formatter hgiven
    rw [addAppender_of_flag hflag]
    exact ⟨hflag, hformatter⟩
  | delAppender appender =>
    cases h
    exact hs i formatter hgiven
  | giveFormatter appender val =>
    cases h
    change Function.update s.given appender (some val) i = some formatter at hgiven
    show (Function.update s.appenders appender _ i).m_hasFormatter = true
      ∧ (Function.update s.appenders appender _ i).m_formatter = formatter
    by_cases hi : i = appender
    · subst hi
      rw [Function.update_self] at hgiven
      rw [Function.update_self]
      exact ⟨rfl, Option.some.inj hgiven⟩
    · rw [Function.update_of_ne hi] at hgiven
      rw [Function.update_of_ne hi]
      exact hs i formatter hgiven

/-- An appender that a change does not come to keeps its formatter, so the change must come to each
that follows the logger. -/
theorem inherits_setFormatter_iff (hm : Marked s) (hs : Inherits s) (val : Option F) :
    Inherits (s.setFormatter val) ↔ Reaches s (.setFormatter val) := by
  constructor
  · intro ht
    by_cases hval : val = s.m_formatter
    · exact .inl hval
    · refine .inr fun i hi hown => eq_false_of_ne_true fun hflag => hval ?_
      have hnow := ht i hi
      rw [setFormatter_of_flag hflag, hs i hi] at hnow
      change (s.given i).getD s.m_formatter = (s.given i).getD val at hnow
      rw [hown] at hnow
      exact hnow.symm
  · intro hreach i hi
    change i ∈ s.m_appenders at hi
    have hold := hs i hi
    show _ = (s.given i).getD val
    cases hown : s.given i with
    | some formatter =>
      obtain ⟨hflag, hformatter⟩ := hm i formatter hown
      rw [setFormatter_of_flag hflag, hformatter]
      rfl
    | none =>
      rw [hown] at hold
      rw [appenders_setFormatter]
      split_ifs with hset
      · rfl
      · -- the flag is set, so the formatter is the one that there is already
        obtain hval | hunset := hreach
        · rw [hold, hval]
        · exact absurd ⟨hi, hunset i hi hown⟩ hset

theorem inherits_addAppender_iff (hm : Marked s) (hs : Inherits s) (appender : Nat) :
    Inherits (s.addAppender appender) ↔ Reaches s (.addAppender appender) := by
  have hmem (i : Nat) :
      i ∈ (s.addAppender appender).m_appenders ↔ i ∈ s.m_appenders ∨ i = appender := by
    show i ∈ s.m_appenders ++ [appender] ↔ _
    rw [List.mem_append, List.mem_singleton]
  constructor
  · intro ht hown hflag
    have hnow := ht appender ((hmem appender).mpr (.inr rfl))
    rw [addAppender_of_flag hflag] at hnow
    change _ = (s.given appender).getD s.m_formatter at hnow
    rw [hown] at hnow
    exact hnow
  · intro hreach i hi
    show _ = (s.given i).getD s.m_formatter
    cases hown : s.given i with
    | some formatter =>
      obtain ⟨hflag, hformatter⟩ := hm i formatter hown
      rw [addAppender_of_flag hflag, hformatter]
      rfl
    | none =>
      rw [appenders_addAppender]
      split_ifs with hset
      · rfl
      · obtain hold | rfl := (hmem i).mp hi
        · rw [hs i hold, hown]
        · have hflag : (s.appenders i).m_hasFormatter = true :=
            eq_true_of_ne_false fun hunset => hset ⟨rfl, hunset⟩
          exact hreach hown hflag

theorem inherits_step_iff {a : Action F} (hm : Marked s) (hs : Inherits s) (h : step s a = some t) :
    Inherits t ↔ Reaches s a := by
  cases a with
  | setFormatter val =>
    cases h
    exact inherits_setFormatter_iff hm hs val
  | addAppender appender =>
    cases h
    exact inherits_addAppender_iff hm hs appender
  | delAppender appender =>
    cases h
    exact iff_of_true (fun i hi => hs i (List.mem_filter.mp hi).1) trivial
  | giveFormatter appender formatter =>
    cases h
    refine iff_of_true (fun i hi => ?_) trivial
    show (Function.update s.appenders appender _ i).m_formatter
      = (Function.update s.given appender (some formatter) i).getD s.m_formatter
    by_cases happender : i = appender
    · subst happender
      rw [Function.update_self, Function.update_self]
      rfl
    · rw [Function.update_of_ne happender, Function.update_of_ne happender]
      exact hs i hi

theorem exists_exec (as : List (Action F)) : ∃ u, exec step s as = some u := by
  induction as generalizing s with
  | nil => exact ⟨s, rfl⟩
  | cons a as ih =>
    have hstep : ∃ t, step s a = some t := by cases a <;> exact ⟨_, rfl⟩
    obtain ⟨t, ht⟩ := hstep
    obtain ⟨u, hu⟩ := ih (s := t)
    exact ⟨u, by rw [exec, ht]; exact hu⟩

end

/-- **Inherited formatters stay inherited** in every state of a run if and only if each step of the
run reaches the appenders that it is for. -/
theorem inherits_iff (m_formatter : Option F) (as : List (Action F)) :
    Throughout step Inherits (init m_formatter) as ↔ Along step Reaches (init m_formatter) as := by
  obtain ⟨u, hu⟩ := exists_exec (s := init m_formatter) as
  have hmarked : Marked (init m_formatter) := nofun
  have hinherits : Inherits (init m_formatter) := fun i hi => nomatch hi
  exact throughout_iff_along (A := fun _ _ => True) (fun s a t hm _ h => marked_step hm h)
    (fun s a t hm hs _ h => inherits_step_iff hm hs h) hmarked hinherits along_true hu

/-- The second change does not come to the appender; and neither does one that is made while the
appender is out of the list. -/
theorem not_inherits :
    ¬ Throughout step Inherits (init (some "default"))
        [.addAppender 0, .setFormatter (some "first"), .setFormatter (some "second")]
      ∧ ¬ Throughout step Inherits (init (some "default"))
        [.addAppender 0, .setFormatter (some "first"), .delAppender 0,
          .setFormatter (some "second"), .addAppender 0] := by
  constructor
  · intro h
    have hsecond := (((h.2 _ rfl).2 _ rfl).2 _ rfl) 0 (by decide)
    exact absurd hsecond (by decide)
  · intro h
    have hadded := (((((h.2 _ rfl).2 _ rfl).2 _ rfl).2 _ rfl).2 _ rfl) 0 (by decide)
    exact absurd hadded (by decide)

end LoggerFormatter

end FiberServer
