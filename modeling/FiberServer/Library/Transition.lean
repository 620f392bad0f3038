import Mathlib.Data.Option.Basic

/-!
# Runs of a labelled step function

`exec step s as` takes the steps labelled `as` one after the other.  Two
predicates follow a run from its first state:

* `Along step C s as`: every step of the run is taken from a state in which the
  guard `C` allows it.
* `Throughout step P s as`: `P` holds in every state of the run.

`exec_invariant`, `along_invariant` and `along_of_invariant` are the induction rules.
`throughout_iff_along` compares the two predicates: a property that a step keeps
exactly when its guard allows the step holds throughout a run exactly when every
step of the run is allowed.
-/

namespace Transition

variable {σ α : Type*} {step : σ → α → Option σ}

/-- Take the steps `as` from `s`; `none` when one of them is not possible. -/
def exec (step : σ → α → Option σ) : σ → List α → Option σ
  | s, [] => some s
  | s, a :: as => (step s a).bind fun t => exec step t as

/-- Every step of the run is taken from a state in which `C` allows it. -/
def Along (step : σ → α → Option σ) (C : σ → α → Prop) : σ → List α → Prop
  | _, [] => True
  | s, a :: as => C s a ∧ ∀ t, step s a = some t → Along step C t as

/-- `P` holds in every state of the run, its first and its last included. -/
def Throughout (step : σ → α → Option σ) (P : σ → Prop) : σ → List α → Prop
  | s, [] => P s
  | s, a :: as => P s ∧ ∀ t, step s a = some t → Throughout step P t as

@[simp] theorem exec_nil (s : σ) : exec step s [] = some s := rfl

theorem exec_cons {s u : σ} {a : α} {as : List α} (h : exec step s (a :: as) = some u) :
    ∃ t, step s a = some t ∧ exec step t as = some u :=
  Option.bind_eq_some_iff.mp h

theorem exec_append (s : σ) (as bs : List α) :
    exec step s (as ++ bs) = (exec step s as).bind fun t => exec step t bs := by
  induction as generalizing s with
  | nil => rfl
  | cons a as ih =>
    rw [List.cons_append, exec, exec, Option.bind_assoc]
    exact congrArg _ (funext fun t => ih t)

/-- **Invariant rule.** -/
theorem exec_invariant {I : σ → Prop} (hstep : ∀ s a t, I s → step s a = some t → I t) :
    ∀ {as : List α} {s u : σ}, I s → exec step s as = some u → I u := by
  intro as
  induction as with
  | nil => intro s u hs h; exact Option.some.inj h ▸ hs
  | cons a as ih =>
    intro s u hs h
    obtain ⟨t, hst, htu⟩ := exec_cons h
    exact ih (hstep s a t hs hst) htu

/-- **Invariant rule for guarded runs.** -/
theorem along_invariant {I : σ → Prop} {C : σ → α → Prop}
    (hstep : ∀ s a t, I s → C s a → step s a = some t → I t) :
    ∀ {as : List α} {s u : σ}, I s → Along step C s as → exec step s as = some u → I u := by
  intro as
  induction as with
  | nil => intro s u hs _ h; exact Option.some.inj h ▸ hs
  | cons a as ih =>
    intro s u hs hC h
    obtain ⟨t, hst, htu⟩ := exec_cons h
    exact ih (hstep s a t hs hC.1 hst) (hC.2 t hst) htu

/-- **What the guard keeps true** and what follows from it hold throughout a run whose
steps are all allowed. -/
theorem Along.throughout {I P : σ → Prop} {C : σ → α → Prop}
    (hstep : ∀ s a t, I s → C s a → step s a = some t → I t) (hP : ∀ s, I s → P s) :
    ∀ {as : List α} {s : σ}, I s → Along step C s as → Throughout step P s as := by
  intro as
  induction as with
  | nil => intro s hs _; exact hP s hs
  | cons a as ih =>
    intro s hs hC
    exact ⟨hP s hs, fun t ht => ih (hstep s a t hs hC.1 ht) (hC.2 t ht)⟩

/-- **What an invariant and the guard imply of every step** holds along every run whose steps
are all allowed. -/
theorem Along.imp_of_invariant {I : σ → Prop} {C D : σ → α → Prop}
    (hstep : ∀ s a t, I s → C s a → step s a = some t → I t) (hD : ∀ s a, I s → C s a → D s a) :
    ∀ {as : List α} {s : σ}, I s → Along step C s as → Along step D s as := by
  intro as
  induction as with
  | nil => intro _ _ _; exact trivial
  | cons a as ih =>
    intro s hs hC
    exact ⟨hD s a hs hC.1, fun t ht => ih (hstep s a t hs hC.1 ht) (hC.2 t ht)⟩

theorem Along.nil {C : σ → α → Prop} {s : σ} : Along step C s [] := trivial

theorem Along.cons {C : σ → α → Prop} {s t : σ} {a : α} {as : List α} (hC : C s a)
    (hst : step s a = some t) (h : Along step C t as) : Along step C s (a :: as) :=
  ⟨hC, fun _ hu => Option.some.inj (hst.symm.trans hu) ▸ h⟩

instance decidableAlong {C : σ → α → Prop} [∀ s a, Decidable (C s a)] :
    ∀ (s : σ) (as : List α), Decidable (Along step C s as)
  | _, [] => .isTrue trivial
  | s, a :: as =>
    match h : step s a with
    | none => decidable_of_iff (C s a) ⟨fun hC => ⟨hC, fun t ht => by simp [h] at ht⟩, And.left⟩
    | some t =>
      have : Decidable (Along step C t as) := decidableAlong t as
      decidable_of_iff (C s a ∧ Along step C t as)
        ⟨fun hC => .cons hC.1 h hC.2, fun hC => ⟨hC.1, hC.2 t h⟩⟩

theorem Along.mono {C D : σ → α → Prop} (hCD : ∀ s a, C s a → D s a) :
    ∀ {as : List α} {s : σ}, Along step C s as → Along step D s as := by
  intro as
  induction as with
  | nil => intro _ _; exact trivial
  | cons a as ih => intro s h; exact ⟨hCD s a h.1, fun t ht => ih (h.2 t ht)⟩

theorem Along.append_right {C : σ → α → Prop} {as bs : List α} {s u : σ}
    (h : exec step s as = some u) (hC : Along step C s (as ++ bs)) : Along step C u bs := by
  induction as generalizing s with
  | nil => exact Option.some.inj h ▸ hC
  | cons a as ih =>
    obtain ⟨t, hst, htu⟩ := exec_cons h
    exact ih htu (hC.2 t hst)

/-- In a run, only the steps that are possible need be compared. -/
theorem Along.mono_exec {C D : σ → α → Prop}
    (hCD : ∀ s a t, step s a = some t → C s a → D s a) :
    ∀ {as : List α} {s u : σ}, exec step s as = some u → Along step C s as →
      Along step D s as := by
  intro as
  induction as with
  | nil => intro _ _ _ _; exact trivial
  | cons a as ih =>
    intro s u h hC
    obtain ⟨t, hst, htu⟩ := exec_cons h
    exact .cons (hCD s a t hst hC.1) hst (ih htu (hC.2 t hst))

theorem Along.of_forall {C : α → Prop} :
    ∀ {as : List α} {s : σ}, (∀ a ∈ as, C a) → Along step (fun _ a => C a) s as := by
  intro as
  induction as with
  | nil => intro _ _; exact trivial
  | cons a as ih =>
    intro s h
    exact ⟨h a List.mem_cons_self, fun t _ => ih fun b hb => h b (List.mem_cons_of_mem a hb)⟩

theorem Along.and {C D : σ → α → Prop} :
    ∀ {as : List α} {s : σ}, Along step C s as → Along step D s as →
      Along step (fun s a => C s a ∧ D s a) s as := by
  intro as
  induction as with
  | nil => intro _ _ _; exact trivial
  | cons a as ih =>
    intro s hC hD
    exact ⟨⟨hC.1, hD.1⟩, fun t ht => ih (hC.2 t ht) (hD.2 t ht)⟩

theorem Throughout.head {P : σ → Prop} {s : σ} : ∀ {as : List α}, Throughout step P s as → P s
  | [], h => h
  | _ :: _, h => h.1

theorem Throughout.last {P : σ → Prop} : ∀ {as : List α} {s u : σ}, exec step s as = some u →
    Throughout step P s as → P u := by
  intro as
  induction as with
  | nil => intro s u h hP; exact Option.some.inj h ▸ hP
  | cons a as ih =>
    intro s u h hP
    obtain ⟨t, hst, htu⟩ := exec_cons h
    exact ih htu (hP.2 t hst)

theorem along_true : ∀ {as : List α} {s : σ}, Along step (fun _ _ => True) s as
  | [], _ => trivial
  | _ :: _, _ => ⟨trivial, fun _ _ => along_true⟩

/-- **What an invariant implies of every step** holds along every run. -/
theorem along_of_invariant {I : σ → Prop} {C : σ → α → Prop}
    (hstep : ∀ s a t, I s → step s a = some t → I t) (hC : ∀ s a, I s → C s a) :
    ∀ {as : List α} {s : σ}, I s → Along step C s as :=
  fun hs => along_true.imp_of_invariant (fun s a t hs _ h => hstep s a t hs h)
    (fun s a hs _ => hC s a hs) hs

/-- **A property that exactly the allowed steps keep** holds throughout a run
exactly when every step of the run is allowed.  `A` is what the callers promise, and `I` an
invariant of the allowed steps. -/
theorem throughout_iff_along_of_kept {I P : σ → Prop} {A C : σ → α → Prop}
    (hI : ∀ s a t, I s → P s → A s a → C s a → step s a = some t → I t)
    (hP : ∀ s a t, I s → P s → A s a → step s a = some t → (P t ↔ C s a)) :
    ∀ {as : List α} {s u : σ}, I s → P s → Along step A s as → exec step s as = some u →
      (Throughout step P s as ↔ Along step C s as) := by
  intro as
  induction as with
  | nil => intro s u _ hPs _ _; exact ⟨fun _ => trivial, fun _ => hPs⟩
  | cons a as ih =>
    intro s u hs hPs hA h
    obtain ⟨t, hst, htu⟩ := exec_cons h
    have only : ∀ t', step s a = some t' → t' = t :=
      fun t' h' => Option.some.inj (h'.symm.trans hst)
    constructor
    · intro hT
      have hPt := (hT.2 t hst).head
      have hCs := (hP s a t hs hPs hA.1 hst).mp hPt
      refine ⟨hCs, fun t' h' => ?_⟩
      rw [only t' h']
      exact (ih (hI s a t hs hPs hA.1 hCs hst) hPt (hA.2 t hst) htu).mp (hT.2 t hst)
    · intro hC
      have hPt := (hP s a t hs hPs hA.1 hst).mpr hC.1
      refine ⟨hPs, fun t' h' => ?_⟩
      rw [only t' h']
      exact (ih (hI s a t hs hPs hA.1 hC.1 hst) hPt (hA.2 t hst) htu).mpr (hC.2 t hst)

/-- The same with an invariant of all steps. -/
theorem throughout_iff_along {I P : σ → Prop} {A C : σ → α → Prop}
    (hI : ∀ s a t, I s → A s a → step s a = some t → I t)
    (hP : ∀ s a t, I s → P s → A s a → step s a = some t → (P t ↔ C s a)) :
    ∀ {as : List α} {s u : σ}, I s → P s → Along step A s as → exec step s as = some u →
      (Throughout step P s as ↔ Along step C s as) :=
  throughout_iff_along_of_kept (fun s a t hs _ hA _ h => hI s a t hs hA h) hP

end Transition
