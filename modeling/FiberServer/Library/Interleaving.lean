import FiberServer.Library.Program
import Mathlib.Logic.Function.Basic

/-!
# Programs side by side

Programs over the same operations run side by side on a shared state; each step is one operation of
one program, and any program can be the next.

* `states`: a run, for a schedule that says which program takes which step.
* `Survives h rely C p Q s`: whatever the others do, each operation of `p` that `C` allows keeps
  `rely`, and `p` ends with `Q`.  `Survives.bind`, `Survives.mono` and `Survives.frame` are its
  rules.
* `survives_states`: programs that survive on their own survive one another.
* `exists_result`: a program that has its turn again and again ends.
-/

namespace Interleaving

variable {σ ι : Type*} {Op : Type} {Answer : Op → Type} {α β : Type}

/-- The shared state, and what is left of each program. -/
structure State (σ ι : Type*) (Op : Type) (Answer : Op → Type) (α : Type) where
  shared : σ
  progs : ι → Prog Op Answer α

section

variable [DecidableEq ι] (h : (op : Op) → σ → Answer op × σ)

/-- One operation of a program; a program that has ended does nothing. -/
def step (s : State σ ι Op Answer α) (i : ι) : State σ ι Op Answer α :=
  match s.progs i with
  | .done _ => s
  | .call op k => ⟨(h op s.shared).2, Function.update s.progs i (k (h op s.shared).1)⟩

/-- The states of a run. -/
def states (s : State σ ι Op Answer α) (sched : Nat → ι) : Nat → State σ ι Op Answer α
  | 0 => s
  | n + 1 => step h (states s sched n) (sched n)

end

/-- `C` allows the next operation of the program. -/
def Allows (C : ι → σ → Op → Prop) (s : State σ ι Op Answer α) (i : ι) : Prop :=
  match s.progs i with
  | .done _ => True
  | .call op _ => C i s.shared op

instance (C : ι → σ → Op → Prop) [∀ i s op, Decidable (C i s op)] (s : State σ ι Op Answer α)
    (i : ι) : Decidable (Allows C s i) :=
  match h : s.progs i with
  | .done _ => .isTrue (by rw [Allows, h]; trivial)
  | .call op _ => decidable_of_iff (C i s.shared op) (by rw [Allows, h])

/-- What the program returned. -/
def result (s : State σ ι Op Answer α) (i : ι) : Option α :=
  match s.progs i with
  | .done a => some a
  | .call .. => none

/-- From the state `s` the program keeps `rely` with each operation that `C` allows, and it ends
with `Q`, when the others keep `rely`. -/
def Survives (h : (op : Op) → σ → Answer op × σ) (rely : σ → σ → Prop) (C : σ → Op → Prop) :
    Prog Op Answer α → (σ → α → Prop) → σ → Prop
  | .done a, Q, s => ∀ t, rely s t → Q t a
  | .call op k, Q, s => ∀ t, rely s t → C t op →
      rely t (h op t).2 ∧ Survives h rely C (k (h op t).1) Q (h op t).2

section

variable {h : (op : Op) → σ → Answer op × σ} {rely : σ → σ → Prop} {C : σ → Op → Prop}
  {Q : σ → α → Prop} {R : σ → β → Prop} {s t : σ}

@[simp] theorem survives_pure_iff {a : α} :
    Survives h rely C (pure a) Q s ↔ ∀ t, rely s t → Q t a := Iff.rfl

@[simp] theorem survives_perform_bind {op : Op} {f : Answer op → Prog Op Answer β} :
    Survives h rely C (Prog.perform op >>= f) R s ↔ ∀ t, rely s t → C t op →
      rely t (h op t).2 ∧ Survives h rely C (f (h op t).1) R (h op t).2 := Iff.rfl

@[simp] theorem survives_perform {op : Op} {Q : σ → Answer op → Prop} :
    Survives h rely C (Prog.perform op) Q s ↔ ∀ t, rely s t → C t op →
      rely t (h op t).2 ∧ ∀ u, rely (h op t).2 u → Q u (h op t).1 := Iff.rfl

/-- **Sequence.** -/
theorem Survives.bind (hrefl : ∀ s, rely s s) {p : Prog Op Answer α}
    {f : α → Prog Op Answer β} : ∀ {s : σ}, Survives h rely C p Q s →
      (∀ a t, Q t a → Survives h rely C (f a) R t) → Survives h rely C (p >>= f) R s := by
  induction p with
  | done a =>
    intro s hp hf
    exact hf a s (hp s (hrefl s))
  | call op k ih =>
    intro s hp hf t hst hC
    obtain ⟨hkeeps, hk⟩ := hp t hst hC
    exact ⟨hkeeps, ih _ hk hf⟩

/-- **Interference.** What the others do makes no difference. -/
theorem Survives.mono (htrans : ∀ s t u, rely s t → rely t u → rely s u) {p : Prog Op Answer α}
    (hp : Survives h rely C p Q s) (hst : rely s t) : Survives h rely C p Q t := by
  cases p with
  | done a =>
    intro u htu
    exact hp u (htrans s t u hst htu)
  | call op k =>
    intro u htu hC
    exact hp u (htrans s t u hst htu) hC

/-- **Frame.** What `rely` keeps still holds at the end. -/
theorem Survives.frame {J : σ → Prop} (hJ : ∀ s t, rely s t → J s → J t)
    {p : Prog Op Answer α} : ∀ {s : σ}, Survives h rely C p Q s → J s →
      Survives h rely C p (fun t a => Q t a ∧ J t) s := by
  induction p with
  | done a =>
    intro s hp hs t hst
    exact ⟨hp t hst, hJ s t hst hs⟩
  | call op k ih =>
    intro s hp hs t hst hC
    obtain ⟨hkeeps, hk⟩ := hp t hst hC
    exact ⟨hkeeps, ih _ hk (hJ _ _ hkeeps (hJ s t hst hs))⟩

end

/-! ### Runs -/

section

variable [DecidableEq ι] {h : (op : Op) → σ → Answer op × σ} {rely : σ → σ → Prop}
  {C : ι → σ → Op → Prop} {Q : ι → σ → α → Prop} {s : State σ ι Op Answer α} {i : ι}

/-- **Step.** One operation of one program. -/
theorem survives_step (hrefl : ∀ s, rely s s)
    (htrans : ∀ s t u, rely s t → rely t u → rely s u)
    (hs : ∀ j, Survives h rely (C j) (s.progs j) (Q j) s.shared) (hC : Allows C s i) (j : ι) :
    Survives h rely (C j) ((step h s i).progs j) (Q j) (step h s i).shared := by
  have hi := hs i
  rw [Allows] at hC
  rw [step]
  cases hprog : s.progs i with
  | done a => exact hs j
  | call op k =>
    rw [hprog] at hi hC
    obtain ⟨hkeeps, hk⟩ := hi s.shared (hrefl _) hC
    by_cases hij : j = i
    · subst hij
      simpa only [Function.update_self] using hk
    · have hj : Survives h rely (C j) (s.progs j) (Q j) (h op s.shared).2 :=
        (hs j).mono htrans hkeeps
      simpa only [Function.update_of_ne hij] using hj

/-- **Run.** Programs that survive on their own survive one another. -/
theorem survives_states (hrefl : ∀ s, rely s s)
    (htrans : ∀ s t u, rely s t → rely t u → rely s u)
    (hs : ∀ j, Survives h rely (C j) (s.progs j) (Q j) s.shared) {sched : Nat → ι} {n : Nat}
    (hC : ∀ m < n, Allows C (states h s sched m) (sched m)) (j : ι) :
    Survives h rely (C j) ((states h s sched n).progs j) (Q j) (states h s sched n).shared := by
  induction n generalizing j with
  | zero => exact hs j
  | succ n ih =>
    have hn := ih fun m hm => hC m (Nat.lt_succ_of_lt hm)
    exact survives_step hrefl htrans hn (hC n (Nat.lt_succ_self n)) j

omit [DecidableEq ι] in
/-- A program that has ended has ended with `Q`. -/
theorem Survives.of_result (hrefl : ∀ s, rely s s) {C : σ → Op → Prop} {Q : σ → α → Prop} {a : α}
    (hs : Survives h rely C (s.progs i) Q s.shared) (hresult : result s i = some a) :
    Q s.shared a := by
  rw [result] at hresult
  cases hprog : s.progs i with
  | done b =>
    rw [hprog] at hs hresult
    obtain rfl := Option.some.inj hresult
    exact hs s.shared (hrefl _)
  | call op k =>
    rw [hprog] at hresult
    exact nomatch hresult

theorem step_progs_of_ne {j : ι} (hij : j ≠ i) : (step h s i).progs j = s.progs j := by
  rw [step]
  cases s.progs i with
  | done a => rfl
  | call op k => exact Function.update_of_ne hij _ _

theorem step_progs_self {op : Op} {k : Answer op → Prog Op Answer α}
    (hprog : s.progs i = .call op k) : (step h s i).progs i = k (h op s.shared).1 := by
  rw [step, hprog]
  exact Function.update_self i _ _

/-- **Every program ends** that has its turn again and again. -/
theorem exists_result (h : (op : Op) → σ → Answer op × σ) (s : State σ ι Op Answer α)
    {sched : Nat → ι} (hfair : ∀ n, ∃ m, n ≤ m ∧ sched m = i) :
    ∃ n, (result (states h s sched n) i).isSome := by
  suffices hends : ∀ (p : Prog Op Answer α) n, (states h s sched n).progs i = p →
      ∃ n, (result (states h s sched n) i).isSome from hends _ 0 rfl
  intro p
  induction p with
  | done a =>
    intro n hn
    refine ⟨n, ?_⟩
    rw [result, hn]
    rfl
  | call op k ih =>
    intro n hn
    obtain ⟨m, hm⟩ : ∃ m, (states h s sched m).progs i = .call op k ∧ sched m = i := by
      -- nothing happens to the program until its next turn
      obtain ⟨m, hnm, hm⟩ := hfair n
      obtain ⟨d, rfl⟩ := Nat.exists_eq_add_of_le hnm
      induction d generalizing n with
      | zero => exact ⟨n, hn, hm⟩
      | succ d ihd =>
        by_cases hturn : sched n = i
        · exact ⟨n, hn, hturn⟩
        · refine ihd (n + 1) ?_ (Nat.le_add_right _ _) ?_
          · rw [states, step_progs_of_ne (Ne.symm hturn), hn]
          · rwa [Nat.add_assoc, Nat.add_comm 1 d]
    refine ih (h op (states h s sched m).shared).1 (m + 1) ?_
    rw [states, hm.2]
    exact step_progs_self hm.1

end

end Interleaving
