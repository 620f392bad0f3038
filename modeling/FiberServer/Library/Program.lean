import Mathlib.Tactic.SplitIfs

/-!
# Programs that call operations

`Prog Op Answer α` is a program that performs operations in `Op`, goes on with
their answers and returns a value in `α`.  What an operation does is given from
outside:

* `run h p s`: each operation is a function on the state.
* `Safe allowed next p Q t`: whatever the operations answer, the program performs
  only what `allowed` lets it in the state of a protocol, and it ends with `Q`.
  `Safe.bind`, `Safe.mono` and `Safe.run` are its rules.
* `Only P p`: all operations of the program satisfy `P`.
* `map f p`: the program with its operations renamed.
-/

/-- A program over the operations `Op`. -/
inductive Prog (Op : Type) (Answer : Op → Type) (α : Type)
  | done (a : α)
  | call (op : Op) (k : Answer op → Prog Op Answer α)

namespace Prog

variable {Op : Type} {Answer : Op → Type} {α β : Type}

protected def bind : Prog Op Answer α → (α → Prog Op Answer β) → Prog Op Answer β
  | done a, f => f a
  | call op k, f => call op fun x => (k x).bind f

instance : Monad (Prog Op Answer) where
  pure := done
  bind := Prog.bind

/-- Perform one operation. -/
def perform (op : Op) : Prog Op Answer (Answer op) := call op done

theorem call_bind (op : Op) (k : Answer op → Prog Op Answer α) (f : α → Prog Op Answer β) :
    (call op k >>= f) = call op fun x => k x >>= f := rfl

@[simp] theorem pure_bind (a : α) (f : α → Prog Op Answer β) : (pure a >>= f) = f a := rfl

@[simp] theorem bind_assoc {γ : Type} (p : Prog Op Answer α) (f : α → Prog Op Answer β)
    (g : β → Prog Op Answer γ) : (p >>= f) >>= g = p >>= fun a => f a >>= g := by
  induction p with
  | done a => rfl
  | call op k ih => exact congrArg (call op) (funext ih)

@[simp] theorem ite_bind {c : Prop} [Decidable c] (p q : Prog Op Answer α)
    (f : α → Prog Op Answer β) :
    (if c then p else q) >>= f = if c then p >>= f else q >>= f := by
  split <;> rfl

/-! ### Running a program -/

section

variable {σ : Type*} {h : (op : Op) → σ → Answer op × σ}

/-- Run a program when each operation is a function on the state. -/
def run (h : (op : Op) → σ → Answer op × σ) : Prog Op Answer α → σ → α × σ
  | done a, s => (a, s)
  | call op k, s => run h (k (h op s).1) (h op s).2

@[simp] theorem run_pure (a : α) (s : σ) : run h (pure a) s = (a, s) := rfl

@[simp] theorem run_perform (op : Op) (s : σ) : run h (perform op) s = h op s := by
  rw [perform, run, run]

@[simp] theorem run_bind (p : Prog Op Answer α) (f : α → Prog Op Answer β) (s : σ) :
    run h (p >>= f) s = run h (f (run h p s).1) (run h p s).2 := by
  induction p generalizing s with
  | done a => rfl
  | call op k ih =>
    rw [call_bind, run, run]
    exact ih _ _

@[simp] theorem run_ite {c : Prop} [Decidable c] (p q : Prog Op Answer α) (s : σ) :
    run h (if c then p else q) s = if c then run h p s else run h q s := by
  split <;> rfl

end

/-! ### Programs that keep to a protocol -/

section

variable {τ : Type*} {allowed : τ → Op → Prop} {next : τ → (op : Op) → Answer op → τ → Prop}
  {Q : τ → α → Prop} {R : τ → β → Prop}

/-- From the protocol state `t` the program performs only allowed operations,
whatever they answer, and it ends with `Q`. -/
def Safe (allowed : τ → Op → Prop) (next : τ → (op : Op) → Answer op → τ → Prop) :
    Prog Op Answer α → (τ → α → Prop) → τ → Prop
  | done a, Q, t => Q t a
  | call op k, Q, t => allowed t op ∧ ∀ x u, next t op x u → Safe allowed next (k x) Q u

@[simp] theorem safe_pure_iff {a : α} {t : τ} :
    Safe allowed next (pure a) Q t ↔ Q t a := Iff.rfl

@[simp] theorem safe_perform_bind {op : Op} {f : Answer op → Prog Op Answer β} {t : τ} :
    Safe allowed next (perform op >>= f) R t
      ↔ allowed t op ∧ ∀ x u, next t op x u → Safe allowed next (f x) R u := Iff.rfl

@[simp] theorem safe_ite_iff {c : Prop} [Decidable c] {p q : Prog Op Answer α} {t : τ} :
    Safe allowed next (if c then p else q) Q t
      ↔ (c → Safe allowed next p Q t) ∧ (¬ c → Safe allowed next q Q t) := by
  split_ifs with hc <;> simp [hc]

/-- **Sequence.** -/
theorem Safe.bind {p : Prog Op Answer α} {f : α → Prog Op Answer β} :
    ∀ {t : τ}, Safe allowed next p Q t → (∀ a u, Q u a → Safe allowed next (f a) R u) →
      Safe allowed next (p >>= f) R t := by
  induction p with
  | done a => intro t hp hf; exact hf a t hp
  | call op k ih => intro t hp hf; exact ⟨hp.1, fun x u hn => ih x (hp.2 x u hn) hf⟩

/-- **Consequence.** -/
theorem Safe.mono {Q' : τ → α → Prop} (hQ : ∀ t a, Q t a → Q' t a) {p : Prog Op Answer α} :
    ∀ {t : τ}, Safe allowed next p Q t → Safe allowed next p Q' t := by
  induction p with
  | done a => intro t hp; exact hQ t a hp
  | call op k ih => intro t hp; exact ⟨hp.1, fun x u hn => ih x (hp.2 x u hn)⟩

/-- **Run.** The protocol is followed by a relation `I` between its state and the
state of the run. -/
theorem Safe.run {σ : Type*} {h : (op : Op) → σ → Answer op × σ} {I : τ → σ → Prop}
    (hI : ∀ t s op, I t s → allowed t op → ∃ u, next t op (h op s).1 u ∧ I u (h op s).2)
    {p : Prog Op Answer α} :
    ∀ {t : τ} {s : σ}, Safe allowed next p Q t → I t s →
      ∃ u, I u (run h p s).2 ∧ Q u (run h p s).1 := by
  induction p with
  | done a => intro t s hp hs; exact ⟨t, hs, hp⟩
  | call op k ih =>
    intro t s hp hs
    obtain ⟨u, hn, hu⟩ := hI t s op hs hp.1
    exact ih _ (hp.2 _ u hn) hu

end

/-! ### Programs over some of the operations -/

section

variable {P : Op → Prop}

/-- All operations of the program satisfy `P`. -/
def Only (P : Op → Prop) : Prog Op Answer α → Prop
  | done _ => True
  | call op k => P op ∧ ∀ x, Only P (k x)

@[simp] theorem only_pure (a : α) : Only P (pure a : Prog Op Answer α) := trivial

@[simp] theorem only_perform {op : Op} : Only P (perform op : Prog Op Answer _) ↔ P op :=
  ⟨And.left, fun h => ⟨h, fun _ => trivial⟩⟩

theorem Only.bind {p : Prog Op Answer α} {f : α → Prog Op Answer β} (hp : Only P p)
    (hf : ∀ a, Only P (f a)) : Only P (p >>= f) := by
  induction p with
  | done a => exact hf a
  | call op k ih => exact ⟨hp.1, fun x => ih x (hp.2 x)⟩

@[simp] theorem only_perform_bind {op : Op} {f : Answer op → Prog Op Answer β} :
    Only P (perform op >>= f) ↔ P op ∧ ∀ x, Only P (f x) := Iff.rfl

theorem Only.mono {P' : Op → Prop} (h : ∀ op, P op → P' op) {p : Prog Op Answer α}
    (hp : Only P p) : Only P' p := by
  induction p with
  | done a => trivial
  | call op k ih => exact ⟨h op hp.1, fun x => ih x (hp.2 x)⟩

theorem only_true (p : Prog Op Answer α) : Only (fun _ => True) p := by
  induction p with
  | done a => trivial
  | call op k ih => exact ⟨trivial, ih⟩

theorem only_ite {c : Prop} [Decidable c] {p q : Prog Op Answer α} (hp : c → Only P p)
    (hq : ¬ c → Only P q) : Only P (if c then p else q) := by
  split_ifs with hc
  · exact hp hc
  · exact hq hc

@[simp] theorem only_ite_iff {c : Prop} [Decidable c] {p q : Prog Op Answer α} :
    Only P (if c then p else q) ↔ (c → Only P p) ∧ (¬ c → Only P q) := by
  split_ifs with hc <;> simp [hc]

/-- A program whose operations are all allowed while `J` holds keeps to the protocol. -/
theorem Only.safe {τ : Type*} {allowed : τ → Op → Prop}
    {next : τ → (op : Op) → Answer op → τ → Prop} {Q : τ → α → Prop} {J : τ → Prop}
    (hP : ∀ t op, J t → P op → allowed t op) (hJ : ∀ t op x u, J t → next t op x u → J u)
    (hQ : ∀ t a, J t → Q t a) {p : Prog Op Answer α} :
    ∀ {t : τ}, Only P p → J t → Safe allowed next p Q t := by
  induction p with
  | done a => intro t _ ht; exact hQ t a ht
  | call op k ih =>
    intro t hp ht
    exact ⟨hP t op ht hp.1, fun x u hn => ih x (hp.2 x) (hJ t op x u ht hn)⟩

/-- **Invariant rule.** What the operations of a program keep, the program keeps. -/
theorem Only.run_invariant {σ : Type*} {h : (op : Op) → σ → Answer op × σ} {I : σ → Prop}
    (hI : ∀ op s, P op → I s → I (h op s).2) {p : Prog Op Answer α} :
    ∀ {s : σ}, Only P p → I s → I (run h p s).2 := by
  induction p with
  | done a => intro s _ hs; exact hs
  | call op k ih => intro s hp hs; exact ih _ (hp.2 _) (hI op s hp.1 hs)

end

/-! ### Programs over more operations -/

section

variable {Op' : Type} {Answer' : Op' → Type} {f : Op → Op'}

/-- The program over the operations `Op'`, of which `f` picks those of `Op`. -/
def map (f : Op → Op') : Prog Op (fun op => Answer' (f op)) α → Prog Op' Answer' α
  | done a => done a
  | call op k => call (f op) fun x => map f (k x)

theorem run_map {σ : Type*} {h : (op : Op') → σ → Answer' op × σ}
    (p : Prog Op (fun op => Answer' (f op)) α) (s : σ) :
    run h (map f p) s = run (fun op => h (f op)) p s := by
  induction p generalizing s with
  | done a => rfl
  | call op k ih => exact ih _ _

theorem safe_map {τ : Type*} {allowed : τ → Op' → Prop}
    {next : τ → (op : Op') → Answer' op → τ → Prop} {Q : τ → α → Prop}
    {p : Prog Op (fun op => Answer' (f op)) α} :
    ∀ {t : τ}, Safe (fun t op => allowed t (f op)) (fun t op => next t (f op)) p Q t →
      Safe allowed next (map f p) Q t := by
  induction p with
  | done a => intro t hp; exact hp
  | call op k ih => intro t hp; exact ⟨hp.1, fun x u hn => ih x (hp.2 x u hn)⟩

end

end Prog
