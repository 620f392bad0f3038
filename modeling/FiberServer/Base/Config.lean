import FiberServer.Library.Transition
import Mathlib.Data.List.Chain
import Mathlib.Tactic.SplitIfs

/-!
# `ConfigVar::setValue`

`setValue` compares and calls the listeners under the read lock, and stores the value under the
write lock.  Between the two nothing is held, and any number of calls may be in the first part
at a time.

* `agrees_along`: whenever no call is in progress, the calls that each listener has heard lead
  from the first value to `m_val`, if no call finds a difference while another one that has found
  one has not stored yet.
-/

namespace FiberServer

namespace ConfigVar

open Transition

variable {T : Type*}

/-! ### Changes that lead from one value to another -/

/-- Each change begins where the one before it has ended. -/
def Leads (a : T) : List (T × T) → T → Prop
  | [], b => a = b
  | e :: es, b => e.1 = a ∧ Leads e.2 es b

theorem Leads.snoc {a b c : T} {es : List (T × T)} (h : Leads a es b) :
    Leads a (es ++ [(b, c)]) c := by
  induction es generalizing a with
  | nil => exact ⟨h.symm, rfl⟩
  | cons e es ih => exact ⟨h.1, ih h.2⟩

theorem Leads.foldl {a b : T} {es : List (T × T)} (h : Leads a es b) :
    es.foldl (fun _ e => e.2) a = b := by
  induction es generalizing a with
  | nil => exact h
  | cons e es ih => exact ih h.2

theorem Leads.getLast {a b : T} {es : List (T × T)} (h : Leads a es b) {e : T × T}
    (he : es.getLast? = some e) : e.2 = b := by
  induction es generalizing a with
  | nil => exact nomatch he
  | cons e' es ih =>
    cases es with
    | nil =>
      cases he
      exact h.2
    | cons e'' es =>
      rw [List.getLast?_cons_cons] at he
      exact ih h.2 he

theorem Leads.isChain {a b : T} {es : List (T × T)} (h : Leads a es b) :
    es.IsChain fun e e' => e'.1 = e.2 := by
  induction es generalizing a with
  | nil => exact .nil
  | cons e es ih =>
    cases es with
    | nil => exact .singleton e
    | cons e' es => exact .cons_cons h.2.1 (ih h.2)

/-! ### The model -/

/-- A call of `setValue` that has found a difference. -/
inductive Call (T : Type*)
  /-- under the read lock, with the listeners that are still to be called -/
  | notifying (v : T) (i : List Nat)
  /-- before the write lock -/
  | storing (v : T)
  deriving DecidableEq, Repr

structure State (T : Type*) where
  m_val : T
  /-- the keys of the listeners in their order -/
  m_cbs : List Nat
  calls : List (Call T)
  /-- the calls of the listeners, with the old and the new value -/
  heard : List (Nat × T × T)
  deriving DecidableEq, Repr

def init (m_val : T) (m_cbs : List Nat) : State T :=
  { m_val := m_val
    m_cbs := m_cbs
    calls := []
    heard := [] }

def Call.reads : Call T → Bool
  | .notifying _ _ => true
  | .storing _ => false

inductive Action (T : Type*)
  /-- `setValue(v)` takes the read lock and compares -/
  | setValue (v : T)
  /-- the next listener is called; after the last one the lock is released -/
  | notify (k : Nat)
  /-- the write lock, which waits for the readers -/
  | store (k : Nat)
  deriving DecidableEq, Repr

def step [DecidableEq T] (s : State T) : Action T → Option (State T)
  | .setValue v =>
    if v = s.m_val then some s
    else some { s with calls := s.calls ++ [.notifying v s.m_cbs] }
  | .notify k =>
    match s.calls[k]? with
    | some (.notifying v (i :: rest)) =>
      some
        { s with
          calls := s.calls.set k (.notifying v rest)
          heard := s.heard ++ [(i, s.m_val, v)] }
    | some (.notifying v []) => some { s with calls := s.calls.set k (.storing v) }
    | _ => none
  | .store k =>
    match s.calls[k]? with
    | some (.storing v) =>
      if s.calls.any Call.reads then none
      else some { s with m_val := v, calls := s.calls.eraseIdx k }
    | _ => none

/-- What the listener was called with. -/
def State.heardBy (s : State T) (i : Nat) : List (T × T) :=
  (s.heard.filter fun e => e.1 = i).map Prod.snd

/-- A copy of the value that the listener keeps: first the value it was made with, and then the
new value of every call. -/
def State.copy (initial : T) (s : State T) (i : Nat) : T :=
  (s.heardBy i).foldl (fun _ e => e.2) initial

/-- What the listeners have heard when no call is in progress. -/
structure Agrees (initial : T) (s : State T) : Prop where
  last : ∀ i e, (s.heardBy i).getLast? = some e → i ∈ s.m_cbs → e.2 = s.m_val
  chain : ∀ i ∈ s.m_cbs, (s.heardBy i).IsChain fun e e' => e'.1 = e.2
  copies : ∀ i ∈ s.m_cbs, s.copy initial i = s.m_val

/-- A call that finds a difference is alone. -/
def Alone (s : State T) : Action T → Prop
  | .setValue v => v ≠ s.m_val → s.calls = []
  | _ => True

instance [DecidableEq T] (s : State T) (a : Action T) : Decidable (Alone s a) :=
  match a with
  | .setValue v => inferInstanceAs (Decidable (v ≠ s.m_val → s.calls = []))
  | .notify _ | .store _ => .isTrue trivial

/-! ### Calls that are alone -/

section

variable {initial : T} {s t : State T}

theorem heardBy_snoc (s : State T) (i j : Nat) (e : T × T) (calls : List (Call T)) :
    ({ s with calls := calls, heard := s.heard ++ [(i, e)] } : State T).heardBy j
      = s.heardBy j ++ if i = j then [e] else [] := by
  rw [State.heardBy, List.filter_append, List.map_append, List.filter_singleton, State.heardBy]
  by_cases h : i = j
  · rw [if_pos h, decide_eq_true h]
    rfl
  · rw [if_neg h, decide_eq_false h]
    rfl

/-- The listener has been told of the new value of the call. -/
def Call.told (s : State T) (i : Nat) : Call T → T
  | .notifying v rest => if i ∈ rest then s.m_val else v
  | .storing v => v

/-- One call at most, and what each listener has heard leads to the value it was told last. -/
inductive Inv (initial : T) (s : State T) : Prop
  | idle (calls : s.calls = []) (leads : ∀ i ∈ s.m_cbs, Leads initial (s.heardBy i) s.m_val)
  | busy (c : Call T) (calls : s.calls = [c])
      (leads : ∀ i ∈ s.m_cbs, Leads initial (s.heardBy i) (c.told s i))
      (left : ∀ v rest, c = .notifying v rest → rest.Sublist s.m_cbs)

theorem Inv.agrees (h : Inv initial s) (hcalls : s.calls = []) : Agrees initial s := by
  cases h with
  | busy c calls => exact absurd (hcalls.symm.trans calls) (List.cons_ne_nil _ _).symm
  | idle calls leads =>
    exact ⟨fun i e he hi => (leads i hi).getLast he, fun i hi => (leads i hi).isChain,
      fun i hi => (leads i hi).foldl⟩

/-- The only call there is. -/
theorem Inv.call (h : Inv initial s) {k : Nat} {c : Call T} (hk : s.calls[k]? = some c) :
    k = 0 ∧ s.calls = [c] ∧ (∀ i ∈ s.m_cbs, Leads initial (s.heardBy i) (c.told s i))
      ∧ ∀ v rest, c = .notifying v rest → rest.Sublist s.m_cbs := by
  cases h with
  | idle calls =>
    rw [calls] at hk
    exact nomatch hk
  | busy c' calls leads left =>
    rw [calls] at hk
    obtain ⟨hlt, hc⟩ := List.getElem?_eq_some_iff.mp hk
    have hzero : k = 0 := by
      rw [List.length_singleton] at hlt
      omega
    subst hzero
    obtain rfl : c' = c := hc
    exact ⟨rfl, calls, leads, left⟩

/-- **The next listener is called.** -/
theorem Inv.tell (hcbs : s.m_cbs.Nodup) {v : T} {i : Nat} {rest : List Nat}
    (hleads : ∀ j ∈ s.m_cbs, Leads initial (s.heardBy j) ((Call.notifying v (i :: rest)).told s j))
    (hleft : (i :: rest).Sublist s.m_cbs) :
    Inv initial { s with calls := [.notifying v rest], heard := s.heard ++ [(i, s.m_val, v)] } := by
  have hnot : i ∉ rest := (List.nodup_cons.mp (hcbs.sublist hleft)).1
  refine .busy _ rfl (fun j hj => ?_) ?_
  · have hlead := hleads j hj
    rw [heardBy_snoc]
    by_cases hij : i = j
    · subst hij
      simp only [Call.told, List.mem_cons, true_or, if_true] at hlead
      simp only [Call.told, hnot, if_true, if_false]
      exact hlead.snoc
    · simp only [Call.told, List.mem_cons, Ne.symm hij, false_or] at hlead
      simp only [Call.told, hij, if_false, List.append_nil]
      exact hlead
  · rintro v' rest' hc
    cases hc
    exact (List.sublist_cons_self _ _).trans hleft

/-- **A call that is alone keeps the invariant.** -/
theorem inv_step [DecidableEq T] (s : State T) (a : Action T) (t : State T)
    (h : Inv initial s ∧ s.m_cbs.Nodup)
    (halone : Alone s a) (hstep : step s a = some t) : Inv initial t ∧ t.m_cbs.Nodup := by
  obtain ⟨h, hcbs⟩ := h
  cases a with
  | setValue v =>
    rw [step] at hstep
    split_ifs at hstep with hv
    · cases hstep
      exact ⟨h, hcbs⟩
    · have hcalls := halone hv
      cases hstep
      cases h with
      | busy c calls => exact absurd (hcalls.symm.trans calls) (List.cons_ne_nil _ _).symm
      | idle calls leads =>
        refine ⟨.busy (.notifying v s.m_cbs) (by rw [calls]; rfl) (fun i hi => ?_) ?_, hcbs⟩
        · show Leads initial (s.heardBy i) (if i ∈ s.m_cbs then s.m_val else v)
          rw [if_pos hi]
          exact leads i hi
        · rintro v' rest hc
          cases hc
          exact List.Sublist.refl _
  | notify k =>
    rw [step] at hstep
    split at hstep
    · rename_i v i rest hk
      obtain ⟨rfl, hcalls, hleads, hleft⟩ := h.call hk
      cases hstep
      rw [hcalls]
      exact ⟨.tell hcbs hleads (hleft v _ rfl), hcbs⟩
    · rename_i v hk
      obtain ⟨rfl, hcalls, hleads, -⟩ := h.call hk
      cases hstep
      rw [hcalls]
      refine ⟨.busy (.storing v) rfl (fun i hi => ?_) fun _ _ hc => (nomatch hc), hcbs⟩
      have hlead := hleads i hi
      rw [Call.told, if_neg List.not_mem_nil] at hlead
      exact hlead
    · exact nomatch hstep
  | store k =>
    rw [step] at hstep
    split at hstep
    · rename_i v hk
      obtain ⟨rfl, hcalls, hleads, -⟩ := h.call hk
      split_ifs at hstep
      cases hstep
      rw [hcalls]
      exact ⟨.idle rfl hleads, hcbs⟩
    · exact nomatch hstep

/-- **The listeners agree with the value.**  In every run of `setValue` calls in which no call
finds a difference while another one that has found one has not stored, in every state in which
no call is in progress: the last new value of each listener is `m_val`, each old value is the new
one before it, and the copy that a listener keeps is `m_val`. -/
theorem agrees_along [DecidableEq T] (initial : T) {m_cbs : List Nat} (hcbs : m_cbs.Nodup)
    {as : List (Action T)}
    (halone : Along step Alone (init initial m_cbs) as) :
    Throughout step (fun s => s.calls = [] → Agrees initial s) (init initial m_cbs) as :=
  halone.throughout (fun s a t hs hC h => inv_step s a t hs hC h) (fun _ h => h.1.agrees)
    ⟨.idle rfl fun _ _ => rfl, hcbs⟩

end

/-- One call after the other, with two listeners. -/
def sequential : List (Action Nat) :=
  [.setValue 1, .notify 0, .notify 0, .notify 0, .store 0, .setValue 1, .setValue 2, .notify 0]

theorem agrees_along_sequential :
    Throughout step (fun s => s.calls = [] → Agrees 0 s) (init 0 [1, 2]) sequential :=
  agrees_along 0 (by decide) (by decide)

/-- Two calls compare before one of them stores, and store in the other order. -/
def crossed : List (Action Nat) :=
  [.setValue 1, .setValue 2, .notify 0, .notify 1, .notify 0, .notify 1, .store 1, .store 0]

/-- The listener was told 2 last, and the value is 1. -/
theorem crossed_disagrees :
    ¬ Throughout step (fun s => s.calls = [] → Agrees 0 s) (init 0 [1]) crossed := by
  intro hall
  have hrun : exec step (init 0 [1]) crossed
      = some { m_val := 1, m_cbs := [1], calls := [], heard := [(1, 0, 1), (1, 0, 2)] } := by decide
  have hlast := (hall.last hrun rfl).last 1 (0, 2) (by decide) (by decide)
  exact absurd hlast (by decide)

end ConfigVar

end FiberServer
