import FiberServer.IOManager.Slots

/-!
# Registrations and their wake-ups

A registration is a call of `addEvent` that succeeded.  The ledger holds all of them, the
latest first, each with what `triggerEvent` has scheduled for it: a task goes to the latest
registration of the event that was triggered.  A failing assertion of `addEvent` ends the run.

* `one_wakeup`: in every run each registration has had its waiter scheduled at most once, and
  nothing else is ever scheduled.  A step other than `delEvent` that clears an event
  schedules the waiter of its registration.
-/

namespace FiberServer

namespace IOManager

open Transition

structure Registration where
  fd_ctx : Nat
  event : Event
  waiter : Task
  /-- what was scheduled for it -/
  scheduled : List Task := []
  deriving DecidableEq, Repr

/-- The latest registration comes first. -/
abbrev Ledger := List Registration

namespace Ledger

/-- The latest registration of an event. -/
def holder (l : Ledger) (p : Nat) (event : Event) : Option Registration :=
  l.find? fun r => r.fd_ctx = p ∧ r.event = event

/-- A task that was scheduled for an event. -/
def wake (p : Nat) (event : Event) (task : Task) : Ledger → Ledger
  | [] => []
  | r :: l =>
    if r.fd_ctx = p ∧ r.event = event then { r with scheduled := task :: r.scheduled } :: l
    else r :: wake p event task l

/-- What `triggerEvent` makes of an event. -/
def trigger (l : Ledger) (p : Nat) (c : FdContext) (event : Event) : Ledger :=
  match (c.triggerEvent event).2 with
  | some task => l.wake p event task
  | none => l

def triggerBoth (l : Ledger) (p : Nat) (c : FdContext) (m : Events) : Ledger :=
  let l := if m.READ then l.trigger p c .READ else l
  if m.WRITE then l.trigger p c .WRITE else l

end Ledger

def Op.record (l : Ledger) (p : Nat) (c : FdContext) (ok : Bool) : Op → Ledger
  | .addEvent event cb scheduler fiber =>
    if ok then { fd_ctx := p, event := event, waiter := waiter cb scheduler fiber } :: l else l
  | op => l.triggerBoth p c (op.triggered c ok)

/-- The ledger after a step. -/
def Ledger.after (s : State) (l : Ledger) : Action → Ledger
  | .perform i ok =>
    match s.calls[i]? with
    | some (.ready op p) => (s.contexts[p]?).elim l fun c => op.record l p c ok
    | _ => l
  | .dispatch i ok =>
    match s.reports[i]? with
    | some (p, ev) => (s.contexts[p]?).elim l fun c => l.triggerBoth p c (ev.triggered c ok)
    | none => l
  | _ => l

/-- A step with its ledger. -/
def record (x : State × Ledger) (a : Action) : Option (State × Ledger) :=
  if asserted x.1 a then (step x.1 a).map fun t => (t, x.2.after x.1 a) else none

/-- The waiters are scheduled at most once, and nothing else is. -/
def Once (x : State × Ledger) : Prop :=
  (∀ r ∈ x.2, r.scheduled = [] ∨ r.scheduled = [r.waiter])
    ∧ x.1.scheduled.Perm (x.2.flatMap Registration.scheduled)

/-- An event that the step clears, unless by `delEvent`, has its waiter scheduled in the step. -/
def ClearedOnce (x : State × Ledger) (a : Action) : Prop :=
  ∀ y, record x a = some y → isDelEvent x.1 a = false → ∀ p event (c c' : FdContext),
    x.1.contexts[p]? = some c → c.events.has event = true →
    y.1.contexts[p]? = some c' → c'.events.has event = false →
    ∃ r, x.2.holder p event = some r ∧ r.scheduled = []
      ∧ y.2.holder p event = some { r with scheduled := [r.waiter] }

/-! ### The ledger -/

namespace Ledger

variable {l : Ledger} {p q : Nat} {event other : Event} {task : Task} {r : Registration}

theorem holder_cons_of_ne (h : ¬ (r.fd_ctx = p ∧ r.event = event)) :
    holder (r :: l) p event = l.holder p event := by
  simp [holder, h]

theorem holder_cons_self (h : r.fd_ctx = p ∧ r.event = event) :
    holder (r :: l) p event = some r := by
  simp [holder, h]

theorem holder_wake_self (h : l.holder p event = some r) :
    (l.wake p event task).holder p event = some { r with scheduled := task :: r.scheduled } := by
  induction l with
  | nil => simp [holder] at h
  | cons r' l ih =>
    rw [wake]
    split_ifs with hr
    · rw [holder_cons_self hr] at h
      cases h
      exact holder_cons_self hr
    · rw [holder_cons_of_ne hr] at h ⊢
      exact ih h

theorem holder_wake_of_ne (h : ¬ (q = p ∧ other = event)) :
    (l.wake p event task).holder q other = l.holder q other := by
  induction l with
  | nil => rfl
  | cons r l ih =>
    rw [wake]
    split_ifs with hr
    · have hne : ¬ (r.fd_ctx = q ∧ r.event = other) := fun hq =>
        h ⟨hq.1.symm.trans hr.1, hq.2.symm.trans hr.2⟩
      rw [holder_cons_of_ne hne]
      exact holder_cons_of_ne hne
    · by_cases hq : r.fd_ctx = q ∧ r.event = other
      · rw [holder_cons_self hq, holder_cons_self hq]
      · rw [holder_cons_of_ne hq, holder_cons_of_ne hq, ih]

/-- Only the latest registration of the event changes. -/
theorem forall_mem_wake {P : Registration → Prop} (h : l.holder p event = some r)
    (hall : ∀ r' ∈ l, P r') (hr : P { r with scheduled := task :: r.scheduled }) :
    ∀ r' ∈ l.wake p event task, P r' := by
  induction l with
  | nil => simp [holder] at h
  | cons r₀ l ih =>
    rw [List.forall_mem_cons] at hall
    rw [wake]
    split_ifs with hr₀
    · rw [holder_cons_self hr₀] at h
      cases h
      exact List.forall_mem_cons.mpr ⟨hr, hall.2⟩
    · rw [holder_cons_of_ne hr₀] at h
      exact List.forall_mem_cons.mpr ⟨hall.1, ih h hall.2⟩

theorem flatMap_wake (h : l.holder p event = some r) :
    ((l.wake p event task).flatMap Registration.scheduled).Perm
      (task :: l.flatMap Registration.scheduled) := by
  induction l with
  | nil => simp [holder] at h
  | cons r₀ l ih =>
    rw [wake]
    split_ifs with hr₀
    · exact .refl _
    · rw [holder_cons_of_ne hr₀] at h
      rw [List.flatMap_cons, List.flatMap_cons]
      exact ((ih h).append_left _).trans List.perm_middle

end Ledger

theorem Ledger.trigger_eq (l : Ledger) (p : Nat) (c : FdContext) (event : Event) :
    l.trigger p c event = (c.getContext event).task.elim l fun task => l.wake p event task := by
  rw [Ledger.trigger, FdContext.triggerEvent_eq]
  cases (c.getContext event).task <;> rfl

/-! ### The invariant -/

/-- An event that is registered holds the waiter of its latest registration, for which
nothing was scheduled yet; one that is not holds nothing. -/
def Slot (b : Bool) (ctx : EventContext) (r : Option Registration) : Prop :=
  if b then ∃ r₀, r = some r₀ ∧ r₀.scheduled = [] ∧ ctx.task = some r₀.waiter ∧ ctx.rest = {}
  else ctx = {}

structure Booked (x : State × Ledger) : Prop where
  once : Once x
  slots : ∀ p event b ctx, x.1.slot p event = some (b, ctx) → Slot b ctx (x.2.holder p event)

/-- A step that changes one event. -/
theorem Booked.updates {s t : State} {l l' : Ledger} {p : Nat} {event : Event} {b : Bool}
    {ctx : EventContext} (hs : Booked (s, l)) (h : Updates s t p event b ctx) (honce : Once (t, l'))
    (hself : Slot b ctx (l'.holder p event))
    (hother : ∀ q e, ¬ (q = p ∧ e = event) → l'.holder q e = l.holder q e) : Booked (t, l') := by
  refine ⟨honce, ?_⟩
  intro q e b' ctx' hslot
  by_cases hq : q = p ∧ e = event
  · obtain ⟨rfl, rfl⟩ := hq
    rw [h.self] at hslot
    cases hslot
    exact hself
  · rw [h.other q e hq] at hslot
    rw [hother q e hq]
    exact hs.slots q e b' ctx' hslot

/-- What the latest registration of a triggered event becomes. -/
def Registration.woken (r : Registration) : Registration := { r with scheduled := [r.waiter] }

/-- Every event that was cleared had its waiter scheduled. -/
def Clears (x y : State × Ledger) : Prop :=
  ∀ p event ctx ctx', x.1.slot p event = some (true, ctx) → y.1.slot p event = some (false, ctx') →
    ∃ r, x.2.holder p event = some r ∧ r.scheduled = [] ∧ y.2.holder p event = some r.woken

theorem Clears.of_slot_eq {s t : State} {l l' : Ledger}
    (h : ∀ p event, s.slot p event ≠ none → t.slot p event = s.slot p event) :
    Clears (s, l) (t, l') := by
  intro p event ctx ctx' hs ht
  rw [h p event (by rw [hs]; exact Option.some_ne_none _)] at ht
  rw [hs] at ht
  exact nomatch ht

/-- What triggering one event, or none, does. -/
structure Triggers (x y : State × Ledger) (p : Nat) (event : Event) : Prop where
  booked : Booked y
  clears : Clears x y
  slot : ∀ q e, ¬ (q = p ∧ e = event) → y.1.slot q e = x.1.slot q e
  holder : ∀ q e, ¬ (q = p ∧ e = event) → y.2.holder q e = x.2.holder q e

section

variable {s t : State} {l : Ledger} {p : Nat} {c : FdContext} {event : Event}

/-- **A triggered event**: its waiter is scheduled once if it was registered, and nothing is if
it was not. -/
theorem trigger_triggers (hs : Booked (s, l)) (hc : s.contexts[p]? = some c) :
    Triggers (s, l) (s.trigger p c event, l.trigger p c event) p event := by
  have hslot := hs.slots p event _ _ (State.slot_eq hc event)
  have hupdates : Updates s (s.trigger p c event) p event false (c.getContext event).rest :=
    trigger_updates hc
  have hscheduled := trigger_scheduled s p c event
  obtain ⟨honce, hperm⟩ := hs.once
  have htrigger := l.trigger_eq p c event
  cases hhas : c.events.has event with
  | true =>
    rw [hhas, Slot, if_pos rfl] at hslot
    obtain ⟨r, hr, hnone, htask, hrest⟩ := hslot
    rw [htask] at hscheduled
    rw [htask, Option.elim_some] at htrigger
    have hwoken : (l.wake p event r.waiter).holder p event = _ := Ledger.holder_wake_self hr
    rw [hnone] at hwoken
    have hholder : ∀ q e, ¬ (q = p ∧ e = event) →
        (l.wake p event r.waiter).holder q e = l.holder q e :=
      fun q e hne => Ledger.holder_wake_of_ne hne
    rw [htrigger]
    refine ⟨hs.updates hupdates ⟨?_, ?_⟩ hrest hholder, ?_, hupdates.other, hholder⟩
    · exact Ledger.forall_mem_wake hr honce (.inr (by rw [hnone]))
    · rw [hscheduled]
      exact (hperm.cons r.waiter).trans (Ledger.flatMap_wake hr).symm
    · intro q e ctx ctx' hset hclear
      by_cases hq : q = p ∧ e = event
      · obtain ⟨rfl, rfl⟩ := hq
        exact ⟨r, hr, hnone, hwoken⟩
      · rw [hupdates.other q e hq, hset] at hclear
        exact nomatch hclear
  | false =>
    rw [hhas] at hslot
    have hempty : c.getContext event = {} := hslot
    have hsame := State.slot_eq hc event
    rw [hempty] at hupdates htrigger hscheduled hsame
    rw [hhas] at hsame
    rw [htrigger]
    refine ⟨hs.updates hupdates ⟨honce, ?_⟩ rfl fun _ _ _ => rfl, ?_, hupdates.other,
      fun _ _ _ => rfl⟩
    · rw [hscheduled]
      exact hperm
    · apply Clears.of_slot_eq
      intro q e _
      by_cases hq : q = p ∧ e = event
      · obtain ⟨rfl, rfl⟩ := hq
        rw [hupdates.self, hsame]
        rfl
      · exact hupdates.other q e hq

theorem triggerIf_triggers (hs : Booked (s, l)) (hc : s.contexts[p]? = some c) (event : Event)
    (on : Bool) :
    Triggers (s, l) (s.triggerIf p event on, if on then l.trigger p c event else l) p event := by
  cases on with
  | false => exact ⟨hs, .of_slot_eq fun _ _ _ => rfl, fun _ _ _ => rfl, fun _ _ _ => rfl⟩
  | true =>
    rw [State.triggerIf, if_pos rfl, if_pos rfl, hc]
    exact trigger_triggers hs hc

/-- **`READ` and `WRITE` where asked.** -/
theorem triggerBoth_booked (hs : Booked (s, l)) (hc : s.contexts[p]? = some c) (m : Events) :
    Booked ((s.triggerIf p .READ m.READ).triggerIf p .WRITE m.WRITE, l.triggerBoth p c m)
      ∧ Clears (s, l)
        ((s.triggerIf p .READ m.READ).triggerIf p .WRITE m.WRITE, l.triggerBoth p c m) := by
  have hread := triggerIf_triggers hs hc .READ m.READ
  have hkept := hread.slot p .WRITE fun h => absurd h.2 (by decide)
  rw [State.slot_eq hc] at hkept
  obtain ⟨c', hc', hctx⟩ := Option.map_eq_some_iff.mp hkept
  have hwrite := triggerIf_triggers hread.booked hc' .WRITE m.WRITE
  have hsame (l : Ledger) : l.trigger p c' .WRITE = l.trigger p c .WRITE := by
    rw [Ledger.trigger_eq, Ledger.trigger_eq, (Prod.mk.inj hctx).2]
  rw [hsame] at hwrite
  refine ⟨hwrite.booked, ?_⟩
  intro q e ctx ctx' hset hclear
  cases e with
  | READ =>
    have hne : ¬ (q = p ∧ Event.READ = .WRITE) := fun h => absurd h.2 (by decide)
    rw [hwrite.slot q .READ hne] at hclear
    obtain ⟨r, hr, hnone, hwoken⟩ := hread.clears q .READ ctx ctx' hset hclear
    exact ⟨r, hr, hnone, (hwrite.holder q .READ hne).trans hwoken⟩
  | WRITE =>
    have hne : ¬ (q = p ∧ Event.WRITE = .READ) := fun h => absurd h.2 (by decide)
    rw [← hread.slot q .WRITE hne] at hset
    obtain ⟨r, hr, hnone, hwoken⟩ := hwrite.clears q .WRITE ctx ctx' hset hclear
    exact ⟨r, (hread.holder q .WRITE hne).symm.trans hr, hnone, hwoken⟩

end

/-! ### Sections -/

section

variable {s t : State} {l : Ledger} {p : Nat} {c : FdContext}

theorem Booked.of_eq (h : Booked (s, l)) (hc : t.contexts = s.contexts)
    (hscheduled : t.scheduled = s.scheduled) : Booked (t, l) := by
  refine ⟨⟨h.once.1, ?_⟩, ?_⟩
  · rw [hscheduled]
    exact h.once.2
  · intro p event b ctx hslot
    rw [State.slot, hc] at hslot
    exact h.slots p event b ctx hslot

theorem Clears.of_eq {u : State} {l' : Ledger} (h : Clears (s, l) (t, l'))
    (hc : u.contexts = t.contexts) : Clears (s, l) (u, l') := by
  intro p event ctx ctx' hset hclear
  rw [State.slot, hc] at hclear
  exact h p event ctx ctx' hset hclear

theorem addEvent_booked (hs : Booked (s, l)) (hc : s.contexts[p]? = some c) {event : Event}
    {cb scheduler : Option Nat} {fiber : Nat} (hempty : c.getContext event = {}) :
    Booked (addEvent s p c event cb scheduler fiber true,
      { fd_ctx := p, event := event, waiter := waiter cb scheduler fiber } :: l) := by
  refine hs.updates (addEvent_updates hc _ _ _ hempty) ⟨?_, hs.once.2⟩ ?_ ?_
  · exact List.forall_mem_cons.mpr ⟨.inl rfl, hs.once.1⟩
  · exact ⟨_, Ledger.holder_cons_self ⟨rfl, rfl⟩, rfl, EventContext.task_register cb scheduler fiber,
      EventContext.rest_register cb scheduler fiber⟩
  · exact fun q e hne => Ledger.holder_cons_of_ne fun h => hne ⟨h.1.symm, h.2.symm⟩

theorem delEvent_booked (hs : Booked (s, l)) (hc : s.contexts[p]? = some c) (event : Event)
    (ok : Bool) : Booked (delEvent s p c event ok, l) := by
  rcases delEvent_updates hc event ok with hsame | hupdates
  · rw [hsame]
    exact hs
  · refine hs.updates hupdates ⟨hs.once.1, ?_⟩ rfl fun _ _ _ => rfl
    have hscheduled : (delEvent s p c event ok).scheduled = s.scheduled := by
      rw [delEvent]
      split_ifs <;> rfl
    rw [hscheduled]
    exact hs.once.2

/-- **The section of a call.** -/
theorem perform_booked (hs : Booked (s, l)) (hc : s.contexts[p]? = some c) {op : Op} {ok : Bool}
    (hassert : ∀ event cb scheduler fiber, op = .addEvent event cb scheduler fiber → ok = true →
      c.getContext event = {}) :
    Booked (op.perform s p c ok, op.record l p c ok)
      ∧ ((∀ event, op ≠ .delEvent event) →
        Clears (s, l) (op.perform s p c ok, op.record l p c ok)) := by
  cases op with
  | addEvent event cb scheduler fiber =>
    cases ok with
    | false => exact ⟨hs, fun _ => .of_slot_eq fun _ _ _ => rfl⟩
    | true =>
      have hempty := hassert event cb scheduler fiber rfl rfl
      have hupdates : Updates s (addEvent s p c event cb scheduler fiber true) p event true _ :=
        addEvent_updates hc _ _ _ hempty
      refine ⟨addEvent_booked hs hc hempty, fun _ q e ctx ctx' hset hclear => ?_⟩
      by_cases hq : q = p ∧ e = event
      · obtain ⟨rfl, rfl⟩ := hq
        have hself := hupdates.self.symm.trans hclear
        exact nomatch hself
      · have hsame := (hupdates.other q e hq).symm.trans hclear
        rw [hset] at hsame
        exact nomatch hsame
  | delEvent event => exact ⟨delEvent_booked hs hc event ok, fun h => absurd rfl (h event)⟩
  | cancelEvent event =>
    have h := triggerBoth_booked hs hc (Op.triggered c ok (.cancelEvent event))
    rw [← cancelEvent_eq hc] at h
    exact ⟨h.1, fun _ => h.2⟩
  | cancelAll =>
    have h := triggerBoth_booked hs hc (Op.triggered c ok .cancelAll)
    rw [← cancelAll_eq] at h
    exact ⟨h.1, fun _ => h.2⟩

theorem contextResize_booked (hs : Booked (s, l)) (size : Nat) :
    Booked (s.contextResize size, l) ∧ Clears (s, l) (s.contextResize size, l) := by
  have hold (p : Nat) (hp : p < s.contexts.length) (event : Event) :
      (s.contextResize size).slot p event = s.slot p event := by
    rw [State.slot, State.slot, State.contextResize, List.getElem?_append_left hp]
  refine ⟨⟨hs.once, ?_⟩, .of_slot_eq fun p event hne => hold p ?_ event⟩
  · intro p event b ctx hslot
    by_cases hp : p < s.contexts.length
    · rw [hold p hp] at hslot
      exact hs.slots p event b ctx hslot
    · -- a new context holds nothing
      rw [State.slot, State.contextResize, List.getElem?_append_right (Nat.le_of_not_lt hp),
        List.getElem?_map, Option.map_map, Option.map_eq_some_iff] at hslot
      obtain ⟨i, -, hnew⟩ := hslot
      cases event <;> cases hnew <;> rfl
  · by_contra hp
    exact hne (by rw [State.slot, List.getElem?_eq_none (Nat.le_of_not_lt hp)]; rfl)

end

/-! ### Runs -/

theorem booked_init : Booked (init, []) := by
  have hempty : Booked ((⟨[], [], 0, [], [], [], false⟩ : State), []) :=
    ⟨⟨by simp, .refl _⟩, fun _ _ _ _ h => nomatch h⟩
  exact (contextResize_booked hempty 32).1

/-- **A step** keeps the ledger right, and schedules the waiter of what it clears. -/
theorem record_booked {x y : State × Ledger} {a : Action} (hx : Booked x)
    (h : record x a = some y) : Booked y ∧ (isDelEvent x.1 a = false → Clears x y) := by
  obtain ⟨s, l⟩ := x
  rw [record] at h
  split_ifs at h with hassert
  obtain ⟨t, hst, rfl⟩ := Option.map_eq_some_iff.mp h
  clear h
  have hstill : Clears (s, l) (s, l) := .of_slot_eq fun _ _ _ => rfl
  cases step_cases hst with
  | found _ | missing _ _ | refused _ _ | epollWait _ _ =>
    exact ⟨hx.of_eq rfl rfl, fun _ => hstill.of_eq rfl⟩
  | @resize i fd p op hcall hp =>
    obtain ⟨hbooked, hclears⟩ := contextResize_booked hx (fd * 3 / 2)
    exact ⟨hbooked.of_eq rfl rfl, fun _ => hclears.of_eq rfl⟩
  | @perform i p op c ok hcall hc =>
    have hempty : ∀ event cb scheduler fiber, op = .addEvent event cb scheduler fiber →
        ok = true → c.getContext event = {} := by
      rintro event cb scheduler fiber rfl rfl
      simpa [asserted, hcall, hc] using hassert
    obtain ⟨hbooked, hclears⟩ := perform_booked hx hc hempty
    have hafter : Ledger.after s l (.perform i ok) = op.record l p c ok := by
      simp only [Ledger.after, hcall, hc, Option.elim_some]
    simp only [hafter]
    refine ⟨hbooked.of_eq rfl rfl, fun hdel => Clears.of_eq (hclears ?_) rfl⟩
    rintro event rfl
    simp [isDelEvent, hcall] at hdel
  | @dispatch i p ev c ok hreport hc =>
    obtain ⟨hbooked, hclears⟩ := triggerBoth_booked hx hc (ev.triggered c ok)
    rw [← dispatch_eq] at hbooked hclears
    have hafter : Ledger.after s l (.dispatch i ok) = l.triggerBoth p c (ev.triggered c ok) := by
      simp only [Ledger.after, hreport, hc, Option.elim_some]
    simp only [hafter]
    exact ⟨hbooked.of_eq rfl rfl, fun _ => hclears.of_eq rfl⟩

theorem Booked.clearedOnce {x : State × Ledger} (hx : Booked x) (a : Action) : ClearedOnce x a := by
  intro y hy hdel p event c c' hc hset hc' hclear
  have hbefore := State.slot_eq hc event
  have hafter := State.slot_eq hc' event
  rw [hset] at hbefore
  rw [hclear] at hafter
  exact (record_booked hx hy).2 hdel p event _ _ hbefore hafter

/-- **One wake-up per registration.** -/
theorem one_wakeup (as : List Action) :
    Throughout record Once (init, []) as ∧ Along record ClearedOnce (init, []) as := by
  have hstep : ∀ x a y, Booked x → record x a = some y → Booked y :=
    fun _ _ _ hx h => (record_booked hx h).1
  exact ⟨along_true.throughout (fun x a y hx _ h => hstep x a y hx h) (fun _ hx => hx.once)
      booked_init,
    along_of_invariant hstep (fun _ a hx => hx.clearedOnce a) booked_init⟩

end IOManager

end FiberServer
