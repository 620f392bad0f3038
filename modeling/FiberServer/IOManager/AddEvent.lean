import FiberServer.IOManager.Registrations

/-!
# The registration of an event

`addEvent` logs an error when the event is registered already, and goes on.  `epoll_ctl` with the
same mask succeeds, so the second registration is counted and its waiter takes the place of the
first.

* `allOrNothing_iff`: a call adds its event with its waiter or changes nothing, exactly if
  `epoll_ctl` fails or the event is `READ` or `WRITE`, is not registered, and nobody waits in its
  context.
* `allOrNothing_of_booked`: in a state that the calls have left as they should, exactly if
  `epoll_ctl` fails or the event is not registered.
-/

namespace FiberServer

namespace IOManager

open EventContext

inductive EpollCtlOp
  | EPOLL_CTL_ADD
  | EPOLL_CTL_MOD
  deriving DecidableEq, Repr

/-- What `addEvent` gives to `epoll_ctl`. -/
structure EpollCtl where
  op : EpollCtlOp
  events : Events
  deriving DecidableEq, Repr

/-- What is there after `addEvent`; `ret` is `none` when it throws. -/
structure Added where
  ret : Option Int
  fd_ctx : FdContext
  m_pendingEventCount : UInt64
  epoll_ctl : EpollCtl
  deriving DecidableEq, Repr

/-- `events | event`; `none` is `NONE`. -/
def Events.insertOption (m : Events) : Option Event → Events
  | none => m
  | some event => m.insert event

namespace FdContext

/-- `addEvent` from the lock of `fd_ctx->mutex` on, with what `epoll_ctl` returns. -/
def addEvent (c : FdContext) (m_pendingEventCount : UInt64) (event : Option Event)
    (cb scheduler : Option Nat) (fiber : Nat) (rt : Int) : Added :=
  -- that `events & event` is set is only logged
  let call : EpollCtl :=
    { op := if c.events = {} then .EPOLL_CTL_ADD else .EPOLL_CTL_MOD
      events := c.events.insertOption event }
  if rt ≠ 0 then ⟨some (-1), c, m_pendingEventCount, call⟩
  else
    let m_pendingEventCount := m_pendingEventCount + 1
    let c := { c with events := c.events.insertOption event }
    match event with
    -- `getContext` throws
    | none => ⟨none, c, m_pendingEventCount, call⟩
    | some event =>
      let ctx := c.getContext event
      let ctx := { ctx with scheduler := scheduler }
      let ctx := if cb.isSome then { ctx with cb := cb } else { ctx with fiber := some fiber }
      ⟨some 0, c.setContext event ctx, m_pendingEventCount, call⟩

end FdContext

/-- The event was not there and nobody waited for it, and now it is there with this waiter; nothing
else has changed. -/
structure Gains (c : FdContext) (m_pendingEventCount : UInt64) (event : Event)
    (cb scheduler : Option Nat) (fiber : Nat) (r : Added) : Prop where
  unregistered : c.events.has event = false
  nobody : (c.getContext event).task = none
  returned : r.ret = some 0
  events : r.fd_ctx.events = c.events.insert event
  waits : r.fd_ctx.getContext event = register cb scheduler fiber
  other : ∀ e, e ≠ event → r.fd_ctx.getContext e = c.getContext e
  fd : r.fd_ctx.fd = c.fd
  counted : r.m_pendingEventCount = m_pendingEventCount + 1

/-- `addEvent` has added this event with this waiter, or failed and changed nothing. -/
def AllOrNothing (c : FdContext) (m_pendingEventCount : UInt64) (event : Option Event)
    (cb scheduler : Option Nat) (fiber : Nat) (r : Added) : Prop :=
  (∃ e, event = some e ∧ Gains c m_pendingEventCount e cb scheduler fiber r)
    ∨ (∃ e, r.ret = some e ∧ e ≠ 0) ∧ r.fd_ctx = c ∧ r.m_pendingEventCount = m_pendingEventCount

theorem EventContext.task_eq_none {ctx : EventContext} :
    ctx.task = none ↔ ctx.cb = none ∧ ctx.fiber = none := by
  obtain ⟨scheduler, fiber, cb⟩ := ctx
  cases cb <;> cases fiber <;> simp [EventContext.task]

/-- A call for which `epoll_ctl` succeeds. -/
theorem allOrNothing_some (c : FdContext) (m_pendingEventCount : UInt64) (event : Event)
    (cb scheduler : Option Nat) (fiber : Nat) :
    AllOrNothing c m_pendingEventCount (some event) cb scheduler fiber
        (c.addEvent m_pendingEventCount (some event) cb scheduler fiber 0)
      ↔ c.events.has event = false ∧ (c.getContext event).task = none := by
  constructor
  · rintro (⟨e, he, hgains⟩ | ⟨⟨e, he, hne⟩, -⟩)
    · obtain rfl := Option.some.inj he
      exact ⟨hgains.unregistered, hgains.nobody⟩
    · exact absurd (Option.some.inj he).symm hne
  · rintro ⟨hhas, hnobody⟩
    refine .inl ⟨event, rfl, hhas, hnobody, rfl, ?_, ?_, fun e hne => ?_, ?_, rfl⟩
    · exact FdContext.setContext_events _ _ _
    · obtain ⟨hcb, hfiber⟩ := EventContext.task_eq_none.mp hnobody
      refine (FdContext.getContext_setContext_self _ _ _).trans ?_
      rw [FdContext.getContext_events, register]
      split_ifs
      · rw [hfiber]
      · rw [hcb]
    · exact (FdContext.getContext_setContext_of_ne _ hne _).trans
        (FdContext.getContext_events _ _ _)
    · exact setContext_fd _ _ _

/-- A call for which it fails. -/
theorem allOrNothing_of_failed (c : FdContext) (m_pendingEventCount : UInt64)
    (event : Option Event) (cb scheduler : Option Nat) (fiber : Nat) {rt : Int} (hrt : rt ≠ 0) :
    AllOrNothing c m_pendingEventCount event cb scheduler fiber
      (c.addEvent m_pendingEventCount event cb scheduler fiber rt) := by
  rw [FdContext.addEvent]
  simp only [if_pos hrt]
  exact .inr ⟨⟨-1, rfl, by decide⟩, rfl, rfl⟩

/-- **All or nothing.**  A call of `addEvent` either returns 0 and has added exactly its event,
with its waiter, or returns something else and has changed nothing, exactly if `epoll_ctl` fails or
the event is one of `READ` and `WRITE`, is not registered, and nobody waits in its context. -/
theorem allOrNothing_iff (c : FdContext) (m_pendingEventCount : UInt64) (event : Option Event)
    (cb scheduler : Option Nat) (fiber : Nat) (rt : Int) :
    AllOrNothing c m_pendingEventCount event cb scheduler fiber
        (c.addEvent m_pendingEventCount event cb scheduler fiber rt)
      ↔ rt ≠ 0 ∨ ∃ e, event = some e ∧ c.events.has e = false ∧ (c.getContext e).task = none := by
  by_cases hrt : rt ≠ 0
  · exact ⟨fun _ => .inl hrt, fun _ => allOrNothing_of_failed _ _ _ _ _ _ hrt⟩
  obtain rfl : rt = 0 := not_not.mp hrt
  cases event with
  | none =>
    constructor
    · rintro (⟨e, he, -⟩ | ⟨⟨e, he, -⟩, -⟩)
      · exact nomatch he
      · exact nomatch he
    · rintro (hne | ⟨e, he, -⟩)
      · exact absurd hne hrt
      · exact nomatch he
  | some event =>
    rw [allOrNothing_some]
    constructor
    · exact fun h => .inr ⟨event, rfl, h⟩
    · rintro (hne | ⟨e, he, h⟩)
      · exact absurd hne hrt
      · exact Option.some.inj he ▸ h

/-- A fiber waits for `READ`. -/
def waiting : FdContext :=
  { read := ⟨some 0, some 1, none⟩, fd := 5, events := { READ := true } }

/-- Its event is registered for a callback; the call returns 0, and nobody will wake the fiber. -/
theorem waiting_overwritten :
    ¬ AllOrNothing waiting 1 (some .READ) (some 7) (some 0) 2
        (waiting.addEvent 1 (some .READ) (some 7) (some 0) 2 0)
      ∧ ((waiting.addEvent 1 (some .READ) (some 7) (some 0) 2 0).fd_ctx.getContext .READ).task
        = some ⟨some 0, none, some 7⟩ := by
  refine ⟨?_, by decide⟩
  rintro (⟨e, he, hgains⟩ | ⟨⟨e, he, hne⟩, -⟩)
  · obtain rfl := Option.some.inj he
    exact absurd hgains.unregistered (by decide)
  · exact hne (Option.some.inj he).symm

/-! ### In a run -/

/-- **The section of `addEvent`.** -/
theorem addEvent_section {s : State} {p : Nat} {c : FdContext} (hc : s.contexts[p]? = some c)
    (event : Event) (cb scheduler : Option Nat) (fiber : Nat) (rt : Int) :
    let t := addEvent s p c event cb scheduler fiber (rt = 0)
    let r := c.addEvent (.ofNat s.m_pendingEventCount) (some event) cb scheduler fiber rt
    t.contexts = s.contexts.set p r.fd_ctx
      ∧ UInt64.ofNat t.m_pendingEventCount = r.m_pendingEventCount := by
  by_cases hrt : rt = 0
  · simp only [addEvent, FdContext.addEvent, hrt, decide_true, if_true, ne_eq, not_true_eq_false,
      if_false]
    refine ⟨rfl, ?_⟩
    rw [UInt64.ofNat_add]
    rfl
  · simp only [addEvent, FdContext.addEvent, hrt, decide_false, Bool.false_eq_true, if_false, ne_eq,
      not_false_eq_true, if_true]
    refine ⟨?_, trivial⟩
    obtain ⟨hp, rfl⟩ := List.getElem?_eq_some_iff.mp hc
    exact (List.set_getElem_self hp).symm

/-- **In a run whose calls have registered no event twice**, nobody waits for an event that is not
registered. -/
theorem allOrNothing_of_booked {s : State} {l : Ledger} (hs : Booked (s, l)) {p : Nat}
    {c : FdContext} (hc : s.contexts[p]? = some c) (m_pendingEventCount : UInt64) (event : Event)
    (cb scheduler : Option Nat) (fiber : Nat) :
    AllOrNothing c m_pendingEventCount (some event) cb scheduler fiber
        (c.addEvent m_pendingEventCount (some event) cb scheduler fiber 0)
      ↔ c.events.has event = false := by
  rw [allOrNothing_some]
  refine ⟨And.left, fun hhas => ⟨hhas, ?_⟩⟩
  have hslot := hs.slots p event _ _ (State.slot_eq hc event)
  rw [hhas, Slot] at hslot
  rw [if_neg Bool.false_ne_true] at hslot
  rw [hslot]
  rfl

end IOManager

end FiberServer
