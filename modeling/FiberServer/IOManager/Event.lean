import FiberServer.Library.Transition
import Mathlib.Algebra.Order.Ring.Int
import Mathlib.Tactic.SplitIfs

/-!
# Events of `IOManager`

`FdContext` and the sections of `addEvent`, `delEvent`, `cancelEvent`,
`cancelAll` and of the dispatch loop of `idle()` that run under
`fd_ctx->mutex`.  Each takes the result of its `epoll_ctl` call as an argument.
Assertions are those of a release build: `triggerEvent` goes on when its
`FIBER_ASSERT(events & event)` fails.

`step` interleaves them: a call first looks its `FdContext` up under the lock of
`m_fdContexts` (`addEvent` may have to resize first) and runs its section later;
a report is returned by `epoll_wait` and dispatched later.  `step_cases` lists what it
can do.
-/

namespace FiberServer

namespace IOManager

/-- `IOManager::Event`, without `NONE`. -/
inductive Event
  | READ | WRITE
  deriving DecidableEq, Repr

/-- The bit mask `FdContext::events`. -/
structure Events where
  READ : Bool := false
  WRITE : Bool := false
  deriving DecidableEq, Repr

namespace Events

/-- `events & event`. -/
def has (m : Events) : Event → Bool
  | .READ => m.READ
  | .WRITE => m.WRITE

/-- `events | event`. -/
def insert (m : Events) : Event → Events
  | .READ => { m with READ := true }
  | .WRITE => { m with WRITE := true }

/-- `events & ~event`. -/
def erase (m : Events) : Event → Events
  | .READ => { m with READ := false }
  | .WRITE => { m with WRITE := false }

/-- The number of bits. -/
def size (m : Events) : Nat := m.READ.toNat + m.WRITE.toNat

theorem size_insert {m : Events} {event : Event} (h : m.has event = false) :
    (m.insert event).size = m.size + 1 := by
  obtain ⟨r, w⟩ := m
  cases event <;> cases r <;> cases w <;> first | rfl | exact absurd h Bool.noConfusion

theorem size_erase {m : Events} {event : Event} (h : m.has event) :
    (m.erase event).size + 1 = m.size := by
  obtain ⟨r, w⟩ := m
  cases event <;> cases r <;> cases w <;> first | rfl | exact absurd h Bool.noConfusion

theorem has_erase_of_ne {m : Events} {event other : Event} (h : other ≠ event) :
    (m.erase event).has other = m.has other := by
  cases event <;> cases other <;> first | rfl | exact absurd rfl h

end Events

/-- `FdContext::EventContext`; a scheduler, a fiber and a callback are known by
number. -/
structure EventContext where
  scheduler : Option Nat := none
  fiber : Option Nat := none
  cb : Option Nat := none
  deriving DecidableEq, Repr

structure FdContext where
  read : EventContext := {}
  write : EventContext := {}
  fd : Nat
  events : Events := {}
  deriving DecidableEq, Repr

/-- What `triggerEvent` hands to `schedule`. -/
structure Task where
  scheduler : Option Nat
  fiber : Option Nat
  cb : Option Nat
  deriving DecidableEq, Repr

namespace FdContext

def getContext (c : FdContext) : Event → EventContext
  | .READ => c.read
  | .WRITE => c.write

def setContext (c : FdContext) (event : Event) (ctx : EventContext) : FdContext :=
  match event with
  | .READ => { c with read := ctx }
  | .WRITE => { c with write := ctx }

@[simp] theorem setContext_events (c : FdContext) (event : Event) (ctx : EventContext) :
    (c.setContext event ctx).events = c.events := by
  cases event <;> rfl

/-- `FdContext::triggerEvent`: the context and the scheduled task. -/
def triggerEvent (c : FdContext) (event : Event) : FdContext × Option Task :=
  let c := { c with events := c.events.erase event }
  let ctx := c.getContext event
  if ctx.cb.isSome then
    (c.setContext event { ctx with cb := none, scheduler := none },
      some ⟨ctx.scheduler, none, ctx.cb⟩)
  else if ctx.fiber.isSome then
    (c.setContext event { ctx with fiber := none, scheduler := none },
      some ⟨ctx.scheduler, ctx.fiber, none⟩)
  else (c.setContext event { ctx with scheduler := none }, none)

@[simp] theorem triggerEvent_events (c : FdContext) (event : Event) :
    (c.triggerEvent event).1.events = c.events.erase event := by
  rw [triggerEvent]
  split_ifs <;> rw [setContext_events]

end FdContext

/-- The bits of an `epoll_event` that `idle()` looks at. -/
structure EpollEvents where
  EPOLLIN : Bool := false
  EPOLLOUT : Bool := false
  EPOLLERR : Bool := false
  EPOLLHUP : Bool := false
  deriving DecidableEq, Repr

/-- The operations on the events of an fd, with the values of `Scheduler::GetThis()`
and `Fiber::GetThis()` in the caller of `addEvent`. -/
inductive Op
  | addEvent (event : Event) (cb : Option Nat) (scheduler : Option Nat) (fiber : Nat)
  | delEvent (event : Event)
  | cancelEvent (event : Event)
  | cancelAll
  deriving DecidableEq, Repr

/-- A call that has not reached its section yet. -/
inductive Call
  /-- `addEvent` has seen that `m_fdContexts` is too short -/
  | resize (op : Op) (fd : Nat)
  | ready (op : Op) (fd_ctx : Nat)
  deriving DecidableEq, Repr

structure State where
  /-- every `FdContext` that was allocated; a pointer is an index -/
  contexts : List FdContext
  m_fdContexts : List Nat
  m_pendingEventCount : Nat
  calls : List Call
  /-- what `epoll_wait` has returned and `idle()` has not dispatched yet -/
  reports : List (Nat × EpollEvents)
  scheduled : List Task
  /-- the assertion of `triggerEvent` has failed -/
  unregistered : Bool
  deriving DecidableEq, Repr

namespace State

/-- `contextResize`. -/
def contextResize (s : State) (size : Nat) : State :=
  let more := size - s.m_fdContexts.length
  { s with
    m_fdContexts := s.m_fdContexts.take size
      ++ (List.range more).map fun i => s.contexts.length + i
    contexts := s.contexts
      ++ (List.range more).map fun i => { fd := s.m_fdContexts.length + i } }

/-- `--m_pendingEventCount` on a `std::atomic<size_t>`. -/
def decPending (s : State) : State :=
  { s with m_pendingEventCount :=
      if s.m_pendingEventCount = 0 then 2 ^ 64 - 1 else s.m_pendingEventCount - 1 }

/-- `fd_ctx->triggerEvent(event); --m_pendingEventCount;`. -/
def trigger (s : State) (p : Nat) (c : FdContext) (event : Event) : State :=
  let r := c.triggerEvent event
  { s with
    contexts := s.contexts.set p r.1
    scheduled := r.2.toList ++ s.scheduled
    unregistered := s.unregistered || !c.events.has event }.decPending

/-- `if(on) { triggerEvent(event); --m_pendingEventCount; }`. -/
def triggerIf (s : State) (p : Nat) (event : Event) (on : Bool) : State :=
  if on then
    match s.contexts[p]? with
    | some c => s.trigger p c event
    | none => s
  else s

end State

def init : State :=
  State.contextResize ⟨[], [], 0, [], [], [], false⟩ 32

/-- The section of `addEvent`: `epevent`, `epoll_ctl`, then the registration. -/
def addEvent (s : State) (p : Nat) (c : FdContext) (event : Event) (cb scheduler : Option Nat)
    (fiber : Nat) (ok : Bool) : State :=
  if ok then
    let ctx := c.getContext event
    let ctx := { ctx with scheduler := scheduler }
    let ctx := if cb.isSome then { ctx with cb := cb } else { ctx with fiber := some fiber }
    { s with
      m_pendingEventCount := s.m_pendingEventCount + 1
      contexts := s.contexts.set p
        ({ c with events := c.events.insert event }.setContext event ctx) }
  else s

def delEvent (s : State) (p : Nat) (c : FdContext) (event : Event) (ok : Bool) : State :=
  if c.events.has event && ok then
    { s with
      contexts := s.contexts.set p
        ({ c with events := c.events.erase event }.setContext event {}) }.decPending
  else s

def cancelEvent (s : State) (p : Nat) (c : FdContext) (event : Event) (ok : Bool) : State :=
  if c.events.has event && ok then s.trigger p c event else s

def cancelAll (s : State) (p : Nat) (c : FdContext) (ok : Bool) : State :=
  if c.events = {} then s
  else if ok then
    let s := s.triggerIf p .READ c.events.READ
    s.triggerIf p .WRITE c.events.WRITE
  else s

/-- The section of `idle()` for one report. -/
def dispatch (s : State) (p : Nat) (c : FdContext) (ev : EpollEvents) (ok : Bool) : State :=
  let errHup := ev.EPOLLERR || ev.EPOLLHUP
  let real_events : Events :=
    { READ := ev.EPOLLIN || errHup && c.events.READ
      WRITE := ev.EPOLLOUT || errHup && c.events.WRITE }
  if (c.events.READ && real_events.READ || c.events.WRITE && real_events.WRITE) = false then s
  else if ok then
    let s := s.triggerIf p .READ real_events.READ
    s.triggerIf p .WRITE real_events.WRITE
  else s

inductive Action
  /-- a call looks its `FdContext` up -/
  | lookup (op : Op) (fd : Nat)
  /-- the write section of `addEvent` -/
  | resize (call : Nat)
  /-- the section of a call; `ok` when `epoll_ctl` succeeds -/
  | perform (call : Nat) (ok : Bool)
  | epollWait (fd_ctx : Nat) (ev : EpollEvents)
  | dispatch (report : Nat) (ok : Bool)
  deriving DecidableEq, Repr

def Op.perform (s : State) (p : Nat) (c : FdContext) (ok : Bool) : Op → State
  | .addEvent event cb scheduler fiber => IOManager.addEvent s p c event cb scheduler fiber ok
  | .delEvent event => IOManager.delEvent s p c event ok
  | .cancelEvent event => IOManager.cancelEvent s p c event ok
  | .cancelAll => IOManager.cancelAll s p c ok

def Op.isAddEvent : Op → Bool
  | .addEvent .. => true
  | _ => false

def step (s : State) : Action → Option State
  | .lookup op fd =>
    match s.m_fdContexts[fd]? with
    | some p => some { s with calls := s.calls ++ [.ready op p] }
    | none =>
      -- the other calls return false
      if op.isAddEvent then some { s with calls := s.calls ++ [.resize op fd] } else some s
  | .resize i =>
    match s.calls[i]? with
    | some (.resize op fd) =>
      let s := s.contextResize (fd * 3 / 2)
      match s.m_fdContexts[fd]? with
      | some p => some { s with calls := s.calls.set i (.ready op p) }
      | none => none
    | _ => none
  | .perform i ok =>
    match s.calls[i]? with
    | some (.ready op p) =>
      match s.contexts[p]? with
      | some c => some { op.perform s p c ok with calls := s.calls.eraseIdx i }
      | none => none
    | _ => none
  | .epollWait p ev =>
    match s.contexts[p]? with
    | some c =>
      -- the kernel reports the events of the registered mask, errors and hang-ups
      if (ev.EPOLLIN → c.events.READ) ∧ (ev.EPOLLOUT → c.events.WRITE) then
        some { s with reports := s.reports ++ [(p, ev)] }
      else none
    | none => none
  | .dispatch i ok =>
    match s.reports[i]? with
    | some (p, ev) =>
      match s.contexts[p]? with
      | some c => some { dispatch s p c ev ok with reports := s.reports.eraseIdx i }
      | none => none
    | none => none

/-- The transitions of `step`, with their guards. -/
inductive StepCase (s : State) : Action → State → Prop
  | found {op : Op} {fd p : Nat} (hp : s.m_fdContexts[fd]? = some p) :
      StepCase s (.lookup op fd) { s with calls := s.calls ++ [.ready op p] }
  | missing {op : Op} {fd : Nat} (hp : s.m_fdContexts[fd]? = none) (hop : op.isAddEvent = true) :
      StepCase s (.lookup op fd) { s with calls := s.calls ++ [.resize op fd] }
  | refused {op : Op} {fd : Nat} (hp : s.m_fdContexts[fd]? = none) (hop : ¬ op.isAddEvent = true) :
      StepCase s (.lookup op fd) s
  | resize {i fd p : Nat} {op : Op} (hcall : s.calls[i]? = some (.resize op fd))
      (hp : (s.contextResize (fd * 3 / 2)).m_fdContexts[fd]? = some p) :
      StepCase s (.resize i) { s.contextResize (fd * 3 / 2) with
        calls := (s.contextResize (fd * 3 / 2)).calls.set i (.ready op p) }
  | perform {i p : Nat} {op : Op} {c : FdContext} {ok : Bool}
      (hcall : s.calls[i]? = some (.ready op p)) (hc : s.contexts[p]? = some c) :
      StepCase s (.perform i ok) { op.perform s p c ok with calls := s.calls.eraseIdx i }
  | epollWait {p : Nat} {c : FdContext} {ev : EpollEvents} (hc : s.contexts[p]? = some c)
      (hev : (ev.EPOLLIN → c.events.READ) ∧ (ev.EPOLLOUT → c.events.WRITE)) :
      StepCase s (.epollWait p ev) { s with reports := s.reports ++ [(p, ev)] }
  | dispatch {i p : Nat} {ev : EpollEvents} {c : FdContext} {ok : Bool}
      (hreport : s.reports[i]? = some (p, ev)) (hc : s.contexts[p]? = some c) :
      StepCase s (.dispatch i ok)
        { IOManager.dispatch s p c ev ok with reports := s.reports.eraseIdx i }

/-- **`step` does nothing else.** -/
theorem step_cases {s t : State} {a : Action} (h : step s a = some t) : StepCase s a t := by
  cases a with
  | lookup op fd =>
    rw [step] at h
    split at h
    · rename_i p hp
      cases h
      exact .found hp
    · rename_i hp
      split_ifs at h with hop
      · cases h
        exact .missing hp hop
      · cases h
        exact .refused hp hop
  | resize i =>
    rw [step] at h
    split at h
    · rename_i op fd hcall
      simp only at h
      split at h
      · rename_i p hp
        cases h
        exact .resize hcall hp
      · exact nomatch h
    · exact nomatch h
  | perform i ok =>
    rw [step] at h
    split at h
    · rename_i op p hcall
      split at h
      · rename_i c hc
        cases h
        exact .perform hcall hc
      · exact nomatch h
    · exact nomatch h
  | epollWait p ev =>
    rw [step] at h
    split at h
    · rename_i c hc
      split_ifs at h with hev
      cases h
      exact .epollWait hc hev
    · exact nomatch h
  | dispatch i ok =>
    rw [step] at h
    split at h
    · rename_i p ev hreport
      split at h
      · rename_i c hc
        cases h
        exact .dispatch hreport hc
      · exact nomatch h
    · exact nomatch h

end IOManager

end FiberServer
