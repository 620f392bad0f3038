import FiberServer.IOManager.Slots
import FiberServer.Library.Tally
import Mathlib.Logic.Function.Basic

/-!
# `do_io` and `close` over `IOManager`

The steps of the hooked calls `do_io(fd, …)` and `close(fd)`, of the timers that `do_io`
arms and of their callbacks, between them any step of `IOManager` for other callers.  A worker
that takes the item of a fiber resumes it; `resumes` counts the items that were taken.

The kernel keeps which file a number belongs to.  What a system call returns and whether
`epoll_ctl` succeeds is an argument of the step.

* `step_slot`: what a step does to one event of one `FdContext`.
* `indexed_step`: every `FdContext` stays in the table, if no resize makes it shorter.
-/

namespace FiberServer

namespace Hook

open IOManager (Event Events EventContext FdContext SlotStep StepSlots Indexed)

/-- A timer of `addConditionTimer` and its callback. -/
inductive Timer
  /-- in `m_timers` -/
  | pending
  /-- `listExpiredCb` has handed its callback over -/
  | expired
  /-- the callback has locked `winfo` -/
  | locked
  /-- the callback has set `cancelled` -/
  | cancelling
  /-- its `cancelEvent` has found the `FdContext` -/
  | cancellingAt (fd_ctx : Nat)
  | done
  deriving DecidableEq, Repr

/-- Where a call of `do_io` is. -/
inductive Pc
  /-- before `fun(fd, …)` -/
  | call
  /-- after `EAGAIN` -/
  | arm
  /-- `addEvent` looks its `FdContext` up -/
  | lookup
  /-- `addEvent` has seen that `m_fdContexts` is too short -/
  | resize
  /-- before the section of `addEvent` -/
  | addEvent (fd_ctx : Nat)
  /-- `addEvent` has failed -/
  | failed
  /-- before `YieldToHold` -/
  | registered
  | suspended
  /-- after `YieldToHold` -/
  | resumed
  /-- before the test of `tinfo->cancelled` -/
  | test
  | returned
  deriving DecidableEq, Repr

/-- A call of `do_io`. -/
structure DoIo where
  fiber : Nat
  fd : Nat
  event : Event
  /-- `to != (uint64_t)-1` -/
  timed : Bool
  /-- no `FdCtx`, or one that is no socket or that the user has made nonblocking -/
  raw : Bool
  /-- the file that `fd` was when the call began -/
  file : Option Nat
  /-- `tinfo->cancelled` -/
  cancelled : Bool := false
  /-- the timers of all its rounds, the latest first -/
  timers : List Timer := []
  pc : Pc := .call
  deriving DecidableEq, Repr

/-- Where a call of `close` is. -/
inductive ClosePc
  /-- `cancelAll` looks its `FdContext` up -/
  | lookup
  /-- before the section of `cancelAll` -/
  | cancelAll (fd_ctx : Nat)
  /-- before `FdManager::del` -/
  | del
  | close_f
  | returned
  deriving DecidableEq, Repr

structure Close where
  fd : Nat
  pc : ClosePc
  deriving DecidableEq, Repr

structure State where
  io : IOManager.State
  calls : List DoIo
  closes : List Close
  /-- how many items of a fiber the workers have taken -/
  resumes : Nat → Nat
  /-- the fds that `FdManager` has an `FdCtx` for -/
  managed : Nat → Bool
  /-- the open files of the kernel -/
  files : Nat → Option Nat
  /-- a new file gets this number -/
  nextFile : Nat

def init : State :=
  { io := IOManager.init
    calls := []
    closes := []
    resumes := fun _ => 0
    managed := fun _ => false
    files := fun _ => none
    nextFile := 0 }

/-- What `fun(fd, …)` returns: `n` or an error of its own, or one of the two that `do_io`
looks at. -/
inductive Ret
  | done | EINTR | EAGAIN
  deriving DecidableEq, Repr

inductive Action
  /-- a fiber calls `do_io` and reads the `FdCtx` -/
  | enter (fiber fd : Nat) (event : Event) (timed raw : Bool)
  /-- the system call of a `do_io` -/
  | call (k : Nat) (ret : Ret)
  /-- a step of a `do_io` that changes nothing else -/
  | run (k : Nat)
  | resize (k : Nat)
  | addEvent (k : Nat) (ok : Bool)
  /-- a worker takes the item of a fiber that is suspended in `do_io` -/
  | resume (k : Nat)
  /-- a worker takes the item of a fiber that is not in `do_io` -/
  | take (fiber : Nat)
  /-- `listExpiredCb` takes a timer -/
  | expire (k timer : Nat)
  /-- a step of a callback before the section of its `cancelEvent` -/
  | callback (k timer : Nat)
  | cancelEvent (k timer : Nat) (ok : Bool)
  /-- another caller of `IOManager`, `epoll_wait` or the dispatch of a report -/
  | io (a : IOManager.Action)
  /-- `close` looks the `FdCtx` up -/
  | beginClose (fd : Nat)
  | close (i : Nat) (ok : Bool)
  /-- the kernel gives a number to a new file -/
  | open (fd : Nat)
  /-- `FdManager::get(fd, true)` -/
  | manage (fd : Nat)
  deriving DecidableEq, Repr

/-! ### `do_io` -/

namespace DoIo

/-- `timer->cancel()`: a timer that has expired has no callback any more. -/
def cancelTimer (c : DoIo) : DoIo :=
  match c.timers with
  | .pending :: timers => { c with timers := .done :: timers }
  | _ => c

/-- `n = fun(fd, …)` and the tests of `errno`. -/
def afterCall (c : DoIo) (ret : Ret) : Option DoIo :=
  if c.pc = .call then
    if c.raw then some { c with pc := .returned }
    else
      match ret with
      | .done => some { c with pc := .returned }
      | .EINTR => some c
      | .EAGAIN => some { c with pc := .arm }
  else none

/-- The steps of the fiber alone; `addEvent` reads the table. -/
def next (c : DoIo) (m_fdContexts : List Nat) : Option DoIo :=
  match c.pc with
  | .arm => some { c with
      timers := if c.timed then .pending :: c.timers else c.timers
      pc := .lookup }
  | .lookup =>
    match m_fdContexts[c.fd]? with
    | some p => some { c with pc := .addEvent p }
    | none => some { c with pc := .resize }
  | .failed => some { c.cancelTimer with pc := .returned }
  | .registered => some { c with pc := .suspended }
  | .resumed => some { c.cancelTimer with pc := .test }
  | .test => some { c with pc := if c.cancelled then .returned else .call }
  | _ => none

/-- Somebody owns `tinfo`: the call, or a callback that has locked it. -/
def alive (c : DoIo) : Bool :=
  c.pc ≠ .returned || c.timers.any fun
    | .locked | .cancelling | .cancellingAt _ => true
    | _ => false

/-- A step of the callback of a timer. -/
def callback (c : DoIo) (i : Nat) (m_fdContexts : List Nat) : Option DoIo :=
  match c.timers[i]? with
  | some .expired =>
    some { c with timers := c.timers.set i (if c.alive then .locked else .done) }
  | some .locked =>
    if c.cancelled then some { c with timers := c.timers.set i .done }
    else some { c with cancelled := true, timers := c.timers.set i .cancelling }
  | some .cancelling =>
    match m_fdContexts[c.fd]? with
    | some p => some { c with timers := c.timers.set i (.cancellingAt p) }
    | none => some { c with timers := c.timers.set i .done }
  | _ => none

end DoIo

/-- The call may come to `fun(fd, …)`: only a call that is cancelled leaves its loop. -/
def Pc.mayCall (pc : Pc) (cancelled : Bool) : Bool :=
  match pc with
  | .call => true
  | .failed | .returned => false
  | _ => !cancelled

def DoIo.mayCall (c : DoIo) : Bool := c.pc.mayCall c.cancelled

namespace State

def setCall (s : State) (k : Nat) (c : DoIo) : State := { s with calls := s.calls.set k c }

/-- How often the fiber was scheduled. -/
def items (s : State) (fiber : Nat) : Nat :=
  s.io.scheduled.countP fun task => task.fiber = some fiber

/-- The run queues hold an item of the fiber. -/
def queued (s : State) (fiber : Nat) : Prop := s.resumes fiber < s.items fiber

instance (s : State) (fiber : Nat) : Decidable (s.queued fiber) :=
  inferInstanceAs (Decidable (_ < _))

/-- A worker takes an item of the fiber. -/
def taken (s : State) (fiber : Nat) : State :=
  { s with resumes := Function.update s.resumes fiber (s.resumes fiber + 1) }

/-- The fiber is in a call of `do_io`. -/
def inDoIo (s : State) (fiber : Nat) : Bool :=
  s.calls.any fun c => c.fiber = fiber && c.pc ≠ .returned

/-- The number of `Scheduler::GetThis()`. -/
def scheduler : Option Nat := some 0

end State

open State (scheduler)

def step (s : State) : Action → Option State
  | .enter fiber fd event timed raw =>
    if s.inDoIo fiber = false ∧ (s.managed fd || raw) then
      some { s with calls := s.calls ++ [
        { fiber := fiber, fd := fd, event := event, timed := timed, raw := raw
          file := s.files fd }] }
    else none
  | .call k ret =>
    match s.calls[k]? with
    | some c => (c.afterCall ret).map (s.setCall k)
    | none => none
  | .run k =>
    match s.calls[k]? with
    | some c => (c.next s.io.m_fdContexts).map (s.setCall k)
    | none => none
  | .resize k =>
    match s.calls[k]? with
    | some c =>
      let io := s.io.contextResize (c.fd * 3 / 2)
      match c.pc, io.m_fdContexts[c.fd]? with
      | .resize, some p => some ({ s with io := io }.setCall k { c with pc := .addEvent p })
      | _, _ => none
    | none => none
  | .addEvent k ok =>
    match s.calls[k]? with
    | some c =>
      match c.pc with
      | .addEvent p =>
        match s.io.contexts[p]? with
        | some ctx =>
          if ok then
            -- the assertion that the event context is empty
            if ctx.getContext c.event = {} then
              some ({ s with io := IOManager.addEvent s.io p ctx c.event none scheduler c.fiber true
                }.setCall k { c with pc := .registered })
            else none
          else some (s.setCall k { c with pc := .failed })
        | none => none
      | _ => none
    | none => none
  | .resume k =>
    match s.calls[k]? with
    | some c =>
      if c.pc = .suspended ∧ s.queued c.fiber then
        some ((s.taken c.fiber).setCall k { c with pc := .resumed })
      else none
    | none => none
  | .take fiber =>
    if s.inDoIo fiber = false ∧ s.queued fiber then some (s.taken fiber) else none
  | .expire k i =>
    match s.calls[k]? with
    | some c =>
      if c.timers[i]? = some .pending then
        some (s.setCall k { c with timers := c.timers.set i .expired })
      else none
    | none => none
  | .callback k i =>
    match s.calls[k]? with
    | some c => (c.callback i s.io.m_fdContexts).map (s.setCall k)
    | none => none
  | .cancelEvent k i ok =>
    match s.calls[k]? with
    | some c =>
      match c.timers[i]? with
      | some (.cancellingAt p) =>
        match s.io.contexts[p]? with
        | some ctx =>
          some ({ s with io := IOManager.cancelEvent s.io p ctx c.event ok }.setCall k
            { c with timers := c.timers.set i .done })
        | none => none
      | _ => none
    | none => none
  | .io a =>
    if IOManager.asserted s.io a then
      (IOManager.step s.io a).map fun io => { s with io := io }
    else none
  | .beginClose fd =>
    some { s with closes := s.closes ++ [⟨fd, if s.managed fd then .lookup else .close_f⟩] }
  | .close i ok =>
    match s.closes[i]? with
    | some c =>
      match c.pc with
      | .lookup =>
        match s.io.m_fdContexts[c.fd]? with
        | some p => some { s with closes := s.closes.set i { c with pc := .cancelAll p } }
        | none => some { s with closes := s.closes.set i { c with pc := .del } }
      | .cancelAll p =>
        match s.io.contexts[p]? with
        | some ctx => some { s with
            io := IOManager.cancelAll s.io p ctx ok
            closes := s.closes.set i { c with pc := .del } }
        | none => none
      | .del => some { s with
          managed := Function.update s.managed c.fd false
          closes := s.closes.set i { c with pc := .close_f } }
      | .close_f => some { s with
          files := Function.update s.files c.fd none
          closes := s.closes.set i { c with pc := .returned } }
      | .returned => none
    | none => none
  | .open fd =>
    if s.files fd = none then
      some { s with
        files := Function.update s.files fd (some s.nextFile)
        nextFile := s.nextFile + 1 }
    else none
  | .manage fd => some { s with managed := Function.update s.managed fd true }

/-! ### Steps -/

/-- The actions and what each of them does. -/
inductive StepCase (s : State) : Action → State → Prop
  | enter {fiber fd : Nat} {event : Event} {timed raw : Bool} (hidle : s.inDoIo fiber = false) :
      StepCase s (.enter fiber fd event timed raw) { s with calls := s.calls ++ [
        { fiber := fiber, fd := fd, event := event, timed := timed, raw := raw
          file := s.files fd }] }
  | call {k : Nat} {ret : Ret} {c c' : DoIo} (hc : s.calls[k]? = some c)
      (h : c.afterCall ret = some c') : StepCase s (.call k ret) (s.setCall k c')
  | run {k : Nat} {c c' : DoIo} (hc : s.calls[k]? = some c)
      (h : c.next s.io.m_fdContexts = some c') : StepCase s (.run k) (s.setCall k c')
  | resize {k p : Nat} {c : DoIo} (hc : s.calls[k]? = some c) (hpc : c.pc = .resize)
      (hp : (s.io.contextResize (c.fd * 3 / 2)).m_fdContexts[c.fd]? = some p) :
      StepCase s (.resize k) ({ s with io := s.io.contextResize (c.fd * 3 / 2) }.setCall k
        { c with pc := .addEvent p })
  | addEvent {k p : Nat} {c : DoIo} {ctx : FdContext} (hc : s.calls[k]? = some c)
      (hpc : c.pc = .addEvent p) (hctx : s.io.contexts[p]? = some ctx)
      (hempty : ctx.getContext c.event = {}) :
      StepCase s (.addEvent k true) ({ s with
        io := IOManager.addEvent s.io p ctx c.event none scheduler c.fiber true }.setCall k
          { c with pc := .registered })
  | failed {k p : Nat} {c : DoIo} (hc : s.calls[k]? = some c) (hpc : c.pc = .addEvent p) :
      StepCase s (.addEvent k false) (s.setCall k { c with pc := .failed })
  | resume {k : Nat} {c : DoIo} (hc : s.calls[k]? = some c) (hpc : c.pc = .suspended)
      (hqueued : s.queued c.fiber) :
      StepCase s (.resume k) ((s.taken c.fiber).setCall k { c with pc := .resumed })
  | take {fiber : Nat} (hidle : s.inDoIo fiber = false) (hqueued : s.queued fiber) :
      StepCase s (.take fiber) (s.taken fiber)
  | expire {k i : Nat} {c : DoIo} (hc : s.calls[k]? = some c)
      (hi : c.timers[i]? = some .pending) :
      StepCase s (.expire k i) (s.setCall k { c with timers := c.timers.set i .expired })
  | callback {k i : Nat} {c c' : DoIo} (hc : s.calls[k]? = some c)
      (h : c.callback i s.io.m_fdContexts = some c') :
      StepCase s (.callback k i) (s.setCall k c')
  | cancelEvent {k i p : Nat} {c : DoIo} {ctx : FdContext} {ok : Bool}
      (hc : s.calls[k]? = some c) (hi : c.timers[i]? = some (.cancellingAt p))
      (hctx : s.io.contexts[p]? = some ctx) :
      StepCase s (.cancelEvent k i ok) ({ s with
        io := IOManager.cancelEvent s.io p ctx c.event ok }.setCall k
          { c with timers := c.timers.set i .done })
  | io {a : IOManager.Action} {io : IOManager.State} (hassert : IOManager.asserted s.io a = true)
      (h : IOManager.step s.io a = some io) : StepCase s (.io a) { s with io := io }
  | beginClose {fd : Nat} :
      StepCase s (.beginClose fd)
        { s with closes := s.closes ++ [⟨fd, if s.managed fd then .lookup else .close_f⟩] }
  | closeFound {i p : Nat} {c : Close} {ok : Bool} (hc : s.closes[i]? = some c)
      (hpc : c.pc = .lookup) (hp : s.io.m_fdContexts[c.fd]? = some p) :
      StepCase s (.close i ok) { s with closes := s.closes.set i { c with pc := .cancelAll p } }
  | closeShort {i : Nat} {c : Close} {ok : Bool} (hc : s.closes[i]? = some c)
      (hpc : c.pc = .lookup) (hp : s.io.m_fdContexts[c.fd]? = none) :
      StepCase s (.close i ok) { s with closes := s.closes.set i { c with pc := .del } }
  | cancelAll {i p : Nat} {c : Close} {ctx : FdContext} {ok : Bool} (hc : s.closes[i]? = some c)
      (hpc : c.pc = .cancelAll p) (hctx : s.io.contexts[p]? = some ctx) :
      StepCase s (.close i ok) { s with
        io := IOManager.cancelAll s.io p ctx ok
        closes := s.closes.set i { c with pc := .del } }
  | del {i : Nat} {c : Close} {ok : Bool} (hc : s.closes[i]? = some c) (hpc : c.pc = .del) :
      StepCase s (.close i ok) { s with
        managed := Function.update s.managed c.fd false
        closes := s.closes.set i { c with pc := .close_f } }
  | close_f {i : Nat} {c : Close} {ok : Bool} (hc : s.closes[i]? = some c)
      (hpc : c.pc = .close_f) :
      StepCase s (.close i ok) { s with
        files := Function.update s.files c.fd none
        closes := s.closes.set i { c with pc := .returned } }
  | open {fd : Nat} (hfree : s.files fd = none) :
      StepCase s (.open fd) { s with
        files := Function.update s.files fd (some s.nextFile)
        nextFile := s.nextFile + 1 }
  | manage {fd : Nat} :
      StepCase s (.manage fd) { s with managed := Function.update s.managed fd true }

theorem step_cases {s t : State} {a : Action} (h : step s a = some t) : StepCase s a t := by
  cases a with
  | enter fiber fd event timed raw =>
    rw [step] at h
    split_ifs at h with hidle
    cases h
    exact .enter hidle.1
  | call k ret =>
    rw [step] at h
    split at h
    · obtain ⟨c', hc', rfl⟩ := Option.map_eq_some_iff.mp h
      exact .call ‹_› hc'
    · exact nomatch h
  | run k =>
    rw [step] at h
    split at h
    · obtain ⟨c', hc', rfl⟩ := Option.map_eq_some_iff.mp h
      exact .run ‹_› hc'
    · exact nomatch h
  | resize k =>
    rw [step] at h
    split at h
    · simp only at h
      split at h
      · cases h
        exact .resize ‹_› ‹_› ‹_›
      · exact nomatch h
    · exact nomatch h
  | addEvent k ok =>
    rw [step] at h
    split at h
    · split at h
      · split at h
        · split_ifs at h with hok hempty
          · cases h
            rw [hok]
            exact .addEvent ‹_› ‹_› ‹_› hempty
          · cases h
            rw [Bool.eq_false_iff.mpr hok]
            exact .failed ‹_› ‹_›
        · exact nomatch h
      · exact nomatch h
    · exact nomatch h
  | resume k =>
    rw [step] at h
    split at h
    · split_ifs at h with hq
      cases h
      exact .resume ‹_› hq.1 hq.2
    · exact nomatch h
  | take fiber =>
    rw [step] at h
    split_ifs at h with hq
    cases h
    exact .take hq.1 hq.2
  | expire k i =>
    rw [step] at h
    split at h
    · split_ifs at h with hi
      cases h
      exact .expire ‹_› hi
    · exact nomatch h
  | callback k i =>
    rw [step] at h
    split at h
    · obtain ⟨c', hc', rfl⟩ := Option.map_eq_some_iff.mp h
      exact .callback ‹_› hc'
    · exact nomatch h
  | cancelEvent k i ok =>
    rw [step] at h
    split at h
    · split at h
      · split at h
        · cases h
          exact .cancelEvent ‹_› ‹_› ‹_›
        · exact nomatch h
      · exact nomatch h
    · exact nomatch h
  | io a =>
    rw [step] at h
    split_ifs at h with hassert
    obtain ⟨io, hio, rfl⟩ := Option.map_eq_some_iff.mp h
    exact .io hassert hio
  | beginClose fd =>
    cases h
    exact .beginClose
  | close i ok =>
    rw [step] at h
    split at h
    · split at h
      · split at h
        · cases h
          exact .closeFound ‹_› ‹_› ‹_›
        · cases h
          exact .closeShort ‹_› ‹_› ‹_›
      · split at h
        · cases h
          exact .cancelAll ‹_› ‹_› ‹_›
        · exact nomatch h
      · cases h
        exact .del ‹_› ‹_›
      · cases h
        exact .close_f ‹_› ‹_›
      · exact nomatch h
    · exact nomatch h
  | «open» fd =>
    rw [step] at h
    split_ifs at h with hfree
    cases h
    exact .open hfree
  | manage fd =>
    cases h
    exact .manage

/-! ### Slots and the table -/

/-- The slot that a step fills by `addEvent`. -/
def fills (s : State) : Action → Option (Nat × Event)
  | .io a => IOManager.adds s.io a
  | .addEvent k true =>
    match s.calls[k]? with
    | some c =>
      match c.pc with
      | .addEvent p => some (p, c.event)
      | _ => none
    | none => none
  | _ => none

/-- The slot that a step may empty by `delEvent`. -/
def empties (s : State) : Action → Option (Nat × Event)
  | .io a => IOManager.deletes s.io a
  | _ => none

/-- No resize of the step finds a table longer than it asks for. -/
def grows (s : State) : Action → Bool
  | .io a => IOManager.grows s.io a
  | .resize k => s.calls[k]?.all fun c => decide (s.io.m_fdContexts.length ≤ c.fd * 3 / 2)
  | _ => true

/-- What a step may do to one slot. -/
inductive SlotCase (s t : State) (a : Action) (q : Nat) (e : Event) : Prop
  | moves (h : SlotStep s.io t.io q e)
  | filled (h : fills s a = some (q, e)) {b : Bool} (hempty : s.io.slot q e = some (b, {}))
  | emptied (h : empties s a = some (q, e)) (ht : t.io.slot q e = some (false, {}))

/-- A task that was scheduled stays in the list, and every slot is touched as a section touches
it. -/
structure IOStep (s t : State) (a : Action) : Prop where
  scheduled : ∃ new, t.io.scheduled = new ++ s.io.scheduled
  slot : ∀ q e, SlotCase s t a q e

theorem IOStep.of_eq {s t : State} {a : Action} (h : t.io = s.io) : IOStep s t a :=
  ⟨⟨[], by rw [h]; rfl⟩, fun q e => .moves (.kept (by rw [h]))⟩

theorem IOStep.of_stepSlots {s t : State} {a : IOManager.Action}
    (h : StepSlots s.io t.io a) (hnew : ∃ new, t.io.scheduled = new ++ s.io.scheduled) :
    IOStep s t (.io a) := by
  refine ⟨hnew, fun q e => ?_⟩
  cases h with
  | quiet h => exact .moves (h q e)
  | @adds p event ctx b ha hempty h =>
    by_cases hq : q = p ∧ e = event
    · obtain ⟨rfl, rfl⟩ := hq
      exact .filled ha hempty
    · exact .moves (.kept (h.other q e hq))
  | @deletes p event ha h =>
    by_cases hq : q = p ∧ e = event
    · obtain ⟨rfl, rfl⟩ := hq
      exact .emptied ha h.self
    · exact .moves (.kept (h.other q e hq))

/-- **What a step does to the slots.** -/
theorem step_slot {s t : State} {a : Action} (h : step s a = some t) : IOStep s t a := by
  cases step_cases h with
  | resize hc hpc hp =>
    exact ⟨⟨[], rfl⟩, fun q e => .moves (IOManager.contextResize_slot s.io _ q e)⟩
  | @addEvent k p c ctx hc hpc hctx hempty =>
    have hupdates := IOManager.addEvent_updates hctx none scheduler c.fiber hempty
    refine ⟨⟨[], rfl⟩, fun q e => ?_⟩
    by_cases hq : q = p ∧ e = c.event
    · obtain ⟨rfl, rfl⟩ := hq
      refine .filled (b := ctx.events.has c.event) ?_ ?_
      · simp only [fills, hc, hpc]
      · rw [IOManager.State.slot_eq hctx, hempty]
    · exact .moves (.kept (hupdates.other q e hq))
  | @cancelEvent k i p c ctx ok hc hi hctx =>
    have heq := IOManager.cancelEvent_eq hctx c.event ok
    refine ⟨?_, fun q e => .moves ?_⟩
    · show ∃ new, (IOManager.cancelEvent s.io p ctx c.event ok).scheduled = _
      rw [heq]
      exact IOManager.triggerBoth_scheduled s.io p _ _
    · show SlotStep s.io (IOManager.cancelEvent s.io p ctx c.event ok) q e
      rw [heq]
      exact IOManager.triggerBoth_slot hctx _ _ q e
  | io hassert hio =>
    obtain ⟨hslots, hnew⟩ := IOManager.step_slots hio hassert
    exact .of_stepSlots hslots hnew
  | @cancelAll i p c ctx ok hc hpc hctx =>
    have heq := IOManager.cancelAll_eq s.io p ctx ok
    refine ⟨?_, fun q e => .moves ?_⟩
    · show ∃ new, (IOManager.cancelAll s.io p ctx ok).scheduled = _
      rw [heq]
      exact IOManager.triggerBoth_scheduled s.io p _ _
    · show SlotStep s.io (IOManager.cancelAll s.io p ctx ok) q e
      rw [heq]
      exact IOManager.triggerBoth_slot hctx _ _ q e
  | _ => exact .of_eq rfl

/-- **A step that grows the table** keeps every `FdContext` in it. -/
theorem indexed_step {s t : State} {a : Action} (hs : Indexed s.io) (ha : grows s a = true)
    (h : step s a = some t) : Indexed t.io := by
  cases step_cases h with
  | resize hc hpc hp =>
    simp only [grows, hc, Option.all_some, decide_eq_true_eq] at ha
    exact hs.contextResize ha
  | @addEvent k p c ctx hc hpc hctx hempty =>
    exact hs.of_sameTable
      (IOManager.perform_sameTable hctx (.addEvent c.event none scheduler c.fiber) true)
  | @cancelEvent k i p c ctx ok hc hi hctx =>
    exact hs.of_sameTable (IOManager.perform_sameTable hctx (.cancelEvent c.event) ok)
  | io hassert hio => exact IOManager.indexed_step hs ha hio
  | @cancelAll i p c ctx ok hc hpc hctx =>
    exact hs.of_sameTable (IOManager.perform_sameTable hctx .cancelAll ok)
  | _ => exact hs

/-- The context that the table gives for an fd has the fd as its number. -/
theorem fd_ctx_eq {s : State} (hs : Indexed s.io) {fd p : Nat}
    (h : s.io.m_fdContexts[fd]? = some p) : p = fd := by
  rw [hs.1] at h
  obtain ⟨_, hp⟩ := List.getElem?_eq_some_iff.mp h
  rw [List.getElem_range] at hp
  exact hp.symm

theorem fd_ctx_isSome {s : State} (hs : Indexed s.io) {fd : Nat} {event : Event}
    {slot : Bool × EventContext} (h : s.io.slot fd event = some slot) :
    s.io.m_fdContexts[fd]? = some fd := by
  obtain ⟨c, hc, -⟩ := Option.map_eq_some_iff.mp h
  rw [hs.1, List.getElem?_range (List.getElem?_eq_some_iff.mp hc).1]

/-! ### Calls -/

/-- A call has gone on. -/
structure DoIo.Continues (c c' : DoIo) : Prop where
  fiber : c'.fiber = c.fiber
  fd : c'.fd = c.fd
  event : c'.event = c.event
  timed : c'.timed = c.timed
  file : c'.file = c.file
  returned : c.pc = .returned → c'.pc = .returned
  mayCall : c'.mayCall = true → c.mayCall = true

namespace DoIo

theorem cancelTimer_eq (c : DoIo) : ∃ timers, c.cancelTimer = { c with timers := timers } := by
  rw [cancelTimer]
  split
  · exact ⟨_, rfl⟩
  · exact ⟨c.timers, rfl⟩

/-- A step from another point than the end. -/
theorem continues_to {c : DoIo} {pc : Pc} (hpc : c.pc = pc) (timers : List Timer) (pc' : Pc)
    (hne : pc ≠ .returned) (hmay : pc'.mayCall c.cancelled = true → pc.mayCall c.cancelled = true) :
    c.Continues { c with timers := timers, pc := pc' } :=
  ⟨rfl, rfl, rfl, rfl, rfl, fun hret => absurd (hpc.symm.trans hret) hne,
    fun h => by rw [mayCall, hpc]; exact hmay h⟩

/-- A step of a callback. -/
theorem continues_timers (c : DoIo) (timers : List Timer) :
    c.Continues { c with timers := timers } :=
  ⟨rfl, rfl, rfl, rfl, rfl, id, id⟩

theorem continues_cancelled (c : DoIo) (timers : List Timer) :
    c.Continues { c with timers := timers, cancelled := true } := by
  refine ⟨rfl, rfl, rfl, rfl, rfl, id, fun h => ?_⟩
  have h : c.pc.mayCall true = true := h
  rw [mayCall]
  unfold Pc.mayCall at h ⊢
  split at h
  · rfl
  · exact nomatch h
  · exact nomatch h
  · exact nomatch h

theorem afterCall_continues {c c' : DoIo} {ret : Ret} (h : c.afterCall ret = some c') :
    c.Continues c' := by
  unfold afterCall at h
  split_ifs at h with hpc hraw
  · cases h
    exact continues_to hpc _ _ (by decide) fun _ => rfl
  · cases ret <;> cases h <;> exact continues_to hpc _ _ (by decide) fun _ => rfl

theorem next_continues {c c' : DoIo} {m_fdContexts : List Nat}
    (h : c.next m_fdContexts = some c') : c.Continues c' := by
  obtain ⟨timers, htimers⟩ := c.cancelTimer_eq
  rw [next, htimers] at h
  split at h
  · rename_i hpc
    cases h
    exact continues_to hpc _ _ (by decide) id
  · rename_i hpc
    split at h <;> cases h <;> exact continues_to hpc _ _ (by decide) id
  · rename_i hpc
    cases h
    exact continues_to hpc _ _ (by decide) id
  · rename_i hpc
    cases h
    exact continues_to hpc _ _ (by decide) id
  · rename_i hpc
    cases h
    exact continues_to hpc _ _ (by decide) id
  · rename_i hpc
    cases h
    refine continues_to hpc _ _ (by decide) ?_
    cases c.cancelled <;> decide
  · exact nomatch h

theorem callback_continues {c c' : DoIo} {i : Nat} {m_fdContexts : List Nat}
    (h : c.callback i m_fdContexts = some c') : c.Continues c' := by
  rw [callback] at h
  split at h
  · cases h
    exact continues_timers c _
  · split_ifs at h <;> cases h
    · exact continues_timers c _
    · exact continues_cancelled c _
  · split at h <;> cases h <;> exact continues_timers c _
  · exact nomatch h

end DoIo

/-- What a step does to the calls of `do_io`. -/
inductive CallsCase (s t : State) : Prop
  | same (h : t.calls = s.calls)
  | entered {c : DoIo} (hidle : s.inDoIo c.fiber = false) (hpc : c.pc = .call)
      (hfile : c.file = s.files c.fd) (hfiles : t.files = s.files) (h : t.calls = s.calls ++ [c])
  | moved {k : Nat} {c c' : DoIo} (hc : s.calls[k]? = some c) (hmoved : c.Continues c')
      (h : t.calls = s.calls.set k c')

theorem step_calls {s t : State} {a : Action} (h : step s a = some t) : CallsCase s t := by
  cases step_cases h with
  | enter hidle => exact .entered hidle rfl rfl rfl rfl
  | call hc hcall => exact .moved hc (DoIo.afterCall_continues hcall) rfl
  | run hc hnext => exact .moved hc (DoIo.next_continues hnext) rfl
  | @resize k p c hc hpc hp =>
    exact .moved hc (DoIo.continues_to hpc _ (.addEvent p) (by decide) id) rfl
  | addEvent hc hpc hctx hempty =>
    exact .moved hc (DoIo.continues_to hpc _ .registered (fun hp => nomatch hp) id) rfl
  | failed hc hpc =>
    exact .moved hc (DoIo.continues_to hpc _ .failed (fun hp => nomatch hp)
      fun hmay => nomatch hmay) rfl
  | resume hc hpc hqueued =>
    exact .moved hc (DoIo.continues_to hpc _ .resumed (by decide) id) rfl
  | @expire k i c hc hi => exact .moved hc (DoIo.continues_timers c _) rfl
  | callback hc hcallback => exact .moved hc (DoIo.callback_continues hcallback) rfl
  | @cancelEvent k i p c ctx ok hc hi hctx => exact .moved hc (DoIo.continues_timers c _) rfl
  | _ => exact .same rfl

end Hook

end FiberServer
