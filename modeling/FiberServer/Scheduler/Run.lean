import FiberServer.Scheduler.Queue
import FiberServer.Library.Transition
import Mathlib.Algebra.Order.Ring.Int
import Mathlib.Data.Fintype.Basic
import Mathlib.Data.List.FinRange
import Mathlib.Data.List.Rotate

/-!
# The scheduler as a transition system

`n` workers run `Scheduler::run()` over one global queue and one run queue each;
`IOManager::idle()` and `IOManager::tickle()` stand for the virtual `idle` and
`tickle`.  A step is one section under a lock, one change of an atomic counter,
one context switch or one system call, so a run is one interleaving of the
threads.  Threads that are not workers call `schedule()`, `scheduleGlobal()`,
`stop()` and `stopping()` at any time, and so does the code that a worker runs
in a task or, for timers and events, in `idle()`.

`FIBER_ASSERT` aborts: where the source asserts, the step is not possible if the
assertion fails.  `enqueued`, `executed`, `ended` and `dropped` are not in the
source: they record the items that were put in a queue, that `run()` swapped in,
that `run()` did not swap in because their fiber had ended already, and that
left a queue without reaching `run()`.
-/

namespace FiberServer

namespace Scheduler

/-! Literals for the workers of a run. -/

theorem neZero_one : NeZero 1 := inferInstance

theorem neZero_two : NeZero 2 := inferInstance

/-- `Scheduler::TaskSource`, without `NONE`. -/
inductive TaskSource
  | LOCAL | GLOBAL | STEAL
  deriving DecidableEq, Repr

/-- The counters of `Scheduler::Processor`. -/
structure ProcessorStats where
  schedule_count : Nat := 0
  execute_count : Nat := 0
  local_execute_count : Nat := 0
  global_execute_count : Nat := 0
  steal_execute_count : Nat := 0
  global_pull_count : Nat := 0
  global_batch_count : Nat := 0
  steal_count : Nat := 0
  steal_batch_count : Nat := 0
  steal_attempt_count : Nat := 0
  steal_fail_count : Nat := 0
  deriving DecidableEq, Repr

/-- The statistics of one taken task. -/
def ProcessorStats.execute (st : ProcessorStats) : TaskSource → ProcessorStats
  | .LOCAL => { st with
      execute_count := st.execute_count + 1, local_execute_count := st.local_execute_count + 1 }
  | .GLOBAL => { st with
      execute_count := st.execute_count + 1, global_execute_count := st.global_execute_count + 1 }
  | .STEAL => { st with
      execute_count := st.execute_count + 1, steal_execute_count := st.steal_execute_count + 1 }

/-- Where a worker is in `run()`; from `idle` to `dispatch` it is inside
`idle_fiber->swapIn()`, that is in `IOManager::idle()`. -/
inductive Pc (n : Nat)
  /-- top of the loop, before `popLocalTask` -/
  | popLocal
  /-- `popLocalTask` returned false -/
  | popGlobal
  /-- `popGlobalTask` has left its `m_mutex` section with a batch to splice -/
  | splice (ft : FiberAndThread) (batch : List FiberAndThread) (tickle_me : Bool)
  /-- `popGlobalTask` returned false -/
  | stealTask (tickle_me : Bool)
  /-- in `stealTask`, with the victims still to be tried -/
  | steal (victims : List (Fin n)) (tickle_me : Bool)
  /-- `stealTask` has left a victim's section with more than one item -/
  | spliceStolen (ft : FiberAndThread) (stolen : List FiberAndThread) (tickle_me : Bool)
  /-- a task was taken; `m_activeThreadCount` does not count it yet -/
  | gotTask (source : TaskSource) (ft : FiberAndThread) (tickle_me : Bool)
  | active (ft : FiberAndThread) (tickle_me : Bool)
  | swapIn (ft : FiberAndThread)
  /-- inside `swapIn()`; `is_cb` when the fiber is the worker's `cb_fiber` -/
  | running (fiber : Nat) (is_cb : Bool)
  /-- `swapIn()` has returned, before `--m_activeThreadCount` -/
  | switched (fiber : Nat) (is_cb : Bool)
  | returned (fiber : Nat) (is_cb : Bool)
  /-- no task was taken -/
  | noTask (tickle_me : Bool)
  /-- before `++m_idleThreadCount` -/
  | preIdle
  | idle
  /-- in `Scheduler::stopping()`, processors below `next` found empty -/
  | stopping (next : Nat)
  /-- before `epoll_wait` -/
  | epollWait
  /-- blocked in `epoll_wait` -/
  | blocked
  /-- `epoll_wait` has returned, with the read end of the tickle pipe or without -/
  | woken (tickled : Bool)
  | dispatch
  /-- `idle_fiber->swapIn()` has returned -/
  | idleReturned
  | exited
  deriving DecidableEq, Repr

/-- A worker thread, its processor and the locals of its `run()`.  `calling` is
the ticket of a `schedule()` call that its task or its `idle()` has in progress
and that will still call `tickle()`. -/
structure Worker (n : Nat) where
  pc : Pc n := .popLocal
  run_queue : List FiberAndThread := []
  cb_fiber : Option Nat := none
  idle_term : Bool := false
  calling : Option Nat := none
  stats : ProcessorStats := {}
  deriving DecidableEq, Repr

structure State (n : Nat) where
  m_fibers : List FiberAndThread
  workers : Fin n → Worker n
  /-- `Fiber::m_state` of every fiber, and the number of the next new fiber -/
  m_state : Nat → Fiber.State
  nextFiber : Nat
  m_nextStealProcessor : Nat
  m_globalScheduleCount : Nat
  m_activeThreadCount : Nat
  m_idleThreadCount : Nat
  m_autoStop : Bool
  m_stopping : Bool
  /-- bytes in the tickle pipe -/
  tickleFds : Nat
  /-- `schedule()` calls of other threads that have left the lock and will still
  call `tickle()` -/
  calls : List Nat
  /-- a `stopping()` call of another thread: how many processors it found empty -/
  stopCall : Option Nat
  nextTicket : Nat
  enqueued : List FiberAndThread
  executed : List FiberAndThread
  ended : List FiberAndThread
  dropped : List FiberAndThread

/-- After the constructor and `start()`. -/
def init (n : Nat) : State n where
  m_fibers := []
  workers := fun _ => {}
  m_state := fun _ => .INIT
  nextFiber := 0
  m_nextStealProcessor := 0
  m_globalScheduleCount := 0
  m_activeThreadCount := 0
  m_idleThreadCount := 0
  m_autoStop := false
  m_stopping := false
  tickleFds := 0
  calls := []
  stopCall := none
  nextTicket := 0
  enqueued := []
  executed := []
  ended := []
  dropped := []

variable {n : Nat}

namespace State

def setWorker (s : State n) (w : Fin n) (x : Worker n) : State n :=
  { s with workers := Function.update s.workers w x }

def goto (s : State n) (w : Fin n) (pc : Pc n) : State n :=
  s.setWorker w { s.workers w with pc := pc }

def setState (s : State n) (f : Nat) (st : Fiber.State) : State n :=
  { s with m_state := Function.update s.m_state f st }

/-- `IOManager::tickle()`. -/
def tickle (s : State n) : State n :=
  if s.m_idleThreadCount = 0 then s else { s with tickleFds := s.tickleFds + 1 }

/-- `if(tickle_me) tickle();`. -/
def tickleIf (s : State n) (tickle_me : Bool) : State n := if tickle_me then s.tickle else s

/-- `Scheduler::scheduleGlobalNoLock` of a fiber or a callback: the new state and
`need_tickle`. -/
def scheduleGlobalNoLock (s : State n) (fiber cb : Option Nat) (thread : Int) : State n × Bool :=
  let ft : FiberAndThread := ⟨s.nextTicket, fiber, cb, thread⟩
  ({ s with
      m_fibers := s.m_fibers ++ [ft]
      m_globalScheduleCount := s.m_globalScheduleCount + 1
      nextTicket := s.nextTicket + 1
      enqueued := ft :: s.enqueued },
    s.m_fibers.isEmpty || s.m_idleThreadCount != 0)

/-- The local branch of `Scheduler::scheduleNoLock`, on worker `w`. -/
def scheduleLocal (s : State n) (w : Fin n) (fiber cb : Option Nat) : State n × Bool :=
  let ft : FiberAndThread := ⟨s.nextTicket, fiber, cb, -1⟩
  let x := s.workers w
  ({ s with
      workers := Function.update s.workers w { x with
        run_queue := x.run_queue ++ [ft]
        stats := { x.stats with schedule_count := x.stats.schedule_count + 1 } }
      nextTicket := s.nextTicket + 1
      enqueued := ft :: s.enqueued },
    s.m_idleThreadCount != 0)

/-- `Scheduler::scheduleNoLock`, called on worker `w`. -/
def scheduleNoLock (s : State n) (w : Fin n) (fiber cb : Option Nat) (thread : Int) :
    State n × Bool :=
  if thread = -1 then s.scheduleLocal w fiber cb else s.scheduleGlobalNoLock fiber cb thread

/-- The first half of `Scheduler::stopping()`: `can_stop && global_empty`. -/
def canStop (s : State n) : Bool :=
  s.m_autoStop && s.m_stopping && s.m_activeThreadCount == 0 && s.m_fibers.isEmpty

/-- One round of `processorQueuesEmpty`: the next number of empty processors, or
`none` when processor `k` is not empty. -/
def nextEmpty (s : State n) (k : Nat) : Option Nat :=
  if h : k < n then
    if (s.workers ⟨k, h⟩).run_queue.isEmpty then some (k + 1) else none
  else some k

/-- The order in which worker `w` tries the other processors. -/
def victims (s : State n) (w : Fin n) : List (Fin n) :=
  ((List.finRange n).rotate (s.m_nextStealProcessor % n)).filter (· ≠ w)

end State

inductive Action (n : Nat)
  /-- the next step of `run()` and `idle()` on worker `w` -/
  | run (w : Fin n)
  /-- `stopping(next_timeout)` at the top of `idle()`; `ioIdle` when there is no
  timer and no pending event -/
  | idle (w : Fin n) (ioIdle : Bool)
  /-- `epoll_wait` returns -/
  | wake (w : Fin n) (tickled : Bool)
  /-- the running fiber switches out: `EXEC` for `YieldToHold`, `READY` for
  `YieldToReady`, `TERM` and `EXCEPT` for the end of `MainFunc` -/
  | yield (w : Fin n) (next : Fiber.State)
  /-- a task creates a fiber -/
  | newFiber
  /-- the lock section of `schedule()` or `scheduleGlobal()` in code run by `w` -/
  | schedule (w : Fin n) (force_global : Bool) (fiber cb : Option Nat) (thread : Int)
  /-- the same in a thread that is not a worker -/
  | scheduleOther (fiber cb : Option Nat) (thread : Int)
  /-- the `tickle()` at the end of such a call -/
  | tickle (w : Fin n)
  | tickleOther (ticket : Nat)
  /-- a `tickle()` of `stop()` or of `onTimerInsertedAtFront()` -/
  | tickleExtra
  /-- `stop()` has set both `m_autoStop` and `m_stopping` -/
  | stop
  /-- the next step of a `stopping()` call of another thread -/
  | stopping
  deriving DecidableEq, Repr

/-- `ft.fiber->swapIn()`, `cb_fiber->swapIn()` or, for a fiber that has ended,
`--m_activeThreadCount; continue;`. -/
def swapIn (s : State n) (w : Fin n) (ft : FiberAndThread) : Option (State n) :=
  match ft.fiber.filter (fun f => !(s.m_state f).finished) with
  | some f =>
    -- `FIBER_ASSERT(m_state != State::EXEC)`
    if s.m_state f = .EXEC then none
    else some { (s.setState f .EXEC).goto w (.running f false) with executed := ft :: s.executed }
  | none =>
    match ft.cb, (s.workers w).cb_fiber with
    | some _, some g =>
      -- the assertion of `Fiber::reset`
      if (s.m_state g).finished || s.m_state g == .INIT then
        some { (s.setState g .EXEC).goto w (.running g true) with executed := ft :: s.executed }
      else none
    | some _, none =>
      let x := s.workers w
      some { (s.setState s.nextFiber .EXEC).setWorker w
          { x with pc := .running s.nextFiber true, cb_fiber := some s.nextFiber } with
        nextFiber := s.nextFiber + 1, executed := ft :: s.executed }
    | none, _ =>
      some { s.goto w .popLocal with
        m_activeThreadCount := s.m_activeThreadCount - 1, ended := ft :: s.ended }

/-- The part of `run()` after `--m_activeThreadCount`. -/
def afterSwap (s : State n) (w : Fin n) (f : Nat) (is_cb : Bool) : State n :=
  let x := s.workers w
  let cb_fiber := if is_cb then none else x.cb_fiber
  if s.m_state f = .READY then
    let r := (s.setWorker w { x with pc := .popLocal, cb_fiber := cb_fiber }).scheduleLocal w
      (some f) none
    if r.2 then r.1.setWorker w { r.1.workers w with calling := some s.nextTicket } else r.1
  else if (s.m_state f).finished then
    -- `cb_fiber->reset(nullptr)`
    if is_cb then (s.setState f .INIT).goto w .popLocal else s.goto w .popLocal
  else (s.setState f .HOLD).setWorker w { x with pc := .popLocal, cb_fiber := cb_fiber }

/-- The next step of worker `w` in `run()` and `idle()`. -/
def runStep (tid : Fin n → Int) (s : State n) (w : Fin n) : Option (State n) :=
  let x := s.workers w
  match x.pc with
  | .popLocal =>
    let r := popLocalTask s.m_state x.run_queue
    let pc := match r.1 with
      | some ft => .gotTask .LOCAL ft false
      | none => .popGlobal
    some { s.setWorker w { x with pc := pc, run_queue := r.2 } with
      dropped := x.run_queue.takeWhile (isExec s.m_state) ++ s.dropped }
  | .popGlobal =>
    let r := popGlobalTask s.m_state (tid w) s.m_fibers
    match r.ft with
    | none => some ({ s with m_fibers := r.m_fibers }.goto w (.stealTask r.tickle_me))
    | some ft =>
      let stats := { x.stats with
        global_pull_count := x.stats.global_pull_count + (r.batch.length + 1)
        global_batch_count := x.stats.global_batch_count + 1 }
      let pc := if r.batch.isEmpty then .gotTask .GLOBAL ft r.tickle_me
        else .splice ft r.batch r.tickle_me
      some ({ s with m_fibers := r.m_fibers }.setWorker w { x with pc := pc, stats := stats })
  | .splice ft batch tickle_me =>
    some (s.setWorker w
      { x with pc := .gotTask .GLOBAL ft tickle_me, run_queue := x.run_queue ++ batch })
  | .stealTask tickle_me =>
    let stats := { x.stats with steal_attempt_count := x.stats.steal_attempt_count + 1 }
    if n ≤ 1 then
      some (s.setWorker w { x with
        pc := .noTask tickle_me
        stats := { stats with steal_fail_count := stats.steal_fail_count + 1 } })
    else
      some ({ s with m_nextStealProcessor := s.m_nextStealProcessor + 1 }.setWorker w
        { x with pc := .steal (s.victims w) tickle_me, stats := stats })
  | .steal [] tickle_me =>
    some (s.setWorker w { x with
      pc := .noTask tickle_me
      stats := { x.stats with steal_fail_count := x.stats.steal_fail_count + 1 } })
  | .steal (victim :: rest) tickle_me =>
    let v := s.workers victim
    let r := stealVictim s.m_state v.run_queue
    match r.1 with
    | [] => some (s.goto w (.steal rest tickle_me))
    | ft :: stolen =>
      let s' := s.setWorker victim { v with run_queue := r.2 }
      let x' := s'.workers w
      let stats := { x'.stats with
        steal_count := x'.stats.steal_count + (stolen.length + 1)
        steal_batch_count := x'.stats.steal_batch_count + 1 }
      let pc := if stolen.isEmpty then .gotTask .STEAL ft tickle_me
        else .spliceStolen ft stolen tickle_me
      some (s'.setWorker w { x' with pc := pc, stats := stats })
  | .spliceStolen ft stolen tickle_me =>
    some (s.setWorker w
      { x with pc := .gotTask .STEAL ft tickle_me, run_queue := x.run_queue ++ stolen })
  | .gotTask source ft tickle_me =>
    some { s.setWorker w { x with pc := .active ft tickle_me, stats := x.stats.execute source } with
      m_activeThreadCount := s.m_activeThreadCount + 1 }
  | .active ft tickle_me => some ((s.tickleIf tickle_me).goto w (.swapIn ft))
  | .swapIn ft => swapIn s w ft
  | .running _ _ => none
  | .switched f is_cb =>
    some { s.goto w (.returned f is_cb) with m_activeThreadCount := s.m_activeThreadCount - 1 }
  | .returned f is_cb => some (afterSwap s w f is_cb)
  | .noTask tickle_me => some ((s.tickleIf tickle_me).goto w .preIdle)
  | .preIdle =>
    if x.idle_term then some (s.goto w .exited)
    else some { s.goto w .idle with m_idleThreadCount := s.m_idleThreadCount + 1 }
  | .idle => none
  | .stopping k =>
    if k < n then
      match s.nextEmpty k with
      | some k' => some (s.goto w (.stopping k'))
      | none => some (s.goto w .epollWait)
    else some (s.setWorker w { x with pc := .idleReturned, idle_term := true })
  | .epollWait => some (s.goto w (if s.tickleFds = 0 then .blocked else .woken true))
  | .blocked => none
  | .woken tickled =>
    some { s.goto w .dispatch with tickleFds := if tickled then 0 else s.tickleFds }
  | .dispatch => some (s.goto w .idleReturned)
  | .idleReturned =>
    some { s.goto w .popLocal with m_idleThreadCount := s.m_idleThreadCount - 1 }
  | .exited => none

/-- Code that `w` runs, a task or a part of `idle()`, may call `schedule()`. -/
def Pc.inUserCode : Pc n → Bool
  | .running _ _ | .woken _ | .dispatch => true
  | _ => false

/-- A fiber that is scheduled exists, and `FiberAndThread` holds a fiber or a
callback. -/
def schedulable (s : State n) (fiber cb : Option Nat) : Bool :=
  fiber.all (· < s.nextFiber) && (fiber.isSome || cb.isSome)

/-- One step of the scheduler; `tid` gives the thread id of each worker. -/
def step (tid : Fin n → Int) (s : State n) : Action n → Option (State n)
  | .run w => if (s.workers w).calling.isNone then runStep tid s w else none
  | .idle w ioIdle =>
    if (s.workers w).pc = .idle then
      some (s.goto w (if ioIdle && s.canStop then .stopping 0 else .epollWait))
    else none
  | .wake w tickled =>
    if (s.workers w).pc = .blocked ∧ (tickled → 0 < s.tickleFds) then
      some (s.goto w (.woken tickled))
    else none
  | .yield w next =>
    match (s.workers w).pc with
    | .running f is_cb =>
      if (s.workers w).calling.isNone then
        match next with
        -- both yields assert `m_state == State::EXEC`
        | .EXEC => if s.m_state f = .EXEC then some (s.goto w (.switched f is_cb)) else none
        | .READY =>
          if s.m_state f = .EXEC then some ((s.setState f .READY).goto w (.switched f is_cb))
          else none
        | .TERM => some ((s.setState f .TERM).goto w (.switched f is_cb))
        | .EXCEPT => some ((s.setState f .EXCEPT).goto w (.switched f is_cb))
        | _ => none
      else none
    | _ => none
  | .newFiber => some { s.setState s.nextFiber .INIT with nextFiber := s.nextFiber + 1 }
  | .schedule w force_global fiber cb thread =>
    if (s.workers w).pc.inUserCode && (s.workers w).calling.isNone && schedulable s fiber cb then
      let r := if force_global then s.scheduleGlobalNoLock fiber cb thread
        else s.scheduleNoLock w fiber cb thread
      some (if r.2 then r.1.setWorker w { r.1.workers w with calling := some s.nextTicket } else r.1)
    else none
  | .scheduleOther fiber cb thread =>
    if schedulable s fiber cb then
      let r := s.scheduleGlobalNoLock fiber cb thread
      some (if r.2 then { r.1 with calls := s.nextTicket :: s.calls } else r.1)
    else none
  | .tickle w =>
    if (s.workers w).calling.isSome then
      some (s.tickle.setWorker w { s.workers w with calling := none })
    else none
  | .tickleOther ticket =>
    if ticket ∈ s.calls then some { s.tickle with calls := s.calls.erase ticket } else none
  | .tickleExtra => some s.tickle
  | .stop => some { s with m_autoStop := true, m_stopping := true }
  | .stopping =>
    match s.stopCall with
    | none => some { s with stopCall := if s.canStop then some 0 else none }
    | some k => some { s with stopCall := if k < n then s.nextEmpty k else none }

end Scheduler

end FiberServer
