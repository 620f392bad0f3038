import Mathlib.Tactic.SplitIfs
import FiberServer.Library.Transition

/-!
# The connection pool of `SociManager`

One `PoolState` and the calls of `SociManager::get` on it, each followed until the
connection that it returned is given back by `freeSoci`.  A step is a critical
section on `pool->mutex`, the end of a `createConnection`, a step of the timer, or
a switch of the fiber, so a run is one interleaving of the callers, the timer
thread and the threads that give connections back.  A waiter belongs to one call
and is known by the number of the call; connections are numbered in the order of
their creation.

The section at the end of `get()` that reads the counters for the performance log
changes nothing and is left out.

* `step_cases`: what a step can do.
-/

namespace FiberServer

namespace SociManager

/-- `SociManager::Waiter`.  `iter` is not kept: a waiter is in the list at most once,
so erasing at its iterator is erasing its number. -/
structure Waiter where
  db : Option Nat := none
  linked : Bool := false
  done : Bool := false
  timedOut : Bool := false
  deriving DecidableEq, Repr

/-- Where a call of `get()` is. -/
inductive Phase
  /-- a slot is reserved and `createConnection` runs -/
  | creating
  /-- `createConnection` has returned null -/
  | createFailed
  /-- the caller has the connection -/
  | holding (db : Nat)
  /-- in the waiters list, before `YieldToHold` -/
  | waiting
  | suspended
  /-- the fiber runs again, before `lock.lock()` -/
  | resumed
  /-- `get()` returned null, or the connection was given back -/
  | over
  deriving DecidableEq, Repr

/-- The timer of a waiting call. -/
inductive Timer
  | unset
  | pending
  /-- taken out of the timer set; its callback will still run -/
  | expired
  | over
  deriving DecidableEq, Repr

/-- A call of `get()`.  `due` counts the threads that have resolved its waiter and
will still call `scheduler->schedule(fiber)`, `scheduled` the calls that were made. -/
structure Call where
  timeout_ms : Int
  phase : Phase
  waiter : Waiter := {}
  timer : Timer := .unset
  due : Nat := 0
  scheduled : Nat := 0
  deriving DecidableEq, Repr

/-- `SociManager::PoolState`, its calls, and the number of the next connection. -/
structure PoolState where
  idle : List Nat
  waiters : List Nat
  totalCount : Nat
  maxConn : Nat
  calls : List Call
  nextDb : Nat
  deriving DecidableEq, Repr

/-- What `getPool` makes of a configured `max_conn`. -/
def init (max_conn : Nat) : PoolState where
  idle := []
  waiters := []
  totalCount := 0
  maxConn := if max_conn = 0 then 1 else max_conn
  calls := []
  nextDb := 0

namespace PoolState

def setCall (s : PoolState) (c : Nat) (x : Call) : PoolState :=
  { s with calls := s.calls.set c x }

def addCall (s : PoolState) (x : Call) : PoolState := { s with calls := s.calls ++ [x] }

/-- `if (waiter->linked) pool->waiters.erase(waiter->iter);`. -/
def unlink (s : PoolState) (c : Nat) (x : Call) : PoolState :=
  if x.waiter.linked then { s with waiters := s.waiters.erase c } else s

/-- The first critical section of `get()`; `in_fiber` when there is an `IOManager`
and a `Scheduler`. -/
def get (s : PoolState) (timeout_ms : Int) (in_fiber : Bool) : PoolState :=
  match s.idle with
  | db :: idle => { s with idle := idle }.addCall { timeout_ms, phase := .holding db }
  | [] =>
    if s.totalCount < s.maxConn then
      { s with totalCount := s.totalCount + 1 }.addCall { timeout_ms, phase := .creating }
    else if timeout_ms = 0 then s.addCall { timeout_ms, phase := .over }
    else if in_fiber then
      { s with waiters := s.waiters ++ [s.calls.length] }.addCall
        { timeout_ms, phase := .waiting, waiter := { linked := true } }
    else s.addCall { timeout_ms, phase := .over }

/-- The critical section of the timer callback. -/
def timeout (s : PoolState) (c : Nat) (x : Call) : PoolState :=
  if x.waiter.done then s.setCall c { x with timer := .over }
  else
    (s.unlink c x).setCall c { x with
      timer := .over
      waiter := { x.waiter with linked := false, done := true, timedOut := true }
      due := x.due + 1 }

/-- The critical section of a call whose fiber runs again. -/
def take (s : PoolState) (c : Nat) (x : Call) : PoolState :=
  match x.waiter.db with
  | some db => s.setCall c { x with phase := .holding db }
  | none =>
    (s.unlink c x).setCall c { x with
      phase := .over
      waiter := { x.waiter with linked := false, done := true } }

end PoolState

/-- A waiter gets a connection. -/
def Call.give (x : Call) (db : Nat) : Call :=
  { x with
    waiter := { x.waiter with linked := false, done := true, db := some db }
    due := x.due + 1 }

/-- The loop of `freeSoci`: whether a waiter got the connection, and what is left. -/
def handOver (db : Nat) : List Nat → List Call → Bool × List Nat × List Call
  | [], calls => (false, [], calls)
  | c :: waiters, calls =>
    match calls[c]? with
    | none => handOver db waiters calls
    | some x =>
      -- a waiter that has timed out is skipped
      if x.waiter.done then
        handOver db waiters (calls.set c { x with waiter := { x.waiter with linked := false } })
      else (true, waiters, calls.set c (x.give db))

namespace PoolState

/-- The critical section of `freeSoci`. -/
def freeSoci (s : PoolState) (db : Nat) : PoolState :=
  let r := handOver db s.waiters s.calls
  { s with
    idle := if r.1 then s.idle else s.idle ++ [db]
    waiters := r.2.1
    calls := r.2.2 }

end PoolState

/-- A step of one call. -/
inductive CallAction
  /-- `createConnection` returns -/
  | created (ok : Bool)
  /-- the critical section after a failed `createConnection` -/
  | giveBack
  | addTimer
  | yieldToHold
  /-- the timer thread takes the callback -/
  | expire
  | timeout
  /-- `scheduler->schedule(fiber)` -/
  | schedule
  /-- the scheduler swaps the fiber in, and `get()` cancels the timer -/
  | resume
  | take
  | freeSoci
  deriving DecidableEq, Repr

inductive Action
  | get (timeout_ms : Int) (in_fiber : Bool)
  | call (c : Nat) (a : CallAction)
  deriving DecidableEq, Repr

/-- A step of the call `x`, whose number is `c`. -/
def callStep (s : PoolState) (c : Nat) (x : Call) : CallAction → Option PoolState
  | .created ok =>
    if x.phase = .creating then
      some (if ok then
        { s with nextDb := s.nextDb + 1 }.setCall c { x with phase := .holding s.nextDb }
      else s.setCall c { x with phase := .createFailed })
    else none
  | .giveBack =>
    if x.phase = .createFailed then
      some ({ s with totalCount := s.totalCount - 1 }.setCall c { x with phase := .over })
    else none
  | .addTimer =>
    if x.phase = .waiting ∧ x.timer = .unset ∧ 0 < x.timeout_ms then
      some (s.setCall c { x with timer := .pending })
    else none
  | .yieldToHold =>
    if x.phase = .waiting ∧ (0 < x.timeout_ms → x.timer ≠ .unset) then
      some (s.setCall c { x with phase := .suspended })
    else none
  | .expire => if x.timer = .pending then some (s.setCall c { x with timer := .expired }) else none
  | .timeout => if x.timer = .expired then some (s.timeout c x) else none
  | .schedule =>
    if 0 < x.due then
      some (s.setCall c { x with due := x.due - 1, scheduled := x.scheduled + 1 })
    else none
  | .resume =>
    if x.phase = .suspended ∧ 0 < x.scheduled then
      some (s.setCall c { x with
        phase := .resumed
        timer := if x.timer = .pending then .over else x.timer })
    else none
  | .take => if x.phase = .resumed then some (s.take c x) else none
  | .freeSoci =>
    match x.phase with
    | .holding db => some ((s.setCall c { x with phase := .over }).freeSoci db)
    | _ => none

def step (s : PoolState) : Action → Option PoolState
  | .get timeout_ms in_fiber => some (s.get timeout_ms in_fiber)
  | .call c a => s.calls[c]?.bind fun x => callStep s c x a

/-! ### What a step can do -/

open PoolState

/-- The transitions of `step`. -/
inductive Step (s : PoolState) : Action → PoolState → Prop
  | hit {timeout_ms : Int} {in_fiber : Bool} {db : Nat} {idle : List Nat}
      (hidle : s.idle = db :: idle) :
      Step s (.get timeout_ms in_fiber)
        ({ s with idle := idle }.addCall { timeout_ms, phase := .holding db })
  | reserve {timeout_ms : Int} {in_fiber : Bool} (hidle : s.idle = [])
      (hmax : s.totalCount < s.maxConn) :
      Step s (.get timeout_ms in_fiber)
        ({ s with totalCount := s.totalCount + 1 }.addCall { timeout_ms, phase := .creating })
  | refuse {timeout_ms : Int} {in_fiber : Bool} (hidle : s.idle = [])
      (hmax : s.maxConn ≤ s.totalCount) :
      Step s (.get timeout_ms in_fiber) (s.addCall { timeout_ms, phase := .over })
  | enqueue {timeout_ms : Int} (hidle : s.idle = []) (hmax : s.maxConn ≤ s.totalCount) :
      Step s (.get timeout_ms true) ({ s with waiters := s.waiters ++ [s.calls.length] }.addCall
        { timeout_ms, phase := .waiting, waiter := { linked := true } })
  | created {c : Nat} {x : Call} (hx : s.calls[c]? = some x) (hp : x.phase = .creating) :
      Step s (.call c (.created true))
        ({ s with nextDb := s.nextDb + 1 }.setCall c { x with phase := .holding s.nextDb })
  | createFailed {c : Nat} {x : Call} (hx : s.calls[c]? = some x) (hp : x.phase = .creating) :
      Step s (.call c (.created false)) (s.setCall c { x with phase := .createFailed })
  | giveBack {c : Nat} {x : Call} (hx : s.calls[c]? = some x) (hp : x.phase = .createFailed) :
      Step s (.call c .giveBack)
        ({ s with totalCount := s.totalCount - 1 }.setCall c { x with phase := .over })
  | timer {c : Nat} {x : Call} {a : CallAction} (t : Timer) (ha : a ≠ .giveBack)
      (hx : s.calls[c]? = some x) :
      Step s (.call c a) (s.setCall c { x with timer := t })
  | yieldToHold {c : Nat} {x : Call} (hx : s.calls[c]? = some x) (hp : x.phase = .waiting) :
      Step s (.call c .yieldToHold) (s.setCall c { x with phase := .suspended })
  | timeout {c : Nat} {x : Call} (hx : s.calls[c]? = some x) (htimer : x.timer = .expired)
      (hdone : x.waiter.done = false) :
      Step s (.call c .timeout) ((s.unlink c x).setCall c { x with
        timer := .over
        waiter := { x.waiter with linked := false, done := true, timedOut := true }
        due := x.due + 1 })
  | schedule {c : Nat} {x : Call} (hx : s.calls[c]? = some x) (hdue : 0 < x.due) :
      Step s (.call c .schedule)
        (s.setCall c { x with due := x.due - 1, scheduled := x.scheduled + 1 })
  | resume {c : Nat} {x : Call} (t : Timer) (hx : s.calls[c]? = some x)
      (hp : x.phase = .suspended) (hs : 0 < x.scheduled) :
      Step s (.call c .resume) (s.setCall c { x with phase := .resumed, timer := t })
  | take {c : Nat} {x : Call} {db : Nat} (hx : s.calls[c]? = some x) (hp : x.phase = .resumed)
      (hdb : x.waiter.db = some db) :
      Step s (.call c .take) (s.setCall c { x with phase := .holding db })
  | takeNone {c : Nat} {x : Call} (hx : s.calls[c]? = some x) (hp : x.phase = .resumed)
      (hdb : x.waiter.db = none) :
      Step s (.call c .take) ((s.unlink c x).setCall c { x with
        phase := .over
        waiter := { x.waiter with linked := false, done := true } })
  | freeSoci {c : Nat} {x : Call} {db : Nat} (hx : s.calls[c]? = some x)
      (hp : x.phase = .holding db) :
      Step s (.call c .freeSoci) ((s.setCall c { x with phase := .over }).freeSoci db)

theorem get_cases (s : PoolState) (timeout_ms : Int) (in_fiber : Bool) :
    Step s (.get timeout_ms in_fiber) (s.get timeout_ms in_fiber) := by
  rw [PoolState.get]
  split
  · rename_i db idle hidle
    exact .hit hidle
  · rename_i hidle
    split_ifs with hmax h0 hfiber
    · exact .reserve hidle hmax
    · exact .refuse hidle (by omega)
    · obtain rfl : in_fiber = true := hfiber
      exact .enqueue hidle (by omega)
    · exact .refuse hidle (by omega)

theorem callStep_cases {s t : PoolState} {c : Nat} {x : Call} {a : CallAction}
    (hx : s.calls[c]? = some x) (h : callStep s c x a = some t) : Step s (.call c a) t := by
  cases a with
  | created ok =>
    rw [callStep] at h
    split_ifs at h with hp hok
    · obtain rfl : ok = true := hok
      exact Option.some.inj h ▸ .created hx hp
    · obtain rfl : ok = false := by simpa using hok
      exact Option.some.inj h ▸ .createFailed hx hp
  | giveBack =>
    rw [callStep] at h
    split_ifs at h with hp
    exact Option.some.inj h ▸ .giveBack hx hp
  | addTimer =>
    rw [callStep] at h
    split_ifs at h
    exact Option.some.inj h ▸ .timer .pending (by decide) hx
  | yieldToHold =>
    rw [callStep] at h
    split_ifs at h with hp
    exact Option.some.inj h ▸ .yieldToHold hx hp.1
  | expire =>
    rw [callStep] at h
    split_ifs at h
    exact Option.some.inj h ▸ .timer .expired (by decide) hx
  | timeout =>
    rw [callStep] at h
    split at h
    · rename_i htimer
      rw [PoolState.timeout] at h
      split_ifs at h with hdone
      · exact Option.some.inj h ▸ .timer .over (by decide) hx
      · exact Option.some.inj h ▸ .timeout hx htimer (by simpa using hdone)
    · exact nomatch h
  | schedule =>
    rw [callStep] at h
    split_ifs at h with hdue
    exact Option.some.inj h ▸ .schedule hx hdue
  | resume =>
    rw [callStep] at h
    split at h
    · rename_i hp
      exact Option.some.inj h ▸ .resume _ hx hp.1 hp.2
    · exact nomatch h
  | take =>
    rw [callStep] at h
    split_ifs at h with hp
    rw [PoolState.take] at h
    split at h
    · rename_i db hdb
      exact Option.some.inj h ▸ .take hx hp hdb
    · rename_i hdb
      exact Option.some.inj h ▸ .takeNone hx hp hdb
  | freeSoci =>
    rw [callStep] at h
    split at h
    · rename_i db hp
      exact Option.some.inj h ▸ .freeSoci hx hp
    · exact nomatch h

/-- **A step is one of the listed transitions.** -/
theorem step_cases {s t : PoolState} {a : Action} (h : step s a = some t) : Step s a t := by
  cases a with
  | get timeout_ms in_fiber => exact Option.some.inj h ▸ get_cases s timeout_ms in_fiber
  | call c a =>
    obtain ⟨x, hx, h⟩ := Option.bind_eq_some_iff.mp h
    exact callStep_cases hx h

end SociManager

end FiberServer
