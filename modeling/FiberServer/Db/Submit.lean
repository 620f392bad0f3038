import FiberServer.Scheduler.Run

/-!
# `DbExecutor::submit` between two schedulers

A fiber of the scheduler `caller` calls `submit(fn)`: it queues a closure on the scheduler `db`,
calls `YieldToHold` and, once it is swapped in again, takes the result out of the `TaskState` that
it shares with the closure.  A worker of `db` executes the closure: it calls `fn`, stores what
comes out of it and calls `caller->schedule(fiber)`.

A state has the two schedulers and the calls of `submit`, each with its own closure.  Between the
steps of the calls either scheduler takes any step of its own, of other fibers and of threads that
are no workers.  The early returns of `submit`, which call `fn` in place, are not calls here.

`task`, `wakeUp`, `calls` and `outcomes` of a call are not in the source: they record the two items
that are queued for it, how often `fn` was called and what came out of it.
-/

namespace FiberServer

namespace DbExecutor

variable {n m : Nat} {V E : Type}

/-- `TaskState`. -/
structure TaskState (V E : Type) where
  result : Option V := none
  exception : Option E := none
  deriving DecidableEq, Repr

/-- `state->result.emplace(…)` or `state->exception = …`. -/
def TaskState.store (state : TaskState V E) : Except E V → TaskState V E
  | .ok value => { state with result := some value }
  | .error e => { state with exception := some e }

/-- The end of `submit`: what it throws or returns, or `none` for the undefined
`*state->result` of an empty result. -/
def TaskState.take (state : TaskState V E) : Option (Except E V) :=
  match state.exception with
  | some e => some (.error e)
  | none => state.result.map .ok

/-- Where the closure is, and the fiber that executes it. -/
inductive Closure (V E : Type)
  | queued
  /-- swapped in, before `fn()` -/
  | entered (fiber : Nat)
  | inFn (fiber : Nat)
  /-- `fn` has returned or thrown, before the lock -/
  | finished (fiber : Nat) (outcome : Except E V)
  | stored (fiber : Nat)
  /-- the lock section of `caller->schedule(fiber)` is over -/
  | woken (fiber : Nat)
  | ended

def Closure.fiber : Closure V E → Option Nat
  | .entered g | .inFn g | .finished g _ | .stored g | .woken g => some g
  | .queued | .ended => none

/-- Where the caller is in `submit`, after the lock section of `m_iom->schedule(…)`. -/
inductive Pc (V E : Type)
  /-- before `YieldToHold` -/
  | yield
  /-- in `YieldToHold`, or back from it -/
  | suspended
  | returned (r : Except E V)

def Pc.active : Pc V E → Bool
  | .yield | .suspended => true
  | .returned _ => false

structure Call (V E : Type) where
  fiber : Nat
  task : Scheduler.FiberAndThread
  pc : Pc V E := .yield
  closure : Closure V E := .queued
  state : TaskState V E := {}
  wakeUp : Option Scheduler.FiberAndThread := none
  calls : Nat := 0
  outcomes : List (Except E V) := []

structure State (n m : Nat) (V E : Type) where
  caller : Scheduler.State n
  db : Scheduler.State m
  calls : List (Call V E)

def init (n m : Nat) (V E : Type) : State n m V E :=
  ⟨Scheduler.init n, Scheduler.init m, []⟩

/-- The lines of the closure up to `caller->schedule(fiber)`. -/
inductive Line (V E : Type)
  | fn
  /-- `fn` returns or throws -/
  | outcome (o : Except E V)
  | store

inductive Action (n m : Nat) (V E : Type)
  /-- a step of `caller` that is none of those below -/
  | caller (a : Scheduler.Action n)
  | db (a : Scheduler.Action m)
  /-- the fiber that `w` runs calls `submit`, up to the lock section of `m_iom->schedule(…)` -/
  | submit (w : Fin n) (cb : Nat)
  | yieldToHold (w : Fin n) (i : Nat)
  | closure (w : Fin m) (i : Nat) (line : Line V E)
  /-- the lock section of `caller->schedule(fiber)` -/
  | wake (w : Fin m) (i : Nat)
  /-- the end of `submit` -/
  | result (w : Fin n) (i : Nat)

/-- Worker `w` is inside the `swapIn()` of `f`. -/
def runs (s : Scheduler.State n) (w : Fin n) (f : Nat) : Bool :=
  match (s.workers w).pc with
  | .running g _ => g == f
  | _ => false

namespace Call

/-- A step that is not one of the calling fiber, which is in `submit`. -/
def allowsCaller (s : Scheduler.State n) (a : Scheduler.Action n) (c : Call V E) : Bool :=
  match a with
  | .yield w _ | .schedule w _ _ _ _ => !(c.pc.active && runs s w c.fiber)
  | _ => true

/-- A step that is one of `fn` or not one of the closure's fiber, or the end of the closure. -/
def allowsDb (caller : Scheduler.State n) (db : Scheduler.State m) (a : Scheduler.Action m)
    (c : Call V E) : Bool :=
  match c.closure with
  | .inFn g =>
    match a with
    | .yield w next => !(runs db w g && next.finished)
    | _ => true
  | .woken g =>
    match a with
    -- `caller->schedule(fiber)` has returned
    | .yield w next => !runs db w g
        || next == .TERM && c.wakeUp.all fun ft => !caller.calls.contains ft.ticket
    | .schedule w _ _ _ _ => !runs db w g
    | _ => true
  | .entered g | .finished g _ | .stored g =>
    match a with
    | .yield w _ | .schedule w _ _ _ _ => !runs db w g
    | _ => true
  | .queued | .ended => true

/-- What the step `a` of the db scheduler, from `s` to `t`, is for the closure: it is entered
when `run()` swaps its item in, and ends with its fiber. -/
def follow (s t : Scheduler.State m) (a : Scheduler.Action m) (c : Call V E) : Call V E :=
  match a with
  | .run w =>
    match (s.workers w).pc, (t.workers w).pc with
    | .swapIn ft, .running g _ => if ft = c.task then { c with closure := .entered g } else c
    | _, _ => c
  | .yield w .TERM =>
    match c.closure with
    | .woken g => if runs s w g then { c with closure := .ended } else c
    | _ => c
  | _ => c

/-- One line of the closure: the fiber that executes it, and the call after it. -/
def advance (c : Call V E) : Line V E → Option (Nat × Call V E)
  | .fn =>
    match c.closure with
    | .entered g => some (g, { c with closure := .inFn g, calls := c.calls + 1 })
    | _ => none
  | .outcome o =>
    match c.closure with
    | .inFn g => some (g, { c with closure := .finished g o, outcomes := o :: c.outcomes })
    | _ => none
  | .store =>
    match c.closure with
    | .finished g o => some (g, { c with closure := .stored g, state := c.state.store o })
    | _ => none

end Call

/-- The fiber `f` is in `submit`. -/
def inSubmit (x : State n m V E) (f : Nat) : Bool :=
  x.calls.any fun c => c.pc.active && c.fiber == f

/-- One step; `tid` and `dbTid` give the thread ids of the workers. -/
def step (tid : Fin n → Int) (dbTid : Fin m → Int) (x : State n m V E) :
    Action n m V E → Option (State n m V E)
  | .caller a =>
    if x.calls.all (Call.allowsCaller x.caller a) then
      (Scheduler.step tid x.caller a).map fun s => { x with caller := s }
    else none
  | .db a =>
    if x.calls.all (Call.allowsDb x.caller x.db a) then
      (Scheduler.step dbTid x.db a).map fun t =>
        { x with db := t, calls := x.calls.map (Call.follow x.db t a) }
    else none
  | .submit w cb =>
    match (x.caller.workers w).pc with
    | .running f _ =>
      if (x.caller.workers w).calling.isNone && !inSubmit x f then
        (Scheduler.step dbTid x.db (.scheduleOther none (some cb) (-1))).map fun t =>
          { x with
            db := t
            calls := x.calls ++ [{ fiber := f, task := ⟨x.db.nextTicket, none, some cb, -1⟩ }] }
      else none
    | _ => none
  | .yieldToHold w i =>
    match x.calls[i]? with
    | some c =>
      match c.pc with
      | .yield =>
        -- `m_iom->schedule(…)` has returned
        if runs x.caller w c.fiber && !x.db.calls.contains c.task.ticket then
          (Scheduler.step tid x.caller (.yield w .EXEC)).map fun s =>
            { x with caller := s, calls := x.calls.set i { c with pc := .suspended } }
        else none
      | _ => none
    | none => none
  | .closure w i line =>
    match x.calls[i]? with
    | some c =>
      match c.advance line with
      | some (g, c') => if runs x.db w g then some { x with calls := x.calls.set i c' } else none
      | none => none
    | none => none
  | .wake w i =>
    match x.calls[i]? with
    | some c =>
      match c.closure with
      | .stored g =>
        if runs x.db w g then
          (Scheduler.step tid x.caller (.scheduleOther (some c.fiber) none (-1))).map fun s =>
            { x with
              caller := s
              calls := x.calls.set i { c with
                closure := .woken g
                wakeUp := some ⟨x.caller.nextTicket, some c.fiber, none, -1⟩ } }
        else none
      | _ => none
    | none => none
  | .result w i =>
    match x.calls[i]? with
    | some c =>
      match c.pc with
      | .suspended =>
        if runs x.caller w c.fiber then
          c.state.take.map fun r => { x with calls := x.calls.set i { c with pc := .returned r } }
        else none
      | _ => none
    | none => none

/-! ### Steps -/

/-- The actions and what each of them does. -/
inductive StepCase (tid : Fin n → Int) (dbTid : Fin m → Int) (x : State n m V E) :
    Action n m V E → State n m V E → Prop
  | caller {a : Scheduler.Action n} {s : Scheduler.State n}
      (hall : ∀ c ∈ x.calls, c.allowsCaller x.caller a = true)
      (hs : Scheduler.step tid x.caller a = some s) :
      StepCase tid dbTid x (.caller a) { x with caller := s }
  | db {a : Scheduler.Action m} {t : Scheduler.State m} (ht : Scheduler.step dbTid x.db a = some t) :
      StepCase tid dbTid x (.db a)
        { x with db := t, calls := x.calls.map (Call.follow x.db t a) }
  | submit {w : Fin n} {cb f : Nat} {b : Bool} {t : Scheduler.State m}
      (hpc : (x.caller.workers w).pc = .running f b) (hidle : inSubmit x f = false)
      (ht : Scheduler.step dbTid x.db (.scheduleOther none (some cb) (-1)) = some t) :
      StepCase tid dbTid x (.submit w cb) { x with
        db := t
        calls := x.calls ++ [{ fiber := f, task := ⟨x.db.nextTicket, none, some cb, -1⟩ }] }
  | yieldToHold {w : Fin n} {i : Nat} {c : Call V E} {s : Scheduler.State n}
      (hc : x.calls[i]? = some c) (hpc : c.pc = .yield) (hruns : runs x.caller w c.fiber = true)
      (hs : Scheduler.step tid x.caller (.yield w .EXEC) = some s) :
      StepCase tid dbTid x (.yieldToHold w i)
        { x with caller := s, calls := x.calls.set i { c with pc := .suspended } }
  | closure {w : Fin m} {i g : Nat} {line : Line V E} {c c' : Call V E}
      (hc : x.calls[i]? = some c) (h : c.advance line = some (g, c')) :
      StepCase tid dbTid x (.closure w i line) { x with calls := x.calls.set i c' }
  | wake {w : Fin m} {i g : Nat} {c : Call V E} {s : Scheduler.State n}
      (hc : x.calls[i]? = some c) (hclosure : c.closure = .stored g)
      (hs : Scheduler.step tid x.caller (.scheduleOther (some c.fiber) none (-1)) = some s) :
      StepCase tid dbTid x (.wake w i) { x with
        caller := s
        calls := x.calls.set i { c with
          closure := .woken g
          wakeUp := some ⟨x.caller.nextTicket, some c.fiber, none, -1⟩ } }
  | result {w : Fin n} {i : Nat} {c : Call V E} {r : Except E V} (hc : x.calls[i]? = some c)
      (hpc : c.pc = .suspended) (hruns : runs x.caller w c.fiber = true)
      (hr : c.state.take = some r) :
      StepCase tid dbTid x (.result w i) { x with calls := x.calls.set i { c with pc := .returned r } }

theorem step_cases {tid : Fin n → Int} {dbTid : Fin m → Int} {x y : State n m V E}
    {a : Action n m V E} (h : step tid dbTid x a = some y) : StepCase tid dbTid x a y := by
  cases a with
  | caller a =>
    rw [step] at h
    split_ifs at h with hall
    obtain ⟨s, hs, rfl⟩ := Option.map_eq_some_iff.mp h
    exact .caller (List.all_eq_true.mp hall) hs
  | db a =>
    rw [step] at h
    split_ifs at h
    obtain ⟨t, ht, rfl⟩ := Option.map_eq_some_iff.mp h
    exact .db ht
  | submit w cb =>
    rw [step] at h
    split at h
    · split_ifs at h with hidle
      obtain ⟨t, ht, rfl⟩ := Option.map_eq_some_iff.mp h
      simp only [Bool.and_eq_true, Bool.not_eq_true'] at hidle
      exact .submit ‹_› hidle.2 ht
    · exact nomatch h
  | yieldToHold w i =>
    rw [step] at h
    split at h
    · split at h
      · split_ifs at h with hruns
        obtain ⟨s, hs, rfl⟩ := Option.map_eq_some_iff.mp h
        rw [Bool.and_eq_true] at hruns
        exact .yieldToHold ‹_› ‹_› hruns.1 hs
      · exact nomatch h
    · exact nomatch h
  | closure w i line =>
    rw [step] at h
    split at h
    · split at h
      · split_ifs at h
        cases h
        exact .closure ‹_› ‹_›
      · exact nomatch h
    · exact nomatch h
  | wake w i =>
    rw [step] at h
    split at h
    · split at h
      · split_ifs at h
        obtain ⟨s, hs, rfl⟩ := Option.map_eq_some_iff.mp h
        exact .wake ‹_› ‹_› hs
      · exact nomatch h
    · exact nomatch h
  | result w i =>
    rw [step] at h
    split at h
    · split at h
      · split_ifs at h with hruns
        obtain ⟨r, hr, rfl⟩ := Option.map_eq_some_iff.mp h
        exact .result ‹_› ‹_› hruns hr
      · exact nomatch h
    · exact nomatch h

theorem runs_iff {s : Scheduler.State n} {w : Fin n} {f : Nat} :
    runs s w f = true ↔ ∃ b, (s.workers w).pc = .running f b := by
  rw [runs]
  cases (s.workers w).pc <;> simp

end DbExecutor

end FiberServer
