import FiberServer.Db.Exact
import FiberServer.Scheduler.Stopping

/-!
# Stopping the caller's scheduler

`IOManager::stopping()` asks whether there is no timer and no pending event, and then, in
`Scheduler::stopping()`, whether no thread is active and all queues are empty.  A fiber that waits
for an event is counted by `m_pendingEventCount`, one that sleeps has a timer.  A fiber that is
suspended in `submit` is in none of these: its wake-up is queued when the closure ends, on another
scheduler.

* `not_abandoned`: no run abandons a call if `submit` is not under way when a check of
  `stopping()` passes its first half, and does not begin before the check ends.
* `abandoned_of_snapshot`: if it is under way then, and the run queues are empty, nothing keeps the
  check from returning true.
* `not_always_answered`: a run that abandons one.
-/

namespace FiberServer

namespace DbExecutor

open Scheduler (Scanning snapshots)

variable {n m : Nat} {V E : Type}

/-- The fiber is in `submit`, and its wake-up is not queued. -/
def Call.outstanding (c : Call V E) : Bool := c.pc.active && c.wakeUp.isNone

/-- The fiber is suspended until a db worker schedules it. -/
def Call.waits (c : Call V E) : Prop :=
  match c.pc with
  | .suspended => c.wakeUp = none
  | _ => False

instance (c : Call V E) : Decidable c.waits := by
  unfold Call.waits
  split <;> infer_instance

theorem Call.waits.outstanding {c : Call V E} (h : c.waits) : c.outstanding = true := by
  unfold Call.waits at h
  split at h
  · rename_i hpc
    rw [Call.outstanding, hpc, h]
    rfl
  · exact h.elim

/-- `stopping()` returns true on the caller's scheduler, by a worker in `idle()` or by another
thread, and a fiber waits in `submit`. -/
def Abandoned (x : State n m V E) : Prop :=
  (∃ k, n ≤ k ∧ Scanning x.caller k) ∧ ∃ c ∈ x.calls, c.waits

/-- When the first half of a `stopping()` call passes, no fiber is in `submit` without a wake-up;
and none calls `submit` while such a call goes on. -/
def SubmitsDone (x : State n m V E) : Action n m V E → Prop
  | .caller a => snapshots x.caller a → ∀ c ∈ x.calls, c.outstanding = false
  | .submit _ _ => ∀ k, ¬ Scanning x.caller k
  | _ => True

/-- A call of `stopping()` that has passed its first half has no call of `submit` beside it. -/
def ScansClear (x : State n m V E) : Prop :=
  ∀ k, Scanning x.caller k → ∀ c ∈ x.calls, c.outstanding = false

theorem scansClear_init : ScansClear (init n m V E) :=
  fun _ _ _ hc => absurd hc List.not_mem_nil

section

variable {tid : Fin n → Int} {dbTid : Fin m → Int} {x y : State n m V E}

/-- A step of the caller's scheduler that begins no call of `stopping()`. -/
theorem ScansClear.caller (hx : ScansClear x) {a : Scheduler.Action n} {s : Scheduler.State n}
    (ha : snapshots x.caller a → ∀ c ∈ x.calls, c.outstanding = false)
    (h : Scheduler.step tid x.caller a = some s) {k : Nat} (hk : Scanning s k) :
    ∀ c ∈ x.calls, c.outstanding = false := by
  cases Scheduler.arrives (Scheduler.step_cases h) hk with
  | stays hold => exact hx _ hold
  | begins hsnap => exact ha hsnap
  | goes_on hlt hold hq => exact hx _ hold

/-- One call goes on, and is not outstanding if none was. -/
theorem outstanding_set {calls : List (Call V E)} {i : Nat} {c c' : Call V E}
    (hcalls : ∀ d ∈ calls, d.outstanding = false) (hc : calls[i]? = some c)
    (hkeep : c.outstanding = false → c'.outstanding = false) :
    ∀ d ∈ calls.set i c', d.outstanding = false := by
  intro d hd
  rcases List.mem_or_eq_of_mem_set hd with hd | rfl
  · exact hcalls d hd
  · exact hkeep (hcalls c (List.mem_of_getElem? hc))

theorem scansClear_step {a : Action n m V E} (hx : ScansClear x) (ha : SubmitsDone x a)
    (h : step tid dbTid x a = some y) : ScansClear y := by
  intro k hk
  cases step_cases h with
  | @caller a s hall hs => exact hx.caller ha hs hk
  | @db a t ht =>
    intro d hd
    obtain ⟨c, hc, rfl⟩ := List.mem_map.mp hd
    obtain ⟨-, -, hpc, hwake, -⟩ := follow_eq x.db t a c
    rw [Call.outstanding, hpc, hwake]
    exact hx k hk c hc
  | submit hpc hidle ht => exact absurd hk (ha k)
  | @yieldToHold w i c s hc hpc hruns hs =>
    have hno : ¬ snapshots x.caller (.yield w .EXEC) := fun hsnap =>
      hsnap.2.elim (fun h => nomatch h.1) fun ⟨_, h, _⟩ => nomatch h
    refine outstanding_set (hx.caller (fun hsnap => absurd hsnap hno) hs hk) hc fun hout => ?_
    rw [Call.outstanding, hpc] at hout
    exact hout
  | @closure w i g line c c' hc hadv =>
    refine outstanding_set (hx k hk) hc fun hout => ?_
    obtain ⟨-, -, hpc, hwake, -⟩ := Call.advance_eq hadv
    rw [Call.outstanding, hpc, hwake]
    exact hout
  | @wake w i g c s hc hclosure hs =>
    have hno : ¬ snapshots x.caller (.scheduleOther (some c.fiber) none (-1)) := fun hsnap =>
      hsnap.2.elim (fun h => nomatch h.1) fun ⟨_, h, _⟩ => nomatch h
    refine outstanding_set (hx.caller (fun hsnap => absurd hsnap hno) hs hk) hc fun _ => ?_
    exact Bool.and_false _
  | @result w i c r hc hpc hruns hr => exact outstanding_set (hx k hk) hc fun _ => rfl

/-- **Shutdown abandons no call** in a run in which no call of `submit` is under way when a check
of `stopping()` passes its first half, and none begins during a check. -/
theorem not_abandoned (tid : Fin n → Int) (dbTid : Fin m → Int) {as : List (Action n m V E)}
    {x : State n m V E} (ha : Transition.Along (step tid dbTid) SubmitsDone (init n m V E) as)
    (h : Transition.exec (step tid dbTid) (init n m V E) as = some x) : ¬ Abandoned x := by
  have hclear := Transition.along_invariant
    (fun _ _ _ hx ha hst => scansClear_step hx ha hst) scansClear_init ha h
  rintro ⟨⟨k, -, hk⟩, c, hc, hwaits⟩
  have hout := hwaits.outstanding
  rw [hclear k hk c hc] at hout
  exact nomatch hout

/-! ### The condition is needed -/

/-- A step of `run()` and `idle()` is not one of a calling fiber. -/
theorem step_caller {a : Scheduler.Action n} {s : Scheduler.State n}
    (ha : ∀ c ∈ x.calls, c.allowsCaller x.caller a = true)
    (h : Scheduler.step tid x.caller a = some s) :
    step tid dbTid x (.caller a) = some { x with caller := s } := by
  rw [step, if_pos (List.all_eq_true.mpr ha), h]
  rfl

/-- The check of an idle worker goes through the empty run queues. -/
theorem scan_run {w : Fin n} (hidle : (x.caller.workers w).pc = .idle)
    (hcalling : (x.caller.workers w).calling = none) (hstop : x.caller.canStop = true)
    (hq : ∀ v, (x.caller.workers v).run_queue = []) :
    ∀ k, k ≤ n → Transition.exec (step tid dbTid) x
      (.caller (.idle w true) :: List.replicate k (.caller (.run w)))
        = some { x with caller := x.caller.goto w (.stopping k) } := by
  intro k
  induction k with
  | zero =>
    intro _
    have hstep : Scheduler.step tid x.caller (.idle w true)
        = some (x.caller.goto w (.stopping 0)) := by
      rw [Scheduler.step, if_pos hidle, hstop]
      rfl
    rw [List.replicate_zero, Transition.exec, step_caller (fun _ _ => rfl) hstep]
    rfl
  | succ k ih =>
    intro hk
    have hself : (x.caller.goto w (.stopping k)).workers w
        = { x.caller.workers w with pc := .stopping k } := Function.update_self ..
    have hempty : ((x.caller.goto w (.stopping k)).workers ⟨k, hk⟩).run_queue = [] := by
      by_cases hkw : (⟨k, hk⟩ : Fin n) = w
      · rw [hkw, hself]
        exact hq w
      · rw [Scheduler.State.goto, Scheduler.State.setWorker]
        simp only [Function.update_of_ne hkw]
        exact hq ⟨k, hk⟩
    have hstep : Scheduler.step tid (x.caller.goto w (.stopping k)) (.run w)
        = some (x.caller.goto w (.stopping (k + 1))) := by
      rw [Scheduler.step, hself, if_pos (by rw [hcalling]; rfl), Scheduler.runStep, hself]
      simp only [if_pos (show k < n from hk), Scheduler.State.nextEmpty, dif_pos (show k < n from hk),
        hempty, List.isEmpty_nil, if_true]
      rw [Scheduler.State.goto, hself, Scheduler.State.goto, Scheduler.State.setWorker,
        Scheduler.State.setWorker]
      simp only [Scheduler.State.goto, Scheduler.State.setWorker, Function.update_idem]
    rw [List.replicate_succ', ← List.cons_append, Transition.exec_append, ih (by omega),
      Option.bind_some, Transition.exec, step_caller (fun _ _ => rfl) hstep]
    rfl

/-- **Nothing else keeps the check from returning true**: where it passes its first half while a
fiber waits in `submit`, and the run queues are empty, the run goes on to abandon that call. -/
theorem abandoned_of_snapshot {w : Fin n} (hidle : (x.caller.workers w).pc = .idle)
    (hcalling : (x.caller.workers w).calling = none) (hstop : x.caller.canStop = true)
    (hq : ∀ v, (x.caller.workers v).run_queue = []) (hwaits : ∃ c ∈ x.calls, c.waits) :
    ∃ as y, Transition.exec (step tid dbTid) x as = some y ∧ Abandoned y := by
  refine ⟨_, _, scan_run hidle hcalling hstop hq n (Nat.le_refl n), ?_, hwaits⟩
  refine ⟨n, Nat.le_refl n, .inr ⟨w, ?_⟩⟩
  simp only [Scheduler.State.goto, Scheduler.State.setWorker, Function.update_self]

end

/-! ### Runs -/

/-- The worker is in `stopping()`, past its first half. -/
def scans : Scheduler.Pc n → Bool
  | .stopping _ => true
  | _ => false

instance decidableNotScanning (s : Scheduler.State n) : Decidable (∀ k, ¬ Scanning s k) :=
  decidable_of_iff (s.stopCall = none ∧ ∀ w, scans (s.workers w).pc = false) (by
    constructor
    · rintro ⟨hcall, hworkers⟩ k (hk | ⟨w, hw⟩)
      · rw [hcall] at hk
        exact nomatch hk
      · have hno := hworkers w
        rw [hw] at hno
        exact nomatch hno
    · intro h
      refine ⟨Option.eq_none_iff_forall_ne_some.mpr fun k hk => h k (.inl hk), fun w => ?_⟩
      cases hpc : (s.workers w).pc with
      | stopping k => exact absurd (.inr ⟨w, hpc⟩) (h k)
      | _ => rfl)

instance decidableSubmitsDone (x : State n m V E) : ∀ a, Decidable (SubmitsDone x a)
  | .caller _ => inferInstanceAs (Decidable ((_ ∧ (_ ∨ _)) → _))
  | .submit _ _ => inferInstanceAs (Decidable (∀ k, ¬ Scanning x.caller k))
  | .db _ | .yieldToHold _ _ | .closure _ _ _ | .wake _ _ | .result _ _ => .isTrue trivial

attribute [local instance] Scheduler.neZero_one

/-- `submit` has returned, and its fiber has ended, before `stop()`. -/
def answeredFirst : List (Action 1 1 Nat String) :=
  [.caller (.scheduleOther none (some 7) (-1)), .caller (.run 0), .caller (.run 0), .caller (.run 0),
   .caller (.run 0), .caller (.run 0), .submit 0 9, .db (.tickleOther 0), .db (.run 0), .db (.run 0),
   .db (.run 0), .db (.run 0), .db (.run 0), .closure 0 0 .fn, .yieldToHold 0 0, .caller (.run 0),
   .caller (.run 0), .closure 0 0 (.outcome (.ok 5)), .closure 0 0 .store, .wake 0 0,
   .caller (.run 0), .caller (.run 0), .caller (.run 0), .caller (.run 0), .caller (.run 0),
   .result 0 0, .caller (.yield 0 .TERM), .caller (.run 0), .caller (.run 0), .caller (.run 0),
   .caller (.run 0), .caller (.run 0), .caller (.run 0), .caller (.run 0), .caller .stop,
   .caller (.idle 0 true), .caller (.run 0)]

theorem not_abandoned_answeredFirst :
    ∃ x, Transition.exec (step (fun w => (w : Int)) fun w => (w : Int)) (init 1 1 Nat String)
        answeredFirst = some x
      ∧ (x.caller.workers 0).pc = .stopping 1 ∧ ¬ Abandoned x := by
  refine ⟨?x, ?run, ?pc, not_abandoned _ _ ?done ?run⟩
  case run => rfl
  case pc => rfl
  case done => decide

/-- `stop()` is called while the db worker is in `fn`; the only worker finds no task, nothing that
is active and its run queue empty. -/
def stoppedInSubmit : List (Action 1 1 Nat String) :=
  [.caller (.scheduleOther none (some 7) (-1)), .caller (.run 0), .caller (.run 0), .caller (.run 0),
   .caller (.run 0), .caller (.run 0), .submit 0 9, .db (.tickleOther 0), .db (.run 0), .db (.run 0),
   .db (.run 0), .db (.run 0), .db (.run 0), .closure 0 0 .fn, .yieldToHold 0 0, .caller (.run 0),
   .caller (.run 0), .caller (.run 0), .caller (.run 0), .caller (.run 0), .caller (.run 0),
   .caller (.run 0), .caller .stop, .caller (.idle 0 true), .caller (.run 0)]

theorem not_always_answered :
    ¬ ∀ (as : List (Action 1 1 Nat String)) (x : State 1 1 Nat String),
      Transition.exec (step (fun w => (w : Int)) fun w => (w : Int)) (init 1 1 Nat String) as
        = some x → ¬ Abandoned x := by
  intro h
  refine h stoppedInSubmit _ rfl ⟨⟨1, Nat.le_refl 1, .inr ⟨0, ?_⟩⟩, ?_⟩ <;> decide

end DbExecutor

end FiberServer
