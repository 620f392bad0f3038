import FiberServer.Scheduler.Counters
import FiberServer.Scheduler.Ownership

/-!
# What a step does to the fibers

`Step` has a case for every section of `run()` and `idle()`.  For the fibers there are six:
`Moves s a t` says that the step only takes items out of queues, or that it swaps a fiber in,
that a fiber switches out, that `run()` goes on after `swapIn()`, that there is a new fiber, or
that an item is queued.

* `moves_step`: every step is one of them.
-/

namespace FiberServer

namespace Scheduler

open State

variable {n : Nat}

/-- What holds of the new worker `w` and of the others holds of all. -/
theorem forall_setWorker {s : State n} {w : Fin n} {x : Worker n} {P : Fin n → Worker n → Prop}
    (hx : P w x) (hs : ∀ w', w' ≠ w → P w' (s.workers w')) (w' : Fin n) :
    P w' ((s.setWorker w x).workers w') := by
  by_cases h : w' = w
  · subst h
    rw [show (s.setWorker w' x).workers w' = x from Function.update_self ..]
    exact hx
  · rw [show (s.setWorker w x).workers w' = s.workers w' from Function.update_of_ne h ..]
    exact hs w' h

/-- What a worker executes. -/
def Pc.stay : Pc n → Option Stay
  | .running f b => some ⟨f, b, true⟩
  | .switched f b | .returned f b => some ⟨f, b, false⟩
  | _ => none

/-- The worker executes what it executes, and what it has in its hands was tested. -/
structure Worker.Quiet (m_state : Nat → Fiber.State) (x y : Worker n) : Prop where
  stay : y.pc.stay = x.pc.stay
  cb_fiber : y.cb_fiber = x.cb_fiber
  hands : ∀ ft ∈ y.pc.hands, ft ∈ x.pc.hands ∨ isExec m_state ft = false

theorem Worker.Quiet.refl (m_state : Nat → Fiber.State) (x : Worker n) :
    Worker.Quiet m_state x x := ⟨rfl, rfl, fun _ h => .inl h⟩

/-- A worker that has the same items in its hands and executes no fiber. -/
theorem quiet_of_hands {m_state : Nat → Fiber.State} {x y : Worker n} {pc : Pc n}
    (hx : x.pc = pc) (hstay : y.pc.stay = pc.stay) (hcb : y.cb_fiber = x.cb_fiber)
    (hh : ∀ ft ∈ y.pc.hands, ft ∈ pc.hands ∨ isExec m_state ft = false) :
    Worker.Quiet m_state x y := by
  subst hx
  exact ⟨hstay, hcb, hh⟩

/-! ### `swapIn` and what follows it -/

/-- What `swapIn` can do, with its guards: the fiber of the item, the worker's
`cb_fiber`, a new one, or nothing because the fiber has ended. -/
theorem swapIn_inv {s t : State n} {w : Fin n} {ft : FiberAndThread}
    (h : Scheduler.swapIn s w ft = some t) :
    (∃ f b c k, t = { (s.setState f .EXEC).setWorker w { s.workers w with
          pc := .running f b, cb_fiber := c } with nextFiber := k, executed := ft :: s.executed }
      ∧ ((b = false ∧ ft.fiber = some f ∧ c = (s.workers w).cb_fiber ∧ k = s.nextFiber
          ∧ (s.m_state f).finished = false)
        ∨ (b = true ∧ c = some f ∧ (s.workers w).cb_fiber = some f ∧ k = s.nextFiber)
        ∨ (b = true ∧ c = some f ∧ (s.workers w).cb_fiber = none ∧ f = s.nextFiber ∧ k = f + 1)))
    ∨ t = { s.goto w .popLocal with
        m_activeThreadCount := s.m_activeThreadCount - 1, ended := ft :: s.ended } := by
  rw [Scheduler.swapIn] at h
  cases hf : ft.fiber.filter (fun f => !(s.m_state f).finished) with
  | some f =>
    obtain ⟨hfib, hfin⟩ := Option.filter_eq_some_iff.mp hf
    simp only [hf] at h
    split_ifs at h
    exact .inl ⟨f, false, (s.workers w).cb_fiber, s.nextFiber, (Option.some.inj h).symm,
      .inl ⟨rfl, hfib, rfl, rfl, by simpa using hfin⟩⟩
  | none =>
    simp only [hf] at h
    split at h
    · rename_i g _ hg
      split_ifs at h
      refine .inl ⟨g, true, some g, s.nextFiber, ?_, .inr (.inl ⟨rfl, rfl, hg, rfl⟩)⟩
      rw [← Option.some.inj h, goto, ← hg]
      rfl
    · rename_i _ hg
      exact .inl ⟨s.nextFiber, true, some s.nextFiber, s.nextFiber + 1, (Option.some.inj h).symm,
        .inr (.inr ⟨rfl, rfl, hg, rfl, rfl⟩)⟩
    · exact .inr (Option.some.inj h).symm

theorem swapIn_of_step {tid : Fin n → Int} {s t : State n} {w : Fin n} {ft : FiberAndThread}
    (h : step tid s (.run w) = some t) (hpc : (s.workers w).pc = .swapIn ft) :
    Scheduler.swapIn s w ft = some t := by
  rw [step] at h
  split_ifs at h
  rw [runStep] at h
  simpa only [hpc] using h

/-- `afterSwap` of a fiber that is not ready. -/
theorem afterSwap_inv {s : State n} {w : Fin n} {f : Nat} {b : Bool} (hr : s.m_state f ≠ .READY) :
    ∃ st c, afterSwap s w f b = (s.setState f st).setWorker w { s.workers w with
        pc := .popLocal, cb_fiber := c }
      ∧ (b = false ∧ c = (s.workers w).cb_fiber ∨ b = true ∧ c = none
        ∨ b = true ∧ (s.m_state f).finished = true ∧ st = .INIT ∧ c = (s.workers w).cb_fiber) := by
  rw [afterSwap]
  simp only [if_neg hr]
  split_ifs with hfin hb hb
  · exact ⟨.INIT, _, rfl, .inr (.inr ⟨hb, hfin, rfl, rfl⟩)⟩
  · refine ⟨s.m_state f, (s.workers w).cb_fiber, ?_, .inl ⟨by simpa using hb, rfl⟩⟩
    rw [setState, Function.update_eq_self]
    rfl
  · exact ⟨.HOLD, none, rfl, .inr (.inl ⟨hb, rfl⟩)⟩
  · exact ⟨.HOLD, (s.workers w).cb_fiber, rfl, .inl ⟨by simpa using hb, rfl⟩⟩

/-- `afterSwap` of a ready fiber: `run()` queues it. -/
theorem afterSwap_ready {s : State n} {w : Fin n} {f : Nat} {b : Bool} (hr : s.m_state f = .READY) :
    ∃ stats calling, afterSwap s w f b = { s.setWorker w { s.workers w with
          pc := .popLocal
          cb_fiber := if b then none else (s.workers w).cb_fiber
          run_queue := (s.workers w).run_queue ++ [⟨s.nextTicket, some f, none, -1⟩]
          stats := stats
          calling := calling } with
        nextTicket := s.nextTicket + 1
        enqueued := ⟨s.nextTicket, some f, none, -1⟩ :: s.enqueued } := by
  rw [afterSwap]
  simp only [hr, if_true, scheduleLocal, setWorker, Function.update_self, Function.update_idem]
  split_ifs <;> exact ⟨_, _, rfl⟩

/-! ### `schedule` -/

/-- The fiber for which an action calls `schedule()`. -/
def Action.scheduled : Action n → Option Nat
  | .schedule _ _ fiber _ _ | .scheduleOther fiber _ _ => fiber
  | _ => none

theorem schedulable_old {s : State n} {f : Nat} {cb : Option Nat}
    (h : schedulable s (some f) cb = true) : f < s.nextFiber := by
  rw [schedulable, Bool.and_eq_true, Option.all_some, decide_eq_true_eq] at h
  exact h.1

theorem scheduled_old {tid : Fin n → Int} {s t : State n} {a : Action n}
    (h : step tid s a = some t) {f : Nat} (hf : a.scheduled = some f) : f < s.nextFiber := by
  cases a with
  | schedule w force_global fiber cb thread =>
    obtain rfl : fiber = some f := hf
    rw [step] at h
    split at h
    · rename_i hcall
      rw [Bool.and_eq_true] at hcall
      exact schedulable_old hcall.2
    · exact absurd h (by simp)
  | scheduleOther fiber cb thread =>
    obtain rfl : fiber = some f := hf
    rw [step] at h
    split at h
    · rename_i hcall
      exact schedulable_old hcall
    · exact absurd h (by simp)
  | _ => exact absurd hf (by simp [Action.scheduled])

/-! ### Every step -/

inductive Moves (s : State n) : Action n → State n → Prop
  /-- no fiber moves: items are taken out of queues, and those that come into the hands of a
  worker are tested -/
  | quiet {a : Action n} {t : State n}
      (hw : ∀ w, Worker.Quiet s.m_state (s.workers w) (t.workers w))
      (hst : t.m_state = s.m_state) (hnext : t.nextFiber = s.nextFiber)
      (he : t.enqueued = s.enqueued) : Moves s a t
  | swapIn {w : Fin n} {ft : FiberAndThread} {t : State n} (hpc : (s.workers w).pc = .swapIn ft)
      (h : Scheduler.swapIn s w ft = some t) : Moves s (.run w) t
  | switchOut {w : Fin n} {f : Nat} {b : Bool} {next : Fiber.State}
      (hpc : (s.workers w).pc = .running f b)
      (hnext : next = .EXEC ∧ s.m_state f = .EXEC ∨ next = .READY ∨ next.finished = true) :
      Moves s (.yield w next) ((s.setState f next).goto w (.switched f b))
  | returned {w : Fin n} {f : Nat} {b : Bool} (hpc : (s.workers w).pc = .returned f b) :
      Moves s (.run w) (afterSwap s w f b)
  | newFiber : Moves s .newFiber
      { s.setState s.nextFiber .INIT with nextFiber := s.nextFiber + 1 }
  | enqueue {a : Action n} {ft : FiberAndThread} {t : State n} (hft : ft.fiber = a.scheduled)
      (hold : ∀ f, ft.fiber = some f → f < s.nextFiber)
      (he : t.enqueued = ft :: s.enqueued) (hg : ∀ x, gone t x = gone s x)
      (hpc : ∀ w, (t.workers w).pc = (s.workers w).pc)
      (hcb : ∀ w, (t.workers w).cb_fiber = (s.workers w).cb_fiber)
      (hst : t.m_state = s.m_state) (hnext : t.nextFiber = s.nextFiber) : Moves s a t

/-- A quiet step of one worker. -/
theorem moves_of_update {s t : State n} {a : Action n} (w : Fin n) {y : Worker n}
    (hw : t.workers = Function.update s.workers w y)
    (hy : Worker.Quiet s.m_state (s.workers w) y) (hst : t.m_state = s.m_state)
    (hnext : t.nextFiber = s.nextFiber) (he : t.enqueued = s.enqueued) : Moves s a t := by
  refine .quiet (fun w' => ?_) hst hnext he
  rw [hw]
  by_cases hww : w' = w
  · subst hww
    rw [Function.update_self]
    exact hy
  · rw [Function.update_of_ne hww]
    exact Worker.Quiet.refl _ _

theorem moves_of_eq {s t : State n} {a : Action n} (hw : t.workers = s.workers)
    (hst : t.m_state = s.m_state) (hnext : t.nextFiber = s.nextFiber)
    (he : t.enqueued = s.enqueued) : Moves s a t := by
  refine .quiet (fun w => ?_) hst hnext he
  rw [hw]
  exact Worker.Quiet.refl _ _

/-- Both yields and the end of `MainFunc`. -/
theorem moves_yield {tid : Fin n → Int} {s t : State n} {w : Fin n} {next : Fiber.State}
    (h : step tid s (.yield w next) = some t) : Moves s (.yield w next) t := by
  rw [step] at h
  split at h
  · rename_i f b hpc
    cases next with
    | EXEC =>
      split_ifs at h with _ hexec
      rw [← Option.some.inj h]
      have hsame : s.setState f .EXEC = s := by
        rw [setState, ← hexec, Function.update_eq_self]
      have hmove := Moves.switchOut hpc (.inl ⟨rfl, hexec⟩)
      rwa [hsame] at hmove
    | READY =>
      split_ifs at h
      exact Option.some.inj h ▸ .switchOut hpc (.inr (.inl rfl))
    | TERM =>
      simp only at h
      split_ifs at h
      exact Option.some.inj h ▸ .switchOut hpc (.inr (.inr rfl))
    | EXCEPT =>
      simp only at h
      split_ifs at h
      exact Option.some.inj h ▸ .switchOut hpc (.inr (.inr rfl))
    | INIT | HOLD => exact absurd h (by simp)
  · exact absurd h (by simp)

/-- **Every step** is one of the six. -/
theorem moves_step {tid : Fin n → Int} {s t : State n} {a : Action n} (h : step tid s a = some t) :
    Moves s a t := by
  have hstep := step_cases h
  cases hstep with
  | swapIn f k b c hpc => exact .swapIn hpc (swapIn_of_step h hpc)
  | @swapIn_ended w ft hpc hended =>
    exact moves_of_update w rfl
      (quiet_of_hands hpc rfl rfl fun _ hx => absurd hx List.not_mem_nil) rfl rfl rfl
  | @returned_ready w f b stats c calling hpc hst hcalling =>
    rw [step, if_pos (by rw [hcalling]; rfl), runStep] at h
    simp only [hpc] at h
    rw [← Option.some.inj h]
    exact .returned hpc
  | @returned w f b st c hpc hst hready =>
    rw [step] at h
    split_ifs at h
    rw [runStep] at h
    simp only [hpc] at h
    rw [← Option.some.inj h]
    exact .returned hpc
  | yieldToHold hpc => exact moves_yield h
  | yield hpc hst => exact moves_yield h
  | newFiber => exact .newFiber
  | @schedule_local w force_global fiber cb stats calling hpc hcalling =>
    refine .enqueue rfl (fun f hf => scheduled_old h hf) rfl (fun _ => rfl) ?_ ?_ rfl rfl
    · exact forall_setWorker (P := fun w x => x.pc = (s.workers w).pc) rfl fun _ _ => rfl
    · exact forall_setWorker (P := fun w x => x.cb_fiber = (s.workers w).cb_fiber) rfl
        fun _ _ => rfl
  | @schedule_global w force_global fiber cb thread calling hpc hcalling hglobal hcall =>
    refine .enqueue rfl (fun f hf => scheduled_old h hf) rfl (fun _ => rfl) ?_ ?_ rfl rfl
    · exact forall_setWorker (P := fun w x => x.pc = (s.workers w).pc) rfl fun _ _ => rfl
    · exact forall_setWorker (P := fun w x => x.cb_fiber = (s.workers w).cb_fiber) rfl
        fun _ _ => rfl
  | scheduleOther calls hcalls =>
    exact .enqueue rfl (fun f hf => scheduled_old h hf) rfl (fun _ => rfl) (fun _ => rfl)
      (fun _ => rfl) rfl rfl
  | @popLocal_some w ft hpc hft =>
    refine moves_of_update w rfl (quiet_of_hands hpc rfl rfl ?_) rfl rfl rfl
    intro x hx
    rw [List.mem_singleton.mp hx]
    exact .inr (popLocalTask_isExec hft)
  | @popGlobal_some w ft stats hpc hft hb =>
    refine moves_of_update w rfl (quiet_of_hands hpc rfl rfl ?_) rfl rfl rfl
    intro x hx
    rw [List.mem_singleton.mp hx]
    exact .inr (popGlobalLoop_isExec (.inl hft))
  | @popGlobal_batch w ft stats hpc hft =>
    refine moves_of_update w rfl (quiet_of_hands hpc rfl rfl ?_) rfl rfl rfl
    intro x hx
    rcases List.mem_cons.mp hx with rfl | hx
    · exact .inr (popGlobalLoop_isExec (.inl hft))
    · exact .inr (popGlobalLoop_isExec (.inr hx))
  | @steal_some w v vs t ft stolen stats pc' hpc hst hpc' =>
    have hhands : pc'.hands = ft :: stolen ∧ pc'.stay = none := by
      rcases hpc' with rfl | ⟨rfl, rfl⟩ <;> exact ⟨rfl, rfl⟩
    have hvictim : ∀ w', Worker.Quiet s.m_state (s.workers w') ((s.setWorker v { s.workers v with
        run_queue := (stealVictim s.m_state (s.workers v).run_queue).2 }).workers w') :=
      forall_setWorker (P := fun w x => Worker.Quiet s.m_state (s.workers w) x)
        ⟨rfl, rfl, fun _ hx => .inl hx⟩ fun w' _ => Worker.Quiet.refl _ _
    refine .quiet (forall_setWorker (P := fun w x => Worker.Quiet s.m_state (s.workers w) x) ?_
      fun w' _ => hvictim w') rfl rfl rfl
    refine ⟨?_, (hvictim w).cb_fiber, fun x hx => .inr ?_⟩
    · rw [hpc]
      exact hhands.2
    · rw [hhands.1, ← hst] at hx
      exact stealVictim_isExec hx
  | @steal_on w pc' next stats hpc hpc' =>
    have hhands : pc'.hands = [] ∧ pc'.stay = none := by
      rcases hpc' with ⟨_, _, rfl⟩ | ⟨_, rfl⟩ <;> exact ⟨rfl, rfl⟩
    have hstay : (s.workers w).pc.stay = none := by
      rcases hpc with ⟨_, hpc⟩ | ⟨_, _, hpc⟩ <;> rw [hpc] <;> rfl
    refine moves_of_update w rfl ⟨?_, rfl, fun x hx => ?_⟩ rfl rfl rfl
    · rw [hstay]
      exact hhands.2
    · rw [hhands.1] at hx
      exact absurd hx List.not_mem_nil
  | @active w ft t hpc | @noTask w t hpc =>
    rw [tickleIf_eq]
    refine moves_of_update w rfl (quiet_of_hands hpc rfl rfl fun x hx => ?_) rfl rfl rfl
    simp_all [Pc.hands]
  | @tickle w hcall =>
    rw [tickle_eq]
    exact moves_of_update w rfl ⟨rfl, rfl, fun _ hx => .inl hx⟩ rfl rfl rfl
  | tickleOther hcall | tickleExtra =>
    rw [tickle_eq]
    exact moves_of_eq rfl rfl rfl rfl
  | stop | stopCall_false | stopCall _ _ | stopCall_next _ _ _ =>
    exact moves_of_eq rfl rfl rfl rfl
  | @popLocal_none w hpc _ | @popGlobal_none w hpc _ | @splice w _ _ _ hpc
  | @spliceStolen w _ _ _ hpc | @gotTask w _ _ _ _ hpc | @switched w _ _ hpc | @exit w hpc _
  | @preIdle w hpc | @idle w _ hpc _ | @idle_stopping w hpc _ | @stopping_next w _ _ hpc _
  | @stopping_false w _ hpc | @stopping_true w _ _ hpc | @epollWait_block w hpc _
  | @epollWait_woken w hpc | @wake w _ hpc | @woken w _ _ hpc | @dispatch w hpc
  | @idleReturned w hpc =>
    refine moves_of_update w rfl (quiet_of_hands hpc rfl rfl fun x hx => ?_) rfl rfl rfl
    simp_all [Pc.hands]

end Scheduler

end FiberServer
