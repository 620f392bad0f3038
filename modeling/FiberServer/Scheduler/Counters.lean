import FiberServer.Scheduler.Conservation

/-!
# What the scheduler's counters count

`m_activeThreadCount` and `m_idleThreadCount` are atomics that `run()` increments
and decrements at different points of its loop.  In every reachable state each is
the number of workers between the two points (`counters_reachable`), and a fiber
in `EXEC` is on some worker (`executor_reachable`).
-/

namespace FiberServer

namespace Scheduler

open State Tally

variable {n : Nat}

/-- Between `++m_activeThreadCount` and `--m_activeThreadCount`. -/
def Pc.isActive : Pc n → Bool
  | .active _ _ | .swapIn _ | .running _ _ | .switched _ _ => true
  | _ => false

/-- Between `++m_idleThreadCount` and `--m_idleThreadCount`. -/
def Pc.isIdle : Pc n → Bool
  | .idle | .stopping _ | .epollWait | .blocked | .woken _ | .dispatch | .idleReturned => true
  | _ => false

/-- From `swapIn()` to the assignment of the new state. -/
def Pc.executes (f : Nat) : Pc n → Bool
  | .running g _ | .switched g _ | .returned g _ => g == f
  | _ => false

structure Counters (s : State n) : Prop where
  active : s.m_activeThreadCount = tally (fun y => y.pc.isActive) s.workers
  idle : s.m_idleThreadCount = tally (fun y => y.pc.isIdle) s.workers

theorem counters_init : Counters (init n) where
  active := by simp [init, tally, Pc.isActive]
  idle := by simp [init, tally, Pc.isIdle]

/-- A step that changes one worker moves the counters with it. -/
theorem counters_of_update {s t : State n} (hs : Counters s) (w : Fin n) {y : Worker n}
    (hw : t.workers = Function.update s.workers w y)
    (ha : t.m_activeThreadCount + (s.workers w).pc.isActive.toNat
      = s.m_activeThreadCount + y.pc.isActive.toNat)
    (hi : t.m_idleThreadCount + (s.workers w).pc.isIdle.toNat
      = s.m_idleThreadCount + y.pc.isIdle.toNat) : Counters t := by
  have hactive := tally_update (fun z : Worker n => z.pc.isActive) s.workers w y
  have hidle := tally_update (fun z : Worker n => z.pc.isIdle) s.workers w y
  have hnat : ∀ b : Bool, (if b = true then 1 else 0) = b.toNat := by decide
  rw [hnat, hnat, ← hs.active, ← hw] at hactive
  rw [hnat, hnat, ← hs.idle, ← hw] at hidle
  exact ⟨by omega, by omega⟩

/-- A worker that stays on its side of both counters. -/
theorem counters_of_goto {s t : State n} (hs : Counters s) (w : Fin n) {y : Worker n}
    (hw : t.workers = Function.update s.workers w y)
    (ha : t.m_activeThreadCount = s.m_activeThreadCount)
    (hi : t.m_idleThreadCount = s.m_idleThreadCount)
    (hactive : y.pc.isActive = (s.workers w).pc.isActive)
    (hidle : y.pc.isIdle = (s.workers w).pc.isIdle) : Counters t :=
  counters_of_update hs w hw (by rw [ha, hactive]) (by rw [hi, hidle])

theorem Counters.active_pos {s : State n} (hs : Counters s) {w : Fin n}
    (h : (s.workers w).pc.isActive) : 0 < s.m_activeThreadCount := by
  rw [hs.active]
  exact tally_pos_of h

theorem Counters.idle_pos {s : State n} (hs : Counters s) {w : Fin n}
    (h : (s.workers w).pc.isIdle) : 0 < s.m_idleThreadCount := by
  rw [hs.idle]
  exact tally_pos_of h

theorem counters_step {tid : Fin n → Int} {s t : State n} {a : Action n} (hs : Counters s)
    (h : Step tid s a t) : Counters t := by
  cases h with
  | @popLocal_some w _ hpc _ | @popLocal_none w hpc _ | @popGlobal_none w hpc _
  | @popGlobal_some w _ _ hpc _ _ | @popGlobal_batch w _ _ hpc _ | @splice w _ _ _ hpc
  | @spliceStolen w _ _ _ hpc | @returned_ready w _ _ _ _ _ hpc _ _ | @returned w _ _ _ _ hpc _ _
  | @exit w hpc _ | @idle w _ hpc _ | @idle_stopping w hpc _ | @stopping_next w _ _ hpc _
  | @stopping_false w _ hpc | @stopping_true w _ _ hpc | @epollWait_block w hpc _
  | @epollWait_woken w hpc | @wake w _ hpc | @woken w _ _ hpc | @dispatch w hpc
  | @yieldToHold w _ _ hpc | @yield w _ _ _ hpc _ =>
    exact counters_of_goto hs w rfl rfl rfl (by rw [hpc]; rfl) (by rw [hpc]; rfl)
  | @active w _ t hpc =>
    rw [tickleIf_eq]
    exact counters_of_goto hs w rfl rfl rfl (by rw [hpc]; rfl) (by rw [hpc]; rfl)
  | @noTask w t hpc =>
    rw [tickleIf_eq]
    exact counters_of_goto hs w rfl rfl rfl (by rw [hpc]; rfl) (by rw [hpc]; rfl)
  | @steal_on w pc' next stats hpc hpc' =>
    refine counters_of_goto hs w rfl rfl rfl ?_ ?_ <;>
      rcases hpc with ⟨_, hpc⟩ | ⟨_, _, hpc⟩ <;>
      rcases hpc' with ⟨_, _, rfl⟩ | ⟨_, rfl⟩ <;> rw [hpc] <;> rfl
  | @steal_some w v vs t ft stolen stats pc' hpc hst hpc' =>
    -- two updates, the victim's and the thief's
    have hvictim : Counters (s.setWorker v { s.workers v with
        run_queue := (stealVictim s.m_state (s.workers v).run_queue).2 }) :=
      counters_of_goto hs v rfl rfl rfl rfl rfl
    refine counters_of_goto hvictim w rfl rfl rfl ?_ ?_ <;> rw [victim_pc, hpc] <;>
      rcases hpc' with rfl | ⟨_, rfl⟩ <;> rfl
  | @gotTask w source ft t stats hpc =>
    exact counters_of_update hs w rfl (by rw [hpc]; rfl) (by rw [hpc]; rfl)
  | @swapIn w ft f nextFiber is_cb cb_fiber hpc =>
    exact counters_of_goto hs w rfl rfl rfl (by rw [hpc]; rfl) (by rw [hpc]; rfl)
  | @swapIn_ended w ft hpc hended =>
    have hpos := hs.active_pos (by rw [hpc]; rfl)
    exact counters_of_update hs w rfl (by rw [hpc]; exact Nat.sub_add_cancel hpos)
      (by rw [hpc]; rfl)
  | @switched w f is_cb hpc =>
    have hpos := hs.active_pos (by rw [hpc]; rfl)
    exact counters_of_update hs w rfl (by rw [hpc]; exact Nat.sub_add_cancel hpos)
      (by rw [hpc]; rfl)
  | @preIdle w hpc =>
    exact counters_of_update hs w rfl (by rw [hpc]; rfl) (by rw [hpc]; rfl)
  | @idleReturned w hpc =>
    have hpos := hs.idle_pos (by rw [hpc]; rfl)
    exact counters_of_update hs w rfl (by rw [hpc]; rfl)
      (by rw [hpc]; exact Nat.sub_add_cancel hpos)
  | @schedule_local w _ _ _ _ _ _ _ | @schedule_global w _ _ _ _ _ _ _ _ _ =>
    exact counters_of_goto hs w rfl rfl rfl rfl rfl
  | @tickle w hcall =>
    rw [tickle_eq]
    exact counters_of_goto hs w rfl rfl rfl rfl rfl
  | tickleOther _ | tickleExtra =>
    rw [tickle_eq]
    exact ⟨hs.active, hs.idle⟩
  | newFiber | scheduleOther _ _ | stop | stopCall_false | stopCall _ _ | stopCall_next _ _ _ =>
    exact ⟨hs.active, hs.idle⟩

theorem counters_reachable {tid : Fin n → Int} {as : List (Action n)} {s : State n}
    (h : Transition.exec (step tid) (init n) as = some s) : Counters s :=
  Transition.exec_invariant (fun _ _ _ hs h => counters_step hs (step_cases h)) counters_init h

/-! ### Who executes a fiber -/

/-- A fiber in `EXEC` is on a worker. -/
def Executor (s : State n) : Prop :=
  ∀ f, s.m_state f = .EXEC → ∃ w, (s.workers w).pc.executes f

theorem executor_init : Executor (init n) := by
  intro f hf
  exact absurd hf (by simp [init])

theorem executor_of_update {s t : State n} (hs : Executor s) (w : Fin n) {y : Worker n}
    (hw : t.workers = Function.update s.workers w y)
    (h : ∀ f, t.m_state f = .EXEC →
      y.pc.executes f ∨ s.m_state f = .EXEC ∧ (s.workers w).pc.executes f = false) :
    Executor t := by
  intro f hf
  rcases h f hf with hy | ⟨hsf, hold⟩
  · exact ⟨w, by rw [hw, Function.update_self]; exact hy⟩
  · obtain ⟨v, hv⟩ := hs f hsf
    have hvw : v ≠ w := by
      rintro rfl
      rw [hold] at hv
      exact absurd hv (by decide)
    exact ⟨v, by rw [hw, Function.update_of_ne hvw]; exact hv⟩

/-- A worker that keeps executing what it executes. -/
theorem executor_of_goto {s t : State n} (hs : Executor s) (w : Fin n) {y : Worker n}
    (hw : t.workers = Function.update s.workers w y) (hst : t.m_state = s.m_state)
    (h : ∀ f, (s.workers w).pc.executes f → y.pc.executes f) : Executor t := by
  refine executor_of_update hs w hw fun f hf => ?_
  rw [hst] at hf
  by_cases hold : (s.workers w).pc.executes f
  · exact .inl (h f hold)
  · exact .inr ⟨hf, by simpa using hold⟩

/-- A fiber that leaves `EXEC` on the worker that executes it. -/
theorem executor_of_leave {s t : State n} (hs : Executor s) (w : Fin n) {y : Worker n} {g : Nat}
    {st : Fiber.State} (hw : t.workers = Function.update s.workers w y)
    (hst : t.m_state = Function.update s.m_state g st) (hne : st ≠ .EXEC)
    (h : ∀ f, f ≠ g → (s.workers w).pc.executes f = false) : Executor t := by
  refine executor_of_update hs w hw fun f hf => ?_
  rw [hst] at hf
  by_cases hfg : f = g
  · subst hfg
    rw [Function.update_self] at hf
    exact absurd hf hne
  · rw [Function.update_of_ne hfg] at hf
    exact .inr ⟨hf, h f hfg⟩

theorem executor_of_eq {s t : State n} (hs : Executor s) (hw : t.workers = s.workers)
    (hst : ∀ f, t.m_state f = .EXEC → s.m_state f = .EXEC) : Executor t := by
  intro f hf
  rw [hw]
  exact hs f (hst f hf)

theorem executor_step {tid : Fin n → Int} {s t : State n} {a : Action n} (hs : Executor s)
    (h : Step tid s a t) : Executor t := by
  cases h with
  | @swapIn w ft f nextFiber is_cb cb_fiber hpc =>
    refine executor_of_update hs w rfl fun g hg => ?_
    by_cases hgf : f = g
    · exact .inl (by simp [Pc.executes, hgf])
    · rw [setState, setWorker] at hg
      simp only [Function.update_of_ne (Ne.symm hgf)] at hg
      exact .inr ⟨hg, by rw [hpc]; rfl⟩
  | @switched w f is_cb hpc | @yieldToHold w f is_cb hpc =>
    exact executor_of_goto hs w rfl rfl fun g hg => by rw [hpc] at hg; exact hg
  | @yield w f is_cb st hpc hst | @returned w f is_cb st cb_fiber hpc hst _ =>
    refine executor_of_leave hs w rfl rfl hst fun g hg => ?_
    rw [hpc]
    exact beq_false_of_ne hg.symm
  | @returned_ready w f is_cb stats cb_fiber calling hpc hst hcalling =>
    have hsame : s.m_state = Function.update s.m_state f .READY := by
      rw [← hst, Function.update_eq_self]
    refine executor_of_leave hs w rfl hsame (by decide) fun g hg => ?_
    rw [hpc]
    exact beq_false_of_ne hg.symm
  | @popLocal_some w _ hpc _ | @popLocal_none w hpc _ | @popGlobal_none w hpc _
  | @popGlobal_some w _ _ hpc _ _ | @popGlobal_batch w _ _ hpc _ | @splice w _ _ _ hpc
  | @spliceStolen w _ _ _ hpc | @exit w hpc _ | @idle w _ hpc _ | @idle_stopping w hpc _
  | @stopping_next w _ _ hpc _ | @stopping_false w _ hpc | @stopping_true w _ _ hpc
  | @epollWait_block w hpc _ | @epollWait_woken w hpc | @wake w _ hpc | @woken w _ _ hpc
  | @dispatch w hpc | @gotTask w _ _ _ _ hpc | @swapIn_ended w _ hpc _ | @preIdle w hpc
  | @idleReturned w hpc =>
    exact executor_of_goto hs w rfl rfl fun g hg => by rw [hpc] at hg; exact absurd hg Bool.false_ne_true
  | @active w _ t hpc | @noTask w t hpc =>
    rw [tickleIf_eq]
    exact executor_of_goto hs w rfl rfl fun g hg => by rw [hpc] at hg; exact absurd hg Bool.false_ne_true
  | @steal_on w pc' next stats hpc hpc' =>
    refine executor_of_goto hs w rfl rfl fun g hg => ?_
    rcases hpc with ⟨_, hpc⟩ | ⟨_, _, hpc⟩ <;> rw [hpc] at hg <;> exact absurd hg Bool.false_ne_true
  | @steal_some w v vs t ft stolen stats pc' hpc hst hpc' =>
    have hvictim : Executor (s.setWorker v { s.workers v with
        run_queue := (stealVictim s.m_state (s.workers v).run_queue).2 }) :=
      executor_of_goto hs v rfl rfl fun _ hg => hg
    refine executor_of_goto hvictim w rfl rfl fun g hg => ?_
    rw [victim_pc, hpc] at hg
    exact absurd hg Bool.false_ne_true
  | @schedule_local w _ _ _ _ _ _ _ | @schedule_global w _ _ _ _ _ _ _ _ _ =>
    exact executor_of_goto hs w rfl rfl fun _ hg => hg
  | @tickle w hcall =>
    rw [tickle_eq]
    exact executor_of_goto hs w rfl rfl fun _ hg => hg
  | tickleOther _ | tickleExtra =>
    rw [tickle_eq]
    exact executor_of_eq hs rfl fun _ hf => hf
  | newFiber =>
    refine executor_of_eq hs rfl fun f hf => ?_
    by_cases hfn : f = s.nextFiber
    · subst hfn
      simp [setState] at hf
    · simpa only [setState, Function.update_of_ne hfn] using hf
  | scheduleOther _ _ | stop | stopCall_false | stopCall _ _ | stopCall_next _ _ _ =>
    exact executor_of_eq hs rfl fun _ hf => hf

end Scheduler

end FiberServer
