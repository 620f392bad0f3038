import FiberServer.Scheduler.Run

/-!
# What a step of the scheduler can do

`Step tid s a t` lists the transitions of `step`, one constructor each, with the
guard under which the source takes it and the state it leads to.  `step_cases`
says that `step` does nothing else, so an invariant is a case analysis of `Step`
and never unfolds `step`.
-/

namespace FiberServer

namespace Scheduler

open State

variable {n : Nat}

inductive Step (tid : Fin n → Int) (s : State n) : Action n → State n → Prop
  | popLocal_some {w : Fin n} {ft : FiberAndThread} (hpc : (s.workers w).pc = .popLocal)
      (hft : (popLocalTask s.m_state (s.workers w).run_queue).1 = some ft) :
      Step tid s (.run w) { s.setWorker w { s.workers w with
          pc := .gotTask .LOCAL ft false
          run_queue := (popLocalTask s.m_state (s.workers w).run_queue).2 } with
        dropped := (s.workers w).run_queue.takeWhile (isExec s.m_state) ++ s.dropped }
  | popLocal_none {w : Fin n} (hpc : (s.workers w).pc = .popLocal)
      (hft : (popLocalTask s.m_state (s.workers w).run_queue).1 = none) :
      Step tid s (.run w) { s.setWorker w { s.workers w with
          pc := .popGlobal
          run_queue := (popLocalTask s.m_state (s.workers w).run_queue).2 } with
        dropped := (s.workers w).run_queue.takeWhile (isExec s.m_state) ++ s.dropped }
  | popGlobal_none {w : Fin n} (hpc : (s.workers w).pc = .popGlobal)
      (hft : (popGlobalTask s.m_state (tid w) s.m_fibers).ft = none) :
      Step tid s (.run w) ({ s with
        m_fibers := (popGlobalTask s.m_state (tid w) s.m_fibers).m_fibers }.goto w
          (.stealTask (popGlobalTask s.m_state (tid w) s.m_fibers).tickle_me))
  | popGlobal_some {w : Fin n} {ft : FiberAndThread} (stats : ProcessorStats)
      (hpc : (s.workers w).pc = .popGlobal)
      (hft : (popGlobalTask s.m_state (tid w) s.m_fibers).ft = some ft)
      (hb : (popGlobalTask s.m_state (tid w) s.m_fibers).batch = []) :
      Step tid s (.run w) ({ s with
        m_fibers := (popGlobalTask s.m_state (tid w) s.m_fibers).m_fibers }.setWorker w
          { s.workers w with
            pc := .gotTask .GLOBAL ft (popGlobalTask s.m_state (tid w) s.m_fibers).tickle_me
            stats := stats })
  | popGlobal_batch {w : Fin n} {ft : FiberAndThread} (stats : ProcessorStats)
      (hpc : (s.workers w).pc = .popGlobal)
      (hft : (popGlobalTask s.m_state (tid w) s.m_fibers).ft = some ft) :
      Step tid s (.run w) ({ s with
        m_fibers := (popGlobalTask s.m_state (tid w) s.m_fibers).m_fibers }.setWorker w
          { s.workers w with
            pc := .splice ft (popGlobalTask s.m_state (tid w) s.m_fibers).batch
              (popGlobalTask s.m_state (tid w) s.m_fibers).tickle_me
            stats := stats })
  | splice {w : Fin n} {ft : FiberAndThread} {batch : List FiberAndThread} {t : Bool}
      (hpc : (s.workers w).pc = .splice ft batch t) :
      Step tid s (.run w) (s.setWorker w { s.workers w with
        pc := .gotTask .GLOBAL ft t, run_queue := (s.workers w).run_queue ++ batch })
  /-- `stealTask` begins, tries a victim in vain or gives up -/
  | steal_on {w : Fin n} (pc' : Pc n) (next : Nat) (stats : ProcessorStats)
      (hpc : (∃ t, (s.workers w).pc = .stealTask t) ∨ ∃ vs t, (s.workers w).pc = .steal vs t)
      (hpc' : (∃ vs t, pc' = .steal vs t) ∨ ∃ t, pc' = .noTask t) :
      Step tid s (.run w) ({ s with m_nextStealProcessor := next }.setWorker w
        { s.workers w with pc := pc', stats := stats })
  | steal_some {w v : Fin n} {vs : List (Fin n)} {t : Bool} {ft : FiberAndThread}
      {stolen : List FiberAndThread} (stats : ProcessorStats) (pc' : Pc n)
      (hpc : (s.workers w).pc = .steal (v :: vs) t)
      (hst : (stealVictim s.m_state (s.workers v).run_queue).1 = ft :: stolen)
      (hpc' : pc' = .spliceStolen ft stolen t ∨ stolen = [] ∧ pc' = .gotTask .STEAL ft t) :
      Step tid s (.run w)
        ((s.setWorker v { s.workers v with
            run_queue := (stealVictim s.m_state (s.workers v).run_queue).2 }).setWorker w
          { (s.setWorker v { s.workers v with
              run_queue := (stealVictim s.m_state (s.workers v).run_queue).2 }).workers w with
            pc := pc', stats := stats })
  | spliceStolen {w : Fin n} {ft : FiberAndThread} {stolen : List FiberAndThread} {t : Bool}
      (hpc : (s.workers w).pc = .spliceStolen ft stolen t) :
      Step tid s (.run w) (s.setWorker w { s.workers w with
        pc := .gotTask .STEAL ft t, run_queue := (s.workers w).run_queue ++ stolen })
  | gotTask {w : Fin n} {source : TaskSource} {ft : FiberAndThread} {t : Bool}
      (stats : ProcessorStats) (hpc : (s.workers w).pc = .gotTask source ft t) :
      Step tid s (.run w) { s.setWorker w { s.workers w with
          pc := .active ft t, stats := stats } with
        m_activeThreadCount := s.m_activeThreadCount + 1 }
  | active {w : Fin n} {ft : FiberAndThread} {t : Bool} (hpc : (s.workers w).pc = .active ft t) :
      Step tid s (.run w) ((s.tickleIf t).goto w (.swapIn ft))
  | swapIn {w : Fin n} {ft : FiberAndThread} (f nextFiber : Nat) (is_cb : Bool)
      (cb_fiber : Option Nat)
      (hpc : (s.workers w).pc = .swapIn ft) :
      Step tid s (.run w) { (s.setState f .EXEC).setWorker w { s.workers w with
          pc := .running f is_cb, cb_fiber := cb_fiber } with
        nextFiber := nextFiber, executed := ft :: s.executed }
  | swapIn_ended {w : Fin n} {ft : FiberAndThread} (hpc : (s.workers w).pc = .swapIn ft)
      (hended : ft.cb = none ∧ ft.fiber.all fun f => (s.m_state f).finished) :
      Step tid s (.run w) { s.goto w .popLocal with
        m_activeThreadCount := s.m_activeThreadCount - 1, ended := ft :: s.ended }
  | switched {w : Fin n} {f : Nat} {is_cb : Bool} (hpc : (s.workers w).pc = .switched f is_cb) :
      Step tid s (.run w) { s.goto w (.returned f is_cb) with
        m_activeThreadCount := s.m_activeThreadCount - 1 }
  | returned_ready {w : Fin n} {f : Nat} {is_cb : Bool} (stats : ProcessorStats)
      (cb_fiber calling : Option Nat)
      (hpc : (s.workers w).pc = .returned f is_cb) (hst : s.m_state f = .READY)
      (hcalling : (s.workers w).calling = none) :
      Step tid s (.run w) { s.setWorker w { s.workers w with
          pc := .popLocal
          cb_fiber := cb_fiber
          run_queue := (s.workers w).run_queue ++ [⟨s.nextTicket, some f, none, -1⟩]
          stats := stats
          calling := calling } with
        nextTicket := s.nextTicket + 1
        enqueued := ⟨s.nextTicket, some f, none, -1⟩ :: s.enqueued }
  | returned {w : Fin n} {f : Nat} {is_cb : Bool} (st : Fiber.State) (cb_fiber : Option Nat)
      (hpc : (s.workers w).pc = .returned f is_cb) (hst : st ≠ .EXEC) (hready : st ≠ .READY) :
      Step tid s (.run w) ((s.setState f st).setWorker w { s.workers w with
        pc := .popLocal, cb_fiber := cb_fiber })
  | noTask {w : Fin n} {t : Bool} (hpc : (s.workers w).pc = .noTask t) :
      Step tid s (.run w) ((s.tickleIf t).goto w .preIdle)
  | exit {w : Fin n} (hpc : (s.workers w).pc = .preIdle) (hterm : (s.workers w).idle_term) :
      Step tid s (.run w) (s.goto w .exited)
  | preIdle {w : Fin n} (hpc : (s.workers w).pc = .preIdle) :
      Step tid s (.run w) { s.goto w .idle with m_idleThreadCount := s.m_idleThreadCount + 1 }
  | idle {w : Fin n} {ioIdle : Bool} (hpc : (s.workers w).pc = .idle)
      (hq : (ioIdle && s.canStop) = false) : Step tid s (.idle w ioIdle) (s.goto w .epollWait)
  | idle_stopping {w : Fin n} (hpc : (s.workers w).pc = .idle) (hq : s.canStop) :
      Step tid s (.idle w true) (s.goto w (.stopping 0))
  | stopping_next {w : Fin n} {k : Nat} (hk : k < n) (hpc : (s.workers w).pc = .stopping k)
      (hempty : (s.workers ⟨k, hk⟩).run_queue = []) :
      Step tid s (.run w) (s.goto w (.stopping (k + 1)))
  | stopping_false {w : Fin n} {k : Nat} (hpc : (s.workers w).pc = .stopping k) :
      Step tid s (.run w) (s.goto w .epollWait)
  | stopping_true {w : Fin n} {k : Nat} (hk : n ≤ k) (hpc : (s.workers w).pc = .stopping k) :
      Step tid s (.run w) (s.setWorker w { s.workers w with
        pc := .idleReturned, idle_term := true })
  | epollWait_block {w : Fin n} (hpc : (s.workers w).pc = .epollWait) (hp : s.tickleFds = 0) :
      Step tid s (.run w) (s.goto w .blocked)
  | epollWait_woken {w : Fin n} (hpc : (s.workers w).pc = .epollWait) :
      Step tid s (.run w) (s.goto w (.woken true))
  | wake {w : Fin n} {tickled : Bool} (hpc : (s.workers w).pc = .blocked) :
      Step tid s (.wake w tickled) (s.goto w (.woken tickled))
  | woken {w : Fin n} {tickled : Bool} (pipe : Nat) (hpc : (s.workers w).pc = .woken tickled) :
      Step tid s (.run w) { s.goto w .dispatch with tickleFds := pipe }
  | dispatch {w : Fin n} (hpc : (s.workers w).pc = .dispatch) :
      Step tid s (.run w) (s.goto w .idleReturned)
  | idleReturned {w : Fin n} (hpc : (s.workers w).pc = .idleReturned) :
      Step tid s (.run w) { s.goto w .popLocal with
        m_idleThreadCount := s.m_idleThreadCount - 1 }
  | yieldToHold {w : Fin n} {f : Nat} {is_cb : Bool} (hpc : (s.workers w).pc = .running f is_cb) :
      Step tid s (.yield w .EXEC) (s.goto w (.switched f is_cb))
  | yield {w : Fin n} {f : Nat} {is_cb : Bool} {st : Fiber.State}
      (hpc : (s.workers w).pc = .running f is_cb) (hst : st ≠ .EXEC) :
      Step tid s (.yield w st) ((s.setState f st).goto w (.switched f is_cb))
  | newFiber : Step tid s .newFiber
      { s.setState s.nextFiber .INIT with nextFiber := s.nextFiber + 1 }
  | schedule_local {w : Fin n} {force_global : Bool} {fiber cb : Option Nat}
      (stats : ProcessorStats) (calling : Option Nat) (hpc : (s.workers w).pc.inUserCode)
      (hcalling : (s.workers w).calling = none) :
      Step tid s (.schedule w force_global fiber cb (-1)) { s.setWorker w { s.workers w with
          run_queue := (s.workers w).run_queue ++ [⟨s.nextTicket, fiber, cb, -1⟩]
          stats := stats
          calling := calling } with
        nextTicket := s.nextTicket + 1
        enqueued := ⟨s.nextTicket, fiber, cb, -1⟩ :: s.enqueued }
  | schedule_global {w : Fin n} {force_global : Bool} {fiber cb : Option Nat} {thread : Int}
      (calling : Option Nat) (hpc : (s.workers w).pc.inUserCode)
      (hcalling : (s.workers w).calling = none) (hglobal : force_global ∨ thread ≠ -1)
      (hcall : calling = if s.m_fibers.isEmpty || s.m_idleThreadCount != 0 then some s.nextTicket
        else none) :
      Step tid s (.schedule w force_global fiber cb thread) { s.setWorker w { s.workers w with
          calling := calling } with
        m_fibers := s.m_fibers ++ [⟨s.nextTicket, fiber, cb, thread⟩]
        m_globalScheduleCount := s.m_globalScheduleCount + 1
        nextTicket := s.nextTicket + 1
        enqueued := ⟨s.nextTicket, fiber, cb, thread⟩ :: s.enqueued }
  | scheduleOther {fiber cb : Option Nat} {thread : Int} (calls : List Nat)
      (hcalls : calls = if s.m_fibers.isEmpty || s.m_idleThreadCount != 0
        then s.nextTicket :: s.calls else s.calls) :
      Step tid s (.scheduleOther fiber cb thread) { s with
        m_fibers := s.m_fibers ++ [⟨s.nextTicket, fiber, cb, thread⟩]
        m_globalScheduleCount := s.m_globalScheduleCount + 1
        nextTicket := s.nextTicket + 1
        enqueued := ⟨s.nextTicket, fiber, cb, thread⟩ :: s.enqueued
        calls := calls }
  | tickle {w : Fin n} (hcall : (s.workers w).calling.isSome) :
      Step tid s (.tickle w) (s.tickle.setWorker w { s.workers w with calling := none })
  | tickleOther {ticket : Nat} (hcall : ticket ∈ s.calls) :
      Step tid s (.tickleOther ticket) { s.tickle with calls := s.calls.erase ticket }
  | tickleExtra : Step tid s .tickleExtra s.tickle
  | stop : Step tid s .stop { s with m_autoStop := true, m_stopping := true }
  | stopCall_false : Step tid s .stopping { s with stopCall := none }
  | stopCall (hcall : s.stopCall = none) (hq : s.canStop) :
      Step tid s .stopping { s with stopCall := some 0 }
  | stopCall_next {k : Nat} (hk : k < n) (hcall : s.stopCall = some k)
      (hempty : (s.workers ⟨k, hk⟩).run_queue = []) :
      Step tid s .stopping { s with stopCall := some (k + 1) }

/-- Robbing `v` moves no program counter. -/
theorem victim_pc (s : State n) (v w : Fin n) (q : List FiberAndThread) :
    ((s.setWorker v { s.workers v with run_queue := q }).workers w).pc = (s.workers w).pc := by
  by_cases hvw : w = v
  · subst hvw
    simp only [setWorker, Function.update_self]
  · simp only [setWorker, Function.update_of_ne hvw]

theorem swapIn_cases {tid : Fin n → Int} {s t : State n} {w : Fin n} {ft : FiberAndThread}
    (hpc : (s.workers w).pc = .swapIn ft) (h : Scheduler.swapIn s w ft = some t) :
    Step tid s (.run w) t := by
  rw [Scheduler.swapIn] at h
  cases hf : ft.fiber.filter (fun f => !(s.m_state f).finished) with
  | some f =>
    simp only [hf] at h
    split_ifs at h
    exact Option.some.inj h ▸ .swapIn f s.nextFiber false (s.workers w).cb_fiber hpc
  | none =>
    simp only [hf] at h
    split at h
    · rename_i g _ hg
      split_ifs at h
      exact Option.some.inj h ▸ .swapIn g s.nextFiber true (s.workers w).cb_fiber hpc
    · exact Option.some.inj h ▸ .swapIn s.nextFiber (s.nextFiber + 1) true (some s.nextFiber) hpc
    · rename_i hcb
      refine Option.some.inj h ▸ .swapIn_ended hpc ⟨hcb, ?_⟩
      cases hfib : ft.fiber with
      | none => rfl
      | some f => simpa [hfib, Option.filter] using hf

theorem afterSwap_cases {tid : Fin n → Int} {s : State n} {w : Fin n} {f : Nat} {is_cb : Bool}
    (hpc : (s.workers w).pc = .returned f is_cb) (hcalling : (s.workers w).calling = none) :
    Step tid s (.run w) (afterSwap s w f is_cb) := by
  rw [afterSwap]
  by_cases hr : s.m_state f = .READY
  · simp only [hr, if_true, scheduleLocal, setWorker, Function.update_self, Function.update_idem]
    split_ifs <;> exact .returned_ready _ _ _ hpc hr hcalling
  · rw [if_neg hr]
    split_ifs with hfin hcb
    · exact .returned .INIT (s.workers w).cb_fiber hpc (by decide) (by decide)
    · have hst : s.m_state f ≠ .EXEC := by
        intro he
        rw [he] at hfin
        exact absurd hfin (by decide)
      have hstep : Step tid s (.run w) _ :=
        .returned (s.m_state f) (s.workers w).cb_fiber hpc hst hr
      rwa [setState, Function.update_eq_self] at hstep
    · exact .returned .HOLD none hpc (by decide) (by decide)
    · exact .returned .HOLD (s.workers w).cb_fiber hpc (by decide) (by decide)

theorem steal_cases {tid : Fin n → Int} {s t : State n} {w v : Fin n} {vs : List (Fin n)}
    {tickle_me : Bool} (hpc : (s.workers w).pc = .steal (v :: vs) tickle_me)
    (h : runStep tid s w = some t) : Step tid s (.run w) t := by
  rw [runStep] at h
  simp only [hpc] at h
  split at h
  · exact Option.some.inj h ▸
      .steal_on (.steal vs tickle_me) s.m_nextStealProcessor (s.workers w).stats
        (.inr ⟨_, _, hpc⟩) (.inl ⟨_, _, rfl⟩)
  · rename_i ft stolen hst
    refine Option.some.inj h ▸ .steal_some _ _ hpc hst ?_
    cases stolen with
    | nil => exact .inr ⟨rfl, rfl⟩
    | cons y ys => exact .inl rfl

theorem popGlobal_cases {tid : Fin n → Int} {s t : State n} {w : Fin n}
    (hpc : (s.workers w).pc = .popGlobal) (h : runStep tid s w = some t) :
    Step tid s (.run w) t := by
  rw [runStep] at h
  simp only [hpc] at h
  split at h
  · rename_i hft
    exact Option.some.inj h ▸ .popGlobal_none hpc hft
  · rename_i ft hft
    split_ifs at h with hb
    · exact Option.some.inj h ▸ .popGlobal_some _ hpc hft (List.isEmpty_iff.mp hb)
    · exact Option.some.inj h ▸ .popGlobal_batch _ hpc hft

theorem stopping_cases {tid : Fin n → Int} {s t : State n} {w : Fin n} {k : Nat}
    (hpc : (s.workers w).pc = .stopping k) (h : runStep tid s w = some t) :
    Step tid s (.run w) t := by
  rw [runStep] at h
  simp only [hpc, nextEmpty] at h
  by_cases hk : k < n
  · rw [if_pos hk, dif_pos hk] at h
    split_ifs at h with hempty
    · exact Option.some.inj h ▸ .stopping_next hk hpc (List.isEmpty_iff.mp hempty)
    · exact Option.some.inj h ▸ .stopping_false hpc
  · rw [if_neg hk] at h
    exact Option.some.inj h ▸ .stopping_true (by omega) hpc

theorem runStep_cases {tid : Fin n → Int} {s t : State n} {w : Fin n}
    (hcalling : (s.workers w).calling = none) (h : runStep tid s w = some t) : Step tid s (.run w) t := by
  cases hpc : (s.workers w).pc with
  | popGlobal => exact popGlobal_cases hpc h
  | stopping k => exact stopping_cases hpc h
  | popLocal =>
    rw [runStep] at h
    simp only [hpc] at h
    cases hft : (popLocalTask s.m_state (s.workers w).run_queue).1 with
    | none => rw [hft] at h; exact Option.some.inj h ▸ .popLocal_none hpc hft
    | some ft => rw [hft] at h; exact Option.some.inj h ▸ .popLocal_some hpc hft
  | stealTask tickle_me =>
    rw [runStep] at h
    simp only [hpc] at h
    split_ifs at h
    · exact Option.some.inj h ▸ .steal_on (.noTask tickle_me) s.m_nextStealProcessor _
        (.inl ⟨_, hpc⟩) (.inr ⟨_, rfl⟩)
    · exact Option.some.inj h ▸ .steal_on _ _ _ (.inl ⟨_, hpc⟩) (.inl ⟨_, _, rfl⟩)
  | steal vs tickle_me =>
    cases vs with
    | nil =>
      rw [runStep] at h
      simp only [hpc] at h
      exact Option.some.inj h ▸
        .steal_on (.noTask tickle_me) s.m_nextStealProcessor _ (.inr ⟨_, _, hpc⟩) (.inr ⟨_, rfl⟩)
    | cons v vs => exact steal_cases hpc h
  | swapIn ft =>
    rw [runStep] at h
    simp only [hpc] at h
    exact swapIn_cases hpc h
  | returned f is_cb =>
    rw [runStep] at h
    simp only [hpc] at h
    exact Option.some.inj h ▸ afterSwap_cases hpc hcalling
  | preIdle =>
    rw [runStep] at h
    simp only [hpc] at h
    split_ifs at h with hterm
    · exact Option.some.inj h ▸ .exit hpc hterm
    · exact Option.some.inj h ▸ .preIdle hpc
  | epollWait =>
    rw [runStep] at h
    simp only [hpc] at h
    split_ifs at h with hp
    · exact Option.some.inj h ▸ .epollWait_block hpc hp
    · exact Option.some.inj h ▸ .epollWait_woken hpc
  | splice ft batch tickle_me =>
    rw [runStep] at h
    simp only [hpc] at h
    exact Option.some.inj h ▸ .splice hpc
  | spliceStolen ft stolen tickle_me =>
    rw [runStep] at h
    simp only [hpc] at h
    exact Option.some.inj h ▸ .spliceStolen hpc
  | gotTask source ft tickle_me =>
    rw [runStep] at h
    simp only [hpc] at h
    exact Option.some.inj h ▸ .gotTask _ hpc
  | active ft tickle_me =>
    rw [runStep] at h
    simp only [hpc] at h
    exact Option.some.inj h ▸ .active hpc
  | switched f is_cb =>
    rw [runStep] at h
    simp only [hpc] at h
    exact Option.some.inj h ▸ .switched hpc
  | noTask tickle_me =>
    rw [runStep] at h
    simp only [hpc] at h
    exact Option.some.inj h ▸ .noTask hpc
  | woken tickled =>
    rw [runStep] at h
    simp only [hpc] at h
    exact Option.some.inj h ▸ .woken _ hpc
  | dispatch =>
    rw [runStep] at h
    simp only [hpc] at h
    exact Option.some.inj h ▸ .dispatch hpc
  | idleReturned =>
    rw [runStep] at h
    simp only [hpc] at h
    exact Option.some.inj h ▸ .idleReturned hpc
  | running _ _ | idle | blocked | exited => rw [runStep] at h; simp only [hpc, reduceCtorEq] at h

theorem scheduleLocal_cases {tid : Fin n → Int} {s : State n} {w : Fin n} {force_global : Bool}
    {fiber cb : Option Nat} (hpc : (s.workers w).pc.inUserCode)
    (hcalling : (s.workers w).calling = none) :
    Step tid s (.schedule w force_global fiber cb (-1))
      (if (s.scheduleLocal w fiber cb).2 then
        (s.scheduleLocal w fiber cb).1.setWorker w
          { (s.scheduleLocal w fiber cb).1.workers w with calling := some s.nextTicket }
      else (s.scheduleLocal w fiber cb).1) := by
  simp only [scheduleLocal, setWorker, Function.update_self, Function.update_idem]
  split_ifs
  · exact .schedule_local _ (some s.nextTicket) hpc hcalling
  · exact .schedule_local _ (s.workers w).calling hpc hcalling

theorem scheduleGlobal_cases {tid : Fin n → Int} {s : State n} {w : Fin n} {force_global : Bool}
    {fiber cb : Option Nat} {thread : Int} (hpc : (s.workers w).pc.inUserCode)
    (hcalling : (s.workers w).calling = none) (hglobal : force_global ∨ thread ≠ -1) :
    Step tid s (.schedule w force_global fiber cb thread)
      (if (s.scheduleGlobalNoLock fiber cb thread).2 then
        (s.scheduleGlobalNoLock fiber cb thread).1.setWorker w
          { (s.scheduleGlobalNoLock fiber cb thread).1.workers w with calling := some s.nextTicket }
      else (s.scheduleGlobalNoLock fiber cb thread).1) := by
  by_cases hneed : (s.scheduleGlobalNoLock fiber cb thread).2 = true
  · rw [if_pos hneed]
    exact .schedule_global (some s.nextTicket) hpc hcalling hglobal (if_pos hneed).symm
  · rw [if_neg hneed]
    have hstep : Step tid s (.schedule w force_global fiber cb thread) _ :=
      .schedule_global none hpc hcalling hglobal (if_neg hneed).symm
    have hsame : { s.workers w with calling := none } = s.workers w := by rw [← hcalling]
    rwa [hsame, setWorker, Function.update_eq_self] at hstep

/-- **A step is one of the listed transitions.** -/
theorem step_cases {tid : Fin n → Int} {s t : State n} {a : Action n}
    (h : step tid s a = some t) : Step tid s a t := by
  cases a with
  | run w =>
    rw [step] at h
    split_ifs at h with hcalling
    exact runStep_cases (Option.isNone_iff_eq_none.mp hcalling) h
  | idle w ioIdle =>
    rw [step] at h
    split_ifs at h with hpc hq
    · rw [Bool.and_eq_true] at hq
      obtain ⟨rfl, hq⟩ := hq
      exact Option.some.inj h ▸ .idle_stopping hpc hq
    · exact Option.some.inj h ▸ .idle hpc (by simpa using hq)
  | wake w tickled =>
    rw [step] at h
    split_ifs at h with hw
    exact Option.some.inj h ▸ .wake hw.1
  | yield w next =>
    rw [step] at h
    split at h
    · rename_i f is_cb hpc
      cases next with
      | EXEC =>
        simp only at h
        split_ifs at h
        exact Option.some.inj h ▸ .yieldToHold hpc
      | READY =>
        simp only at h
        split_ifs at h
        exact Option.some.inj h ▸ .yield hpc (by decide)
      | TERM =>
        simp only at h
        split_ifs at h
        exact Option.some.inj h ▸ .yield hpc (by decide)
      | EXCEPT =>
        simp only at h
        split_ifs at h
        exact Option.some.inj h ▸ .yield hpc (by decide)
      | INIT => simp at h
      | HOLD => simp at h
    · exact absurd h (by simp)
  | newFiber => exact Option.some.inj h ▸ .newFiber
  | schedule w force_global fiber cb thread =>
    rw [step] at h
    split_ifs at h with hcall hforce
    · simp only [Bool.and_eq_true, Option.isNone_iff_eq_none] at hcall
      exact Option.some.inj h ▸ scheduleGlobal_cases hcall.1.1 hcall.1.2 (.inl hforce)
    · simp only [Bool.and_eq_true, Option.isNone_iff_eq_none] at hcall
      rw [scheduleNoLock] at h
      by_cases hthread : thread = -1
      · subst hthread
        exact Option.some.inj h ▸ scheduleLocal_cases hcall.1.1 hcall.1.2
      · rw [if_neg hthread] at h
        exact Option.some.inj h ▸ scheduleGlobal_cases hcall.1.1 hcall.1.2 (.inr hthread)
  | scheduleOther fiber cb thread =>
    rw [step] at h
    split at h
    · obtain rfl := Option.some.inj h
      by_cases hneed : (s.scheduleGlobalNoLock fiber cb thread).2 = true
      · rw [if_pos hneed]
        exact .scheduleOther _ (if_pos hneed).symm
      · rw [if_neg hneed]
        exact .scheduleOther _ (if_neg hneed).symm
    · exact absurd h (by simp)
  | tickle w =>
    rw [step] at h
    split_ifs at h with hcall
    exact Option.some.inj h ▸ .tickle hcall
  | tickleOther ticket =>
    rw [step] at h
    split_ifs at h with hcall
    exact Option.some.inj h ▸ .tickleOther hcall
  | tickleExtra => exact Option.some.inj h ▸ .tickleExtra
  | stop => exact Option.some.inj h ▸ .stop
  | stopping =>
    rw [step] at h
    split at h
    · rename_i hcall
      split_ifs at h with hq
      · exact Option.some.inj h ▸ .stopCall hcall hq
      · exact Option.some.inj h ▸ .stopCall_false
    · rename_i k hcall
      simp only [nextEmpty] at h
      split_ifs at h with hk hempty
      · exact Option.some.inj h ▸ .stopCall_next hk hcall (List.isEmpty_iff.mp hempty)
      · exact Option.some.inj h ▸ .stopCall_false
      · exact Option.some.inj h ▸ .stopCall_false

end Scheduler

end FiberServer
