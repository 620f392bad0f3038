import FiberServer.Scheduler.Moves

/-!
# The statistics of a processor

The counters of a processor are changed in `scheduleNoLock`, `popGlobalTask`, `stealTask` and
`run()`, some of them before the items they count have been moved.  `Pc.taken`, `Pc.attempts`
and `Pc.inFlight` are what the counters are ahead or behind at each place of the loop.

* `adds_up`: whenever a worker is between two iterations, the counters of its processor add up.
-/

namespace FiberServer

namespace Scheduler

open State

variable {n : Nat}

/-- A task was taken and is not counted as executed yet. -/
def Pc.taken : Pc n → TaskSource → Nat
  | .gotTask source _ _, source' => if source = source' then 1 else 0
  | .splice _ _ _, .GLOBAL => 1
  | .spliceStolen _ _ _, .STEAL => 1
  | _, _ => 0

/-- `stealTask` has counted its attempt and not its end. -/
def Pc.attempts : Pc n → Nat
  | .steal _ _ => 1
  | _ => 0

/-- Items on their way into the run queue. -/
def Pc.inFlight : Pc n → Nat
  | .splice _ batch _ => batch.length
  | .spliceStolen _ stolen _ => stolen.length
  | _ => 0

/-- The counters at any place of the loop. -/
structure Worker.Balanced (x : Worker n) : Prop where
  executed : x.stats.execute_count = x.stats.local_execute_count + x.stats.global_execute_count
    + x.stats.steal_execute_count
  attempts : x.stats.steal_attempt_count
    = x.stats.steal_batch_count + x.stats.steal_fail_count + x.pc.attempts
  batches : x.stats.global_batch_count = x.stats.global_execute_count + x.pc.taken .GLOBAL
  steals : x.stats.steal_batch_count = x.stats.steal_execute_count + x.pc.taken .STEAL
  pulled : x.stats.global_batch_count ≤ x.stats.global_pull_count
  stolen : x.stats.steal_batch_count ≤ x.stats.steal_count
  /-- what has come into the run queue is there, was executed or was taken away -/
  queued : x.stats.local_execute_count + x.pc.taken .LOCAL + x.run_queue.length + x.pc.inFlight
    ≤ x.stats.schedule_count + (x.stats.global_pull_count - x.stats.global_batch_count)
      + (x.stats.steal_count - x.stats.steal_batch_count)

/-- Between two iterations. -/
structure ProcessorStats.AddsUp (st : ProcessorStats) : Prop where
  executed : st.execute_count
    = st.local_execute_count + st.global_execute_count + st.steal_execute_count
  attempts : st.steal_attempt_count = st.steal_batch_count + st.steal_fail_count
  batches : st.global_batch_count = st.global_execute_count
  steals : st.steal_batch_count = st.steal_execute_count
  pulled : st.global_batch_count ≤ st.global_pull_count
  stolen : st.steal_batch_count ≤ st.steal_count
  queued : st.local_execute_count ≤ st.schedule_count
    + (st.global_pull_count - st.global_batch_count) + (st.steal_count - st.steal_batch_count)

theorem Worker.Balanced.addsUp {x : Worker n} (hx : x.Balanced) (hpc : x.pc = .popLocal) :
    x.stats.AddsUp := by
  obtain ⟨hexecuted, hattempts, hbatches, hsteals, hpulled, hstolen, hqueued⟩ := hx
  rw [hpc] at hattempts hbatches hsteals hqueued
  refine ⟨hexecuted, hattempts, hbatches, hsteals, hpulled, hstolen, ?_⟩
  simp only [Pc.taken, Pc.inFlight] at hqueued
  omega

/-! ### What the dequeue paths leave -/

theorem length_popLocalTask (m_state : Nat → Fiber.State) (q : List FiberAndThread) :
    (popLocalTask m_state q).1.toList.length + (popLocalTask m_state q).2.length ≤ q.length := by
  induction q with
  | nil => exact Nat.le_refl 0
  | cons ft q ih =>
    rw [popLocalTask]
    split_ifs
    · rw [List.length_cons]
      omega
    · simp only [Option.toList_some, List.length_cons, List.length_nil]
      omega

theorem length_stealLoop (m_state : Nat → Fiber.State) (target : Nat) :
    ∀ (q : List FiberAndThread) (size : Nat),
      (stealLoop m_state target size q).2.length ≤ q.length := by
  intro q
  induction q with
  | nil => intro size; exact Nat.le_refl 0
  | cons it rest ih =>
    intro size
    rw [stealLoop]
    have hsize := ih size
    have hnext := ih (size + 1)
    split_ifs <;> simp only [List.length_cons] <;> omega

theorem length_stealVictim (m_state : Nat → Fiber.State) (q : List FiberAndThread) :
    (stealVictim m_state q).2.length ≤ q.length := by
  have hlength :=
    length_stealLoop m_state (if q.length / 2 = 0 then 1 else q.length / 2) q.reverse 0
  rw [List.length_reverse] at hlength
  rw [stealVictim, List.length_reverse]
  exact hlength

/-! ### Steps -/

/-- A worker whose statistics do not change. -/
theorem Worker.Balanced.same {x y : Worker n} (hx : x.Balanced) (hstats : y.stats = x.stats)
    (htaken : y.pc.taken = x.pc.taken) (hattempts : y.pc.attempts = x.pc.attempts)
    (hflight : y.run_queue.length + y.pc.inFlight ≤ x.run_queue.length + x.pc.inFlight) :
    y.Balanced := by
  have hqueued := hx.queued
  constructor
  · rw [hstats]
    exact hx.executed
  · rw [hstats, hattempts]
    exact hx.attempts
  · rw [hstats, htaken]
    exact hx.batches
  · rw [hstats, htaken]
    exact hx.steals
  · rw [hstats]
    exact hx.pulled
  · rw [hstats]
    exact hx.stolen
  · rw [hstats, htaken]
    omega

/-- Places at which nothing is ahead or behind. -/
def Pc.settled : Pc n → Bool
  | .gotTask _ _ _ | .splice _ _ _ | .spliceStolen _ _ _ | .steal _ _ => false
  | _ => true

theorem Pc.of_settled {pc : Pc n} (h : pc.settled = true) :
    pc.taken = (fun _ => 0) ∧ pc.attempts = 0 ∧ pc.inFlight = 0 := by
  cases pc with
  | gotTask source ft tickle_me => exact nomatch h
  | splice ft batch tickle_me => exact nomatch h
  | spliceStolen ft stolen tickle_me => exact nomatch h
  | steal victims tickle_me => exact nomatch h
  | _ => exact ⟨funext fun source => by cases source <;> rfl, rfl, rfl⟩

/-- A step between such places that counts nothing. -/
theorem Worker.Balanced.settled {x y : Worker n} {pc : Pc n} (hx : x.Balanced) (hpc : x.pc = pc)
    (hpc₁ : pc.settled = true) (hpc₂ : y.pc.settled = true) (hstats : y.stats = x.stats)
    (hqueue : y.run_queue = x.run_queue) : y.Balanced := by
  subst hpc
  obtain ⟨htaken₁, hattempts₁, hflight₁⟩ := Pc.of_settled hpc₁
  obtain ⟨htaken₂, hattempts₂, hflight₂⟩ := Pc.of_settled hpc₂
  refine hx.same hstats (htaken₂.trans htaken₁.symm) (hattempts₂.trans hattempts₁.symm) ?_
  rw [hqueue, hflight₁, hflight₂]

/-- An item is pushed to the run queue. -/
theorem Worker.Balanced.push {x : Worker n} (hx : x.Balanced) (pc : Pc n) (hpc : pc.settled = true)
    (hx₁ : x.pc.settled = true) (ft : FiberAndThread) (cb_fiber calling : Option Nat) :
    Worker.Balanced { x with
      pc := pc
      cb_fiber := cb_fiber
      calling := calling
      run_queue := x.run_queue ++ [ft]
      stats := { x.stats with schedule_count := x.stats.schedule_count + 1 } } := by
  obtain ⟨hexecuted, hattempts, hbatches, hsteals, hpulled, hstolen, hqueued⟩ := hx
  obtain ⟨htaken, hattempt, hflight⟩ := Pc.of_settled hpc
  obtain ⟨htaken₁, hattempt₁, hflight₁⟩ := Pc.of_settled hx₁
  rw [hattempt₁] at hattempts
  rw [htaken₁] at hbatches hsteals hqueued
  rw [hflight₁] at hqueued
  constructor <;> simp only [htaken, hattempt, hflight, List.length_append, List.length_singleton]
  · exact hexecuted
  · exact hattempts
  · exact hbatches
  · exact hsteals
  · exact hpulled
  · exact hstolen
  · omega

/-- The queue of a worker becomes shorter. -/
theorem Worker.Balanced.shrink {x : Worker n} (hx : x.Balanced) {q : List FiberAndThread}
    (hq : q.length ≤ x.run_queue.length) : Worker.Balanced { x with run_queue := q } :=
  hx.same rfl rfl rfl (Nat.add_le_add_right hq _)

/-- `popLocalTask`. -/
theorem Worker.Balanced.pop {x : Worker n} (hx : x.Balanced) (hpc : x.pc = .popLocal)
    {ft : Option FiberAndThread} {q : List FiberAndThread} :
    ft.toList.length + q.length ≤ x.run_queue.length → Worker.Balanced (n := n) { x with
      pc := match ft with
        | some ft => .gotTask .LOCAL ft false
        | none => .popGlobal
      run_queue := q } := by
  intro hq
  obtain ⟨hexecuted, hattempts, hbatches, hsteals, hpulled, hstolen, hqueued⟩ := hx
  rw [hpc] at hattempts hbatches hsteals hqueued
  simp only [Pc.taken, Pc.attempts, Pc.inFlight] at hattempts hbatches hsteals hqueued
  cases ft with
  | none =>
    simp only [Option.toList_none, List.length_nil] at hq
    constructor <;> simp [Pc.taken, Pc.attempts, Pc.inFlight] <;> omega
  | some ft =>
    simp only [Option.toList_some, List.length_singleton] at hq
    constructor <;> simp [Pc.taken, Pc.attempts, Pc.inFlight] <;> omega

/-- `popGlobalTask` has left its section. -/
theorem Worker.Balanced.pull {x : Worker n} (hx : x.Balanced) (hpc : x.pc = .popGlobal)
    (ft : FiberAndThread) (batch : List FiberAndThread) (tickle_me : Bool) :
    Worker.Balanced (n := n) { x with
      pc := if batch.isEmpty then .gotTask .GLOBAL ft tickle_me else .splice ft batch tickle_me
      stats := { x.stats with
        global_pull_count := x.stats.global_pull_count + (batch.length + 1)
        global_batch_count := x.stats.global_batch_count + 1 } } := by
  obtain ⟨hexecuted, hattempts, hbatches, hsteals, hpulled, hstolen, hqueued⟩ := hx
  rw [hpc] at hattempts hbatches hsteals hqueued
  simp only [Pc.taken, Pc.attempts, Pc.inFlight] at hattempts hbatches hsteals hqueued
  cases batch with
  | nil => constructor <;> simp [Pc.taken, Pc.attempts, Pc.inFlight] <;> omega
  | cons y ys => constructor <;> simp [Pc.taken, Pc.attempts, Pc.inFlight] <;> omega

/-- `stealTask` has left the section of its victim. -/
theorem Worker.Balanced.steal {x : Worker n} (hx : x.Balanced) {victims : List (Fin n)}
    {tickle_me : Bool} (hpc : x.pc = .steal victims tickle_me) (ft : FiberAndThread)
    (stolen : List FiberAndThread) :
    Worker.Balanced (n := n) { x with
      pc := if stolen.isEmpty then .gotTask .STEAL ft tickle_me
        else .spliceStolen ft stolen tickle_me
      stats := { x.stats with
        steal_count := x.stats.steal_count + (stolen.length + 1)
        steal_batch_count := x.stats.steal_batch_count + 1 } } := by
  obtain ⟨hexecuted, hattempts, hbatches, hsteals, hpulled, hstolen, hqueued⟩ := hx
  rw [hpc] at hattempts hbatches hsteals hqueued
  simp only [Pc.taken, Pc.attempts, Pc.inFlight] at hattempts hbatches hsteals hqueued
  cases stolen with
  | nil => constructor <;> simp [Pc.taken, Pc.attempts, Pc.inFlight] <;> omega
  | cons y ys => constructor <;> simp [Pc.taken, Pc.attempts, Pc.inFlight] <;> omega

/-- `run()` counts the task it has taken. -/
theorem Worker.Balanced.execute {x : Worker n} (hx : x.Balanced) {source : TaskSource}
    {ft : FiberAndThread} {tickle_me : Bool} (hpc : x.pc = .gotTask source ft tickle_me) :
    Worker.Balanced (n := n) { x with
      pc := .active ft tickle_me, stats := x.stats.execute source } := by
  obtain ⟨hexecuted, hattempts, hbatches, hsteals, hpulled, hstolen, hqueued⟩ := hx
  rw [hpc] at hattempts hbatches hsteals hqueued
  cases source <;>
    simp [Pc.taken, Pc.attempts, Pc.inFlight] at hattempts hbatches hsteals hqueued <;>
    constructor <;> simp [ProcessorStats.execute, Pc.taken, Pc.attempts, Pc.inFlight] <;> omega

/-- `stealTask` counts its attempt. -/
theorem Worker.Balanced.attempt {x : Worker n} (hx : x.Balanced) {tickle_me : Bool}
    (hpc : x.pc = .stealTask tickle_me) (victims : List (Fin n)) :
    Worker.Balanced (n := n) { x with
      pc := .steal victims tickle_me
      stats := { x.stats with steal_attempt_count := x.stats.steal_attempt_count + 1 } } := by
  obtain ⟨hexecuted, hattempts, hbatches, hsteals, hpulled, hstolen, hqueued⟩ := hx
  rw [hpc] at hattempts hbatches hsteals hqueued
  simp only [Pc.taken, Pc.attempts, Pc.inFlight] at hattempts hbatches hsteals hqueued
  constructor <;> simp only [Pc.taken, Pc.attempts, Pc.inFlight] <;> omega

/-- `stealTask` has found nothing. -/
theorem Worker.Balanced.fail {x : Worker n} (hx : x.Balanced) {victims : List (Fin n)}
    {tickle_me : Bool} (hpc : x.pc = .steal victims tickle_me) :
    Worker.Balanced (n := n) { x with
      pc := .noTask tickle_me
      stats := { x.stats with steal_fail_count := x.stats.steal_fail_count + 1 } } := by
  obtain ⟨hexecuted, hattempts, hbatches, hsteals, hpulled, hstolen, hqueued⟩ := hx
  rw [hpc] at hattempts hbatches hsteals hqueued
  simp only [Pc.taken, Pc.attempts, Pc.inFlight] at hattempts hbatches hsteals hqueued
  constructor <;> simp only [Pc.taken, Pc.attempts, Pc.inFlight] <;> omega

theorem balanced_setWorker {s u : State n} {w : Fin n} {x : Worker n}
    (hs : ∀ w, (s.workers w).Balanced) (hu : u.workers = s.workers) (hx : x.Balanced) :
    ∀ w', ((u.setWorker w x).workers w').Balanced := by
  refine forall_setWorker (P := fun _ x => x.Balanced) hx fun w' _ => ?_
  rw [hu]
  exact hs w'

/-- The steps of `stealTask`. -/
theorem balanced_steal {tid : Fin n → Int} {s t : State n} {w : Fin n} {victims : List (Fin n)}
    {tickle_me : Bool} (hs : ∀ w, (s.workers w).Balanced)
    (hpc : (s.workers w).pc = .steal victims tickle_me) (h : runStep tid s w = some t) :
    ∀ w, (t.workers w).Balanced := by
  rw [runStep] at h
  simp only [hpc] at h
  cases victims with
  | nil =>
    rw [← Option.some.inj h]
    exact balanced_setWorker hs rfl ((hs w).fail hpc)
  | cons v rest =>
    simp only at h
    split at h
    · rw [← Option.some.inj h]
      exact balanced_setWorker hs rfl
        ((hs w).same rfl (by rw [hpc]; rfl) (by rw [hpc]; rfl) (by rw [hpc]; exact Nat.le_refl _))
    · rename_i ft stolen hst
      rw [← Option.some.inj h]
      -- first the victim's queue, then the thief
      have hvictim : ∀ w', ((s.setWorker v { s.workers v with
          run_queue := (stealVictim s.m_state (s.workers v).run_queue).2 }).workers w').Balanced :=
        balanced_setWorker hs rfl ((hs v).shrink (length_stealVictim _ _))
      exact balanced_setWorker hvictim rfl
        ((hvictim w).steal ((victim_pc s v w _).trans hpc) ft stolen)

theorem balanced_swapIn {s t : State n} {w : Fin n} {ft : FiberAndThread}
    (hs : ∀ w, (s.workers w).Balanced) (hpc : (s.workers w).pc = .swapIn ft)
    (h : Scheduler.swapIn s w ft = some t) : ∀ w, (t.workers w).Balanced := by
  rcases swapIn_inv h with ⟨f, b, c, k, rfl, -⟩ | rfl
  · exact balanced_setWorker (u := s.setState f .EXEC) hs rfl ((hs w).settled hpc rfl rfl rfl rfl)
  · exact balanced_setWorker hs rfl ((hs w).settled hpc rfl rfl rfl rfl)

theorem balanced_afterSwap {s : State n} {w : Fin n} {f : Nat} {b : Bool}
    (hs : ∀ w, (s.workers w).Balanced) (hpc : (s.workers w).pc = .returned f b) :
    ∀ w', ((afterSwap s w f b).workers w').Balanced := by
  by_cases hr : s.m_state f = .READY
  · rw [afterSwap]
    simp only [hr, if_true, scheduleLocal, setWorker, Function.update_self, Function.update_idem]
    split_ifs <;>
      exact balanced_setWorker hs rfl ((hs w).push .popLocal rfl (by rw [hpc]; rfl) _ _ _)
  · obtain ⟨st, c, heq, -⟩ := afterSwap_inv (w := w) (b := b) hr
    rw [heq]
    exact balanced_setWorker (u := s.setState f st) hs rfl ((hs w).settled hpc rfl rfl rfl rfl)

/-- **A step of `run()`.** -/
theorem balanced_run {tid : Fin n → Int} {s t : State n} {w : Fin n}
    (hs : ∀ w, (s.workers w).Balanced) (h : runStep tid s w = some t) :
    ∀ w, (t.workers w).Balanced := by
  cases hpc : (s.workers w).pc with
  | steal victims tickle_me => exact balanced_steal hs hpc h
  | popLocal =>
    rw [runStep] at h
    simp only [hpc] at h
    rw [← Option.some.inj h]
    exact balanced_setWorker hs rfl ((hs w).pop hpc (length_popLocalTask _ _))
  | popGlobal =>
    rw [runStep] at h
    simp only [hpc] at h
    split at h
    · rw [← Option.some.inj h]
      exact balanced_setWorker hs rfl ((hs w).settled hpc rfl rfl rfl rfl)
    · rw [← Option.some.inj h]
      exact balanced_setWorker hs rfl ((hs w).pull hpc _ _ _)
  | splice ft batch tickle_me | spliceStolen ft batch tickle_me =>
    rw [runStep] at h
    simp only [hpc] at h
    rw [← Option.some.inj h]
    refine balanced_setWorker hs rfl ((hs w).same rfl ?_ ?_ ?_)
    · rw [hpc]
      exact funext fun source => by cases source <;> rfl
    · rw [hpc]
      rfl
    · rw [hpc, List.length_append]
      exact Nat.le_refl _
  | stealTask tickle_me =>
    rw [runStep] at h
    simp only [hpc] at h
    split_ifs at h
    · rw [← Option.some.inj h]
      have hattempt := (hs w).attempt hpc []
      exact balanced_setWorker hs rfl (hattempt.fail rfl)
    · rw [← Option.some.inj h]
      exact balanced_setWorker hs rfl ((hs w).attempt hpc _)
  | gotTask source ft tickle_me =>
    rw [runStep] at h
    simp only [hpc] at h
    rw [← Option.some.inj h]
    exact balanced_setWorker hs rfl ((hs w).execute hpc)
  | swapIn ft =>
    rw [runStep] at h
    simp only [hpc] at h
    exact balanced_swapIn hs hpc h
  | returned f b =>
    rw [runStep] at h
    simp only [hpc] at h
    rw [← Option.some.inj h]
    exact balanced_afterSwap hs hpc
  | active ft tickle_me | noTask tickle_me =>
    rw [runStep] at h
    simp only [hpc] at h
    rw [← Option.some.inj h, tickleIf_eq]
    exact balanced_setWorker hs rfl ((hs w).settled hpc rfl rfl rfl rfl)
  | switched f b | woken tickled | dispatch | idleReturned =>
    rw [runStep] at h
    simp only [hpc] at h
    rw [← Option.some.inj h]
    exact balanced_setWorker hs rfl ((hs w).settled hpc rfl rfl rfl rfl)
  | preIdle =>
    rw [runStep] at h
    simp only [hpc] at h
    split_ifs at h <;> rw [← Option.some.inj h] <;>
      exact balanced_setWorker hs rfl ((hs w).settled hpc rfl rfl rfl rfl)
  | epollWait =>
    rw [runStep] at h
    simp only [hpc] at h
    rw [← Option.some.inj h]
    refine balanced_setWorker hs rfl ((hs w).settled hpc rfl ?_ rfl rfl)
    simp only
    split_ifs <;> rfl
  | stopping k =>
    rw [runStep] at h
    simp only [hpc, nextEmpty] at h
    split_ifs at h <;> rw [← Option.some.inj h] <;>
      exact balanced_setWorker hs rfl ((hs w).settled hpc rfl rfl rfl rfl)
  | running _ _ | idle | blocked | exited => rw [runStep] at h; simp only [hpc, reduceCtorEq] at h

theorem Pc.settled_of_inUserCode {pc : Pc n} (h : pc.inUserCode = true) : pc.settled = true := by
  cases pc with
  | running f b => rfl
  | woken tickled => rfl
  | dispatch => rfl
  | _ => exact nomatch h

/-- **A step.** -/
theorem balanced_step {tid : Fin n → Int} {s t : State n} {a : Action n}
    (hs : ∀ w, (s.workers w).Balanced) (h : step tid s a = some t) :
    ∀ w, (t.workers w).Balanced := by
  cases step_cases h with
  | @schedule_local w force_global fiber cb stats calling hpc hcalling =>
    have hsettled := Pc.settled_of_inUserCode hpc
    rw [step] at h
    split_ifs at h with hcall hforce
    · -- forced to the global queue
      rw [← Option.some.inj h]
      split_ifs
      · exact balanced_setWorker (u := (s.scheduleGlobalNoLock fiber cb (-1)).1) hs rfl
          ((hs w).same rfl rfl rfl (Nat.le_refl _))
      · exact hs
    · rw [← Option.some.inj h, scheduleNoLock, if_pos rfl]
      have hpush := (hs w).push _ hsettled hsettled ⟨s.nextTicket, fiber, cb, -1⟩
        (s.workers w).cb_fiber
      simp only [scheduleLocal, setWorker, Function.update_self, Function.update_idem]
      split_ifs
      · exact balanced_setWorker hs rfl (hpush (some s.nextTicket))
      · exact balanced_setWorker hs rfl (hpush (s.workers w).calling)
  | @schedule_global w force_global fiber cb thread calling hpc hcalling hglobal hcall =>
    exact balanced_setWorker hs rfl ((hs w).same rfl rfl rfl (Nat.le_refl _))
  | @idle w ioIdle hpc hq | @idle_stopping w hpc hq | @wake w tickled hpc =>
    exact balanced_setWorker hs rfl ((hs w).settled hpc rfl rfl rfl rfl)
  | @yieldToHold w f b hpc | @yield w f b st hpc hst =>
    exact balanced_setWorker hs rfl ((hs w).settled hpc rfl rfl rfl rfl)
  | @tickle w hcall =>
    rw [tickle_eq]
    exact balanced_setWorker hs rfl ((hs w).same rfl rfl rfl (Nat.le_refl _))
  | tickleOther hcall | tickleExtra =>
    rw [tickle_eq]
    exact hs
  | newFiber | scheduleOther calls hcalls | stop | stopCall_false | stopCall hcall hq
  | stopCall_next hk hcall hempty => exact hs
  | _ =>
    rw [step] at h
    split_ifs at h
    exact balanced_run hs h

theorem balanced_init (w : Fin n) : ((init n).workers w).Balanced :=
  ⟨rfl, rfl, rfl, rfl, Nat.le_refl 0, Nat.le_refl 0, Nat.le_refl 0⟩

/-- **The statistics add up**, for every number of workers, whatever is scheduled and in every
order of the steps: whenever a worker is between two iterations. -/
theorem adds_up (tid : Fin n → Int) (as : List (Action n)) :
    Transition.Throughout (step tid)
      (fun s => ∀ w, (s.workers w).pc = .popLocal → (s.workers w).stats.AddsUp) (init n) as :=
  Transition.along_true.throughout (I := fun s => ∀ w, (s.workers w).Balanced)
    (fun _ _ _ hs _ h => balanced_step hs h) (fun _ hs w hpc => (hs w).addsUp hpc) balanced_init

end Scheduler

end FiberServer
