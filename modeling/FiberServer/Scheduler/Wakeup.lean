import FiberServer.Scheduler.Counters

/-!
# Waking up a worker for a global task

`schedule()` pushes under `m_mutex` and calls `tickle()` afterwards;
`IOManager::tickle()` writes a byte only if `m_idleThreadCount` is not 0; a worker
increments `m_idleThreadCount` after its last look at `m_fibers`.  A task is
stranded when its `schedule()` has returned and every worker is blocked in
`epoll_wait` with no byte in the pipe.

* `not_stranded`: no task is stranded in a run in which no `schedule()` returns
  without having written a byte while every worker is between its last look at
  `m_fibers` and `++m_idleThreadCount`.
* `strandedRun_stranded`: a run that strands a task.
-/

namespace FiberServer

namespace Scheduler

open State

variable {n : Nat}

/-- After the last look at `m_fibers`, before `++m_idleThreadCount`. -/
def Pc.inWindow : Pc n → Bool
  | .stealTask _ | .steal _ _ | .noTask _ | .preIdle => true
  | _ => false

/-- In `idle()`, on the way to `epoll_wait`. -/
def Pc.asleep : Pc n → Bool
  | .idle | .stopping _ | .epollWait | .blocked => true
  | _ => false

/-- The worker may block without another look at `m_fibers`. -/
def Pc.pastLook (pc : Pc n) : Bool := pc.inWindow || pc.asleep

/-- The `schedule()` call that queued `x` has returned. -/
def finished (s : State n) (x : FiberAndThread) : Prop :=
  x.ticket ∉ s.calls ∧ ∀ w, (s.workers w).calling ≠ some x.ticket

/-- A task is stranded. -/
def Stranded (s : State n) : Prop :=
  (∃ x ∈ s.m_fibers, x.thread = -1 ∧ finished s x) ∧
    (∀ w, (s.workers w).pc = .blocked) ∧ s.tickleFds = 0

/-- The `need_tickle` of a push to the global queue. -/
def needTickle (s : State n) : Bool := s.m_fibers.isEmpty || s.m_idleThreadCount != 0

/-- In this step a `schedule()` of an unpinned task that is in `m_fibers` returns
and has not written a byte: it does not call `tickle()`, or `tickle()` sees no
idle thread. -/
def returnsSilently (s : State n) : Action n → Prop
  | .schedule _ force_global _ _ thread => force_global ∧ thread = -1 ∧ needTickle s = false
  | .scheduleOther _ _ thread => thread = -1 ∧ needTickle s = false
  | .tickle w => s.m_idleThreadCount = 0 ∧
      ∃ x ∈ s.m_fibers, x.thread = -1 ∧ (s.workers w).calling = some x.ticket
  | .tickleOther ticket => s.m_idleThreadCount = 0 ∧
      ∃ x ∈ s.m_fibers, x.thread = -1 ∧ x.ticket = ticket
  | _ => False

instance (s : State n) (a : Action n) : Decidable (returnsSilently s a) :=
  match a with
  | .schedule _ force_global _ _ thread =>
    inferInstanceAs (Decidable (force_global = true ∧ thread = -1 ∧ needTickle s = false))
  | .scheduleOther _ _ thread =>
    inferInstanceAs (Decidable (thread = -1 ∧ needTickle s = false))
  | .tickle w => inferInstanceAs (Decidable (s.m_idleThreadCount = 0 ∧
      ∃ x ∈ s.m_fibers, x.thread = -1 ∧ (s.workers w).calling = some x.ticket))
  | .tickleOther ticket => inferInstanceAs (Decidable (s.m_idleThreadCount = 0 ∧
      ∃ x ∈ s.m_fibers, x.thread = -1 ∧ x.ticket = ticket))
  | .run _ | .idle _ _ | .wake _ _ | .yield _ _ | .newFiber | .tickleExtra | .stop | .stopping =>
    .isFalse id

/-- The step is not a silent return that falls into the window of every worker. -/
def SeenBySome (s : State n) (a : Action n) : Prop :=
  returnsSilently s a → ∃ w, (s.workers w).pc.inWindow = false

instance (s : State n) (a : Action n) : Decidable (SeenBySome s a) :=
  inferInstanceAs (Decidable (_ → _))

/-! ### The invariant -/

/-- For every task whose `schedule()` has returned there is a byte in the pipe or
a worker that will look at `m_fibers` before it blocks. -/
def Watched (s : State n) : Prop :=
  ∀ x ∈ s.m_fibers, x.thread = -1 → finished s x →
    0 < s.tickleFds ∨ ∃ w, (s.workers w).pc.pastLook = false

theorem Watched.tasks_seen {s : State n} (hs : Watched s) : ¬ Stranded s := by
  rintro ⟨⟨x, hx, hthread, hfin⟩, hblocked, hpipe⟩
  rcases hs x hx hthread hfin with hbyte | ⟨w, hw⟩
  · omega
  · rw [hblocked w] at hw
    exact absurd hw Bool.noConfusion

theorem watched_init : Watched (init n) := by
  intro x hx
  exact absurd hx (by simp [init])

/-- A worker that will look again watches every task. -/
theorem watched_of_look {t : State n} (w : Fin n) (h : (t.workers w).pc.pastLook = false) :
    Watched t :=
  fun _ _ _ _ => .inr ⟨w, h⟩

/-- With no idle thread, a worker outside the window will look again. -/
theorem look_of_idle_zero {s : State n} (hs : Counters s) (h0 : s.m_idleThreadCount = 0)
    {w : Fin n} (hw : (s.workers w).pc.inWindow = false) : (s.workers w).pc.pastLook = false := by
  have hidle : (s.workers w).pc.isIdle = false := by
    rw [hs.idle] at h0
    exact Tally.tally_eq_zero h0 w
  cases hpc : (s.workers w).pc <;> rw [hpc] at hw hidle <;>
    simp_all [Pc.pastLook, Pc.inWindow, Pc.asleep, Pc.isIdle]

/-- A step in which one worker goes on past its last look. -/
theorem watched_of_update {s t : State n} (hs : Watched s) (w : Fin n) {y : Worker n}
    (hw : t.workers = Function.update s.workers w y) (hm : t.m_fibers = s.m_fibers)
    (hcalls : t.calls = s.calls) (hcalling : y.calling = (s.workers w).calling)
    (hpipe : s.tickleFds ≤ t.tickleFds) (hpc : (s.workers w).pc.pastLook) : Watched t := by
  intro x hx hthread hfin
  rw [hm] at hx
  have hfin' : finished s x := by
    refine ⟨hcalls ▸ hfin.1, fun v hv => ?_⟩
    have hv' := hfin.2 v
    rw [hw] at hv'
    by_cases hvw : v = w
    · subst hvw
      rw [Function.update_self, hcalling] at hv'
      exact hv' hv
    · rw [Function.update_of_ne hvw] at hv'
      exact hv' hv
  rcases hs x hx hthread hfin' with hbyte | ⟨v, hv⟩
  · exact .inl (by omega)
  · have hvw : v ≠ w := by
      rintro rfl
      rw [hpc] at hv
      exact absurd hv (by decide)
    exact .inr ⟨v, by rw [hw, Function.update_of_ne hvw]; exact hv⟩

theorem watched_of_eq {s t : State n} (hs : Watched s) (hw : t.workers = s.workers)
    (hm : t.m_fibers = s.m_fibers) (hcalls : t.calls = s.calls)
    (hpipe : s.tickleFds ≤ t.tickleFds) : Watched t := by
  intro x hx hthread hfin
  rw [hm] at hx
  rw [finished, hcalls, hw] at hfin
  rcases hs x hx hthread hfin with hbyte | hlook
  · exact .inl (by omega)
  · exact .inr (by rw [hw]; exact hlook)

theorem le_tickle (s : State n) : s.tickleFds ≤ s.tickle.tickleFds := by
  rw [State.tickle]
  split_ifs
  · exact Nat.le_refl _
  · exact Nat.le_succ _

theorem le_tickleIf (s : State n) (t : Bool) : s.tickleFds ≤ (s.tickleIf t).tickleFds := by
  cases t with
  | false => exact Nat.le_refl _
  | true => exact le_tickle s

/-- A failing look at `m_fibers` leaves behind only tasks of fibers in `EXEC`, and
the worker that executes such a fiber will look again. -/
theorem watched_of_failed_look {tid : Fin n → Int} {s t : State n} (hex : Executor s) {w : Fin n}
    {y : Worker n} (hpc : (s.workers w).pc = .popGlobal)
    (hft : (popGlobalTask s.m_state (tid w) s.m_fibers).ft = none)
    (hw : t.workers = Function.update s.workers w y) (hm : t.m_fibers = s.m_fibers) :
    Watched t := by
  intro x hx hthread _
  rw [hm] at hx
  have hexec := (popGlobalTask_none hft).2 x hx hthread
  rw [isExec, Option.any_eq_true] at hexec
  obtain ⟨f, -, hf⟩ := hexec
  obtain ⟨v, hv⟩ := hex f (by simpa using hf)
  have hvw : v ≠ w := by
    rintro rfl
    rw [hpc] at hv
    exact absurd hv Bool.false_ne_true
  refine .inr ⟨v, ?_⟩
  rw [hw, Function.update_of_ne hvw]
  cases hv' : (s.workers v).pc <;> rw [hv'] at hv <;> first | rfl | cases hv

/-- A `tickle()` at the end of the `schedule()` call with ticket `k`. -/
theorem watched_of_tickle {s t : State n} (hc : Counters s) (hs : Watched s) {k : Nat}
    (hpc : ∀ w, (t.workers w).pc = (s.workers w).pc) (hm : t.m_fibers = s.m_fibers)
    (hpipe : t.tickleFds = s.tickle.tickleFds)
    (hfin : ∀ x, finished t x → x.ticket ≠ k → finished s x)
    (hseen : s.m_idleThreadCount = 0 → (∃ x ∈ s.m_fibers, x.thread = -1 ∧ x.ticket = k) →
      ∃ w, (s.workers w).pc.inWindow = false) : Watched t := by
  intro x hx hthread hfx
  rw [hm] at hx
  by_cases h0 : s.m_idleThreadCount = 0
  · have hlook : 0 < s.tickleFds ∨ ∃ w, (s.workers w).pc.pastLook = false := by
      by_cases hk : x.ticket = k
      · obtain ⟨w, hw⟩ := hseen h0 ⟨x, hx, hthread, hk⟩
        exact .inr ⟨w, look_of_idle_zero hc h0 hw⟩
      · exact hs x hx hthread (hfin x hfx hk)
    rcases hlook with hbyte | ⟨w, hw⟩
    · have hle := le_tickle s
      exact .inl (by omega)
    · exact .inr ⟨w, by rw [hpc]; exact hw⟩
  · rw [State.tickle, if_neg h0] at hpipe
    exact .inl (by rw [hpipe]; exact Nat.succ_pos _)

/-- A push by a thread that is not a worker. -/
theorem watched_of_push {s t : State n} (hc : Counters s) (hs : Watched s) {ft : FiberAndThread}
    (hticket : ft.ticket = s.nextTicket) (hw : t.workers = s.workers)
    (hm : t.m_fibers = s.m_fibers ++ [ft]) (hpipe : t.tickleFds = s.tickleFds)
    (hcalls : t.calls = if needTickle s then s.nextTicket :: s.calls else s.calls)
    (hseen : ft.thread = -1 → needTickle s = false → ∃ w, (s.workers w).pc.inWindow = false) :
    Watched t := by
  intro x hx hthread hfin
  rw [hm, List.mem_append, List.mem_singleton] at hx
  rw [finished, hcalls, hw] at hfin
  rw [hpipe, hw]
  cases hneed : needTickle s with
  | true =>
    rw [hneed, if_pos rfl, List.mem_cons, not_or] at hfin
    rcases hx with hx | rfl
    · exact hs x hx hthread ⟨hfin.1.2, hfin.2⟩
    · exact absurd hticket hfin.1.1
  | false =>
    rw [hneed] at hfin
    rcases hx with hx | rfl
    · exact hs x hx hthread hfin
    · obtain ⟨w, hw⟩ := hseen hthread hneed
      rw [needTickle, Bool.or_eq_false_iff] at hneed
      exact .inr ⟨w, look_of_idle_zero hc (by simpa using hneed.2) hw⟩

theorem watched_of_update_look {s t : State n} (w : Fin n) {y : Worker n}
    (hw : t.workers = Function.update s.workers w y) (hy : y.pc.pastLook = false) : Watched t :=
  watched_of_look w (by rw [hw, Function.update_self]; exact hy)

theorem look_of_inUserCode {pc : Pc n} (h : pc.inUserCode) : pc.pastLook = false := by
  cases pc <;> first | rfl | exact absurd h Bool.false_ne_true

theorem watched_step {tid : Fin n → Int} {s t : State n} {a : Action n} (hc : Counters s)
    (hex : Executor s) (hs : Watched s) (hseen : SeenBySome s a) (h : Step tid s a t) :
    Watched t := by
  cases h with
  | @popGlobal_none w hpc hft =>
    exact watched_of_failed_look hex hpc hft rfl (popGlobalTask_none hft).1
  | @scheduleOther fiber cb thread calls hcalls =>
    exact watched_of_push hc hs rfl rfl rfl rfl hcalls fun h1 h2 => hseen ⟨h1, h2⟩
  | @tickle w hcall =>
    obtain ⟨k, hk⟩ := Option.isSome_iff_exists.mp hcall
    have hpc : ∀ v, ((s.tickle.setWorker w { s.workers w with calling := none }).workers v).pc
        = (s.workers v).pc := by
      intro v
      rw [tickle_eq]
      by_cases hvw : v = w
      · subst hvw
        simp only [setWorker, Function.update_self]
      · simp only [setWorker, Function.update_of_ne hvw]
    have hseen' : s.m_idleThreadCount = 0 →
        (∃ x ∈ s.m_fibers, x.thread = -1 ∧ x.ticket = k) →
        ∃ w, (s.workers w).pc.inWindow = false := by
      rintro h0 ⟨x, hx, hthread, hxk⟩
      exact hseen ⟨h0, x, hx, hthread, by rw [hk, hxk]⟩
    refine watched_of_tickle hc hs hpc (by rw [tickle_eq]; rfl) rfl (fun x hx hxk => ?_) hseen'
    rw [tickle_eq] at hx
    refine ⟨hx.1, fun v hv => ?_⟩
    by_cases hvw : v = w
    · subst hvw
      rw [hk] at hv
      exact hxk (Option.some.inj hv).symm
    · have hv' := hx.2 v
      simp only [setWorker, Function.update_of_ne hvw] at hv'
      exact hv' hv
  | @tickleOther ticket hcall =>
    refine watched_of_tickle hc hs (fun _ => by rw [tickle_eq]) (by rw [tickle_eq]) rfl
      (fun x hx hxk => ?_) fun h0 hx => hseen ⟨h0, hx⟩
    rw [tickle_eq] at hx
    exact ⟨fun hmem => hx.1 ((List.mem_erase_of_ne hxk).mpr hmem), hx.2⟩
  | tickleExtra =>
    have hle := le_tickle s
    rw [tickle_eq] at hle ⊢
    exact watched_of_eq hs rfl rfl rfl hle
  | newFiber | stop | stopCall_false | stopCall _ _ | stopCall_next _ _ _ =>
    exact watched_of_eq hs rfl rfl rfl (Nat.le_refl _)
  | @schedule_local w _ _ _ _ _ hpc _ | @schedule_global w _ _ _ _ _ hpc _ _ _ =>
    exact watched_of_update_look w rfl (look_of_inUserCode hpc)
  | @noTask w t hpc =>
    have hle := le_tickleIf s t
    rw [tickleIf_eq] at hle ⊢
    exact watched_of_update hs w rfl rfl rfl rfl hle (by rw [hpc]; rfl)
  | @active w _ t hpc =>
    rw [tickleIf_eq]
    exact watched_of_update_look w rfl rfl
  | @steal_on w pc' next stats hpc hpc' =>
    refine watched_of_update hs w rfl rfl rfl rfl (Nat.le_refl _) ?_
    rcases hpc with ⟨_, hpc⟩ | ⟨_, _, hpc⟩ <;> rw [hpc] <;> rfl
  | @steal_some w v vs t ft stolen stats pc' hpc hst hpc' =>
    refine watched_of_update_look w rfl ?_
    rcases hpc' with rfl | ⟨_, rfl⟩ <;> rfl
  -- from one point past the last look to another
  | @preIdle w hpc | @idle w _ hpc _ | @idle_stopping w hpc _ | @stopping_next w _ _ hpc _
  | @stopping_false w _ hpc | @epollWait_block w hpc _ =>
    exact watched_of_update hs w rfl rfl rfl rfl (Nat.le_refl _) (by rw [hpc]; rfl)
  -- to a point from which the worker will look again
  | @popLocal_some w _ _ _ | @popLocal_none w _ _ | @popGlobal_some w _ _ _ _ _
  | @popGlobal_batch w _ _ _ _ | @splice w _ _ _ _ | @spliceStolen w _ _ _ _
  | @gotTask w _ _ _ _ _ | @swapIn w _ _ _ _ _ _ | @swapIn_ended w _ _ _ | @switched w _ _ _
  | @returned_ready w _ _ _ _ _ _ _ _ | @returned w _ _ _ _ _ _ _ | @exit w _ _
  | @stopping_true w _ _ _ | @epollWait_woken w _ | @wake w _ _ | @woken w _ _ _ | @dispatch w _
  | @idleReturned w _ | @yieldToHold w _ _ _ | @yield w _ _ _ _ _ =>
    exact watched_of_update_look w rfl rfl

/-! ### Runs -/

/-- **No task is stranded** in a run in which no `schedule()` of an unpinned task
returns without a byte while every worker is in the window. -/
theorem not_stranded (tid : Fin n → Int) {as : List (Action n)} {t : State n}
    (hseen : Transition.Along (step tid) SeenBySome (init n) as)
    (h : Transition.exec (step tid) (init n) as = some t) : ¬ Stranded t := by
  have hinv : ∀ (s : State n) (a : Action n) (u : State n),
      Counters s ∧ Executor s ∧ Watched s → SeenBySome s a → step tid s a = some u →
      Counters u ∧ Executor u ∧ Watched u := by
    intro s a u ⟨hc, hex, hw⟩ ha hsu
    have hstep := step_cases hsu
    exact ⟨counters_step hc hstep, executor_step hex hstep, watched_step hc hex hw ha hstep⟩
  have ht := Transition.along_invariant hinv ⟨counters_init, executor_init, watched_init⟩ hseen h
  exact Watched.tasks_seen ht.2.2

attribute [local instance] neZero_one

/-- The `tickle()` writes nothing, but the worker has not looked yet. -/
def seenRun : List (Action 1) :=
  [.run 0, .scheduleOther none (some 7) (-1), .tickleOther 0, .run 0]

theorem not_stranded_seenRun :
    ∃ t, Transition.exec (step fun w => (w : Int)) (init 1) seenRun = some t ∧ ¬ Stranded t :=
  ⟨_, rfl, not_stranded (fun w => (w : Int))
    (show Transition.Along (step fun w => (w : Int)) SeenBySome (init 1) seenRun by decide) rfl⟩

/-- One worker has looked at `m_fibers` when another thread pushes a task; that
thread calls `tickle()` before the worker increments `m_idleThreadCount`. -/
def strandedRun : List (Action 1) :=
  [.run 0, .run 0, .scheduleOther none (some 7) (-1), .tickleOther 0,
   .run 0, .run 0, .run 0, .idle 0 false, .run 0]

theorem strandedRun_stranded :
    ∃ t, Transition.exec (step fun w => (w : Int)) (init 1) strandedRun = some t ∧ Stranded t :=
  ⟨_, rfl, ⟨⟨0, none, some 7, -1⟩, by decide, rfl, by decide, by decide⟩, by decide, by decide⟩

end Scheduler

end FiberServer
