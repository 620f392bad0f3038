import FiberServer.Scheduler.Step
import FiberServer.Library.Tally

/-!
# Where a task is

Every item that was put in a queue is counted: in `m_fibers`, in a run queue, in
the hands of a worker, or in one of the records `executed`, `ended` and
`dropped`.  `step_count` says that no step changes this balance, so an item that
is forgotten is an item of `dropped`, and only `popLocalTask` puts one there.

* `conserved_exec`: the balance in every reachable state.
* `kept_iff_no_exec_at_head`: a run keeps every task exactly when no worker calls
  `popLocalTask` with a fiber in `EXEC` at the head of its run queue.
-/

namespace FiberServer

namespace Scheduler

open State

variable {n : Nat}

/-- The items in the locals `ft`, `batch` and `stolen` of a worker. -/
def Pc.hands : Pc n → List FiberAndThread
  | .splice ft batch _ => ft :: batch
  | .spliceStolen ft stolen _ => ft :: stolen
  | .gotTask _ ft _ => [ft]
  | .active ft _ => [ft]
  | .swapIn ft => [ft]
  | _ => []

/-- How often `x` is in the run queue or in the hands of a worker. -/
def Worker.holds (x : FiberAndThread) (y : Worker n) : Nat :=
  y.run_queue.count x + y.pc.hands.count x

/-- The number of places in which `x` is. -/
def places (s : State n) (x : FiberAndThread) : Nat :=
  s.m_fibers.count x + ∑ w, (s.workers w).holds x

/-- The number of times `x` was taken out for good. -/
def gone (s : State n) (x : FiberAndThread) : Nat :=
  s.executed.count x + s.ended.count x + s.dropped.count x

/-! ### The balance -/

/-- A step that changes one worker keeps the balance if that worker, the global
queue and the records do. -/
theorem balance_of_update {s t : State n} {x : FiberAndThread} (w : Fin n) {y : Worker n}
    (hw : t.workers = Function.update s.workers w y)
    (hy : t.m_fibers.count x + y.holds x + gone t x + s.enqueued.count x
      = s.m_fibers.count x + (s.workers w).holds x + gone s x + t.enqueued.count x) :
    places t x + gone t x + s.enqueued.count x
      = places s x + gone s x + t.enqueued.count x := by
  have hsum := Tally.sum_update (Worker.holds x) s.workers w y
  rw [places, places, hw]
  omega

/-- A worker that goes on with the same items in its hands. -/
theorem balance_of_goto {s t : State n} {x : FiberAndThread} (w : Fin n) {y : Worker n}
    (hw : t.workers = Function.update s.workers w y)
    (hq : y.run_queue = (s.workers w).run_queue) (hh : y.pc.hands = (s.workers w).pc.hands)
    (hm : t.m_fibers = s.m_fibers) (hg : gone t x = gone s x) (he : t.enqueued = s.enqueued) :
    places t x + gone t x + s.enqueued.count x
      = places s x + gone s x + t.enqueued.count x := by
  refine balance_of_update w hw ?_
  rw [Worker.holds, Worker.holds, hq, hh, hm, hg, he]

/-- A step that leaves the workers alone. -/
theorem balance_of_eq {s t : State n} {x : FiberAndThread} (hw : t.workers = s.workers)
    (hm : t.m_fibers = s.m_fibers) (hg : gone t x = gone s x) (he : t.enqueued = s.enqueued) :
    places t x + gone t x + s.enqueued.count x
      = places s x + gone s x + t.enqueued.count x := by
  rw [places, places, hw, hm, hg, he]

theorem tickle_eq (s : State n) : s.tickle = { s with tickleFds := s.tickle.tickleFds } := by
  rw [State.tickle]
  split_ifs <;> rfl

theorem tickleIf_eq (s : State n) (t : Bool) :
    s.tickleIf t = { s with tickleFds := (s.tickleIf t).tickleFds } := by
  cases t with
  | false => rfl
  | true => exact tickle_eq s

/-- Stealing moves items from the victim to the hands of the thief, which may be
the same worker. -/
theorem steal_count {s : State n} {x : FiberAndThread} {w v : Fin n} {vs : List (Fin n)}
    {tickle_me : Bool} {ft : FiberAndThread} {stolen : List FiberAndThread}
    {stats : ProcessorStats} {pc' : Pc n} (hpc : (s.workers w).pc = .steal (v :: vs) tickle_me)
    (hst : (stealVictim s.m_state (s.workers v).run_queue).1 = ft :: stolen)
    (hpc' : pc' = .spliceStolen ft stolen tickle_me
      ∨ stolen = [] ∧ pc' = .gotTask .STEAL ft tickle_me) :
    let s' := s.setWorker v { s.workers v with
      run_queue := (stealVictim s.m_state (s.workers v).run_queue).2 }
    let t := s'.setWorker w { s'.workers w with pc := pc', stats := stats }
    places t x + gone t x + s.enqueued.count x = places s x + gone s x + t.enqueued.count x := by
  intro s' t
  have hvictim : (∑ i, (s'.workers i).holds x)
      + ((s.workers v).run_queue.count x + (s.workers v).pc.hands.count x)
      = (∑ i, (s.workers i).holds x)
        + ((stealVictim s.m_state (s.workers v).run_queue).2.count x
          + (s.workers v).pc.hands.count x) :=
    Tally.sum_update (Worker.holds x) s.workers v _
  have hthief : (∑ i, (t.workers i).holds x)
      + ((s'.workers w).run_queue.count x + (s'.workers w).pc.hands.count x)
      = (∑ i, (s'.workers i).holds x)
        + ((s'.workers w).run_queue.count x + pc'.hands.count x) :=
    Tally.sum_update (Worker.holds x) s'.workers w _
  have hsteal := stealVictim_count s.m_state (s.workers v).run_queue x
  have hempty : (s'.workers w).pc.hands = [] := by
    rw [victim_pc, hpc]
    rfl
  have hhands : pc'.hands = ft :: stolen := by
    rcases hpc' with rfl | ⟨rfl, rfl⟩ <;> rfl
  rw [hst] at hsteal
  rw [hempty, hhands, List.count_nil] at hthief
  show s.m_fibers.count x + (∑ i, (t.workers i).holds x) + gone s x + s.enqueued.count x
    = s.m_fibers.count x + (∑ i, (s.workers i).holds x) + gone s x + s.enqueued.count x
  omega

/-- **No step creates or loses an item**: what a step adds to the places of `x`
and to the records is what it adds to `enqueued`. -/
theorem step_count {tid : Fin n → Int} {s t : State n} {a : Action n} (h : Step tid s a t)
    (x : FiberAndThread) :
    places t x + gone t x + s.enqueued.count x = places s x + gone s x + t.enqueued.count x := by
  cases h with
  | @popLocal_some w ft hpc hft =>
    have hpop := popLocalTask_count s.m_state (s.workers w).run_queue x
    rw [hft] at hpop
    refine balance_of_update w rfl ?_
    simp only [setWorker, Worker.holds, gone, hpc, Pc.hands, Option.toList_some,
      List.count_append, List.count_nil] at hpop ⊢
    omega
  | @popLocal_none w hpc hft =>
    have hpop := popLocalTask_count s.m_state (s.workers w).run_queue x
    rw [hft] at hpop
    refine balance_of_update w rfl ?_
    simp only [setWorker, Worker.holds, gone, hpc, Pc.hands, Option.toList_none,
      List.count_append, List.count_nil] at hpop ⊢
    omega
  | @popGlobal_none w hpc hft =>
    rw [(popGlobalTask_none hft).1]
    exact balance_of_goto w rfl rfl (by rw [hpc]; rfl) rfl rfl rfl
  | @popGlobal_some w ft stats hpc hft hb =>
    have hpop := popGlobalTask_count s.m_state (tid w) s.m_fibers x
    rw [hft, hb] at hpop
    refine balance_of_update w rfl ?_
    simp only [setWorker, Worker.holds, gone, hpc, Pc.hands, Option.toList_some,
      List.count_nil] at hpop ⊢
    omega
  | @popGlobal_batch w ft stats hpc hft =>
    have hpop := popGlobalTask_count s.m_state (tid w) s.m_fibers x
    rw [hft] at hpop
    refine balance_of_update w rfl ?_
    simp only [setWorker, Worker.holds, gone, hpc, Pc.hands, Option.toList_some,
      List.count_nil, List.count_cons] at hpop ⊢
    omega
  | @splice w ft batch t hpc =>
    refine balance_of_update w rfl ?_
    simp only [setWorker, Worker.holds, gone, hpc, Pc.hands, List.count_append, List.count_cons,
      List.count_nil]
    omega
  | @spliceStolen w ft stolen t hpc =>
    refine balance_of_update w rfl ?_
    simp only [setWorker, Worker.holds, gone, hpc, Pc.hands, List.count_append, List.count_cons,
      List.count_nil]
    omega
  | @steal_on w pc' next stats hpc hpc' =>
    refine balance_of_goto w rfl rfl ?_ rfl rfl rfl
    rcases hpc with ⟨_, hpc⟩ | ⟨_, _, hpc⟩ <;>
      rcases hpc' with ⟨_, _, rfl⟩ | ⟨_, rfl⟩ <;> rw [hpc] <;> rfl
  | @steal_some w v vs t ft stolen stats pc' hpc hst hpc' => exact steal_count hpc hst hpc'
  | @gotTask w source ft t stats hpc =>
    exact balance_of_goto w rfl rfl (by rw [hpc]; rfl) rfl rfl rfl
  | @active w ft t hpc =>
    rw [tickleIf_eq]
    exact balance_of_goto w rfl rfl (by rw [hpc]; rfl) rfl rfl rfl
  | @swapIn w ft f nextFiber is_cb cb_fiber hpc =>
    refine balance_of_update w rfl ?_
    simp only [setWorker, setState, Worker.holds, gone, hpc, Pc.hands, List.count_cons,
      List.count_nil]
    omega
  | @swapIn_ended w ft hpc hended =>
    refine balance_of_update w rfl ?_
    simp only [goto, setWorker, Worker.holds, gone, hpc, Pc.hands, List.count_cons, List.count_nil]
    omega
  | @returned_ready w f is_cb stats cb_fiber calling hpc hst hcalling =>
    refine balance_of_update w rfl ?_
    simp only [setWorker, Worker.holds, gone, hpc, Pc.hands, List.count_cons, List.count_append,
      List.count_nil]
    omega
  | @noTask w t hpc =>
    rw [tickleIf_eq]
    exact balance_of_goto w rfl rfl (by rw [hpc]; rfl) rfl rfl rfl
  | @schedule_local w force_global fiber cb stats calling hpc hcalling =>
    refine balance_of_update w rfl ?_
    simp only [setWorker, Worker.holds, gone, List.count_cons, List.count_append, List.count_nil]
    omega
  | @schedule_global w force_global fiber cb thread calling hpc hcalling hglobal hcall =>
    refine balance_of_update w rfl ?_
    simp only [setWorker, Worker.holds, gone, List.count_cons, List.count_append, List.count_nil]
    omega
  | scheduleOther calls hcalls =>
    simp only [places, gone, List.count_cons, List.count_append, List.count_nil]
    omega
  | @tickle w hcall =>
    rw [tickle_eq]
    exact balance_of_goto w rfl rfl rfl rfl rfl rfl
  | tickleOther hcall =>
    rw [tickle_eq]
    exact balance_of_eq rfl rfl rfl rfl
  | tickleExtra =>
    rw [tickle_eq]
    exact balance_of_eq rfl rfl rfl rfl
  | newFiber | stop | stopCall_false | stopCall _ _ | stopCall_next _ _ _ =>
    exact balance_of_eq rfl rfl rfl rfl
  | @switched w _ _ hpc | @returned w _ _ _ _ hpc _ _ | @exit w hpc _ | @preIdle w hpc
  | @idle w _ hpc _ | @idle_stopping w hpc _ | @stopping_next w _ _ hpc _ | @stopping_false w _ hpc
  | @stopping_true w _ _ hpc | @epollWait_block w hpc _ | @epollWait_woken w hpc | @wake w _ hpc
  | @woken w _ _ hpc | @dispatch w hpc | @idleReturned w hpc | @yieldToHold w _ _ hpc
  | @yield w _ _ _ hpc _ =>
    exact balance_of_goto w rfl rfl (by rw [hpc]; rfl) rfl rfl rfl

/-- The items that `popLocalTask` throws away in a step. -/
def discarded (s : State n) : Action n → List FiberAndThread
  | .run w =>
    if (s.workers w).pc = .popLocal then (s.workers w).run_queue.takeWhile (isExec s.m_state)
    else []
  | _ => []

theorem discarded_of_pc {s : State n} {w : Fin n} {pc : Pc n} (hpc : (s.workers w).pc = pc)
    (h : pc ≠ .popLocal) : discarded s (.run w) = [] := by
  rw [discarded, hpc, if_neg h]

theorem step_dropped {tid : Fin n → Int} {s t : State n} {a : Action n} (h : Step tid s a t) :
    t.dropped = discarded s a ++ s.dropped := by
  cases h with
  | popLocal_some hpc _ | popLocal_none hpc _ => rw [discarded, if_pos hpc]
  | steal_on _ _ _ hpc _ =>
    rcases hpc with ⟨_, hpc⟩ | ⟨_, _, hpc⟩ <;> rw [discarded_of_pc hpc (by simp)] <;> rfl
  | active hpc | noTask hpc => rw [discarded_of_pc hpc (by simp), tickleIf_eq]; rfl
  | tickle _ | tickleOther _ | tickleExtra => rw [tickle_eq]; rfl
  | popGlobal_none hpc _ | popGlobal_some _ hpc _ _ | popGlobal_batch _ hpc _ | splice hpc
  | steal_some _ _ hpc _ _ | spliceStolen hpc | gotTask _ hpc | swapIn _ _ _ _ hpc
  | swapIn_ended hpc _ | switched hpc | returned_ready _ _ _ hpc _ _ | returned _ _ hpc _ _
  | exit hpc _ | preIdle hpc | stopping_next _ hpc _ | stopping_false hpc | stopping_true _ hpc
  | epollWait_block hpc _ | epollWait_woken hpc | woken _ hpc | dispatch hpc | idleReturned hpc =>
    rw [discarded_of_pc hpc (by simp)]; rfl
  | _ => rfl

/-- What a step puts in a queue has a new ticket. -/
theorem step_enqueued {tid : Fin n → Int} {s t : State n} {a : Action n} (h : Step tid s a t) :
    (t.enqueued = s.enqueued ∧ t.nextTicket = s.nextTicket) ∨
      ∃ ft : FiberAndThread, ft.ticket = s.nextTicket ∧ t.enqueued = ft :: s.enqueued
        ∧ t.nextTicket = s.nextTicket + 1 := by
  cases h with
  | returned_ready _ _ _ _ _ _ | schedule_local _ _ _ _ | schedule_global _ _ _ _ _
  | scheduleOther _ _ =>
    exact .inr ⟨_, rfl, rfl, rfl⟩
  | active _ | noTask _ => rw [tickleIf_eq]; exact .inl ⟨rfl, rfl⟩
  | tickle _ | tickleOther _ | tickleExtra => rw [tickle_eq]; exact .inl ⟨rfl, rfl⟩
  | _ => exact .inl ⟨rfl, rfl⟩

/-- What becomes of the item for which `run()` calls `swapIn()`: a fiber is swapped in, or that
of the item has ended. -/
theorem step_records {tid : Fin n → Int} {s t : State n} {a : Action n} (h : Step tid s a t) :
    (t.executed = s.executed ∧ t.ended = s.ended) ∨
      ∃ w ft, a = .run w ∧ (s.workers w).pc = .swapIn ft ∧
        ((t.executed = ft :: s.executed ∧ t.ended = s.ended ∧ ∃ f b, (t.workers w).pc = .running f b)
          ∨ t.executed = s.executed ∧ t.ended = ft :: s.ended ∧ ft.cb = none
            ∧ ft.fiber.all fun f => (s.m_state f).finished) := by
  cases h with
  | @swapIn w ft f k b c hpc =>
    refine .inr ⟨w, ft, rfl, hpc, .inl ⟨rfl, rfl, f, b, ?_⟩⟩
    simp only [setWorker, Function.update_self]
  | @swapIn_ended w ft hpc hended => exact .inr ⟨w, ft, rfl, hpc, .inr ⟨rfl, rfl, hended⟩⟩
  | active hpc | noTask hpc =>
    rw [tickleIf_eq]
    exact .inl ⟨rfl, rfl⟩
  | tickle hcall | tickleOther hcall | tickleExtra =>
    rw [tickle_eq]
    exact .inl ⟨rfl, rfl⟩
  | _ => exact .inl ⟨rfl, rfl⟩

/-- No callback is thrown away, nor found to have ended. -/
structure Callbacks (s : State n) : Prop where
  dropped : ∀ x ∈ s.dropped, x.fiber.isSome
  ended : ∀ x ∈ s.ended, x.cb = none

theorem callbacks_init : Callbacks (init n) :=
  ⟨fun _ h => absurd h List.not_mem_nil, fun _ h => absurd h List.not_mem_nil⟩

theorem mem_discarded {s : State n} {a : Action n} {x : FiberAndThread} (h : x ∈ discarded s a) :
    isExec s.m_state x = true ∧ ∃ w, x ∈ (s.workers w).run_queue := by
  cases a with
  | run w =>
    rw [discarded] at h
    split_ifs at h
    · exact ⟨List.mem_takeWhile_imp h, w, (List.takeWhile_prefix _).subset h⟩
    · exact absurd h List.not_mem_nil
  | _ => exact absurd h List.not_mem_nil

theorem callbacks_step {tid : Fin n → Int} {s t : State n} {a : Action n} (hs : Callbacks s)
    (h : Step tid s a t) : Callbacks t := by
  refine ⟨fun x hx => ?_, fun x hx => ?_⟩
  · rw [step_dropped h, List.mem_append] at hx
    rcases hx with hx | hx
    · have hexec := (mem_discarded hx).1
      cases hf : x.fiber with
      | none => simp [isExec, hf] at hexec
      | some f => rfl
    · exact hs.dropped x hx
  · rcases step_records h with ⟨-, he⟩ | ⟨w, ft, -, -, ⟨-, he, -⟩ | ⟨-, he, hcb, -⟩⟩
    · rw [he] at hx
      exact hs.ended x hx
    · rw [he] at hx
      exact hs.ended x hx
    · rw [he] at hx
      rcases List.mem_cons.mp hx with rfl | hx
      · exact hcb
      · exact hs.ended x hx

/-! ### Reachable states -/

/-- The balance, and tickets that tell the items apart. -/
structure Conserved (s : State n) : Prop where
  balance : ∀ x, places s x + gone s x = s.enqueued.count x
  fresh : ∀ x ∈ s.enqueued, x.ticket < s.nextTicket
  nodup : s.enqueued.Nodup

theorem conserved_init : Conserved (init n) where
  balance x := by simp [places, gone, init, Worker.holds, Pc.hands]
  fresh x hx := by simp [init] at hx
  nodup := List.nodup_nil

theorem conserved_step {tid : Fin n → Int} {s t : State n} {a : Action n} (hs : Conserved s)
    (h : Step tid s a t) : Conserved t := by
  refine ⟨fun x => ?_, ?_, ?_⟩
  · have hcount := step_count h x
    have hbal := hs.balance x
    omega
  · rcases step_enqueued h with ⟨he, hn⟩ | ⟨ft, hft, he, hn⟩
    · rw [he, hn]
      exact hs.fresh
    · intro x hx
      rw [he, List.mem_cons] at hx
      rw [hn]
      rcases hx with rfl | hx
      · omega
      · exact Nat.lt_succ_of_lt (hs.fresh x hx)
  · rcases step_enqueued h with ⟨he, -⟩ | ⟨ft, hft, he, -⟩
    · rw [he]
      exact hs.nodup
    · rw [he, List.nodup_cons]
      refine ⟨fun hx => ?_, hs.nodup⟩
      have hlt := hs.fresh ft hx
      omega

/-- **In every reachable state** an item that was put in a queue is in one place
or in one of the records. -/
theorem conserved_exec {tid : Fin n → Int} {as : List (Action n)} {s : State n}
    (h : Transition.exec (step tid) (init n) as = some s) : Conserved s :=
  Transition.exec_invariant (fun _ _ _ hs h => conserved_step hs (step_cases h)) conserved_init h

/-- **A callback is in one place until it is executed.** -/
theorem Conserved.callback {s : State n} (hs : Conserved s) (hk : Callbacks s) {x : FiberAndThread}
    (hx : x ∈ s.enqueued) (hf : x.fiber = none) (hcb : x.cb.isSome) :
    places s x + s.executed.count x = 1 := by
  have hone := List.count_eq_one_of_mem hs.nodup hx
  have hbal := hs.balance x
  have hdropped : s.dropped.count x = 0 := List.count_eq_zero.mpr fun hd => by
    have hfib := hk.dropped x hd
    rw [hf] at hfib
    exact nomatch hfib
  have hended : s.ended.count x = 0 := List.count_eq_zero.mpr fun he => by
    rw [hk.ended x he] at hcb
    exact nomatch hcb
  rw [gone] at hbal
  omega

/-- Every task that was put in a queue is in exactly one place, or `run()` has
executed it or found that its fiber has ended. -/
def Kept (s : State n) : Prop :=
  ∀ x ∈ s.enqueued, places s x + s.executed.count x + s.ended.count x = 1

theorem kept_iff_dropped {s : State n} (hs : Conserved s) : Kept s ↔ s.dropped = [] := by
  constructor
  · intro hk
    rw [List.eq_nil_iff_forall_not_mem]
    intro x hx
    have hbal := hs.balance x
    have hpos := List.count_pos_iff.mpr hx
    have hle := List.nodup_iff_count_le_one.mp hs.nodup x
    rw [gone] at hbal
    have hmem : x ∈ s.enqueued := List.count_pos_iff.mp (by omega)
    have hone := hk x hmem
    omega
  · intro hd x hx
    have hbal := hs.balance x
    have hone := List.count_eq_one_of_mem hs.nodup hx
    rw [gone, hd, List.count_nil] at hbal
    omega

/-- No worker calls `popLocalTask` with a fiber in `EXEC` at the head of its run
queue. -/
def NoExecAtHead (s : State n) (a : Action n) : Prop :=
  ∀ w, a = .run w → (s.workers w).pc = .popLocal →
    ∀ ft ∈ (s.workers w).run_queue.head?, isExec s.m_state ft = false

theorem takeWhile_eq_nil {p : FiberAndThread → Bool} {q : List FiberAndThread} :
    q.takeWhile p = [] ↔ ∀ ft ∈ q.head?, p ft = false := by
  cases q with
  | nil => simp
  | cons ft q => cases hp : p ft <;> simp [hp]

theorem discarded_eq_nil {s : State n} {a : Action n} :
    discarded s a = [] ↔ NoExecAtHead s a := by
  cases a with
  | run w =>
    by_cases hpc : (s.workers w).pc = .popLocal
    · rw [discarded, if_pos hpc, takeWhile_eq_nil]
      exact ⟨fun h v hv _ => by cases hv; exact h, fun h => h w rfl hpc⟩
    · rw [discarded, if_neg hpc]
      exact ⟨fun _ v hv hv' => by cases hv; exact absurd hv' hpc, fun _ => rfl⟩
  | _ => exact ⟨fun _ w hw => absurd hw (by simp), fun _ => rfl⟩

/-- **Tasks are kept exactly when no local pop meets an `EXEC` fiber first.** -/
theorem kept_iff_no_exec_at_head (tid : Fin n → Int) {as : List (Action n)} {t : State n}
    (h : Transition.exec (step tid) (init n) as = some t) :
    Transition.Throughout (step tid) Kept (init n) as
      ↔ Transition.Along (step tid) NoExecAtHead (init n) as := by
  refine Transition.throughout_iff_along (fun _ _ _ hs _ h => conserved_step hs (step_cases h))
    (fun s a u hs hk _ hsu => ?_) conserved_init ?_ Transition.along_true h
  · have hu := conserved_step hs (step_cases hsu)
    rw [kept_iff_dropped hu, step_dropped (step_cases hsu), (kept_iff_dropped hs).mp hk,
      List.append_nil, discarded_eq_nil]
  · exact (kept_iff_dropped conserved_init).mpr rfl

/-- Worker 0 runs a callback that waits, worker 1 runs the event that wakes it up. -/
def lostWakeUp : List (Action 2) :=
  [.scheduleOther none (some 7) (-1), .run 0, .run 0, .run 0, .run 0, .run 0,
   .scheduleOther none (some 8) (-1), .run 1, .run 1, .run 1, .run 1, .run 1,
   -- the callback on worker 0 yields, and its fiber is still in `EXEC`
   .yield 0 .EXEC, .schedule 1 false (some 0) none (-1),
   .yield 1 .TERM, .run 1, .run 1, .run 1,
   .run 0, .run 0]

theorem kept_iff_no_exec_at_head_lostWakeUp :
    ∃ t, Transition.exec (step fun w => (w : Int)) (init 2) lostWakeUp = some t
      ∧ (Transition.Throughout (step fun w => (w : Int)) Kept (init 2) lostWakeUp
        ↔ Transition.Along (step fun w => (w : Int)) NoExecAtHead (init 2) lostWakeUp) :=
  ⟨_, rfl, kept_iff_no_exec_at_head _ rfl⟩

/-- The waiting fiber is in `HOLD` and its wake-up is nowhere. -/
theorem lostWakeUp_not_kept :
    ∃ t, Transition.exec (step fun w => (w : Int)) (init 2) lostWakeUp = some t
      ∧ t.m_state 0 = .HOLD ∧ ¬ Kept t := by
  refine ⟨_, rfl, by decide, ?_⟩
  intro hk
  exact absurd (hk ⟨2, some 0, none, -1⟩ (by decide)) (by decide)

end Scheduler

end FiberServer
