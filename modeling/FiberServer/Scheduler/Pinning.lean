import FiberServer.Scheduler.Exclusive

/-!
# Pinned fibers

A fiber is pinned to a thread by a `schedule()` call that names one, or because `run()` has
made it out of a callback that was scheduled so.  The pin is not in the source, where only
the queued item has a `thread`: `Pins` keeps it until another call names another thread.

The dequeue paths respect `thread`, so an item that names a thread is executed there
(`Located`).  `run()` re-queues a fiber that is `READY` by `schedule(ft.fiber)`, without the
thread of the item it came from, and then any worker may take it.

* `pinned_along`: in a run in which no pinned fiber is queued without a thread, every pinned
  fiber is swapped in on its thread only.
* `yieldedAway_not_pinned`: a fiber pinned to worker 0 yields and is stolen by worker 1.
-/

namespace FiberServer

namespace Scheduler

open State

variable {n : Nat}

/-- The thread that each fiber is pinned to. -/
abbrev Pins := Nat → Option Int

/-- The fiber that `run()` makes out of a callback. -/
def wrapped (s : State n) (w : Fin n) (ft : FiberAndThread) : Option Nat :=
  if (ft.fiber.filter fun f => !(s.m_state f).finished).isNone && ft.cb.isSome then
    some ((s.workers w).cb_fiber.getD s.nextFiber)
  else none

/-- A fiber whose pin the step sets, and its new pin. -/
def pinnedBy (s : State n) : Action n → Option (Nat × Option Int)
  | .schedule _ _ fiber _ thread | .scheduleOther fiber _ thread =>
    if thread = -1 then none else fiber.map fun f => (f, some thread)
  | .run w =>
    match (s.workers w).pc with
    | .swapIn ft =>
      (wrapped s w ft).map fun f => (f, if ft.thread = -1 then none else some ft.thread)
    | _ => none
  | _ => none

/-- A fiber that the step queues without a thread. -/
def queuedFree (s : State n) : Action n → Option Nat
  | .schedule _ _ fiber _ thread | .scheduleOther fiber _ thread =>
    if thread = -1 then fiber else none
  | .run w =>
    match (s.workers w).pc with
    | .returned f _ => if s.m_state f = .READY then some f else none
    | _ => none
  | _ => none

/-- The pins after a step. -/
def Pins.after (s : State n) (a : Action n) (pin : Pins) : Pins :=
  match pinnedBy s a with
  | some (f, t) => Function.update pin f t
  | none => pin

/-- A step with its pins. -/
def pinStep (tid : Fin n → Int) (x : State n × Pins) (a : Action n) : Option (State n × Pins) :=
  (step tid x.1 a).map fun t => (t, x.2.after x.1 a)

/-- No pinned fiber is queued without a thread, and when a fiber is pinned no item of it asks
for another thread. -/
def KeepsPins (x : State n × Pins) (a : Action n) : Prop :=
  (∀ f ∈ queuedFree x.1 a, x.2 f = none)
    ∧ ∀ p ∈ pinnedBy x.1 a, ∀ t ∈ p.2, ∀ y, 0 < places x.1 y → y.fiber = some p.1 → y.thread = t

/-- A fiber that `run()` swaps in is on the thread that it is pinned to. -/
def SwapsPinned (tid : Fin n → Int) (x : State n × Pins) (a : Action n) : Prop :=
  ∀ y, pinStep tid x a = some y → ∀ w ft f b t, a = .run w → (x.1.workers w).pc = .swapIn ft →
    (y.1.workers w).pc = .running f b → y.2 f = some t → tid w = t

/-! ### Where an item that names a thread can be -/

/-- The item names no thread or this one. -/
def FiberAndThread.For (t : Int) (ft : FiberAndThread) : Prop := ft.thread = -1 ∨ ft.thread = t

/-- The items in the hands of a worker with thread id `t` are for it, and those that it will
put into its run queue name no thread. -/
def Pc.Located (t : Int) : Pc n → Prop
  | .splice ft batch _ => ft.For t ∧ ∀ y ∈ batch, y.thread = -1
  | .spliceStolen ft stolen _ => ft.For t ∧ ∀ y ∈ stolen, y.thread = -1
  | .gotTask _ ft _ | .active ft _ | .swapIn ft => ft.For t
  | _ => True

/-- The run queue names no thread. -/
def Worker.Located (t : Int) (x : Worker n) : Prop :=
  (∀ y ∈ x.run_queue, y.thread = -1) ∧ x.pc.Located t

theorem popGlobalLoop_thread {m_state : Nat → Fiber.State} {tid : Int} {target : Nat}
    {q : List FiberAndThread} :
    (∀ x, (popGlobalLoop m_state tid target q).ft = some x → x.For tid)
      ∧ ∀ x ∈ (popGlobalLoop m_state tid target q).batch, x.thread = -1 := by
  induction q with
  | nil => simp [popGlobalLoop]
  | cons it rest ih =>
    rw [popGlobalLoop]
    split_ifs with hpin hexec hfree
    · exact ih
    · exact ih
    · exact ⟨fun x hx => .inl (Option.some.inj hx ▸ hfree), fun x hx => (pullBatch_free hx).1⟩
    · refine ⟨fun x hx => ?_, fun x hx => absurd hx List.not_mem_nil⟩
      rw [← Option.some.inj hx]
      exact .inr (not_not.mp fun hne => hpin ⟨hfree, hne⟩)

section

variable {tid : Fin n → Int} {s t : State n}

/-- A step that changes one worker. -/
theorem located_of_update (hs : ∀ w, (s.workers w).Located (tid w)) (w : Fin n) {y : Worker n}
    (hw : t.workers = Function.update s.workers w y) (hy : y.Located (tid w)) :
    ∀ w', (t.workers w').Located (tid w') := by
  intro w'
  rw [hw]
  by_cases h : w' = w
  · subst h
    rw [Function.update_self]
    exact hy
  · rw [Function.update_of_ne h]
    exact hs w'

/-- **Items that name a thread** stay in the global queue until their thread takes them. -/
theorem located_step {a : Action n} (hs : ∀ w, (s.workers w).Located (tid w))
    (h : Step tid s a t) : ∀ w, (t.workers w).Located (tid w) := by
  cases h with
  | @popLocal_some w ft hpc hft =>
    refine located_of_update hs w rfl ⟨fun y hy => (hs w).1 y (mem_of_popLocalTask (.inr hy)), ?_⟩
    exact .inl ((hs w).1 ft (mem_of_popLocalTask (.inl hft)))
  | @popLocal_none w hpc hft =>
    exact located_of_update hs w rfl
      ⟨fun y hy => (hs w).1 y (mem_of_popLocalTask (.inr hy)), trivial⟩
  | @popGlobal_some w ft stats hpc hft hb =>
    exact located_of_update hs w rfl ⟨(hs w).1, popGlobalLoop_thread.1 ft hft⟩
  | @popGlobal_batch w ft stats hpc hft =>
    exact located_of_update hs w rfl
      ⟨(hs w).1, popGlobalLoop_thread.1 ft hft, popGlobalLoop_thread.2⟩
  | @splice w ft batch t hpc | @spliceStolen w ft batch t hpc =>
    have hpcs := (hs w).2
    rw [hpc] at hpcs
    refine located_of_update hs w rfl ⟨fun y hy => ?_, hpcs.1⟩
    exact (List.mem_append.mp hy).elim ((hs w).1 y) (hpcs.2 y)
  | @steal_some w v vs t ft stolen stats pc' hpc hst hpc' =>
    have hfree : ∀ y ∈ ft :: stolen, y.thread = -1 := fun y hy => by
      rw [← hst] at hy
      exact (stealLoop_free hy).1
    have hvictim : ∀ w', ((s.setWorker v { s.workers v with
        run_queue := (stealVictim s.m_state (s.workers v).run_queue).2 }).workers w').Located
          (tid w') :=
      located_of_update hs v rfl
        ⟨fun y hy => (hs v).1 y (mem_of_stealVictim hy), (hs v).2⟩
    refine located_of_update hvictim w rfl ⟨(hvictim w).1, ?_⟩
    have hft := hfree ft (List.mem_cons_self ..)
    rcases hpc' with rfl | ⟨rfl, rfl⟩
    · exact ⟨.inl hft, fun y hy => hfree y (List.mem_cons_of_mem _ hy)⟩
    · exact .inl hft
  | @gotTask w source ft t stats hpc =>
    have hpcs := (hs w).2
    rw [hpc] at hpcs
    exact located_of_update hs w rfl ⟨(hs w).1, hpcs⟩
  | @active w ft t hpc =>
    have hpcs := (hs w).2
    rw [hpc] at hpcs
    rw [tickleIf_eq]
    exact located_of_update hs w rfl ⟨(hs w).1, hpcs⟩
  | @returned_ready w f b stats c calling hpc hst hcalling =>
    refine located_of_update hs w rfl ⟨fun y hy => ?_, trivial⟩
    rcases List.mem_append.mp hy with hy | hy
    · exact (hs w).1 y hy
    · rw [List.mem_singleton.mp hy]
  | @schedule_local w force_global fiber cb stats calling hpc hcalling =>
    refine located_of_update hs w rfl ⟨fun y hy => ?_, (hs w).2⟩
    rcases List.mem_append.mp hy with hy | hy
    · exact (hs w).1 y hy
    · rw [List.mem_singleton.mp hy]
  | @schedule_global w force_global fiber cb thread calling hpc hcalling hglobal hcall =>
    exact located_of_update hs w rfl (hs w)
  | @steal_on w pc' next stats hpc hpc' =>
    refine located_of_update hs w rfl ⟨(hs w).1, ?_⟩
    rcases hpc' with ⟨_, _, rfl⟩ | ⟨_, rfl⟩ <;> exact trivial
  | @noTask w t hpc =>
    rw [tickleIf_eq]
    exact located_of_update hs w rfl ⟨(hs w).1, trivial⟩
  | @tickle w hcall =>
    rw [tickle_eq]
    exact located_of_update hs w rfl (hs w)
  | tickleOther hcall | tickleExtra =>
    rw [tickle_eq]
    exact hs
  | newFiber | scheduleOther | stop | stopCall_false | stopCall | stopCall_next => exact hs
  | @popGlobal_none w hpc _ | @swapIn w _ _ _ _ _ hpc | @swapIn_ended w _ hpc _ | @switched w _ _ hpc
  | @returned w _ _ _ _ hpc _ _ | @exit w hpc _ | @preIdle w hpc | @idle w _ hpc _
  | @idle_stopping w hpc _ | @stopping_next w _ _ hpc _ | @stopping_false w _ hpc
  | @stopping_true w _ _ hpc | @epollWait_block w hpc _ | @epollWait_woken w hpc | @wake w _ hpc
  | @woken w _ _ hpc | @dispatch w hpc | @idleReturned w hpc | @yieldToHold w _ _ hpc
  | @yield w _ _ _ hpc _ =>
    exact located_of_update hs w rfl ⟨(hs w).1, trivial⟩

end

/-! ### Pins -/

/-- A call of `schedule()` pins its fiber or queues it without a thread. -/
theorem pinned_or_free {s : State n} {a : Action n} {fiber : Option Nat} {thread : Int} {f : Nat}
    (hfiber : fiber = some f)
    (hpin : pinnedBy s a = if thread = -1 then none else fiber.map fun f => (f, some thread))
    (hfree : queuedFree s a = if thread = -1 then fiber else none) :
    (pinnedBy s a = none ∧ queuedFree s a = some f) ∨ pinnedBy s a = some (f, some thread) := by
  rw [hpin, hfree, hfiber]
  by_cases hthread : thread = -1
  · exact .inl ⟨if_pos hthread, if_pos hthread⟩
  · exact .inr (if_neg hthread)

/-- What a step puts in a queue: an item without a thread, or one that pins its fiber. -/
theorem step_new {tid : Fin n → Int} {s t : State n} {a : Action n} (h : Step tid s a t) :
    t.enqueued = s.enqueued ∨ ∃ ft : FiberAndThread, t.enqueued = ft :: s.enqueued
      ∧ (∀ x, gone t x = gone s x) ∧ ∀ f, ft.fiber = some f →
        (pinnedBy s a = none ∧ queuedFree s a = some f)
          ∨ pinnedBy s a = some (f, some ft.thread) := by
  cases h with
  | @returned_ready w f b stats c calling hpc hst hcalling =>
    refine .inr ⟨_, rfl, fun _ => rfl, fun g hg => .inl ⟨?_, ?_⟩⟩
    · simp only [pinnedBy, hpc]
    · simp only [queuedFree, hpc]
      rw [if_pos hst]
      exact hg
  | @schedule_local w force_global fiber cb stats calling hpc hcalling =>
    refine .inr ⟨_, rfl, fun _ => rfl, fun g hg => .inl ⟨?_, ?_⟩⟩
    · rw [pinnedBy, if_pos rfl]
    · rw [queuedFree, if_pos rfl]
      exact hg
  | @schedule_global w force_global fiber cb thread calling hpc hcalling hglobal hcall =>
    exact .inr ⟨_, rfl, fun _ => rfl, fun g hg => pinned_or_free hg rfl rfl⟩
  | @scheduleOther fiber cb thread calls hcalls =>
    exact .inr ⟨_, rfl, fun _ => rfl, fun g hg => pinned_or_free hg rfl rfl⟩
  | active _ | noTask _ => rw [tickleIf_eq]; exact .inl rfl
  | tickle _ | tickleOther _ | tickleExtra => rw [tickle_eq]; exact .inl rfl
  | _ => exact .inl rfl

/-- Every item of a pinned fiber names its thread. -/
structure Pinned (tid : Fin n → Int) (x : State n × Pins) : Prop where
  located : ∀ w, (x.1.workers w).Located (tid w)
  named : ∀ y f t, 0 < places x.1 y → y.fiber = some f → x.2 f = some t → y.thread = t
  real : ∀ f, x.2 f ≠ some (-1)

theorem pinned_init (tid : Fin n → Int) : Pinned tid (init n, fun _ => none) :=
  ⟨fun _ => ⟨fun _ hy => absurd hy List.not_mem_nil, trivial⟩, fun _ _ _ _ _ hpin => (nomatch hpin),
    fun _ hpin => nomatch hpin⟩

theorem pinnedBy_ne {s : State n} {a : Action n} {f : Nat} {t : Option Int}
    (h : pinnedBy s a = some (f, t)) : t ≠ some (-1) := by
  rintro rfl
  cases a with
  | schedule w force_global fiber cb thread | scheduleOther fiber cb thread =>
    rw [pinnedBy] at h
    split_ifs at h with hthread
    obtain ⟨g, -, hg⟩ := Option.map_eq_some_iff.mp h
    exact hthread (Option.some.inj (Prod.mk.inj hg).2)
  | run w =>
    rw [pinnedBy] at h
    split at h
    · rename_i ft _
      obtain ⟨g, -, hg⟩ := Option.map_eq_some_iff.mp h
      have hthread := (Prod.mk.inj hg).2
      split_ifs at hthread with hne
      exact hne (Option.some.inj hthread)
    · exact nomatch h
  | _ => exact nomatch h

theorem Pins.after_self {s : State n} {a : Action n} {pin : Pins} {f : Nat} {t : Option Int}
    (h : pinnedBy s a = some (f, t)) : pin.after s a f = t := by
  rw [Pins.after, h]
  exact Function.update_self ..

/-- A pin is one that the step sets, or one that was there. -/
theorem Pins.after_cases {s : State n} {a : Action n} {pin : Pins} {f : Nat} {t : Int}
    (h : pin.after s a f = some t) :
    pinnedBy s a = some (f, some t) ∨ pin f = some t := by
  cases hset : pinnedBy s a with
  | none =>
    rw [Pins.after, hset] at h
    exact .inr h
  | some p =>
    obtain ⟨g, t'⟩ := p
    by_cases hg : f = g
    · subst hg
      rw [Pins.after_self hset] at h
      exact .inl (by rw [h])
    · rw [Pins.after, hset] at h
      have hold : Function.update pin g t' f = pin f := Function.update_of_ne hg ..
      exact .inr (hold.symm.trans h)

/-- **A step** after which no item of a pinned fiber asks for another thread. -/
theorem pinned_step {tid : Fin n → Int} {x y : State n × Pins} {a : Action n} (hx : Pinned tid x)
    (ha : KeepsPins x a) (h : pinStep tid x a = some y) : Pinned tid y := by
  obtain ⟨s, pin⟩ := x
  obtain ⟨t, hst, rfl⟩ := Option.map_eq_some_iff.mp h
  have hstep := step_cases hst
  refine ⟨located_step hx.located hstep, ?_, ?_⟩
  · intro z f th hz hf hpin
    -- an item that was there
    have hold : 0 < places s z → z.thread = th := fun hz =>
      (Pins.after_cases hpin).elim (fun hset => ha.2 _ hset th rfl z hz hf)
        fun hpin => hx.named z f th hz hf hpin
    obtain he | ⟨ft, he, hgone, hnew⟩ := step_new hstep
    · exact hold (Nat.lt_of_lt_of_le hz (places_le hstep he z))
    · rcases (places_enqueue hstep he (hgone z)).mp hz with rfl | hz
      · rcases hnew f hf with ⟨hnone, hfree⟩ | hset
        · rcases Pins.after_cases hpin with hset | hpin
          · rw [hnone] at hset
            exact nomatch hset
          · have hunpinned := (ha.1 f hfree).symm.trans hpin
            exact nomatch hunpinned
        · have hself : pin.after s a f = _ := Pins.after_self hset
          exact Option.some.inj (hself.symm.trans hpin)
      · exact hold hz
  · intro f hpin
    rcases Pins.after_cases hpin with hset | hpin
    · exact pinnedBy_ne hset rfl
    · exact hx.real f hpin

/-- The fiber that is swapped in is the item's own or one made out of its callback. -/
theorem swapIn_running {s t : State n} {w : Fin n} {ft : FiberAndThread} {f : Nat} {b : Bool}
    (h : Scheduler.swapIn s w ft = some t) (hpc : (t.workers w).pc = .running f b) :
    (ft.fiber = some f ∧ wrapped s w ft = none) ∨ wrapped s w ft = some f := by
  rw [Scheduler.swapIn] at h
  cases hf : ft.fiber.filter (fun f => !(s.m_state f).finished) with
  | some g =>
    obtain ⟨hfib, -⟩ := Option.filter_eq_some_iff.mp hf
    simp only [hf] at h
    split_ifs at h
    rw [← Option.some.inj h] at hpc
    simp only [goto, setWorker, Function.update_self, Pc.running.injEq] at hpc
    left
    refine ⟨hfib.trans (congrArg some hpc.1), ?_⟩
    rw [wrapped, hf]
    rfl
  | none =>
    right
    simp only [hf] at h
    rw [wrapped, hf]
    split at h
    · rename_i g hcb hg
      split_ifs at h
      rw [← Option.some.inj h] at hpc
      simp only [goto, setWorker, Function.update_self, Pc.running.injEq] at hpc
      rw [hcb, hg, ← hpc.1]
      rfl
    · rename_i hcb hg
      rw [← Option.some.inj h] at hpc
      simp only [setWorker, Function.update_self, Pc.running.injEq] at hpc
      rw [hcb, hg, ← hpc.1]
      rfl
    · rw [← Option.some.inj h] at hpc
      simp [goto, setWorker] at hpc

/-- **`run()` swaps in** on the thread of the pin. -/
theorem Pinned.swapsPinned {tid : Fin n → Int} {x : State n × Pins} (hx : Pinned tid x)
    (a : Action n) : SwapsPinned tid x a := by
  obtain ⟨s, pin⟩ := x
  rintro y h w ft f b th rfl hpc hrun hpin
  obtain ⟨t, hst, rfl⟩ := Option.map_eq_some_iff.mp h
  have hpc : (s.workers w).pc = .swapIn ft := hpc
  have hswap : Scheduler.swapIn s w ft = some t := by
    rw [step] at hst
    split_ifs at hst
    rw [runStep] at hst
    simp only [hpc] at hst
    exact hst
  have hfor := (hx.located w).2
  rw [hpc] at hfor
  have hplace : 0 < places s ft := mem_places (w := w) (by rw [hpc]; exact List.mem_singleton.mpr rfl)
  rcases swapIn_running hswap hrun with ⟨hfib, hnone⟩ | hcallback
  · have hold : pin f = some th := by
      rcases Pins.after_cases hpin with hset | hold
      · simp only [pinnedBy, hpc, hnone, Option.map_none] at hset
        cases hset
      · exact hold
    have hthread := hx.named ft f th hplace hfib hold
    rcases hfor with hfree | hfor
    · have hreal : pin f ≠ some (-1) := hx.real f
      rw [hold, ← hthread, hfree] at hreal
      exact absurd rfl hreal
    · exact hfor.symm.trans hthread
  · have hset : pinnedBy s (.run w) = some (f, if ft.thread = -1 then none else some ft.thread) := by
      simp only [pinnedBy, hpc, hcallback, Option.map_some]
    have hself : (if ft.thread = -1 then none else some ft.thread) = some th :=
      (Pins.after_self hset).symm.trans hpin
    split_ifs at hself with hfree
    exact (hfor.resolve_left hfree).symm.trans (Option.some.inj hself)

/-- **Pinned fibers stay on their thread** in every run in which none is queued without one. -/
theorem pinned_along (tid : Fin n → Int) {as : List (Action n)}
    (h : Transition.Along (pinStep tid) KeepsPins (init n, fun _ => none) as) :
    Transition.Along (pinStep tid) (SwapsPinned tid) (init n, fun _ => none) as :=
  h.imp_of_invariant (fun _ _ _ hx ha hst => pinned_step hx ha hst)
    (fun _ a hx _ => hx.swapsPinned a) (pinned_init tid)

instance decidableKeepsPins (x : State n × Pins) (a : Action n) : Decidable (KeepsPins x a) :=
  decidable_of_iff ((∀ f ∈ queuedFree x.1 a, x.2 f = none)
      ∧ ∀ p ∈ pinnedBy x.1 a, ∀ t ∈ p.2, ∀ y ∈ items x.1, y.fiber = some p.1 → y.thread = t)
    (and_congr_right' (forall₂_congr fun _ _ => forall₂_congr fun _ _ => forall_congr' fun _ => by
      rw [places_pos_iff]))

attribute [local instance] neZero_two

/-- A fiber is pinned to worker 0, which worker 1 respects. -/
def pinnedRun : List (Action 2) :=
  [.newFiber, .scheduleOther (some 0) none 0, .run 1, .run 1, .run 0, .run 0, .run 0, .run 0,
   .run 0, .yield 0 .TERM]

theorem pinned_along_pinnedRun :
    Transition.Along (pinStep fun w => (w : Int)) (SwapsPinned fun w => (w : Int))
      (init 2, fun _ => none) pinnedRun :=
  pinned_along _ (by decide)

/-- The fiber calls `YieldToReady` on worker 0; worker 1 finds it in the run queue there. -/
def yieldedAway : List (Action 2) :=
  [.newFiber, .scheduleOther (some 0) none 0, .run 0, .run 0, .run 0, .run 0, .run 0,
   .yield 0 .READY, .run 0, .run 0, .run 1, .run 1, .run 1, .run 1, .run 1, .run 1]

/-- It is pinned to worker 0, and worker 1 swaps it in next. -/
theorem yieldedAway_swapIn :
    ((Transition.exec (pinStep fun w => (w : Int)) (init 2, fun _ => none) yieldedAway).bind
      fun x => (pinStep (fun w => (w : Int)) x (.run 1)).map
        fun y => ((x.1.workers 1).pc, (y.1.workers 1).pc, y.2 0))
      = some (.swapIn ⟨1, some 0, none, -1⟩, .running 0 false, some 0) := by
  decide

theorem yieldedAway_not_pinned :
    ¬ ∀ as : List (Action 2), Transition.Along (pinStep fun w => (w : Int))
      (SwapsPinned fun w => (w : Int)) (init 2, fun _ => none) as := by
  intro h
  obtain ⟨x, hx, hlast⟩ := Option.bind_eq_some_iff.mp yieldedAway_swapIn
  obtain ⟨y, hy, heq⟩ := Option.map_eq_some_iff.mp hlast
  obtain ⟨hpc, hrun, hpin⟩ := Prod.mk.inj heq |>.imp id Prod.mk.inj
  have hswaps := (Transition.Along.append_right hx (h (yieldedAway ++ [.run 1]))).1
  exact absurd (hswaps y hy 1 _ 0 false 0 rfl hpc hrun hpin) (by decide)

end Scheduler

end FiberServer
