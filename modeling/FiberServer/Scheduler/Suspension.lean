import FiberServer.Scheduler.Exclusive

/-!
# A fiber that waits for its wake-up

A fiber calls `YieldToHold` and relies on one `schedule()` of somebody else to go on.  The
wake-up may be queued while the fiber is still in `EXEC`: before it has called `YieldToHold`, or
before its worker has set `HOLD`.  `Waiting s f wake` is what holds in the meantime, `wake` being
the item once it is queued.

* `Waiting.step`: nobody else schedules the fiber, so it stays so.
* `Waiting.resumes`: the fiber is swapped in for its wake-up only.
* `Waiting.keeps`: no dequeue path throws the wake-up away.
-/

namespace FiberServer

namespace Scheduler

open State

variable {n : Nat}

/-- A worker is inside the `swapIn()` of `f`. -/
def Inside (s : State n) (f : Nat) : Prop := ∃ w b, (s.workers w).pc = .running f b

/-- What holds of every reachable state, and of `f` if its suspensions are enqueued once. -/
structure Settled (s : State n) (f : Nat) : Prop where
  conservation : Conserved s
  executor : Executor s
  owns : ∀ w, (s.workers w).Owns
  sound : Sound (view s) f

theorem settled_init (f : Nat) : Settled (init n) f :=
  ⟨conserved_init, executor_init, owns_init, sound_init f⟩

theorem Settled.step {tid : Fin n → Int} {s t : State n} {f : Nat} {a : Action n}
    (hs : Settled s f) (ha : EnqueuedOnceOf s f a) (h : step tid s a = some t) : Settled t f :=
  ⟨conserved_step hs.conservation (step_cases h), executor_step hs.executor (step_cases h),
    owns_moves hs.owns (moves_step h), sound_step hs.conservation hs.owns hs.sound ha h⟩

/-- `f` waits: it is in `EXEC` until its worker has set `HOLD`, it has no item but its wake-up,
and that is in the global queue as long as the fiber is in `EXEC`. -/
structure Waiting (s : State n) (f : Nat) (wake : Option FiberAndThread) : Prop where
  state : s.m_state f = .EXEC ∨ s.m_state f = .HOLD
  old : f < s.nextFiber
  items : ∀ x, (view s).pending x → x.fiber = some f → wake = some x
  queued : s.m_state f = .EXEC → ∀ w, ∀ x ∈ (s.workers w).run_queue, x.fiber ≠ some f

/-- The step neither schedules `f` nor switches it out, but for `YieldToHold`. -/
structure Leaves (s : State n) (f : Nat) (a : Action n) : Prop where
  schedule : a.scheduled ≠ some f
  yield : ∀ w next b, a = .yield w next → (s.workers w).pc = .running f b → next = .EXEC

theorem Leaves.enqueuedOnceOf {s : State n} {f : Nat} {a : Action n} (h : Leaves s f a) :
    EnqueuedOnceOf s f a := by
  refine ⟨fun hf => absurd hf h.schedule, fun w next b ha hpc => ?_⟩
  rw [h.yield w next b ha hpc]
  exact ⟨fun hne => absurd hne (by decide), fun hfin => absurd hfin (by decide)⟩

theorem pending_of_queue {s : State n} {w : Fin n} {x : FiberAndThread}
    (h : x ∈ (s.workers w).run_queue) : (view s).pending x := by
  have hpos := List.count_pos_iff.mpr h
  have hle := Tally.le_sum (Worker.holds x) s.workers w
  rw [Worker.holds] at hle
  show 0 < places s x
  rw [places]
  omega

theorem inside_iff {s : State n} {f : Nat} :
    Inside s f ↔ ∃ w b, (view s).stay w = some ⟨f, b, true⟩ := by
  refine exists_congr fun w => exists_congr fun b => ?_
  show _ ↔ (s.workers w).pc.stay = _
  cases (s.workers w).pc <;> simp [Pc.stay]

/-! ### What a step does to one fiber -/

section

variable {tid : Fin n → Int} {s t : State n} {a : Action n} {f : Nat}

/-- What is queued is for the fiber that the action schedules, or for a ready one. -/
theorem Moves.new_item (h : Moves s a t) {x : FiberAndThread}
    (he : t.enqueued = x :: s.enqueued) : x.fiber = a.scheduled
      ∨ ∃ w g b, (s.workers w).pc = .returned g b ∧ s.m_state g = .READY ∧ x.fiber = some g := by
  have hne : ∀ {l : List FiberAndThread}, l ≠ x :: l := fun h => by
    have hlen := congrArg List.length h
    simp at hlen
  cases h with
  | quiet hw hst hnext he' => exact absurd (he'.symm.trans he) hne
  | swapIn hpc h =>
    rcases swapIn_inv h with ⟨g, b, c, k, rfl, -⟩ | rfl <;> exact absurd he hne
  | switchOut hpc hnext => exact absurd he hne
  | @returned w g b hpc =>
    by_cases hr : s.m_state g = .READY
    · obtain ⟨stats, calling, heq⟩ := afterSwap_ready (w := w) (b := b) hr
      rw [heq] at he
      refine .inr ⟨w, g, b, hpc, hr, ?_⟩
      rw [← (List.cons.inj he).1]
    · obtain ⟨st, c, heq, -⟩ := afterSwap_inv (w := w) (b := b) hr
      rw [heq] at he
      exact absurd he hne
  | newFiber => exact absurd he hne
  | enqueue hft hold he' hg hpc hcb hst hnext =>
    rw [he'] at he
    rw [← (List.cons.inj he).1]
    exact .inl hft

/-- An item of a fiber that nobody schedules was there before. -/
theorem pending_of_step (h : step tid s a = some t) (hf : a.scheduled ≠ some f)
    (hready : s.m_state f ≠ .READY) {x : FiberAndThread} (hx : (view t).pending x)
    (hxf : x.fiber = some f) : (view s).pending x := by
  have hstep := step_cases h
  rcases step_enqueued hstep with ⟨he, -⟩ | ⟨ft, -, he, -⟩
  · exact Nat.lt_of_lt_of_le hx (places_le hstep he x)
  · have hcount := step_count hstep x
    have hgone := step_gone hstep x
    have hpos : 0 < places t x := hx
    rw [he, List.count_cons] at hcount
    by_cases hne : ft = x
    · subst hne
      rcases (moves_step h).new_item he with hnew | ⟨w, g, b, -, hr, hg⟩
      · exact absurd (hnew.symm.trans hxf) hf
      · rw [hxf] at hg
        rw [Option.some.inj hg] at hready
        exact absurd hr hready
    · rw [if_neg (by simpa using hne)] at hcount
      show 0 < places s x
      omega

/-- A step that changes one worker. -/
theorem run_queue_of_update (v : Fin n) {y : Worker n} {w : Fin n} {x : FiberAndThread}
    (hx : x ∈ (t.workers w).run_queue) (hw : t.workers = Function.update s.workers v y)
    (hy : x ∈ y.run_queue → x ∈ (s.workers v).run_queue) : x ∈ (s.workers w).run_queue := by
  rw [hw] at hx
  by_cases hv : w = v
  · subst hv
    rw [Function.update_self] at hx
    exact hy hx
  · rwa [Function.update_of_ne hv] at hx

/-- An item comes into a run queue out of the hands of its worker, or it is a new one. -/
theorem run_queue_step (h : Step tid s a t) {w : Fin n} {x : FiberAndThread}
    (hx : x ∈ (t.workers w).run_queue) : x ∈ (s.workers w).run_queue ∨ x ∈ (s.workers w).pc.hands
      ∨ t.enqueued = x :: s.enqueued := by
  cases h with
  | @popLocal_some v ft hpc hft | @popLocal_none v hpc hft =>
    exact .inl (run_queue_of_update v hx rfl fun hy => mem_of_popLocalTask (.inr hy))
  | @splice v ft batch tick hpc | @spliceStolen v ft batch tick hpc =>
    by_cases hv : w = v
    · subst hv
      simp only [setWorker, Function.update_self, List.mem_append] at hx
      rcases hx with hx | hx
      · exact .inl hx
      · rw [hpc]
        exact .inr (.inl (List.mem_cons_of_mem _ hx))
    · simp only [setWorker, Function.update_of_ne hv] at hx
      exact .inl hx
  | @steal_some v v' vs tick ft stolen stats pc' hpc hst hpc' =>
    have hvictim := run_queue_of_update v hx rfl fun hy => hy
    exact .inl (run_queue_of_update v' hvictim rfl mem_of_stealVictim)
  | @returned_ready v f b stats c calling hpc hst hcalling
  | @schedule_local v force_global fiber cb stats calling hpc hcalling =>
    by_cases hv : w = v
    · subst hv
      simp only [setWorker, Function.update_self, List.mem_append, List.mem_singleton] at hx
      rcases hx with hx | rfl
      · exact .inl hx
      · exact .inr (.inr rfl)
    · simp only [setWorker, Function.update_of_ne hv] at hx
      exact .inl hx
  | active hpc | noTask hpc =>
    rw [tickleIf_eq] at hx
    exact .inl (run_queue_of_update _ hx rfl fun hy => hy)
  | tickle hcall =>
    rw [tickle_eq] at hx
    exact .inl (run_queue_of_update _ hx rfl fun hy => hy)
  | tickleOther hcall | tickleExtra =>
    rw [tickle_eq] at hx
    exact .inl hx
  | newFiber | scheduleOther | stop | stopCall_false | stopCall | stopCall_next => exact .inl hx
  | _ => exact .inl (run_queue_of_update _ hx rfl fun hy => hy)

/-! ### The state of the fiber -/

theorem afterSwap_hold {w : Fin n} {b : Bool} (h : s.m_state f = .EXEC ∨ s.m_state f = .HOLD) :
    (afterSwap s w f b).m_state f = .HOLD := by
  have hr : s.m_state f ≠ .READY := by
    rcases h with h | h <;> rw [h] <;> decide
  have hfin : (s.m_state f).finished = false := by
    rcases h with h | h <;> rw [h] <;> rfl
  rw [afterSwap]
  simp only [if_neg hr, hfin, Bool.false_eq_true, if_false]
  exact Function.update_self ..

theorem afterSwap_of_ne {w : Fin n} {g : Nat} {b : Bool} (h : f ≠ g) :
    (afterSwap s w g b).m_state f = s.m_state f := by
  by_cases hr : s.m_state g = .READY
  · obtain ⟨stats, calling, heq⟩ := afterSwap_ready (w := w) (b := b) hr
    rw [heq]
    rfl
  · obtain ⟨st, c, heq, -⟩ := afterSwap_inv (w := w) (b := b) hr
    rw [heq]
    exact Function.update_of_ne h ..

/-- **Resumption.**  A fiber that waits is swapped in for its item, which was the only one. -/
theorem Waiting.swapped {wake : Option FiberAndThread} (hs : Settled s f) (hw : Waiting s f wake)
    {w : Fin n} {ft : FiberAndThread} {b : Bool} {c : Option Nat}
    (hpc : (s.workers w).pc = .swapIn ft) (hin : SwapsIn s t w ft f b c)
    (hf : Sound (view s) f → Unheld s t w f b c)
    (hwhich : ft.fiber = some f ∨ (view s).cb_fiber w = some f ∨ f = s.nextFiber) :
    wake = some ft ∧ ¬ (view t).Pending f := by
  refine ⟨?_, (hf hs.sound).pending⟩
  rcases hwhich with hft | hcb | hnew
  · refine hw.items ft (mem_places (w := w) ?_) hft
    rw [hpc]
    exact List.mem_singleton.mpr rfl
  · -- the `cb_fiber` of a worker that executes nothing is in `INIT`
    have hinit : s.m_state f = .INIT := (hs.sound.resting hcb hin.free).1
    rcases hw.state with h | h <;> exact absurd (hinit.symm.trans h) (by decide)
  · exact absurd hw.old (by omega)

/-- The state of a fiber that waits, and when it changes. -/
theorem Waiting.state_step {wake : Option FiberAndThread} (hs : Settled s f) (hw : Waiting s f wake)
    (ha : Leaves s f a) (h : step tid s a = some t) :
    t.m_state f = s.m_state f ∨ t.m_state f = .HOLD
      ∨ t.m_state f = .EXEC ∧ wake.isSome ∧ ¬ (view t).Pending f := by
  have hstep := step_cases h
  cases moves_step h with
  | quiet _ hst hnext he => exact .inl (by rw [hst])
  | @swapIn w ft t hpc hswap =>
    rcases swapIn_swaps hs.conservation hpc hstep hswap with ⟨g, b, c, hin, hf, hwhich⟩ | rfl
    · by_cases hg : f = g
      · subst hg
        obtain ⟨hwake, hnp⟩ := hw.swapped hs hpc hin hf hwhich
        exact .inr (.inr ⟨hin.exec, by rw [hwake]; rfl, hnp⟩)
      · exact .inl (hin.m_state f hg)
    · exact .inl rfl
  | @switchOut w g b next hpc hnext =>
    by_cases hg : f = g
    · subst hg
      obtain rfl := ha.yield w next b rfl hpc
      have hexec : s.m_state f = .EXEC := hs.sound.inside w b (by
        show (s.workers w).pc.stay = _
        rw [hpc]
        rfl)
      rw [hexec]
      exact .inl (Function.update_self ..)
    · exact .inl (Function.update_of_ne hg ..)
  | @returned w g b hpc =>
    by_cases hg : f = g
    · subst hg
      exact .inr (.inl (afterSwap_hold hw.state))
    · exact .inl (afterSwap_of_ne hg)
  | newFiber => exact .inl (Function.update_of_ne (Nat.ne_of_lt hw.old) ..)
  | enqueue hft hold he hg hpc hcb hst hnext => exact .inl (by rw [hst])

theorem nextFiber_step (h : step tid s a = some t) (hc : Conserved s) :
    s.nextFiber ≤ t.nextFiber := by
  have hstep := step_cases h
  cases moves_step h with
  | quiet _ hst hnext he => exact Nat.le_of_eq hnext.symm
  | @swapIn w ft t hpc hswap =>
    rcases swapIn_swaps hc hpc hstep hswap with ⟨g, b, c, hin, -⟩ | rfl
    · exact hin.nextFiber
    · exact Nat.le_refl _
  | switchOut hpc hnext => exact Nat.le_refl _
  | @returned w g b hpc =>
    by_cases hr : s.m_state g = .READY
    · obtain ⟨stats, calling, heq⟩ := afterSwap_ready (w := w) (b := b) hr
      rw [heq]
      exact Nat.le_refl _
    · obtain ⟨st, c, heq, -⟩ := afterSwap_inv (w := w) (b := b) hr
      rw [heq]
      exact Nat.le_refl _
  | newFiber => exact Nat.le_succ _
  | enqueue hft hold he hg hpc hcb hst hnext => exact Nat.le_of_eq hnext.symm

/-- An item in the hands of a worker is not of a fiber in `EXEC`. -/
theorem Settled.held (hs : Settled s f) (hexec : s.m_state f = .EXEC) {w : Fin n}
    {x : FiberAndThread} (hx : x ∈ (s.workers w).pc.hands) : x.fiber ≠ some f := by
  intro hxf
  rcases hs.sound.held x ⟨w, hx⟩ hxf with hfin | hno
  · have hm : (s.m_state f).finished = true := hfin
    rw [hexec] at hm
    exact absurd hm (by decide)
  · obtain ⟨v, hv⟩ := hs.executor f hexec
    exact hno v (executes_iff.mp hv)

/-- **A step** that leaves a fiber alone leaves it waiting. -/
theorem Waiting.step {wake : Option FiberAndThread} (hs : Settled s f) (hw : Waiting s f wake)
    (ha : Leaves s f a) (h : Scheduler.step tid s a = some t) : Waiting t f wake := by
  have hready : s.m_state f ≠ .READY := by
    rcases hw.state with h | h <;> rw [h] <;> decide
  have hpending : ∀ x, (view t).pending x → x.fiber = some f → (view s).pending x :=
    fun x hx hxf => pending_of_step h ha.schedule hready hx hxf
  have hstate := hw.state_step hs ha h
  refine ⟨?_, Nat.lt_of_lt_of_le hw.old (nextFiber_step h hs.conservation),
    fun x hx hxf => hw.items x (hpending x hx hxf) hxf, fun hexec w x hx hxf => ?_⟩
  · rcases hstate with hst | hst | ⟨hst, -⟩
    · rw [hst]
      exact hw.state
    · exact .inr hst
    · exact .inl hst
  · rcases hstate with hst | hst | ⟨-, -, hnp⟩
    · rw [hst] at hexec
      rcases run_queue_step (step_cases h) hx with hx | hx | he
      · exact hw.queued hexec w x hx hxf
      · exact hs.held hexec hx hxf
      · rcases (moves_step h).new_item he with hnew | ⟨v, g, b, -, hr, hg⟩
        · exact ha.schedule (hnew.symm.trans hxf)
        · rw [hxf] at hg
          rw [Option.some.inj hg] at hready
          exact hready hr
    · rw [hst] at hexec
      exact absurd hexec (by decide)
    · exact hnp ⟨x, pending_of_queue hx, hxf⟩

/-- A worker that goes on to something else is not inside `f`. -/
theorem inside_of_update (v : Fin n) {y : Worker n} (hin : Inside t f)
    (hw : t.workers = Function.update s.workers v y) (hy : ∀ b, y.pc ≠ .running f b) :
    Inside s f := by
  obtain ⟨w, b, hpc⟩ := hin
  refine ⟨w, b, ?_⟩
  rw [hw] at hpc
  by_cases hwv : w = v
  · subst hwv
    rw [Function.update_self] at hpc
    exact absurd hpc (hy b)
  · rwa [Function.update_of_ne hwv] at hpc

/-- **A fiber that waits is resumed by its wake-up only.** -/
theorem Waiting.resumes {wake : Option FiberAndThread} (hs : Settled s f) (hw : Waiting s f wake)
    (h : Scheduler.step tid s a = some t) (hin : Inside t f) :
    Inside s f ∨ wake.isSome ∧ ¬ (view t).Pending f := by
  have hstep := step_cases h
  cases moves_step h with
  | quiet hq hst hnext he =>
    obtain ⟨v, b, hv⟩ := inside_iff.mp hin
    exact .inl (inside_iff.mpr ⟨v, b, (hq v).stay.symm.trans hv⟩)
  | @swapIn w ft t hpc hswap =>
    rcases swapIn_swaps hs.conservation hpc hstep hswap with ⟨g, b, c, hsw, hf, hwhich⟩ | rfl
    · by_cases hg : f = g
      · subst hg
        obtain ⟨hwake, hnp⟩ := hw.swapped hs hpc hsw hf hwhich
        exact .inr ⟨by rw [hwake]; rfl, hnp⟩
      · obtain ⟨v, d, hv⟩ := inside_iff.mp hin
        exact .inl (inside_iff.mpr ⟨v, d, ((hsw.agree hg).stay v d true).mp hv⟩)
    · exact .inl (inside_of_update w hin rfl fun _ => nofun)
  | @switchOut w g b next hpc hnext => exact .inl (inside_of_update w hin rfl fun _ => nofun)
  | @returned w g b hpc =>
    by_cases hr : s.m_state g = .READY
    · obtain ⟨stats, calling, heq⟩ := afterSwap_ready (w := w) (b := b) hr
      rw [heq] at hin
      exact .inl (inside_of_update w hin rfl fun _ => nofun)
    · obtain ⟨st, c, heq, -⟩ := afterSwap_inv (w := w) (b := b) hr
      rw [heq] at hin
      exact .inl (inside_of_update w hin rfl fun _ => nofun)
  | newFiber => exact .inl hin
  | enqueue hft hold he hg hpc hcb hst hnext =>
    obtain ⟨v, b, hv⟩ := hin
    exact .inl ⟨v, b, (hpc v).symm.trans hv⟩

/-- Conversely it goes on running until it switches out. -/
theorem Inside.stays {w : Fin n} {b : Bool} (hpc : (s.workers w).pc = .running f b)
    (ha : ∀ next, a ≠ .yield w next) (h : Scheduler.step tid s a = some t) :
    (t.workers w).pc = .running f b := by
  have hstay : (s.workers w).pc.stay = some ⟨f, b, true⟩ := by
    rw [hpc]
    rfl
  have hother : ∀ {v : Fin n} {y : Worker n}, w ≠ v → t.workers = Function.update s.workers v y →
      (t.workers w).pc = .running f b := by
    intro v y hv hw
    rw [hw, Function.update_of_ne hv]
    exact hpc
  have hpcs : ∀ {v : Fin n} {pc : Pc n}, (s.workers v).pc = pc → pc ≠ .running f b → w ≠ v := by
    rintro v pc hv hne rfl
    exact hne (hv.symm.trans hpc)
  cases moves_step h with
  | quiet hq hst hnext he =>
    have hsame := (hq w).stay.trans hstay
    cases hpc' : (t.workers w).pc <;> rw [hpc'] at hsame <;> simp_all [Pc.stay]
  | @swapIn v ft t hv hswap =>
    rcases swapIn_inv hswap with ⟨g, d, c, k, rfl, -⟩ | rfl <;>
      exact hother (hpcs hv fun hpc' => by cases hpc') rfl
  | @switchOut v g d next hv hnext =>
    by_cases hvw : w = v
    · subst hvw
      exact absurd rfl (ha next)
    · exact hother hvw rfl
  | @returned v g d hv =>
    by_cases hr : s.m_state g = .READY
    · obtain ⟨stats, calling, heq⟩ := afterSwap_ready (w := v) (b := d) hr
      rw [heq] at hother ⊢
      exact hother (hpcs hv fun hpc' => by cases hpc') rfl
    · obtain ⟨st, c, heq, -⟩ := afterSwap_inv (w := v) (b := d) hr
      rw [heq] at hother ⊢
      exact hother (hpcs hv fun hpc' => by cases hpc') rfl
  | newFiber => exact hpc
  | enqueue hft hold he hg hsame hcb hst hnext => exact (hsame w).trans hpc

/-! ### The beginning and the wake-up -/

/-- A fiber that has none of its items waiting may begin to wait. -/
theorem waiting_start (hs : Settled s f) (hin : Inside s f) (hnp : ¬ (view s).Pending f) :
    Waiting s f none := by
  obtain ⟨w, b, hstay⟩ := inside_iff.mp hin
  refine ⟨.inl (hs.sound.inside w b hstay), hs.sound.old (.inr (.inl ⟨w, b, true, hstay⟩)),
    fun x hx hxf => absurd ⟨x, hx, hxf⟩ hnp, fun _ v x hx hxf => ?_⟩
  exact hnp ⟨x, pending_of_queue hx, hxf⟩

/-- The wake-up of a fiber that waits is the only one. -/
theorem Waiting.once (hs : Settled s f) (hw : Waiting s f none) {thread : Int} :
    EnqueuedOnceOf s f (.scheduleOther (some f) none thread) := by
  have hnp : ¬ (view s).Pending f := fun ⟨x, hx, hxf⟩ => nomatch hw.items x hx hxf
  refine ⟨fun _ => ⟨?_, ?_⟩, fun w next b ha => nomatch ha⟩
  · rintro (hp | hr)
    · exact hnp hp
    · rcases hw.state with h | h <;> exact absurd (h.symm.trans hr) (by decide)
  · rcases hw.state with h | h
    · exact .inl h
    · refine .inr fun w hcb => ?_
      have hm : (view s).m_state f = .HOLD := h
      rcases hs.sound.cb w hcb with ⟨⟨i, hi⟩, -⟩ | ⟨hinit, -⟩
      · rcases hs.sound.outside w ⟨_, _, hi⟩ with h' | h' | h' <;> rw [hm] at h' <;>
          exact absurd h' (by decide)
      · rw [hm] at hinit
        exact absurd hinit (by decide)

/-- **The wake-up is queued** by another thread. -/
theorem Waiting.wake (hs : Settled s f) (hw : Waiting s f none)
    (h : Scheduler.step tid s (.scheduleOther (some f) none (-1)) = some t) :
    Settled t f ∧ Waiting t f (some ⟨s.nextTicket, some f, none, -1⟩)
      ∧ (view t).pending ⟨s.nextTicket, some f, none, -1⟩ ∧ t.workers = s.workers := by
  have ht := hs.step (hw.once hs) h
  have hstep := step_cases h
  cases hstep with
  | scheduleOther calls hcalls =>
    refine ⟨ht, ⟨hw.state, hw.old, fun x hx hxf => ?_, hw.queued⟩, ?_, rfl⟩
    · rcases (places_enqueue (step_cases h) rfl rfl).mp hx with rfl | hx
      · rfl
      · exact nomatch hw.items x hx hxf
    · exact (places_enqueue (step_cases h) rfl rfl).mpr (.inl rfl)

/-! ### One item -/

/-- An item that is waiting is in none of the records. -/
theorem Conserved.of_pending (hs : Conserved s) {x : FiberAndThread} (hx : (view s).pending x) :
    x ∈ s.enqueued ∧ x ∉ s.dropped ∧ x ∉ s.ended := by
  have hbal := hs.balance x
  have hone := List.nodup_iff_count_le_one.mp hs.nodup x
  have hpos : 0 < places s x := hx
  rw [gone] at hbal
  exact ⟨List.count_pos_iff.mp (by omega), List.count_eq_zero.mp (by omega),
    List.count_eq_zero.mp (by omega)⟩

/-- An item that has left the queues does not come back. -/
theorem not_pending_step (ht : Conserved t) (h : Scheduler.step tid s a = some t)
    {x : FiberAndThread} (hx : x ∈ s.enqueued) (hnp : ¬ (view s).pending x) :
    ¬ (view t).pending x := by
  have hstep := step_cases h
  have hcount := step_count hstep x
  have hgone := step_gone hstep x
  have hsame : t.enqueued.count x = s.enqueued.count x := by
    rcases step_enqueued hstep with ⟨he, -⟩ | ⟨ft, -, he, -⟩
    · rw [he]
    · have hnodup := ht.nodup
      rw [he, List.nodup_cons] at hnodup
      rw [he, List.count_cons_of_ne]
      rintro rfl
      exact hnodup.1 hx
  have hzero : ¬ 0 < places s x := hnp
  show ¬ 0 < places t x
  omega

/-- An item is recorded as dropped or ended when it leaves the queues. -/
theorem lost_step (h : Scheduler.step tid s a = some t) {x : FiberAndThread}
    (hx : x ∈ t.dropped ∨ x ∈ t.ended) : x ∈ s.dropped ∨ x ∈ s.ended ∨ (view s).pending x := by
  rcases hx with hx | hx
  · rw [step_dropped (step_cases h), List.mem_append] at hx
    rcases hx with hx | hx
    · obtain ⟨-, w, hqueue⟩ := mem_discarded hx
      exact .inr (.inr (pending_of_queue hqueue))
    · exact .inl hx
  · rcases step_records (step_cases h) with ⟨-, he⟩ | ⟨w, ft, -, hpc, ⟨-, he, -⟩ | ⟨-, he, -⟩⟩ <;>
      rw [he] at hx
    · exact .inr (.inl hx)
    · exact .inr (.inl hx)
    · rcases List.mem_cons.mp hx with rfl | hx
      · refine .inr (.inr (mem_places (w := w) ?_))
        rw [hpc]
        exact List.mem_singleton.mpr rfl
      · exact .inr (.inl hx)

/-- **The wake-up is never thrown away**, nor taken for one of a fiber that has ended. -/
theorem Waiting.keeps {wake : Option FiberAndThread} (hw : Waiting s f wake)
    (h : Scheduler.step tid s a = some t) {x : FiberAndThread} (hxf : x.fiber = some f)
    (hx : x ∈ t.dropped ∨ x ∈ t.ended) : x ∈ s.dropped ∨ x ∈ s.ended := by
  rcases hx with hx | hx
  · rw [step_dropped (step_cases h), List.mem_append] at hx
    rcases hx with hx | hx
    · obtain ⟨hexec, w, hqueue⟩ := mem_discarded hx
      have hst : s.m_state f = .EXEC := by
        simpa [isExec, hxf] using hexec
      exact absurd hxf (hw.queued hst w x hqueue)
    · exact .inl hx
  · rcases step_records (step_cases h) with ⟨-, he⟩ | ⟨w, ft, -, -, ⟨-, he, -⟩ | ⟨-, he, -, hfin⟩⟩ <;>
      rw [he] at hx
    · exact .inr hx
    · exact .inr hx
    · rcases List.mem_cons.mp hx with rfl | hx
      · rw [hxf] at hfin
        rcases hw.state with hst | hst <;> simp [hst, Fiber.State.finished] at hfin
      · exact .inr hx

end

end Scheduler

end FiberServer
