import FiberServer.Scheduler.Moves

/-!
# No fiber runs twice at once

`view s` is the ownership of the fibers in a state of the scheduler.  Every step is
one of its moves, as long as each suspension of a fiber is enqueued at most once
(`EnqueuedOnce`): by a wake-up for `YieldToHold`, by `run()` itself for `YieldToReady`.

* `sound_step`: such a step keeps the ownership of a fiber sound, whatever is done to the
  other fibers.
* `exclusive`: **in every reachable state** the fiber that a worker is about to swap in
  is not in `EXEC` and no worker has it, so the assertions of `swapIn` and `reset` hold.
-/

namespace FiberServer

namespace Scheduler

open State

variable {n : Nat}

theorem mem_places {s : State n} {x : FiberAndThread} {w : Fin n}
    (h : x ∈ (s.workers w).pc.hands) : 0 < places s x := by
  have hpos : 0 < (s.workers w).pc.hands.count x := List.count_pos_iff.mpr h
  have hle := Tally.le_sum (Worker.holds x) s.workers w
  rw [Worker.holds] at hle
  rw [places]
  omega

/-- Who has which fiber in `s`. -/
def view (s : State n) : View n where
  pending x := 0 < places s x
  held x := ∃ w, x ∈ (s.workers w).pc.hands
  stay w := (s.workers w).pc.stay
  m_state := s.m_state
  cb_fiber w := (s.workers w).cb_fiber
  nextFiber := s.nextFiber
  pending_of_held := fun _ ⟨_, h⟩ => mem_places h

/-- The suspension of `f` that is going on or comes next has its item, or `run()` will
queue it. -/
def Enqueued (s : State n) (f : Nat) : Prop := (view s).Pending f ∨ s.m_state f = .READY

/-- `f` is suspended or will be: it is not the `cb_fiber` that a worker keeps between
two callbacks. -/
def Suspends (s : State n) (f : Nat) : Prop :=
  s.m_state f = .EXEC ∨ ∀ w, (s.workers w).cb_fiber ≠ some f

/-- Each suspension of a fiber is enqueued at most once: `schedule()` is called for a
fiber that has none of its items waiting, and a fiber with an item waiting neither
calls `YieldToReady`, after which `run()` queues it, nor ends in a worker's
`cb_fiber`. -/
def EnqueuedOnce (s : State n) : Action n → Prop
  | .schedule _ _ fiber _ _ | .scheduleOther fiber _ _ =>
    ∀ f, fiber = some f → ¬ Enqueued s f ∧ Suspends s f
  | .yield w next => ∀ f b, (s.workers w).pc = .running f b →
    (next = .READY → ¬ (view s).Pending f)
      ∧ (next.finished = true → b = true → ¬ (view s).Pending f)
  | _ => True

/-- The same for the suspensions of one fiber. -/
structure EnqueuedOnceOf (s : State n) (f : Nat) (a : Action n) : Prop where
  schedule : a.scheduled = some f → ¬ Enqueued s f ∧ Suspends s f
  yield : ∀ w next b, a = .yield w next → (s.workers w).pc = .running f b →
    (next = .READY → ¬ (view s).Pending f)
      ∧ (next.finished = true → b = true → ¬ (view s).Pending f)

theorem EnqueuedOnce.of {s : State n} {a : Action n} (h : EnqueuedOnce s a) (f : Nat) :
    EnqueuedOnceOf s f a := by
  refine ⟨fun hf => ?_, ?_⟩
  · cases a with
    | schedule w force_global fiber cb thread | scheduleOther fiber cb thread => exact h f hf
    | _ => exact absurd hf (by simp [Action.scheduled])
  · rintro w next b rfl hpc
    exact h f b hpc

/-! ### Items -/

theorem step_gone {tid : Fin n → Int} {s t : State n} {a : Action n} (h : Step tid s a t)
    (x : FiberAndThread) : gone s x ≤ gone t x := by
  have hdrop : s.dropped.count x ≤ t.dropped.count x := by
    rw [step_dropped h, List.count_append]
    omega
  have hrest : s.executed.count x ≤ t.executed.count x ∧ s.ended.count x ≤ t.ended.count x := by
    rcases step_records h with ⟨hx, he⟩ | ⟨w, ft, -, -, ⟨hx, he, -⟩ | ⟨hx, he, -⟩⟩ <;> rw [hx, he]
    · exact ⟨Nat.le_refl _, Nat.le_refl _⟩
    · exact ⟨List.count_le_count_cons, Nat.le_refl _⟩
    · exact ⟨Nat.le_refl _, List.count_le_count_cons⟩
  rw [gone, gone]
  omega

/-- Without a new item nothing comes to a place. -/
theorem places_le {tid : Fin n → Int} {s t : State n} {a : Action n} (h : Step tid s a t)
    (he : t.enqueued = s.enqueued) (x : FiberAndThread) : places t x ≤ places s x := by
  have hcount := step_count h x
  have hgone := step_gone h x
  rw [he] at hcount
  omega

theorem places_eq {tid : Fin n → Int} {s t : State n} {a : Action n} (h : Step tid s a t)
    (he : t.enqueued = s.enqueued) {x : FiberAndThread} (hg : gone t x = gone s x) :
    places t x = places s x := by
  have hcount := step_count h x
  rw [he] at hcount
  omega

/-- A new item is the only one that comes. -/
theorem places_enqueue {tid : Fin n → Int} {s t : State n} {a : Action n} (h : Step tid s a t)
    {ft x : FiberAndThread} (he : t.enqueued = ft :: s.enqueued) (hg : gone t x = gone s x) :
    0 < places t x ↔ x = ft ∨ 0 < places s x := by
  have hcount := step_count h x
  rw [he, List.count_cons, hg] at hcount
  by_cases hx : ft = x
  · rw [if_pos (by simp [hx])] at hcount
    exact ⟨fun _ => .inl hx.symm, fun _ => by omega⟩
  · rw [if_neg (by simpa using hx)] at hcount
    exact ⟨fun hp => .inr (by omega), fun hp => hp.elim (fun h' => absurd h'.symm hx)
      fun hp => by omega⟩

theorem exec_of_isExec {m_state : Nat → Fiber.State} {x : FiberAndThread} {f : Nat}
    (h : isExec m_state x = false) (hf : x.fiber = some f) : m_state f ≠ .EXEC := by
  simpa [isExec, hf] using h

/-! ### Steps that move no fiber -/

theorem agree_of_quiet {tid : Fin n → Int} {s t : State n} {a : Action n} (h : Step tid s a t)
    (hw : ∀ w, Worker.Quiet s.m_state (s.workers w) (t.workers w)) {f : Nat}
    (hst : t.m_state f = s.m_state f) (hnext : s.nextFiber ≤ t.nextFiber)
    (he : t.enqueued = s.enqueued) : Agree (view s) (view t) f where
  pending := fun x _ hx => Nat.lt_of_lt_of_le hx (places_le h he x)
  held := by
    rintro x hxf ⟨w, hx⟩
    rcases (hw w).hands x hx with hx | hx
    · exact .inl ⟨w, hx⟩
    · exact .inr (exec_of_isExec hx hxf)
  stay := by
    intro w b i
    show (t.workers w).pc.stay = _ ↔ (s.workers w).pc.stay = _
    rw [(hw w).stay]
  m_state := hst
  cb_fiber := by
    intro w
    show (t.workers w).cb_fiber = _ ↔ (s.workers w).cb_fiber = _
    rw [(hw w).cb_fiber]
  nextFiber := hnext

/-! ### `swapIn` -/

/-- Worker `w` swaps in the fiber `f` for the item `ft`, which leaves its hands. -/
structure SwapsIn (s t : State n) (w : Fin n) (ft : FiberAndThread) (f : Nat) (b : Bool)
    (c : Option Nat) : Prop where
  free : (view s).stay w = none
  self : t.workers w = { s.workers w with pc := .running f b, cb_fiber := c }
  other : ∀ w', w' ≠ w → t.workers w' = s.workers w'
  exec : t.m_state f = .EXEC
  m_state : ∀ g, g ≠ f → t.m_state g = s.m_state g
  pending : ∀ x, (view t).pending x → (view s).pending x ∧ x ≠ ft
  nextFiber : s.nextFiber ≤ t.nextFiber
  kept : ∀ g, g ≠ f → (c = some g ↔ (s.workers w).cb_fiber = some g)

/-- Nobody has the fiber that is swapped in, and the worker keeps it as its `cb_fiber` when
it is one of a callback. -/
structure Unheld (s t : State n) (w : Fin n) (f : Nat) (b : Bool) (c : Option Nat) : Prop where
  executes : ∀ w', ¬ (view s).Executes w' f
  pending : ¬ (view t).Pending f
  others : ∀ w', w' ≠ w → (s.workers w').cb_fiber ≠ some f
  cb : c = some f ↔ b = true
  old : f < t.nextFiber

section

variable {s t : State n} {w : Fin n} {ft : FiberAndThread} {f : Nat} {b : Bool} {c : Option Nat}

/-- The item is counted once, and `executed` has it now. -/
theorem swapsIn_of_step {tid : Fin n → Int} {k : Nat} (hc : Conserved s)
    (hpc : (s.workers w).pc = .swapIn ft) (hk : s.nextFiber ≤ k)
    (hkept : ∀ g, g ≠ f → (c = some g ↔ (s.workers w).cb_fiber = some g))
    (ht : { (s.setState f .EXEC).setWorker w { s.workers w with
        pc := .running f b, cb_fiber := c } with nextFiber := k, executed := ft :: s.executed } = t)
    (hstep : Step tid s (.run w) t) : SwapsIn s t w ft f b c := by
  have hhand : ft ∈ (s.workers w).pc.hands := by
    rw [hpc]
    exact List.mem_singleton.mpr rfl
  have henq : t.enqueued = s.enqueued := by
    rw [← ht]
    rfl
  -- the item has left the hands of the worker
  have hgone : places t ft = 0 := by
    have hexecuted : gone t ft = gone s ft + 1 := by
      rw [← ht, gone, gone, List.count_cons_self]
      show s.executed.count ft + 1 + s.ended.count ft + s.dropped.count ft = _
      omega
    have hcount := step_count hstep ft
    have hbal := hc.balance ft
    have hone := List.nodup_iff_count_le_one.mp hc.nodup ft
    have hpos := mem_places hhand
    rw [henq] at hcount
    omega
  refine ⟨?_, ?_, fun w' hne => ?_, ?_, fun g hne => ?_, fun x hx => ?_, ?_, hkept⟩
  · show (s.workers w).pc.stay = none
    rw [hpc]
    rfl
  · rw [← ht]
    exact Function.update_self ..
  · rw [← ht]
    exact Function.update_of_ne hne ..
  · rw [← ht]
    exact Function.update_self ..
  · rw [← ht]
    exact Function.update_of_ne hne ..
  · refine ⟨Nat.lt_of_lt_of_le hx (places_le hstep henq x), ?_⟩
    rintro rfl
    exact absurd hx (by show ¬ 0 < places t x; omega)
  · rw [← ht]
    exact hk

/-- The item's own fiber. -/
theorem unheld_own (hs : Sound (view s) f) (hpc : (s.workers w).pc = .swapIn ft)
    (h : SwapsIn s t w ft f false (s.workers w).cb_fiber) (hfib : ft.fiber = some f)
    (hfin : (s.m_state f).finished = false) : Unheld s t w f false (s.workers w).cb_fiber := by
  have hhand : ft ∈ (s.workers w).pc.hands := by
    rw [hpc]
    exact List.mem_singleton.mpr rfl
  have hp : (view s).Pending f := ⟨ft, mem_places hhand, hfib⟩
  have hno : ∀ w', ¬ (view s).Executes w' f := by
    rcases hs.held ft ⟨w, hhand⟩ hfib with h' | h'
    · exact absurd h' (by rw [show (view s).m_state f = s.m_state f from rfl, hfin]; decide)
    · exact h'
  have hncb : ∀ w', (s.workers w').cb_fiber ≠ some f := by
    intro w' hcb
    rcases hs.cb w' hcb with ⟨⟨i, hi⟩, -⟩ | ⟨-, hnp, -⟩
    · exact hno w' ⟨_, _, hi⟩
    · exact hnp hp
  refine ⟨hno, ?_, fun w' _ => hncb w', ?_, Nat.lt_of_lt_of_le (hs.old (.inl hp)) h.nextFiber⟩
  -- `ft` was the only item of `f`
  · rintro ⟨x, hx, hxf⟩
    obtain ⟨hx, hne⟩ := h.pending x hx
    exact hne (hs.once x ft hx (mem_places hhand) hxf hfib)
  · exact ⟨fun h' => absurd h' (hncb w), fun h' => absurd h' Bool.noConfusion⟩

/-- The worker's `cb_fiber`. -/
theorem unheld_kept (hs : Sound (view s) f) (h : SwapsIn s t w ft f true (some f))
    (hcb : (s.workers w).cb_fiber = some f) : Unheld s t w f true (some f) := by
  obtain ⟨-, hnp, hno⟩ := hs.resting hcb h.free
  refine ⟨hno, ?_, ?_, by simp, Nat.lt_of_lt_of_le (hs.old (.inr (.inr ⟨w, hcb⟩))) h.nextFiber⟩
  · rintro ⟨x, hx, hxf⟩
    exact hnp ⟨x, (h.pending x hx).1, hxf⟩
  · exact fun w' hne hcb' => hne (hs.sole w' w hcb' hcb)

/-- A new fiber. -/
theorem unheld_new (hs : Sound (view s) s.nextFiber)
    (h : SwapsIn s t w ft s.nextFiber true (some s.nextFiber))
    (hnext : t.nextFiber = s.nextFiber + 1) :
    Unheld s t w s.nextFiber true (some s.nextFiber) := by
  have hnew : ¬ ((view s).Pending s.nextFiber ∨ (∃ w, (view s).Executes w s.nextFiber)
      ∨ ∃ w, (view s).cb_fiber w = some s.nextFiber) :=
    fun h' => Nat.lt_irrefl _ (hs.old h')
  refine ⟨fun w' h' => hnew (.inr (.inl ⟨w', h'⟩)), ?_, fun w' _ h' => hnew (.inr (.inr ⟨w', h'⟩)),
    by simp, by omega⟩
  rintro ⟨x, hx, hxf⟩
  exact hnew (.inl ⟨x, (h.pending x hx).1, hxf⟩)

/-- The fiber that is swapped in. -/
theorem SwapsIn.sound_self (h : SwapsIn s t w ft f b c) (hf : Unheld s t w f b c) :
    Sound (view t) f := by
  refine sound_start (w := w) (b := b) ?_ ?_ h.exec hf.pending ?_ hf.old
  · show (t.workers w).pc.stay = _
    rw [h.self]
    rfl
  · rintro w' hne ⟨b', i, h'⟩
    have hsame : (t.workers w').pc.stay = some ⟨f, b', i⟩ := h'
    rw [h.other w' hne] at hsame
    exact hf.executes w' ⟨b', i, hsame⟩
  · intro w'
    show (t.workers w').cb_fiber = some f ↔ _
    by_cases hne : w' = w
    · subst hne
      rw [h.self]
      simpa using hf.cb
    · rw [h.other w' hne]
      exact ⟨fun h' => absurd h' (hf.others w' hne), fun h' => absurd h'.1 hne⟩

/-- Every other fiber. -/
theorem SwapsIn.agree (h : SwapsIn s t w ft f b c) {g : Nat} (hg : g ≠ f) :
    Agree (view s) (view t) g := by
  refine ⟨fun x _ hx => (h.pending x hx).1, ?_, ?_, h.m_state g hg, ?_, h.nextFiber⟩
  · rintro x - ⟨w', hx⟩
    by_cases hne : w' = w
    · subst hne
      rw [h.self] at hx
      exact absurd hx List.not_mem_nil
    · rw [h.other w' hne] at hx
      exact .inl ⟨w', hx⟩
  · intro w' b' i
    by_cases hne : w' = w
    · subst hne
      rw [h.free]
      show (t.workers w').pc.stay = _ ↔ _
      rw [h.self]
      simp [Pc.stay, Ne.symm hg]
    · show (t.workers w').pc.stay = _ ↔ (s.workers w').pc.stay = _
      rw [h.other w' hne]
  · intro w'
    show (t.workers w').cb_fiber = _ ↔ (s.workers w').cb_fiber = _
    by_cases hne : w' = w
    · subst hne
      rw [h.self]
      exact h.kept g hg
    · rw [h.other w' hne]

theorem SwapsIn.sound (h : SwapsIn s t w ft f b c)
    (hf : Sound (view s) f → Unheld s t w f b c) {g : Nat} (hs : Sound (view s) g) :
    Sound (view t) g := by
  by_cases hg : g = f
  · subst hg
    exact h.sound_self (hf hs)
  · exact hs.frame (h.agree hg)

/-- What is swapped in: a fiber that nobody has, as long as its ownership is sound; or
nothing, because the item's fiber has ended. -/
theorem swapIn_swaps {tid : Fin n → Int} (hc : Conserved s) (hpc : (s.workers w).pc = .swapIn ft)
    (hstep : Step tid s (.run w) t) (h : Scheduler.swapIn s w ft = some t) :
    (∃ f b c, SwapsIn s t w ft f b c ∧ (Sound (view s) f → Unheld s t w f b c)
        ∧ (ft.fiber = some f ∨ (view s).cb_fiber w = some f ∨ f = s.nextFiber))
      ∨ t = { s.goto w .popLocal with
        m_activeThreadCount := s.m_activeThreadCount - 1, ended := ft :: s.ended } := by
  rcases swapIn_inv h with ⟨f, b, c, k, ht, hcase⟩ | rfl
  · left
    have hnext : t.nextFiber = k := by rw [ht]
    rcases hcase with ⟨rfl, hfib, rfl, rfl, hfin⟩ | ⟨rfl, rfl, hcb, rfl⟩ | ⟨rfl, rfl, hcb, rfl, rfl⟩
    · have hin := swapsIn_of_step hc hpc (Nat.le_refl _) (fun _ _ => Iff.rfl) ht.symm hstep
      exact ⟨f, _, _, hin, fun hs => unheld_own hs hpc hin hfib hfin, .inl hfib⟩
    · have hin := swapsIn_of_step hc hpc (Nat.le_refl _) (fun g _ => by rw [hcb]) ht.symm hstep
      exact ⟨f, _, _, hin, fun hs => unheld_kept hs hin hcb, .inr (.inl hcb)⟩
    · have hin := swapsIn_of_step hc hpc (Nat.le_succ _)
        (fun g hg => by rw [hcb]; simp [Ne.symm hg]) ht.symm hstep
      exact ⟨_, _, _, hin, fun hs => unheld_new hs hin hnext, .inr (.inr rfl)⟩
  · exact .inr rfl

end

/-! ### Switching out -/

theorem sound_switchOut {tid : Fin n → Int} {s : State n} {w : Fin n} {f : Nat} {b : Bool}
    {next : Fiber.State} {g : Nat} (hs : Sound (view s) g) (hpc : (s.workers w).pc = .running f b)
    (hstep : Step tid s (.yield w next) ((s.setState f next).goto w (.switched f b)))
    (hst : g = f → next = .EXEC ∨ next = .READY ∧ ¬ (view s).Pending g
      ∨ next.finished = true ∧ (b = true → ¬ (view s).Pending g)) :
    Sound (view ((s.setState f next).goto w (.switched f b))) g := by
  have hself : ((s.setState f next).goto w (.switched f b)).workers w
      = { s.workers w with pc := .switched f b } := Function.update_self ..
  have hother : ∀ w', w' ≠ w →
      ((s.setState f next).goto w (.switched f b)).workers w' = s.workers w' :=
    fun w' hne => Function.update_of_ne hne ..
  generalize ht : (s.setState f next).goto w (.switched f b) = t at hstep hself hother ⊢
  have hpending : (view t).pending = (view s).pending := by
    funext x
    show (0 < places t x) = (0 < places s x)
    subst ht
    rw [places_eq hstep rfl rfl]
  have hheld : (view t).held = (view s).held := by
    funext x
    refine propext (exists_congr fun w' => ?_)
    by_cases hne : w' = w
    · subst hne
      rw [hself, hpc]
      exact Iff.rfl
    · rw [hother w' hne]
  have hcb : (view t).cb_fiber = (view s).cb_fiber := by
    funext w'
    show (t.workers w').cb_fiber = (s.workers w').cb_fiber
    by_cases hne : w' = w
    · subst hne
      rw [hself]
    · rw [hother w' hne]
  have hnext : (view t).nextFiber = (view s).nextFiber := by rw [← ht]; rfl
  have hv : (view s).stay w = some ⟨f, b, true⟩ := by
    show (s.workers w).pc.stay = _
    rw [hpc]
    rfl
  have hstay : (view t).stay w = some ⟨f, b, false⟩ := by
    show (t.workers w).pc.stay = _
    rw [hself]
    rfl
  have hstay' : ∀ w', w' ≠ w → (view t).stay w' = (view s).stay w' := by
    intro w' hne
    show (t.workers w').pc.stay = (s.workers w').pc.stay
    rw [hother w' hne]
  by_cases hgf : g = f
  · subst hgf
    have hnew : (view t).m_state g = next := by
      rw [← ht]
      exact Function.update_self ..
    refine hs.switchOut hv hstay (fun w' hne b' i h' => ?_) hpending hheld hcb hnext ?_
    · rwa [hstay' w' hne] at h'
    · rw [hnew]
      exact hst rfl
  · refine hs.frame ⟨fun x _ hx => ?_, fun x _ hx => ?_, fun w' b' i => ?_, ?_,
      fun w' => by rw [hcb], Nat.le_of_eq hnext.symm⟩
    · rwa [hpending] at hx
    · rw [hheld] at hx
      exact .inl hx
    · by_cases hne : w' = w
      · subst hne
        rw [hstay, hv]
        simp [Ne.symm hgf]
      · rw [hstay' w' hne]
    · rw [← ht]
      exact Function.update_of_ne hgf ..

/-! ### Items that are queued -/

theorem sound_enqueue {t : State n} {v : View n} {ft : FiberAndThread} {g : Nat} (hs : Sound v g)
    (hpending : ∀ x, (view t).pending x ↔ x = ft ∨ v.pending x) (hheld : (view t).held = v.held)
    (hstay : (view t).stay = v.stay) (hst : t.m_state = v.m_state)
    (hcb : (view t).cb_fiber = v.cb_fiber) (hnext : t.nextFiber = v.nextFiber)
    (hft : ft.fiber = some g → ¬ v.Pending g ∧ g < v.nextFiber
      ∧ (v.m_state g = .READY → ∀ w, ¬ v.Executes w g)
      ∧ (v.m_state g = .EXEC ∨ ∀ w, v.cb_fiber w ≠ some g)) : Sound (view t) g := by
  by_cases hg : ft.fiber = some g
  · obtain ⟨hnp, hold, hready, hrest⟩ := hft hg
    exact hs.enqueue hpending hheld hstay hst hcb hnext hnp hold hready hrest
  · refine hs.frame ⟨fun x hxg hx => ?_, fun x _ hx => ?_, fun w b i => by rw [hstay],
      congrFun hst g, fun w => by rw [hcb], Nat.le_of_eq hnext.symm⟩
    · rcases (hpending x).mp hx with rfl | hx
      · exact absurd hxg hg
      · exact hx
    · rw [hheld] at hx
      exact .inl hx

/-! ### After `swapIn` -/

/-- A worker that executes a callback keeps its fiber. -/
def Worker.Owns (x : Worker n) : Prop := ∀ f i, x.pc.stay = some ⟨f, true, i⟩ → x.cb_fiber = some f

theorem owns_init (w : Fin n) : ((init n).workers w).Owns :=
  fun _ _ h => absurd h (by simp [init, Pc.stay])

theorem owns_moves {s t : State n} {a : Action n} (hs : ∀ w, (s.workers w).Owns)
    (h : Moves s a t) : ∀ w, (t.workers w).Owns := by
  cases h with
  | quiet hw hst hnext he =>
    intro w f i hstay
    rw [(hw w).stay] at hstay
    rw [(hw w).cb_fiber]
    exact hs w f i hstay
  | @swapIn w ft t hpc h =>
    rcases swapIn_inv h with ⟨f, b, c, k, rfl, hcase⟩ | rfl
    · refine forall_setWorker (s := s.setState f .EXEC) (P := fun _ x => x.Owns) ?_ fun w' _ => hs w'
      intro g i hstay
      simp only [Pc.stay, Option.some.injEq, Stay.mk.injEq] at hstay
      obtain ⟨rfl, rfl, -⟩ := hstay
      rcases hcase with ⟨hb, -⟩ | ⟨-, hc, -⟩ | ⟨-, hc, -⟩
      · exact absurd hb (by simp)
      · exact hc
      · exact hc
    · exact forall_setWorker (P := fun _ x => x.Owns) (fun _ _ h => absurd h (by simp [Pc.stay]))
        fun w' _ => hs w'
  | @switchOut w f b next hpc hnext =>
    refine forall_setWorker (s := s.setState f next) (P := fun _ x => x.Owns) ?_ fun w' _ => hs w'
    intro g i hstay
    simp only [Pc.stay, Option.some.injEq, Stay.mk.injEq] at hstay
    obtain ⟨rfl, rfl, -⟩ := hstay
    exact hs w f true (by rw [hpc]; rfl)
  | @returned w f b hpc =>
    by_cases hr : s.m_state f = .READY
    · obtain ⟨stats, calling, heq⟩ := afterSwap_ready (w := w) (b := b) hr
      rw [heq]
      exact forall_setWorker (P := fun _ x => x.Owns) (fun _ _ h => absurd h (by simp [Pc.stay]))
        fun w' _ => hs w'
    · obtain ⟨st, c, heq, -⟩ := afterSwap_inv (w := w) (b := b) hr
      rw [heq]
      exact forall_setWorker (s := s.setState f st) (P := fun _ x => x.Owns)
        (fun _ _ h => absurd h (by simp [Pc.stay])) fun w' _ => hs w'
  | newFiber => exact hs
  | enqueue hft hold he hg hpc hcb hst hnext =>
    intro w f i hstay
    rw [hpc w] at hstay
    rw [hcb w]
    exact hs w f i hstay

/-- The worker after it has left its fiber. -/
def leftView (s : State n) (w : Fin n) (st : Nat → Fiber.State) (c : Option Nat) : View n :=
  { view s with
    stay := Function.update (view s).stay w none
    m_state := st
    cb_fiber := Function.update (view s).cb_fiber w c }

theorem leftView_self (s : State n) (w : Fin n) (st : Nat → Fiber.State) (c : Option Nat) :
    (leftView s w st c).stay w = none ∧ (leftView s w st c).cb_fiber w = c :=
  ⟨Function.update_self .., Function.update_self ..⟩

theorem leftView_of_ne (s : State n) {w w' : Fin n} (st : Nat → Fiber.State) (c : Option Nat)
    (h : w' ≠ w) : (leftView s w st c).stay w' = (view s).stay w'
      ∧ (leftView s w st c).cb_fiber w' = (view s).cb_fiber w' :=
  ⟨Function.update_of_ne h .., Function.update_of_ne h ..⟩

theorem sound_left {s : State n} {w : Fin n} {f : Nat} {b : Bool} {st : Nat → Fiber.State}
    {c : Option Nat} {g : Nat} (hown : (s.workers w).Owns) (hs : Sound (view s) g)
    (hpc : (s.workers w).pc = .returned f b) (hst : ∀ g, g ≠ f → st g = s.m_state g)
    (hc : b = false ∧ c = (s.workers w).cb_fiber ∨ b = true ∧ c = none
      ∨ b = true ∧ (s.m_state f).finished = true ∧ st f = .INIT ∧ c = (s.workers w).cb_fiber) :
    Sound (leftView s w st c) g := by
  have hv : (view s).stay w = some ⟨f, b, false⟩ := by
    show (s.workers w).pc.stay = _
    rw [hpc]
    rfl
  obtain ⟨hself, hcself⟩ := leftView_self s w st c
  by_cases hg : g = f
  · subst hg
    refine hs.leave hv hself (fun w' hne => (leftView_of_ne s st c hne).1) rfl
      (fun w' hne => (leftView_of_ne s st c hne).2) ?_ rfl
    rw [hcself]
    exact hc
  · refine hs.frame ⟨fun x _ hx => hx, fun x _ hx => .inl hx, fun w' b' i => ?_, hst g hg,
      fun w' => ?_, Nat.le_refl _⟩
    · by_cases hne : w' = w
      · subst hne
        rw [hself, hv]
        simp [Ne.symm hg]
      · rw [(leftView_of_ne s st c hne).1]
    · by_cases hne : w' = w
      · subst hne
        rw [hcself]
        rcases hc with ⟨-, rfl⟩ | ⟨rfl, rfl⟩ | ⟨-, -, -, rfl⟩
        · exact Iff.rfl
        · -- the fiber of a callback is the `cb_fiber`
          have howner : (view s).cb_fiber w' = some f := hown f false hv
          rw [howner]
          simp [Ne.symm hg]
        · exact Iff.rfl
      · rw [(leftView_of_ne s st c hne).2]

/-- A step after which worker `w` is at the top of its loop shows in its place only. -/
theorem view_left {s t : State n} {w : Fin n} {f : Nat} {b : Bool} {y : Worker n}
    (hpc : (s.workers w).pc = .returned f b) (hw : t.workers = Function.update s.workers w y)
    (hy : y.pc = .popLocal) :
    (view t).held = (view s).held
      ∧ (view t).stay = Function.update (view s).stay w none
      ∧ (view t).cb_fiber = Function.update (view s).cb_fiber w y.cb_fiber := by
  refine ⟨?_, ?_, ?_⟩
  · funext x
    refine propext (exists_congr fun w' => ?_)
    by_cases hne : w' = w
    · subst hne
      rw [hw, Function.update_self, hy, hpc]
      exact Iff.rfl
    · rw [hw, Function.update_of_ne hne]
  · funext w'
    show (t.workers w').pc.stay = _
    by_cases hne : w' = w
    · subst hne
      rw [hw, Function.update_self, Function.update_self, hy]
      rfl
    · rw [hw, Function.update_of_ne hne, Function.update_of_ne hne]
      rfl
  · funext w'
    show (t.workers w').cb_fiber = _
    by_cases hne : w' = w
    · subst hne
      rw [hw, Function.update_self, Function.update_self]
    · rw [hw, Function.update_of_ne hne, Function.update_of_ne hne]
      rfl

/-- `run()` queues the fiber that is ready: it has no item, nobody executes it any more, and it
is nobody's `cb_fiber`. -/
theorem ready_left {s : State n} {w : Fin n} {f : Nat} {b : Bool} (hs : Sound (view s) f)
    (hpc : (s.workers w).pc = .returned f b) (hr : s.m_state f = .READY) (st : Nat → Fiber.State) :
    ¬ (view s).Pending f ∧ f < s.nextFiber
      ∧ (∀ c w', ¬ (leftView s w st c).Executes w' f)
      ∧ ∀ w', (leftView s w st (if b then none else (s.workers w).cb_fiber)).cb_fiber w' ≠ some f := by
  have hv : (view s).stay w = some ⟨f, b, false⟩ := by
    show (s.workers w).pc.stay = _
    rw [hpc]
    rfl
  have hexec : (view s).Executes w f := ⟨_, _, hv⟩
  refine ⟨hs.ready w hexec hr, hs.old (.inr (.inl ⟨w, hexec⟩)), ?_, ?_⟩
  · rintro c w' ⟨b', i, h'⟩
    by_cases hne : w' = w
    · subst hne
      rw [(leftView_self ..).1] at h'
      exact absurd h' (by simp)
    · have hother : (view s).stay w' = some ⟨f, b', i⟩ := by
        rw [← h', (leftView_of_ne s _ _ hne).1]
      exact hne (hs.single w' w ⟨_, _, hother⟩ hexec)
  · intro w' h'
    by_cases hne : w' = w
    · subst hne
      rw [(leftView_self ..).2] at h'
      cases b with
      | true => exact absurd h' (by simp)
      | false =>
        have hb := (hs.eq_of_cb hv h').2
        exact absurd hb Bool.noConfusion
    · rw [(leftView_of_ne s _ _ hne).2] at h'
      exact hne (hs.eq_of_cb hv h').1

theorem sound_afterSwap {tid : Fin n → Int} {s : State n} {w : Fin n} {f : Nat} {b : Bool} {g : Nat}
    (hown : (s.workers w).Owns) (hs : Sound (view s) g) (hpc : (s.workers w).pc = .returned f b)
    (hstep : Step tid s (.run w) (afterSwap s w f b)) : Sound (view (afterSwap s w f b)) g := by
  by_cases hr : s.m_state f = .READY
  · obtain ⟨stats, calling, heq⟩ := afterSwap_ready (w := w) (b := b) hr
    rw [heq] at hstep ⊢
    obtain ⟨hheld, hstay, hcb⟩ := view_left hpc rfl rfl (t := { s.setWorker w { s.workers w with
          pc := .popLocal
          cb_fiber := if b then none else (s.workers w).cb_fiber
          run_queue := (s.workers w).run_queue ++ [⟨s.nextTicket, some f, none, -1⟩]
          stats := stats
          calling := calling } with
        nextTicket := s.nextTicket + 1
        enqueued := ⟨s.nextTicket, some f, none, -1⟩ :: s.enqueued })
    have hleft : Sound (leftView s w s.m_state (if b then none else (s.workers w).cb_fiber)) g := by
      refine sound_left hown hs hpc (fun _ _ => rfl) ?_
      cases b with
      | true => exact .inr (.inl ⟨rfl, rfl⟩)
      | false => exact .inl ⟨rfl, rfl⟩
    refine sound_enqueue hleft (fun x => places_enqueue hstep rfl rfl) hheld hstay rfl hcb rfl ?_
    intro hfg
    obtain rfl : f = g := Option.some.inj hfg
    obtain ⟨hnp, hold, hexec, hcbs⟩ := ready_left hs hpc hr s.m_state
    exact ⟨hnp, hold, fun _ => hexec _, .inr hcbs⟩
  · obtain ⟨st, c, heq, hc⟩ := afterSwap_inv (w := w) (b := b) hr
    rw [heq] at hstep ⊢
    obtain ⟨hheld, hstay, hcb⟩ := view_left hpc rfl rfl (t := (s.setState f st).setWorker w
      { s.workers w with pc := .popLocal, cb_fiber := c })
    have hleft : Sound (leftView s w (Function.update s.m_state f st) c) g :=
      sound_left hown hs hpc (fun g hne => Function.update_of_ne hne ..)
        (by rw [Function.update_self]; exact hc)
    refine hleft.frame ⟨fun x _ hx => Nat.lt_of_lt_of_le hx (places_le hstep rfl x),
      fun x _ hx => ?_, fun w' b' i => by rw [hstay]; rfl, rfl, fun w' => by rw [hcb]; rfl,
      Nat.le_refl _⟩
    rw [hheld] at hx
    exact .inl hx

/-! ### Every step -/

theorem sound_newFiber {s : State n} {g : Nat} (hs : Sound (view s) g) :
    Sound (view { s.setState s.nextFiber .INIT with nextFiber := s.nextFiber + 1 }) g := by
  by_cases hg : g = s.nextFiber
  · -- nobody knows the new fiber
    have hnew : ¬ ((view s).Pending g ∨ (∃ w, (view s).Executes w g)
        ∨ ∃ w, (view s).cb_fiber w = some g) := fun h => Nat.ne_of_lt (hs.old h) hg
    refine ⟨fun x _ hx _ hxf _ => ?_, fun w _ hw _ => ?_, fun w _ hw => ?_, fun w hw => ?_,
      fun w hw => ?_, fun x hx hxf => ?_, fun w hw => ?_, fun w i hw => ?_, fun w _ hw _ => ?_,
      fun _ => by rw [hg]; exact Nat.lt_succ_self _⟩
    · exact absurd (.inl ⟨x, hx, hxf⟩) hnew
    · exact absurd (.inr (.inl ⟨w, hw⟩)) hnew
    · exact absurd (.inr (.inl ⟨w, _, _, hw⟩)) hnew
    · exact absurd (.inr (.inl ⟨w, hw⟩)) hnew
    · exact absurd (.inr (.inl ⟨w, hw⟩)) hnew
    · exact absurd (.inl ⟨x, (view s).pending_of_held x hx, hxf⟩) hnew
    · exact absurd (.inr (.inr ⟨w, hw⟩)) hnew
    · exact absurd (.inr (.inl ⟨w, _, _, hw⟩)) hnew
    · exact absurd (.inr (.inr ⟨w, hw⟩)) hnew
  · refine hs.frame ⟨fun _ _ hx => hx, fun _ _ hx => .inl hx, fun _ _ _ => Iff.rfl, ?_,
      fun _ => Iff.rfl, Nat.le_succ _⟩
    exact Function.update_of_ne hg ..

/-- **A step keeps the ownership of a fiber sound**, if each of its suspensions is enqueued at
most once. -/
theorem sound_step {tid : Fin n → Int} {s t : State n} {a : Action n} {g : Nat} (hc : Conserved s)
    (hown : ∀ w, (s.workers w).Owns) (hs : Sound (view s) g) (ha : EnqueuedOnceOf s g a)
    (h : step tid s a = some t) : Sound (view t) g := by
  have hstep := step_cases h
  cases moves_step h with
  | quiet hw hst hnext he =>
    exact hs.frame (agree_of_quiet hstep hw (by rw [hst]) (Nat.le_of_eq hnext.symm) he)
  | @swapIn w ft t hpc h =>
    rcases swapIn_swaps hc hpc hstep h with ⟨f, b, c, hin, hf, -⟩ | rfl
    · exact hin.sound hf hs
    · refine hs.frame (agree_of_quiet hstep ?_ rfl (Nat.le_refl _) rfl)
      refine forall_setWorker (P := fun w x => Worker.Quiet s.m_state (s.workers w) x) ?_
        fun w' _ => Worker.Quiet.refl _ _
      exact quiet_of_hands hpc rfl rfl fun _ hx => absurd hx List.not_mem_nil
  | @switchOut w f b next hpc hnext =>
    refine sound_switchOut hs hpc hstep ?_
    rintro rfl
    obtain ⟨hready, hfin⟩ := ha.yield w next b rfl hpc
    rcases hnext with ⟨rfl, -⟩ | rfl | hend
    · exact .inl rfl
    · exact .inr (.inl ⟨rfl, hready rfl⟩)
    · exact .inr (.inr ⟨hend, hfin hend⟩)
  | @returned w f b hpc => exact sound_afterSwap (hown w) hs hpc hstep
  | newFiber => exact sound_newFiber hs
  | enqueue hft hold he hg hpc hcb hst hnext =>
    refine sound_enqueue hs (fun x => places_enqueue hstep he (hg x)) ?_ ?_ hst ?_ hnext ?_
    · funext x
      exact propext (exists_congr fun w => by rw [hpc w])
    · funext w
      exact congrArg Pc.stay (hpc w)
    · funext w
      exact hcb w
    · intro hf
      obtain ⟨hne, hsus⟩ := ha.schedule (hft.symm.trans hf)
      exact ⟨fun hp => hne (.inl hp), hold g hf, fun hr => absurd (.inr hr) hne, hsus⟩

theorem sound_init (f : Nat) : Sound (view (init n)) f := by
  have hp : ∀ x, ¬ (view (init n)).pending x := by
    intro x hx
    have hzero := (conserved_init (n := n)).balance x
    have hnone : (init n).enqueued.count x = 0 := List.count_nil
    have hpos : 0 < places (init n) x := hx
    omega
  have hno : ∀ w, (view (init n)).stay w = none := fun _ => rfl
  have hcb : ∀ w, (view (init n)).cb_fiber w = none := fun _ => rfl
  refine ⟨fun x _ hx => absurd hx (hp x), ?_, ?_, fun w hw => ?_, fun w hw => ?_, ?_, ?_, ?_, ?_, ?_⟩
  · rintro w _ ⟨_, _, hw⟩
    exact absurd hw (by simp [hno])
  · exact fun w b hw => absurd hw (by simp [hno])
  · obtain ⟨_, _, hw⟩ := hw
    exact absurd hw (by simp [hno])
  · obtain ⟨_, _, hw⟩ := hw
    exact absurd hw (by simp [hno])
  · exact fun x hx => absurd ((view (init n)).pending_of_held x hx) (hp x)
  · exact fun w hw => absurd hw (by simp [hcb])
  · exact fun w i hw => absurd hw (by simp [hno])
  · exact fun w _ hw => absurd hw (by simp [hcb])
  · rintro (⟨x, hx, -⟩ | ⟨w, _, _, hw⟩ | ⟨w, hw⟩)
    · exact absurd hx (hp x)
    · exact absurd hw (by simp [hno])
    · exact absurd hw (by simp [hcb])

/-! ### Runs -/

theorem executor_sound {tid : Fin n → Int} {as : List (Action n)} {s : State n}
    (ha : Transition.Along (step tid) EnqueuedOnce (init n) as)
    (h : Transition.exec (step tid) (init n) as = some s) :
    Conserved s ∧ Executor s ∧ ∀ f, Sound (view s) f := by
  have hinv : Conserved s ∧ Executor s ∧ (∀ w, (s.workers w).Owns) ∧ ∀ f, Sound (view s) f := by
    refine Transition.along_invariant
      (I := fun s => Conserved s ∧ Executor s ∧ (∀ w, (s.workers w).Owns) ∧ ∀ f, Sound (view s) f)
      ?_ ⟨conserved_init, executor_init, owns_init, sound_init⟩ ha h
    intro s a t hs ha hst
    exact ⟨conserved_step hs.1 (step_cases hst), executor_step hs.2.1 (step_cases hst),
      owns_moves hs.2.2.1 (moves_step hst),
      fun f => sound_step hs.1 hs.2.2.1 (hs.2.2.2 f) (ha.of f) hst⟩
  exact ⟨hinv.1, hinv.2.1, hinv.2.2.2⟩

theorem executes_iff {s : State n} {w : Fin n} {f : Nat} :
    (s.workers w).pc.executes f = true ↔ (view s).Executes w f := by
  show _ ↔ ∃ b i, (s.workers w).pc.stay = some ⟨f, b, i⟩
  cases (s.workers w).pc <;> simp [Pc.executes, Pc.stay]

/-- The fiber that `run()` swaps in for the item `ft`: its own unless that has ended,
for a callback the worker's `cb_fiber`. -/
def swapTarget (s : State n) (w : Fin n) (ft : FiberAndThread) : Option Nat :=
  match ft.fiber.filter (fun f => !(s.m_state f).finished) with
  | some f => some f
  | none => if ft.cb.isSome then (s.workers w).cb_fiber else none

/-- No fiber runs twice at once: a fiber that is about to be swapped in is not in `EXEC`
and on no worker, and no two workers have one fiber. -/
structure Exclusive (s : State n) : Prop where
  target : ∀ w ft f, (s.workers w).pc = .swapIn ft → swapTarget s w ft = some f →
    s.m_state f ≠ .EXEC ∧ ∀ v, (s.workers v).pc.executes f = false
  asserts : ∀ w ft, (s.workers w).pc = .swapIn ft → (swapIn s w ft).isSome = true
  single : ∀ v w f, (s.workers v).pc.executes f = true → (s.workers w).pc.executes f = true → v = w

theorem target_free {s : State n} {w : Fin n} {ft : FiberAndThread} {f : Nat}
    (hs : ∀ f, Sound (view s) f) (hpc : (s.workers w).pc = .swapIn ft)
    (hf : swapTarget s w ft = some f) : ∀ v, ¬ (view s).Executes v f := by
  have hfree : (view s).stay w = none := by
    show (s.workers w).pc.stay = none
    rw [hpc]
    rfl
  rw [swapTarget] at hf
  split at hf
  · rename_i g hg
    obtain rfl := Option.some.inj hf
    obtain ⟨hfib, hfin⟩ := Option.filter_eq_some_iff.mp hg
    have hheld : (view s).held ft := ⟨w, by rw [hpc]; exact List.mem_singleton.mpr rfl⟩
    rcases (hs g).held ft hheld hfib with h | h
    · have hm : (s.m_state g).finished = true := h
      rw [hm] at hfin
      exact absurd hfin (by decide)
    · exact h
  · split_ifs at hf
    exact ((hs f).resting hf hfree).2.2

/-- **No fiber runs twice at once**, in every run in which each suspension of a fiber is
enqueued at most once. -/
theorem exclusive {tid : Fin n → Int} {as : List (Action n)} {s : State n}
    (ha : Transition.Along (step tid) EnqueuedOnce (init n) as)
    (h : Transition.exec (step tid) (init n) as = some s) : Exclusive s := by
  obtain ⟨-, hexec, hs⟩ := executor_sound ha h
  have htarget : ∀ w ft f, (s.workers w).pc = .swapIn ft → swapTarget s w ft = some f →
      s.m_state f ≠ .EXEC ∧ ∀ v, (s.workers v).pc.executes f = false := by
    intro w ft f hpc hf
    have hno := target_free hs hpc hf
    refine ⟨fun hex => ?_, fun v => ?_⟩
    · obtain ⟨v, hv⟩ := hexec f hex
      exact hno v (executes_iff.mp hv)
    · rw [Bool.eq_false_iff]
      exact fun hv => hno v (executes_iff.mp hv)
  refine ⟨htarget, fun w ft hpc => ?_, fun v w f hv hw => ?_⟩
  · have hfree : (view s).stay w = none := by
      show (s.workers w).pc.stay = none
      rw [hpc]
      rfl
    rw [swapIn]
    split
    · rename_i f hf
      have hne := (htarget w ft f hpc (by rw [swapTarget, hf])).1
      rw [if_neg hne]
      rfl
    · split
      · rename_i g _ hg
        have hinit : s.m_state g = .INIT := ((hs g).resting hg hfree).1
        rw [hinit]
        rfl
      · rfl
      · rfl
  · exact (hs f).single v w (executes_iff.mp hv) (executes_iff.mp hw)

/-! ### An example -/

/-- The items in the queues and in the hands of the workers. -/
def items (s : State n) : List FiberAndThread :=
  s.m_fibers ++ (List.finRange n).flatMap fun w =>
    (s.workers w).run_queue ++ (s.workers w).pc.hands

theorem places_pos_iff {s : State n} {x : FiberAndThread} : 0 < places s x ↔ x ∈ items s := by
  rw [items, List.mem_append, List.mem_flatMap, places]
  constructor
  · intro h
    by_cases hm : x ∈ s.m_fibers
    · exact .inl hm
    · rw [List.count_eq_zero.mpr hm, Nat.zero_add] at h
      obtain ⟨w, -, hw⟩ := Finset.exists_ne_zero_of_sum_ne_zero (Nat.ne_of_gt h)
      refine .inr ⟨w, List.mem_finRange w, List.count_pos_iff.mp ?_⟩
      rw [List.count_append]
      exact Nat.pos_of_ne_zero hw
  · rintro (hm | ⟨w, -, hw⟩)
    · have hpos := List.count_pos_iff.mpr hm
      omega
    · have hpos := List.count_pos_iff.mpr hw
      have hle := Tally.le_sum (Worker.holds x) s.workers w
      rw [List.count_append] at hpos
      rw [Worker.holds] at hle
      omega

instance decidablePending (s : State n) (f : Nat) : Decidable ((view s).Pending f) :=
  decidable_of_iff (∃ x ∈ items s, x.fiber = some f)
    (exists_congr fun _ => and_congr_left' places_pos_iff.symm)

instance decidableEnqueued (s : State n) (f : Nat) : Decidable (Enqueued s f) :=
  inferInstanceAs (Decidable (_ ∨ _))

instance decidableSuspends (s : State n) (f : Nat) : Decidable (Suspends s f) :=
  inferInstanceAs (Decidable (_ ∨ _))

instance decidableEnqueuedOnce (s : State n) : ∀ a, Decidable (EnqueuedOnce s a)
  | .schedule _ _ none _ _ | .scheduleOther none _ _ => .isTrue fun _ h => nomatch h
  | .schedule _ _ (some f) _ _ | .scheduleOther (some f) _ _ =>
    decidable_of_iff (¬ Enqueued s f ∧ Suspends s f)
      ⟨fun h _ hf => Option.some.inj hf ▸ h, fun h => h f rfl⟩
  | .yield w next =>
    match hpc : (s.workers w).pc with
    | .running f b =>
      decidable_of_iff ((next = .READY → ¬ (view s).Pending f)
          ∧ (next.finished = true → b = true → ¬ (view s).Pending f))
        ⟨fun h _ _ hr => by
          rw [hpc] at hr
          injection hr with hf hb
          exact hf ▸ hb ▸ h, fun h => h f b hpc⟩
    | .popLocal | .popGlobal | .splice _ _ _ | .stealTask _ | .steal _ _ | .spliceStolen _ _ _
    | .gotTask _ _ _ | .active _ _ | .swapIn _ | .switched _ _ | .returned _ _ | .noTask _
    | .preIdle | .idle | .stopping _ | .epollWait | .blocked | .woken _ | .dispatch
    | .idleReturned | .exited => .isTrue fun _ _ h => by rw [hpc] at h; exact nomatch h
  | .run _ | .idle _ _ | .wake _ _ | .newFiber | .tickle _ | .tickleOther _ | .tickleExtra | .stop
  | .stopping => .isTrue trivial

instance decidableEnqueuedOnceOf (s : State n) (f : Nat) (a : Action n) :
    Decidable (EnqueuedOnceOf s f a) :=
  decidable_of_iff ((a.scheduled = some f → ¬ Enqueued s f ∧ Suspends s f)
      ∧ ∀ w : Fin n, ∀ b : Bool, (s.workers w).pc = .running f b →
        (a = .yield w .READY → ¬ (view s).Pending f)
          ∧ ((a = .yield w .TERM ∨ a = .yield w .EXCEPT) → b = true → ¬ (view s).Pending f)) (by
    constructor
    · rintro ⟨hschedule, hyield⟩
      refine ⟨hschedule, ?_⟩
      rintro w next b rfl hpc
      refine ⟨?_, fun hfin => (hyield w b hpc).2 ?_⟩
      · rintro rfl
        exact (hyield w b hpc).1 rfl
      · cases next <;> simp_all [Fiber.State.finished]
    · intro h
      refine ⟨h.schedule, fun w b hpc => ⟨fun ha => (h.yield w _ b ha hpc).1 rfl, ?_⟩⟩
      rintro (ha | ha)
      · exact (h.yield w _ b ha hpc).2 rfl
      · exact (h.yield w _ b ha hpc).2 rfl)

attribute [local instance] neZero_two

/-- The callback on worker 0 waits; its wake-up is queued on worker 1 before worker 0 has
left the fiber, and taken out after that. -/
def earlyWakeUp : List (Action 2) :=
  [.scheduleOther none (some 7) (-1), .run 0, .run 0, .run 0, .run 0, .run 0,
   .scheduleOther none (some 8) (-1), .run 1, .run 1, .run 1, .run 1, .run 1,
   .yield 0 .EXEC, .schedule 1 false (some 0) none (-1), .run 0, .run 0,
   .yield 1 .TERM, .run 1, .run 1, .run 1, .run 1, .run 1]

theorem exclusive_earlyWakeUp :
    ∃ s, Transition.exec (step fun w => (w : Int)) (init 2) earlyWakeUp = some s
      ∧ (s.workers 1).pc = .swapIn ⟨2, some 0, none, -1⟩
      ∧ swapTarget s 1 ⟨2, some 0, none, -1⟩ = some 0 ∧ Exclusive s := by
  refine ⟨?s, ?h, ?pc, ?target, exclusive ?once ?h⟩
  case h => rfl
  case pc => decide
  case target => decide
  case once => decide

end Scheduler

end FiberServer
