import FiberServer.Scheduler.Queue
import Mathlib.Logic.Function.Basic

/-!
# Who has a fiber

What the scheduler knows about fibers, apart from its queues and loops: which items
are still to be run, which of them have passed the test of a dequeue path, which
worker executes which fiber, and which fiber each worker keeps for its callbacks.

`Sound v f` ties them to `m_state` for the fiber `f`: it has one item at most and one
executing worker at most, and an item in the hands of a worker is not of a fiber that
is executed.

* `Sound.frame`: it is kept when the items of `f` are only taken out or tested.
* `sound_start`, `Sound.switchOut`, `Sound.leave`, `Sound.enqueue`: what happens to the
  fiber that is swapped in, switches out, is left, and gets an item.
-/

namespace FiberServer

namespace Scheduler

/-- A worker executes `fiber`; `inside` until the fiber switches out. -/
structure Stay where
  fiber : Nat
  is_cb : Bool
  inside : Bool
  deriving DecidableEq, Repr

structure View (n : Nat) where
  /-- the items in the queues and in the hands of the workers -/
  pending : FiberAndThread → Prop
  /-- the items in the hands of the workers -/
  held : FiberAndThread → Prop
  stay : Fin n → Option Stay
  m_state : Nat → Fiber.State
  cb_fiber : Fin n → Option Nat
  nextFiber : Nat
  pending_of_held : ∀ x, held x → pending x

variable {n : Nat}

namespace View

/-- Worker `w` has not yet finished with the `swapIn()` of `f`. -/
def Executes (v : View n) (w : Fin n) (f : Nat) : Prop := ∃ b i, v.stay w = some ⟨f, b, i⟩

/-- An item of `f` is still to be run. -/
def Pending (v : View n) (f : Nat) : Prop := ∃ x, v.pending x ∧ x.fiber = some f

end View

structure Sound (v : View n) (f : Nat) : Prop where
  once : ∀ x y, v.pending x → v.pending y → x.fiber = some f → y.fiber = some f → x = y
  single : ∀ w w', v.Executes w f → v.Executes w' f → w = w'
  inside : ∀ w b, v.stay w = some ⟨f, b, true⟩ → v.m_state f = .EXEC
  outside : ∀ w, v.Executes w f →
    v.m_state f = .EXEC ∨ v.m_state f = .READY ∨ (v.m_state f).finished = true
  ready : ∀ w, v.Executes w f → v.m_state f = .READY → ¬ v.Pending f
  held : ∀ x, v.held x → x.fiber = some f →
    (v.m_state f).finished = true ∨ ∀ w, ¬ v.Executes w f
  /-- a worker's `cb_fiber` is what it executes, or it rests in `INIT` -/
  cb : ∀ w, v.cb_fiber w = some f →
    (∃ i, v.stay w = some ⟨f, true, i⟩) ∧ ((v.m_state f).finished = true → ¬ v.Pending f)
    ∨ v.m_state f = .INIT ∧ ¬ v.Pending f ∧ ∀ w', ¬ v.Executes w' f
  owner : ∀ w i, v.stay w = some ⟨f, true, i⟩ → v.cb_fiber w = some f
  sole : ∀ w w', v.cb_fiber w = some f → v.cb_fiber w' = some f → w = w'
  old : v.Pending f ∨ (∃ w, v.Executes w f) ∨ (∃ w, v.cb_fiber w = some f) → f < v.nextFiber

/-- Nothing changes for `f`, but its items may be taken out, or tested by a dequeue
path. -/
structure Agree (v u : View n) (f : Nat) : Prop where
  pending : ∀ x, x.fiber = some f → u.pending x → v.pending x
  held : ∀ x, x.fiber = some f → u.held x → v.held x ∨ v.m_state f ≠ .EXEC
  stay : ∀ w b i, u.stay w = some ⟨f, b, i⟩ ↔ v.stay w = some ⟨f, b, i⟩
  m_state : u.m_state f = v.m_state f
  cb_fiber : ∀ w, u.cb_fiber w = some f ↔ v.cb_fiber w = some f
  nextFiber : v.nextFiber ≤ u.nextFiber

namespace Sound

variable {v u : View n} {w : Fin n} {f : Nat} {b : Bool}

/-- An item that a dequeue path has not found in `EXEC`. -/
theorem tested (hs : Sound v f) {x : FiberAndThread} (hx : v.pending x) (hxf : x.fiber = some f)
    (hne : v.m_state f ≠ .EXEC) :
    (v.m_state f).finished = true ∨ ∀ w, ¬ v.Executes w f := by
  by_cases hfin : (v.m_state f).finished = true
  · exact .inl hfin
  · refine .inr fun w hw => ?_
    rcases hs.outside w hw with h | h | h
    · exact hne h
    · exact hs.ready w hw h ⟨x, hx, hxf⟩
    · exact hfin h

/-- The `cb_fiber` that its worker does not execute rests. -/
theorem resting (hs : Sound v f) (hcb : v.cb_fiber w = some f) (h : v.stay w = none) :
    v.m_state f = .INIT ∧ ¬ v.Pending f ∧ ∀ w', ¬ v.Executes w' f := by
  rcases hs.cb w hcb with ⟨⟨i, hi⟩, -⟩ | hrest
  · rw [h] at hi
    exact absurd hi (by simp)
  · exact hrest

/-- Nobody else has the executed fiber for its callbacks. -/
theorem eq_of_cb (hs : Sound v f) {i : Bool} (h : v.stay w = some ⟨f, b, i⟩) {w' : Fin n}
    (hcb : v.cb_fiber w' = some f) : w' = w ∧ b = true := by
  rcases hs.cb w' hcb with ⟨⟨j, hj⟩, -⟩ | ⟨-, -, hno⟩
  · have hw := hs.single w' w ⟨_, _, hj⟩ ⟨_, _, h⟩
    subst hw
    rw [hj] at h
    injection h with h
    injection h with _ hb
    exact ⟨rfl, hb.symm⟩
  · exact absurd ⟨_, _, h⟩ (hno w)

/-- **Frame.** -/
theorem frame (hs : Sound v f) (h : Agree v u f) : Sound u f := by
  have hexec : ∀ w, u.Executes w f ↔ v.Executes w f := fun w =>
    exists_congr fun b => exists_congr fun i => h.stay w b i
  have hpend : u.Pending f → v.Pending f := fun ⟨x, hx, hf⟩ => ⟨x, h.pending x hf hx, hf⟩
  refine ⟨?_, ?_, ?_, ?_, ?_, ?_, ?_, ?_, ?_, ?_⟩
  · intro x y hx hy hxf hyf
    exact hs.once x y (h.pending x hxf hx) (h.pending y hyf hy) hxf hyf
  · exact fun w w' hw hw' => hs.single w w' ((hexec w).mp hw) ((hexec w').mp hw')
  · intro w b hw
    rw [h.m_state]
    exact hs.inside w b ((h.stay w b true).mp hw)
  · intro w hw
    rw [h.m_state]
    exact hs.outside w ((hexec w).mp hw)
  · intro w hw hready hp
    rw [h.m_state] at hready
    exact hs.ready w ((hexec w).mp hw) hready (hpend hp)
  · intro x hx hxf
    rw [h.m_state]
    simp only [hexec]
    rcases h.held x hxf hx with hv | hv
    · exact hs.held x hv hxf
    · exact hs.tested (h.pending x hxf (u.pending_of_held x hx)) hxf hv
  · intro w hw
    rw [h.m_state]
    simp only [hexec, h.stay]
    rcases hs.cb w ((h.cb_fiber w).mp hw) with ⟨hi, hfin⟩ | ⟨hinit, hnp, hno⟩
    · exact .inl ⟨hi, fun hf hp => hfin hf (hpend hp)⟩
    · exact .inr ⟨hinit, fun hp => hnp (hpend hp), hno⟩
  · intro w i hw
    rw [h.cb_fiber]
    exact hs.owner w i ((h.stay w true i).mp hw)
  · exact fun w w' hw hw' => hs.sole w w' ((h.cb_fiber w).mp hw) ((h.cb_fiber w').mp hw')
  · intro hold
    simp only [hexec, h.cb_fiber] at hold
    exact Nat.lt_of_lt_of_le (hs.old (hold.imp_left hpend)) h.nextFiber

end Sound

/-! ### The fiber that moves -/

/-- Worker `w` has swapped `f` in, which nobody else executes and which has no item. -/
theorem sound_start {u : View n} {w : Fin n} {f : Nat} {b : Bool}
    (hself : u.stay w = some ⟨f, b, true⟩) (hother : ∀ w', w' ≠ w → ¬ u.Executes w' f)
    (hst : u.m_state f = .EXEC) (hnp : ¬ u.Pending f)
    (hcb : ∀ w', u.cb_fiber w' = some f ↔ w' = w ∧ b = true) (hold : f < u.nextFiber) :
    Sound u f := by
  have honly : ∀ w', u.Executes w' f → w' = w := by
    intro w' h
    by_contra hne
    exact hother w' hne h
  have hnofin : (u.m_state f).finished = false := by
    rw [hst]
    rfl
  refine ⟨?_, ?_, fun _ _ _ => hst, fun _ _ => .inl hst, fun _ _ _ => hnp, ?_, ?_, ?_, ?_,
    fun _ => hold⟩
  · exact fun x _ hx _ hxf _ => absurd ⟨x, hx, hxf⟩ hnp
  · exact fun w₁ w₂ h₁ h₂ => (honly w₁ h₁).trans (honly w₂ h₂).symm
  · exact fun x hx hxf => absurd ⟨x, u.pending_of_held x hx, hxf⟩ hnp
  · intro w' h
    obtain ⟨rfl, rfl⟩ := (hcb w').mp h
    exact .inl ⟨⟨true, hself⟩, fun _ => hnp⟩
  · intro w' i h
    have hw := honly w' ⟨_, _, h⟩
    subst hw
    rw [hself] at h
    injection h with h
    injection h with _ hb
    exact (hcb w').mpr ⟨rfl, hb⟩
  · exact fun w₁ w₂ h₁ h₂ => ((hcb w₁).mp h₁).1.trans ((hcb w₂).mp h₂).1.symm

namespace Sound

variable {v u : View n} {w : Fin n} {f : Nat} {b : Bool}

/-- The fiber switches out: it holds, it is ready and has no item, or it has ended. -/
theorem switchOut (hs : Sound v f) (h : v.stay w = some ⟨f, b, true⟩)
    (hself : u.stay w = some ⟨f, b, false⟩)
    (hother : ∀ w', w' ≠ w → ∀ b i, u.stay w' = some ⟨f, b, i⟩ → v.stay w' = some ⟨f, b, i⟩)
    (hpending : u.pending = v.pending) (hheld : u.held = v.held) (hcb : u.cb_fiber = v.cb_fiber)
    (hnext : u.nextFiber = v.nextFiber)
    (hst : u.m_state f = .EXEC ∨ u.m_state f = .READY ∧ ¬ v.Pending f
      ∨ (u.m_state f).finished = true ∧ (b = true → ¬ v.Pending f)) : Sound u f := by
  have hv : v.Executes w f := ⟨_, _, h⟩
  have honly : ∀ w', u.Executes w' f → w' = w := by
    rintro w' ⟨b', i, h'⟩
    by_contra hne
    exact hne (hs.single w' w ⟨_, _, hother w' hne b' i h'⟩ hv)
  have hpend : u.Pending f ↔ v.Pending f := by rw [View.Pending, View.Pending, hpending]
  have hnoheld : ∀ x, v.held x → x.fiber ≠ some f := by
    intro x hx hxf
    rcases hs.held x hx hxf with hfin | hno
    · rw [hs.inside w b h] at hfin
      exact absurd hfin (by decide)
    · exact hno w hv
  refine ⟨?_, ?_, ?_, ?_, ?_, ?_, ?_, ?_, ?_, ?_⟩
  · rw [hpending]
    exact hs.once
  · exact fun w₁ w₂ h₁ h₂ => (honly w₁ h₁).trans (honly w₂ h₂).symm
  · intro w' b' h'
    have hw := honly w' ⟨_, _, h'⟩
    subst hw
    rw [hself] at h'
    injection h' with h'
    injection h' with _ _ hi
    exact absurd hi (by decide)
  · exact fun _ _ => hst.imp_right (Or.imp And.left And.left)
  · intro _ _ hready hp
    rw [hpend] at hp
    rcases hst with hst | ⟨-, hnp⟩ | ⟨hfin, -⟩
    · rw [hst] at hready
      exact absurd hready (by decide)
    · exact hnp hp
    · rw [hready] at hfin
      exact absurd hfin (by decide)
  · intro x hx hxf
    rw [hheld] at hx
    exact absurd hxf (hnoheld x hx)
  · intro w' hw'
    rw [hcb] at hw'
    obtain ⟨rfl, rfl⟩ := hs.eq_of_cb h hw'
    refine .inl ⟨⟨false, hself⟩, fun hfin hp => ?_⟩
    rw [hpend] at hp
    rcases hst with hst | ⟨hst, -⟩ | ⟨-, hnp⟩
    · rw [hst] at hfin
      exact absurd hfin (by decide)
    · rw [hst] at hfin
      exact absurd hfin (by decide)
    · exact hnp rfl hp
  · intro w' i h'
    have hw := honly w' ⟨_, _, h'⟩
    subst hw
    rw [hself] at h'
    injection h' with h'
    injection h' with _ hb
    subst hb
    rw [hcb]
    exact hs.owner w' true h
  · rw [hcb]
    exact hs.sole
  · intro _
    rw [hnext]
    exact hs.old (.inr (.inl ⟨w, hv⟩))

/-- The worker goes on after `swapIn()`: the fiber is left in its state or in `HOLD`,
or it has ended and the worker keeps it in `INIT` for its next callback. -/
theorem leave (hs : Sound v f) (h : v.stay w = some ⟨f, b, false⟩) (hself : u.stay w = none)
    (hother : ∀ w', w' ≠ w → u.stay w' = v.stay w') (hpending : u.pending = v.pending)
    (hcbo : ∀ w', w' ≠ w → u.cb_fiber w' = v.cb_fiber w')
    (hcb : b = false ∧ u.cb_fiber w = v.cb_fiber w ∨ b = true ∧ u.cb_fiber w = none
      ∨ b = true ∧ (v.m_state f).finished = true ∧ u.m_state f = .INIT
        ∧ u.cb_fiber w = v.cb_fiber w)
    (hnext : u.nextFiber = v.nextFiber) : Sound u f := by
  have hv : v.Executes w f := ⟨_, _, h⟩
  have hno : ∀ w', ¬ u.Executes w' f := by
    rintro w' ⟨b', i, h'⟩
    by_cases hw : w' = w
    · subst hw
      rw [hself] at h'
      exact absurd h' (by simp)
    · rw [hother w' hw] at h'
      exact hw (hs.single w' w ⟨_, _, h'⟩ hv)
  have hpend : u.Pending f ↔ v.Pending f := by rw [View.Pending, View.Pending, hpending]
  have hback : ∀ w', u.cb_fiber w' = some f → v.cb_fiber w' = some f := by
    intro w' h'
    by_cases hw : w' = w
    · subst hw
      rcases hcb with ⟨-, hc⟩ | ⟨-, hc⟩ | ⟨-, -, -, hc⟩
      · rwa [hc] at h'
      · rw [hc] at h'
        exact absurd h' (by simp)
      · rwa [hc] at h'
    · rwa [hcbo w' hw] at h'
  refine ⟨?_, fun w' _ h' => absurd h' (hno w'), fun w' b' h' => absurd ⟨_, _, h'⟩ (hno w'),
    fun w' h' => absurd h' (hno w'), fun w' h' => absurd h' (hno w'), fun _ _ _ => .inr hno, ?_,
    fun w' i h' => absurd ⟨_, _, h'⟩ (hno w'), ?_, ?_⟩
  · rw [hpending]
    exact hs.once
  · intro w' h'
    obtain ⟨rfl, rfl⟩ := hs.eq_of_cb h (hback w' h')
    rcases hcb with ⟨hb, -⟩ | ⟨-, hc⟩ | ⟨-, hfin, hinit, -⟩
    · exact absurd hb Bool.noConfusion
    · rw [hc] at h'
      exact absurd h' (by simp)
    · refine .inr ⟨hinit, fun hp => ?_, hno⟩
      rcases hs.cb w' (hback w' h') with ⟨-, hnp⟩ | ⟨-, hnp, -⟩
      · exact hnp hfin (hpend.mp hp)
      · exact hnp (hpend.mp hp)
  · exact fun w₁ w₂ h₁ h₂ => hs.sole w₁ w₂ (hback w₁ h₁) (hback w₂ h₂)
  · intro _
    rw [hnext]
    exact hs.old (.inr (.inl ⟨w, hv⟩))

/-- An item of `f` is queued: it is the first one, and the fiber is not one that
`run()` will queue itself, nor one that rests for a callback. -/
theorem enqueue (hs : Sound v f) {x : FiberAndThread}
    (hpending : ∀ y, u.pending y ↔ y = x ∨ v.pending y) (hheld : u.held = v.held)
    (hstay : u.stay = v.stay) (hst : u.m_state = v.m_state) (hcb : u.cb_fiber = v.cb_fiber)
    (hnext : u.nextFiber = v.nextFiber) (hnp : ¬ v.Pending f) (hold : f < v.nextFiber)
    (hready : v.m_state f = .READY → ∀ w, ¬ v.Executes w f)
    (hrest : v.m_state f = .EXEC ∨ ∀ w, v.cb_fiber w ≠ some f) : Sound u f := by
  have hexec : ∀ w, u.Executes w f ↔ v.Executes w f := by
    intro w
    rw [View.Executes, View.Executes, hstay]
  have hone : ∀ y, u.pending y → y.fiber = some f → y = x := by
    intro y hy hyf
    rcases (hpending y).mp hy with rfl | hy
    · rfl
    · exact absurd ⟨y, hy, hyf⟩ hnp
  refine ⟨?_, ?_, ?_, ?_, ?_, ?_, ?_, ?_, ?_, ?_⟩
  · exact fun y z hy hz hyf hzf => (hone y hy hyf).trans (hone z hz hzf).symm
  · exact fun w w' hw hw' => hs.single w w' ((hexec w).mp hw) ((hexec w').mp hw')
  · rw [hstay, hst]
    exact hs.inside
  · simp only [hexec, hst]
    exact hs.outside
  · intro w hw hr
    rw [hst] at hr
    exact absurd ((hexec w).mp hw) (hready hr w)
  · simp only [hexec, hst, hheld]
    exact hs.held
  · intro w hw
    rw [hcb] at hw
    rw [hst, hstay]
    rcases hrest with hrest | hrest
    · rcases hs.cb w hw with ⟨hi, -⟩ | ⟨hinit, -⟩
      · refine .inl ⟨hi, fun hfin => ?_⟩
        rw [hrest] at hfin
        exact absurd hfin (by decide)
      · rw [hrest] at hinit
        exact absurd hinit (by decide)
    · exact absurd hw (hrest w)
  · rw [hstay, hcb]
    exact hs.owner
  · rw [hcb]
    exact hs.sole
  · intro _
    rw [hnext]
    exact hold

end Sound

end Scheduler

end FiberServer
