import Mathlib.Algebra.Order.Ring.Int
import Mathlib.Data.Nat.Basic

/-!
# Transfers in parts

A transfer of `n` units is made by calls that each ask for what is left.  The other side answers a
call with the number of units that it has moved, or with a result that is not positive; the loop
goes on as long as something moves.

* `Completes`, `Stops`: how the answers go on, whatever a loop makes of them.
* `loop_of_completes`, `loop_of_stops`: the two rules for the loop, for an invariant that a call
  keeps.
-/

namespace Transfer

variable {σ τ ε : Type*}

/-- The answer to a call for `k` units, an `int`. -/
structure Answer (k : Nat) where
  result : Int
  le : result ≤ k
  int : -2 ^ 31 ≤ result ∧ result < 2 ^ 31

/-- The other side, with its state. -/
abbrev Peer (σ : Type*) := (k : Nat) → σ → Answer k × σ

/-- The result of a call, and the state after it. -/
def Peer.call (peer : Peer σ) (k : Nat) (s : σ) : Int × σ := ((peer k s).1.result, (peer k s).2)

/-- All of `k` units are moved. -/
inductive Completes (peer : Peer σ) : Nat → σ → Prop
  | done (s : σ) : Completes peer 0 s
  | more {k : Nat} {s : σ} : 0 < k → 0 < (peer k s).1.result →
    Completes peer (k - (peer k s).1.result.toNat) (peer k s).2 → Completes peer k s

/-- `m` of `k` units are moved, and then `r` is the first result that is not positive. -/
inductive Stops (peer : Peer σ) : Nat → σ → Nat → Int → Prop
  | now {k : Nat} {s : σ} : 0 < k → (peer k s).1.result ≤ 0 → Stops peer k s 0 (peer k s).1.result
  | later {k : Nat} {s : σ} {m : Nat} {r : Int} : 0 < k → 0 < (peer k s).1.result →
    Stops peer (k - (peer k s).1.result.toNat) (peer k s).2 m r →
    Stops peer k s ((peer k s).1.result.toNat + m) r

/-- The loop asks for `left` units; a call may throw. -/
def loop (step : Nat → τ → Except ε (Int × τ)) (total left : Int) (t : τ) : Except ε (Int × τ) :=
  if left ≤ 0 then .ok (total, t)
  else
    match step left.toNat t with
    | .error e => .error e
    | .ok (len, t') => if len ≤ 0 then .ok (len, t') else loop step total (left - len) t'
termination_by left.toNat
decreasing_by omega

variable {peer : Peer σ}

theorem completes_or_stops (peer : Peer σ) (k : Nat) (s : σ) :
    Completes peer k s ∨ ∃ m r, Stops peer k s m r := by
  induction k using Nat.strong_induction_on generalizing s with
  | _ k ih =>
    obtain rfl | hk := Nat.eq_zero_or_pos k
    · exact .inl (.done s)
    · by_cases hr : (peer k s).1.result ≤ 0
      · exact .inr ⟨0, _, .now hk hr⟩
      · have hpos : 0 < (peer k s).1.result := Int.not_le.mp hr
        obtain h | ⟨m, r, h⟩ := ih (k - (peer k s).1.result.toNat) (by omega) (peer k s).2
        · exact .inl (.more hk hpos h)
        · exact .inr ⟨_, r, .later hk hpos h⟩

/-! ### The rules -/

/-- A call moves what the other side answers, and keeps `I m`, which holds after `m` of `n`
units. -/
def Keeps (peer : Peer σ) (state : τ → σ) (n : Nat) (I : Nat → τ → Prop)
    (step : Nat → τ → Except ε (Int × τ)) : Prop :=
  ∀ m t, m < n → I m t → ∃ t', step (n - m) t = .ok ((peer (n - m) (state t)).1.result, t')
    ∧ state t' = (peer (n - m) (state t)).2 ∧ I (m + (peer (n - m) (state t)).1.result.toNat) t'

variable {state : τ → σ} {n : Nat} {I : Nat → τ → Prop} {step : Nat → τ → Except ε (Int × τ)}

/-- One round. -/
theorem loop_step (total : Int) {m : Nat} {t t' : τ} {r : Int} (hm : m < n)
    (h : step (n - m) t = .ok (r, t')) : loop step total ((n - m : Nat) : Int) t
      = if r ≤ 0 then .ok (r, t') else loop step total (((n - m : Nat) : Int) - r) t' := by
  have hleft : ¬ ((n - m : Nat) : Int) ≤ 0 := by omega
  rw [loop, if_neg hleft, Int.toNat_natCast, h]

theorem loop_of_completes (hkeeps : Keeps peer state n I step) (total : Int) {k m : Nat} {s : σ}
    {t : τ} (h : Completes peer k s) (hs : state t = s) (hk : m + k = n) (hI : I m t) :
    ∃ t', loop step total (k : Int) t = .ok (total, t') ∧ I n t' := by
  induction h generalizing m t with
  | done s =>
    refine ⟨t, ?_, ?_⟩
    · rw [loop, if_pos (by omega)]
    · rw [← hk]
      exact hI
  | @more k s hpos hr _ ih =>
    obtain rfl : k = n - m := by omega
    subst hs
    obtain ⟨t', hstep, hstate, hI'⟩ := hkeeps m t (by omega) hI
    have hle := (peer (n - m) (state t)).1.le
    obtain ⟨u, hloop, hu⟩ := ih hstate (by omega) hI'
    refine ⟨u, ?_, hu⟩
    have hleft : ((n - m : Nat) : Int) - (peer (n - m) (state t)).1.result
        = ((n - m - (peer (n - m) (state t)).1.result.toNat : Nat) : Int) := by omega
    rw [loop_step total (by omega) hstep, if_neg (by omega), hleft]
    exact hloop

theorem loop_of_stops (hkeeps : Keeps peer state n I step) (total : Int) {k m m' : Nat} {s : σ}
    {t : τ} {r : Int} (h : Stops peer k s m' r) (hs : state t = s) (hk : m + k = n) (hI : I m t) :
    ∃ t', loop step total (k : Int) t = .ok (r, t') ∧ I (m + m') t' := by
  induction h generalizing m t with
  | @now k s hpos hr =>
    obtain rfl : k = n - m := by omega
    subst hs
    obtain ⟨t', hstep, -, hI'⟩ := hkeeps m t (by omega) hI
    refine ⟨t', ?_, ?_⟩
    · rw [loop_step total (by omega) hstep, if_pos hr]
    · have hzero : (peer (n - m) (state t)).1.result.toNat = 0 := by omega
      rw [hzero] at hI'
      exact hI'
  | @later k s m' r hpos hr _ ih =>
    obtain rfl : k = n - m := by omega
    subst hs
    obtain ⟨t', hstep, hstate, hI'⟩ := hkeeps m t (by omega) hI
    have hle := (peer (n - m) (state t)).1.le
    obtain ⟨u, hloop, hu⟩ := ih hstate (by omega) hI'
    refine ⟨u, ?_, ?_⟩
    · have hleft : ((n - m : Nat) : Int) - (peer (n - m) (state t)).1.result
          = ((n - m - (peer (n - m) (state t)).1.result.toNat : Nat) : Int) := by omega
      rw [loop_step total (by omega) hstep, if_neg (by omega), hleft]
      exact hloop
    · rw [← Nat.add_assoc]
      exact hu

end Transfer
