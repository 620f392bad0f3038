import FiberServer.IOManager.Timers
import FiberServer.IOManager.TimerSet

/-!
# How long `idle()` waits

`getNextTimer` returns 64 bits, and `epoll_wait` takes an `int`.  `idle()` compares the value with
`MAX_TIMEOUT` after the cast to `int`, so what it compares is the low half of the value.

* `bounded_iff`: every `epoll_wait` of a round waits for the minimum of the value and
  `MAX_TIMEOUT`, exactly if there is no timer, or the first one is due within `MAX_TIMEOUT`, or the
  low half of the time until then is an `int` from `MAX_TIMEOUT` on.
* `clamp_eq`: the timeout is the one by which `Timers.lean` follows the workers.
-/

namespace FiberServer

namespace TimerSet

/-- `(int)next_timeout` -/
def toInt (next_timeout : UInt64) : Int32 := next_timeout.toUInt32.toInt32

def MAX_TIMEOUT : Int32 := 3000

/-- The assignments to `next_timeout` in the loop around `epoll_wait`. -/
def boundTimeout (next_timeout : UInt64) : UInt64 :=
  if next_timeout ≠ ~~~0 then
    if toInt next_timeout > MAX_TIMEOUT then MAX_TIMEOUT.toInt64.toUInt64 else next_timeout
  else MAX_TIMEOUT.toInt64.toUInt64

/-- The timeouts that are passed to `epoll_wait` when it is interrupted `eintrs` times. -/
def epollWaits : Nat → UInt64 → List Int32
  | 0, next_timeout => [toInt (boundTimeout next_timeout)]
  | eintrs + 1, next_timeout =>
    toInt (boundTimeout next_timeout) :: epollWaits eintrs (boundTimeout next_timeout)

/-- A wait that is bounded by the next timer and by `MAX_TIMEOUT`. -/
def Bounded (next_timeout : UInt64) (timeout : Int32) : Prop :=
  timeout.toInt = min (next_timeout.toNat : Int) 3000 ∧ 0 ≤ timeout.toInt ∧ timeout.toInt ≤ 3000

/-- The cast to `int` loses nothing that matters. -/
def Fits (next_timeout : UInt64) : Prop :=
  next_timeout.toNat ≤ 3000 ∨ next_timeout.toNat = 2 ^ 64 - 1
    ∨ 3000 ≤ next_timeout.toNat % 2 ^ 32 ∧ next_timeout.toNat % 2 ^ 32 < 2 ^ 31

/-- There is no timer, or the first one is due, or the time until then fits. -/
def FirstFits (s : TimerManager) (now_ms : UInt64) : Prop :=
  ∀ next ∈ s.m_timers.head?,
    (s.timers next).m_next ≤ now_ms ∨ Fits ((s.timers next).m_next - now_ms)

theorem toInt_toInt (next_timeout : UInt64) : (toInt next_timeout).toInt
    = if next_timeout.toNat % 2 ^ 32 < 2 ^ 31 then (next_timeout.toNat % 2 ^ 32 : Int)
      else (next_timeout.toNat % 2 ^ 32 : Int) - 2 ^ 32 := by
  change (next_timeout.toUInt32.toBitVec).toInt = _
  rw [BitVec.toInt_eq_toNat_cond]
  have hlow : next_timeout.toUInt32.toBitVec.toNat = next_timeout.toNat % 2 ^ 32 :=
    UInt64.toNat_toUInt32 next_timeout
  rw [hlow]
  split_ifs <;> omega

/-- What is passed in place of a value. -/
theorem toInt_boundTimeout (next_timeout : UInt64) : (toInt (boundTimeout next_timeout)).toInt
    = if next_timeout.toNat = 2 ^ 64 - 1 ∨ 3000 < (toInt next_timeout).toInt then 3000
      else (toInt next_timeout).toInt := by
  have hmax : (~~~0 : UInt64).toNat = 2 ^ 64 - 1 := by decide
  rw [boundTimeout]
  by_cases hnone : next_timeout = ~~~0
  · rw [if_neg (not_not.mpr hnone), if_pos (.inl (by rw [hnone, hmax]))]
    decide
  · have hne : next_timeout.toNat ≠ 2 ^ 64 - 1 := by
      rw [← hmax, ne_eq, UInt64.toNat_inj]
      exact hnone
    rw [if_pos hnone]
    have hgt : toInt next_timeout > MAX_TIMEOUT ↔ 3000 < (toInt next_timeout).toInt :=
      Int32.lt_iff_toInt_lt
    simp only [hgt, hne, false_or]
    split_ifs
    · decide
    · rfl

theorem bounded_boundTimeout (next_timeout : UInt64) :
    Bounded next_timeout (toInt (boundTimeout next_timeout)) ↔ Fits next_timeout := by
  have hlt := next_timeout.toNat_lt
  rw [Bounded, Fits, toInt_boundTimeout, toInt_toInt]
  generalize next_timeout.toNat = n at *
  split_ifs <;> omega

/-- A retry finds a value that stays. -/
theorem boundTimeout_boundTimeout (next_timeout : UInt64) :
    boundTimeout (boundTimeout next_timeout) = boundTimeout next_timeout := by
  have hcases : boundTimeout next_timeout = 3000 ∨ boundTimeout next_timeout = next_timeout := by
    unfold boundTimeout
    split_ifs
    · exact .inl (by decide)
    · exact .inr rfl
    · exact .inl (by decide)
  rcases hcases with h | h
  · rw [h]
    decide
  · rw [h, h]

/-- **Every retry waits as long as the first call.** -/
theorem epollWaits_eq (eintrs : Nat) (next_timeout : UInt64) :
    epollWaits eintrs next_timeout
      = List.replicate (eintrs + 1) (toInt (boundTimeout next_timeout)) := by
  induction eintrs generalizing next_timeout with
  | zero => rfl
  | succ eintrs ih =>
    rw [epollWaits, ih, boundTimeout_boundTimeout]
    rfl

theorem fits_getNextTimer (s : TimerManager) (now_ms : UInt64) :
    Fits (s.getNextTimer now_ms).2 ↔ FirstFits s now_ms := by
  unfold FirstFits TimerManager.getNextTimer
  cases s.m_timers with
  | nil =>
    have hnone : Fits (~~~0) := .inr (.inl (by decide))
    exact iff_of_true hnone fun next hnext => nomatch hnext
  | cons next rest =>
    simp only [List.head?_cons, Option.mem_def, Option.some.injEq, forall_eq']
    by_cases hdue : (s.timers next).m_next ≤ now_ms
    · rw [if_pos hdue]
      exact iff_of_true (.inl (by decide)) (.inl hdue)
    · rw [if_neg hdue]
      simp only [hdue, false_or]

/-- **The wait of `idle()`.**  For every set of timers, every reading of the clock and any number
of retries, every `epoll_wait` gets the minimum of what `getNextTimer` has returned and
`MAX_TIMEOUT` if and only if the time until the first timer, if there is one, fits. -/
theorem bounded_iff (s : TimerManager) (now_ms : UInt64) (eintrs : Nat) :
    (∀ timeout ∈ epollWaits eintrs (s.getNextTimer now_ms).2,
        Bounded (s.getNextTimer now_ms).2 timeout)
      ↔ FirstFits s now_ms := by
  rw [epollWaits_eq, ← fits_getNextTimer, ← bounded_boundTimeout]
  constructor
  · intro h
    exact h _ (List.mem_replicate.mpr ⟨Nat.succ_ne_zero eintrs, rfl⟩)
  · intro h timeout htimeout
    rw [(List.mem_replicate.mp htimeout).2]
    exact h

/-- A timer that is added for 2147483648 milliseconds from now. -/
def farTimer : TimerManager := (init 0).addTimer 2147483648 0 false 1 0

/-- `epoll_wait` gets the smallest `int`, and waits for ever. -/
theorem waits_for_ever :
    (epollWaits 0 (farTimer.getNextTimer 0).2).map Int32.toInt = [-2147483648]
      ∧ ¬ ∀ timeout ∈ epollWaits 0 (farTimer.getNextTimer 0).2,
        Bounded (farTimer.getNextTimer 0).2 timeout := by
  refine ⟨by decide, fun h => ?_⟩
  have hbounded := h _ List.mem_cons_self
  exact absurd hbounded.2.1 (by decide)

/-- The timeout of the workers in `Timers.lean`, where a negative one is `none`. -/
theorem clamp_eq (next_timeout : UInt64) : TimerManager.clamp next_timeout.toNat
    = if (toInt (boundTimeout next_timeout)).toInt < 0 then none
      else some (toInt (boundTimeout next_timeout)).toInt.toNat := by
  rw [TimerManager.clamp, toInt_boundTimeout, toInt_toInt]
  generalize next_timeout.toNat = n
  by_cases hnone : n = 2 ^ 64 - 1
  · simp only [hnone, if_true, true_or]
    decide
  by_cases hneg : 2 ^ 31 ≤ n % 2 ^ 32
  · have hlow : ¬ n % 2 ^ 32 < 2 ^ 31 := Nat.not_lt.mpr hneg
    have hlow' : (n % 2 ^ 32 : Int) - 2 ^ 32 < 0 := by omega
    have hle : ¬ 3000 < (n % 2 ^ 32 : Int) - 2 ^ 32 := by omega
    simp only [hnone, hneg, hlow, hle, hlow', if_false, if_true, or_self]
  · have hlow : n % 2 ^ 32 < 2 ^ 31 := Nat.lt_of_not_le hneg
    by_cases hlong : 3000 < n % 2 ^ 32
    · have hlong' : 3000 < (n % 2 ^ 32 : Int) := by omega
      simp only [hnone, hneg, hlow, hlong, hlong', if_false, if_true, or_true]
      decide
    · have hlong' : ¬ 3000 < (n % 2 ^ 32 : Int) := by omega
      have hnonneg : ¬ (n % 2 ^ 32 : Int) < 0 := by omega
      simp only [hnone, hneg, hlow, hlong, hlong', hnonneg, if_false, if_true, or_self]
      exact congrArg some (by omega)

end TimerSet

end FiberServer
