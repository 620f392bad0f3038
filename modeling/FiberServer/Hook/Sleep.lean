import FiberServer.IOManager.Expiry
import Mathlib.Algebra.Order.Ring.Int

/-!
# The hooked `sleep`, `usleep` and `nanosleep`

Each of them turns what it is asked for into milliseconds for `addTimer`, in an integer type of its
own: `sleep` multiplies in 32 bits, `usleep` drops what is less than a millisecond, and `nanosleep`
puts the sum into an `int`, which `addTimer` takes as 64 bits with its sign.

* `exact_iff`: the interval of the timer is what the caller asked for, rounded up to milliseconds,
  exactly if the product fits into 32 bits, or the time is in whole milliseconds, or both that and
  the sum is an `int` that is not negative.
* `not_early`: then the fiber is not scheduled before its time.
-/

namespace FiberServer

namespace Hook

/-- `struct timespec`, with `tv_nsec` as it has to be. -/
structure Timespec where
  tv_sec : Int64
  tv_nsec : Int64
  nonneg : 0 ≤ tv_nsec.toInt
  lt : tv_nsec.toInt < 10 ^ 9

/-- The result of an operation on `long`; when it overflows there is none. -/
def checked (v : Int) : Option Int64 :=
  if -2 ^ 63 ≤ v ∧ v < 2 ^ 63 then some (.ofInt v) else none

/-- What a call does before it returns 0. -/
inductive Slept
  /-- `sleep_f`, `usleep_f` or `nanosleep_f` is called -/
  | real
  /-- a timer is added that schedules the fiber, which yields -/
  | addTimer (ms : UInt64)
  deriving DecidableEq, Repr

def sleep (t_hook_enable : Bool) (seconds : UInt32) : Slept :=
  if !t_hook_enable then .real else .addTimer (seconds * 1000).toUInt64

def usleep (t_hook_enable : Bool) (usec : UInt32) : Slept :=
  if !t_hook_enable then .real else .addTimer (usec / 1000).toUInt64

def nanosleep (t_hook_enable : Bool) (req : Timespec) : Option Slept :=
  if !t_hook_enable then some .real
  else do
    let ms ← checked (req.tv_sec.toInt * 1000)
    let ms ← checked (ms.toInt + (req.tv_nsec / 1000 / 1000).toInt)
    let timeout_ms := ms.toInt32
    return .addTimer timeout_ms.toInt64.toUInt64

inductive Call
  | sleep (seconds : UInt32)
  | usleep (usec : UInt32)
  | nanosleep (req : Timespec)

namespace Call

/-- The call of a thread whose functions are hooked. -/
def hooked : Call → Option Slept
  | .sleep seconds => some (Hook.sleep true seconds)
  | .usleep usec => some (Hook.usleep true usec)
  | .nanosleep req => Hook.nanosleep true req

/-- What the caller asks for, in nanoseconds. -/
def requested : Call → Int
  | .sleep seconds => seconds.toNat * 10 ^ 9
  | .usleep usec => usec.toNat * 10 ^ 3
  | .nanosleep req => req.tv_sec.toInt * 10 ^ 9 + req.tv_nsec.toInt

/-- A timer with the interval of the call ends not before the time the caller asks for, and less
than a millisecond after it. -/
def Exact (c : Call) : Prop :=
  ∃ ms, c.hooked = some (.addTimer ms) ∧ c.requested ≤ ms.toNat * 10 ^ 6
    ∧ (ms.toNat * 10 ^ 6 : Int) < c.requested + 10 ^ 6

/-- The units of the call and the types of the function agree. -/
def Fits : Call → Prop
  | .sleep seconds => seconds.toNat * 1000 < 2 ^ 32
  | .usleep usec => usec.toNat % 1000 = 0
  | .nanosleep req => req.tv_nsec.toInt % 10 ^ 6 = 0 ∧ 0 ≤ req.tv_sec.toInt
      ∧ req.tv_sec.toInt * 1000 + req.tv_nsec.toInt / 10 ^ 6 < 2 ^ 31

end Call

open Call

theorem exact_sleep (seconds : UInt32) :
    (Call.sleep seconds).Exact ↔ (Call.sleep seconds).Fits := by
  have hms : (seconds * 1000).toUInt64.toNat = seconds.toNat * 1000 % 2 ^ 32 :=
    UInt32.toNat_mul seconds 1000
  have hhooked : (Call.sleep seconds).hooked = some (.addTimer (seconds * 1000).toUInt64) := rfl
  simp only [Exact, hhooked, requested, Fits, Option.some.injEq, Slept.addTimer.injEq,
    exists_eq_left', hms]
  omega

theorem exact_usleep (usec : UInt32) : (Call.usleep usec).Exact ↔ (Call.usleep usec).Fits := by
  have hms : (usec / 1000).toUInt64.toNat = usec.toNat / 1000 := UInt32.toNat_div usec 1000
  have hhooked : (Call.usleep usec).hooked = some (.addTimer (usec / 1000).toUInt64) := rfl
  simp only [Exact, hhooked, requested, Fits, Option.some.injEq, Slept.addTimer.injEq,
    exists_eq_left', hms]
  omega

/-- `int` as `uint64_t` -/
theorem toNat_of_int (timeout_ms : Int32) : (timeout_ms.toInt64.toUInt64.toNat : Int)
    = if 0 ≤ timeout_ms.toInt then timeout_ms.toInt else timeout_ms.toInt + 2 ^ 64 := by
  have hwide : timeout_ms.toInt64.toBitVec.toInt = timeout_ms.toInt :=
    Int32.toInt_toInt64 timeout_ms
  have hcond := BitVec.toInt_eq_toNat_cond timeout_ms.toInt64.toBitVec
  have hlt := timeout_ms.toInt64.toBitVec.isLt
  rw [hwide] at hcond
  change (timeout_ms.toInt64.toBitVec.toNat : Int) = _
  generalize timeout_ms.toInt64.toBitVec.toNat = n at *
  split at hcond <;> split_ifs <;> omega

theorem checked_eq_some {v : Int} {ms : Int64} (h : checked v = some ms) :
    ms.toInt = v ∧ -2 ^ 63 ≤ v ∧ v < 2 ^ 63 := by
  rw [checked] at h
  split_ifs at h with hfits
  obtain rfl := Option.some.inj h
  exact ⟨Int64.toInt_ofInt_of_le hfits.1 hfits.2, hfits⟩

theorem checked_of_fits {v : Int} (h : -2 ^ 63 ≤ v ∧ v < 2 ^ 63) : checked v = some (.ofInt v) :=
  if_pos h

theorem tv_nsec_div (req : Timespec) :
    (req.tv_nsec / 1000 / 1000).toInt = req.tv_nsec.toInt / 10 ^ 6 := by
  have hnonneg := req.nonneg
  have hlt := req.lt
  have hdiv : ∀ a : Int64, 0 ≤ a.toInt → a.toInt < 10 ^ 9 → (a / 1000).toInt = a.toInt / 1000 := by
    intro a ha ha'
    rw [Int64.toInt_div]
    change (a.toInt.tdiv 1000).bmod (2 ^ 64) = _
    rw [Int.tdiv_eq_ediv_of_nonneg ha, Int.bmod_eq_of_le (by omega) (by omega)]
  have hfirst := hdiv req.tv_nsec hnonneg hlt
  rw [hdiv _ (by omega) (by omega), hfirst]
  omega

/-- The sum as an `int`, which is what becomes of it unless `long` overflows. -/
theorem nanosleep_eq_some {req : Timespec} {ms : UInt64}
    (h : nanosleep true req = some (.addTimer ms)) :
    req.tv_sec.toInt * 1000 + req.tv_nsec.toInt / 10 ^ 6 < 2 ^ 63
      ∧ ∃ timeout_ms : Int, timeout_ms
          = (req.tv_sec.toInt * 1000 + req.tv_nsec.toInt / 10 ^ 6).bmod (2 ^ 32)
        ∧ (ms.toNat : Int) = if 0 ≤ timeout_ms then timeout_ms else timeout_ms + 2 ^ 64 := by
  rw [nanosleep, if_neg (by decide)] at h
  obtain ⟨product, hproduct, h⟩ := Option.bind_eq_some_iff.mp h
  obtain ⟨sum, hsum, h⟩ := Option.bind_eq_some_iff.mp h
  obtain rfl := Slept.addTimer.inj (Option.some.inj h)
  obtain ⟨hproduct, -⟩ := checked_eq_some hproduct
  obtain ⟨hsum, -, hlt⟩ := checked_eq_some hsum
  rw [hproduct, tv_nsec_div] at hsum hlt
  refine ⟨hlt, _, ?_, toNat_of_int _⟩
  rw [Int64.toInt_toInt32, hsum]

theorem nanosleep_of_fits {req : Timespec} (h : (Call.nanosleep req).Fits) : ∃ ms,
    nanosleep true req = some (.addTimer ms)
      ∧ (ms.toNat : Int) = req.tv_sec.toInt * 1000 + req.tv_nsec.toInt / 10 ^ 6 := by
  obtain ⟨-, hsec, hlt⟩ := h
  have hnonneg := req.nonneg
  have hproduct : -2 ^ 63 ≤ req.tv_sec.toInt * 1000 ∧ req.tv_sec.toInt * 1000 < 2 ^ 63 := by omega
  have hsum : -2 ^ 63 ≤ req.tv_sec.toInt * 1000 + req.tv_nsec.toInt / 10 ^ 6
      ∧ req.tv_sec.toInt * 1000 + req.tv_nsec.toInt / 10 ^ 6 < 2 ^ 63 := by omega
  have hms : nanosleep true req = some (.addTimer (Int64.ofInt
      (req.tv_sec.toInt * 1000 + req.tv_nsec.toInt / 10 ^ 6)).toInt32.toInt64.toUInt64) := by
    rw [nanosleep, if_neg (by decide), checked_of_fits hproduct, Option.bind_eq_bind,
      Option.bind_some, Int64.toInt_ofInt_of_le hproduct.1 hproduct.2, tv_nsec_div,
      checked_of_fits hsum]
    rfl
  obtain ⟨-, timeout_ms, htimeout_ms, hnat⟩ := nanosleep_eq_some hms
  rw [Int.bmod_eq_of_le (by omega) (by omega)] at htimeout_ms
  refine ⟨_, hms, ?_⟩
  rw [hnat, if_pos (by omega), htimeout_ms]

theorem exact_nanosleep (req : Timespec) :
    (Call.nanosleep req).Exact ↔ (Call.nanosleep req).Fits := by
  have hnonneg := req.nonneg
  have hlt := req.lt
  constructor
  · rintro ⟨ms, hms, hge, hle⟩
    obtain ⟨hsum, timeout_ms, htimeout_ms, hnat⟩ := nanosleep_eq_some hms
    rw [requested] at hge hle
    rw [Fits]
    generalize req.tv_sec.toInt = sec at *
    generalize req.tv_nsec.toInt = nsec at *
    -- the sum and the `int` differ by a multiple of `2 ^ 32`
    have hwrap : ((2 ^ 32 : Nat) : Int) ∣ timeout_ms - (sec * 1000 + nsec / 10 ^ 6) := by
      rw [htimeout_ms]
      exact Int.dvd_bmod_sub_self
    have hlow : -2 ^ 31 ≤ timeout_ms := htimeout_ms ▸ Int.le_bmod (by decide)
    have hhigh : timeout_ms < 2 ^ 31 := htimeout_ms ▸ Int.bmod_lt (by decide)
    obtain ⟨k, hk⟩ := hwrap
    split_ifs at hnat <;> omega
  · intro hfits
    obtain ⟨ms, hms, hnat⟩ := nanosleep_of_fits hfits
    obtain ⟨hwhole, -, -⟩ := hfits
    refine ⟨ms, hms, ?_, ?_⟩
    · rw [requested, hnat]
      omega
    · rw [requested, hnat]
      omega

/-- **The interval of a sleep.**  For every call of the three functions: the timer gets the time
the caller asks for, rounded up to milliseconds, if and only if the time fits. -/
theorem exact_iff (c : Call) : c.Exact ↔ c.Fits := by
  cases c with
  | sleep seconds => exact exact_sleep seconds
  | usleep usec => exact exact_usleep usec
  | nanosleep req => exact exact_nanosleep req

/-- `sleep(4294968)` is for 704 milliseconds. -/
theorem sleep_wraps : (Call.sleep 4294968).hooked = some (.addTimer 704)
    ∧ ¬ (Call.sleep 4294968).Exact := by
  refine ⟨by decide, ?_⟩
  rintro ⟨ms, hms, hge, -⟩
  obtain rfl := Slept.addTimer.inj (Option.some.inj hms)
  exact absurd hge (by decide)

/-! ### When the fiber is scheduled -/

open TimerSet (TimerManager Callback addTimerLocked_timers)

theorem exact_of_fits {c : Call} (h : c.Fits) : c.Exact := by
  cases c with
  | sleep seconds => exact (exact_sleep seconds).mpr h
  | usleep usec => exact (exact_usleep usec).mpr h
  | nanosleep req => exact (exact_nanosleep req).mpr h

/-- **A sleep that fits does not end early.**  `s` is when the timer is made, and `t` is later:
if the timer is due in `t`, and the clock was not set back, then the time is over. -/
theorem not_early {c : Call} (hfits : c.Fits) {ms : UInt64} (hms : c.hooked = some (.addTimer ms))
    {s t : TimerManager} {cb : Callback} {address : Nat} {now now_ms : UInt64}
    (hfuture : now.toNat + ms.toNat < 2 ^ 64)
    (htimer : t.timers s.made = (s.addTimer ms cb false address now).timers s.made)
    (hrollover : (t.detectClockRollover now_ms).1 = false) (hdue : s.made ∈ t.due now_ms) :
    c.requested ≤ (now_ms.toNat - now.toNat : Int) * 10 ^ 6 := by
  have hnext : (t.timers s.made).m_next = now + ms := by
    rw [htimer, TimerManager.addTimer, addTimerLocked_timers]
    change (Function.update s.timers s.made _ s.made).m_next = _
    rw [Function.update_self]
  rw [TimerManager.due, if_neg (by rw [hrollover]; decide)] at hdue
  have hle := of_decide_eq_true (List.mem_filter.mp hdue).2
  rw [hnext, UInt64.le_iff_toNat_le, UInt64.toNat_add, Nat.mod_eq_of_lt hfuture] at hle
  obtain ⟨ms', hms', hge, -⟩ := exact_of_fits hfits
  obtain rfl := Slept.addTimer.inj (Option.some.inj (hms.symm.trans hms'))
  omega

end Hook

end FiberServer
