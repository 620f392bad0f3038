import FiberServer.Library.OrderedSet
import FiberServer.Library.Transition
import Mathlib.Logic.Function.Basic
import Mathlib.Tactic.SplitIfs

/-!
# The set of timers

`m_timers` is ordered by `m_next`, which is a field of the timers it holds, and `cancel`,
`refresh`, `reset` and `listExpiredCb` change the timers.  Each of them takes a timer out of the
set before it changes its `m_next`, and clears its callback only with taking it out.

`TimerManager.Inv` is the invariant inside of an operation: some timers are in its hands, taken
out of the set with their callbacks still there.

* `ordered`: the set is ordered and holds exactly the timers with a callback, `find` finds each
  of them, and a timer that is not recurring is handed out once at most.
-/

namespace FiberServer

namespace TimerSet

open Transition

/-- A function given to `addTimer`. -/
abbrev Callback := Nat

structure Timer where
  m_recurring : Bool
  m_ms : UInt64
  m_next : UInt64
  m_cb : Option Callback
  /-- where the timer lies in memory -/
  address : Nat
  /-- somebody but the set has a pointer to it -/
  held : Bool
  deriving DecidableEq, Repr

/-- `Timer(uint64_t next)`. -/
def Timer.ofNext (next : UInt64) (address : Nat) : Timer :=
  { m_recurring := false
    m_ms := 0
    m_next := next
    m_cb := none
    address := address
    held := true }

/-- `Timer::Comparator`, of two pointers. -/
def Comparator (lhs rhs : Option Timer) : Bool :=
  match lhs, rhs with
  | none, none => false
  | none, some _ => true
  | some _, none => false
  | some lhs, some rhs =>
    if lhs.m_next < rhs.m_next then true
    else if rhs.m_next < lhs.m_next then false
    else lhs.address < rhs.address

structure TimerManager where
  /-- the timers by their numbers; those from `made` on are not made yet -/
  timers : Nat → Timer
  made : Nat
  m_timers : List Nat
  m_tickled : Bool
  m_previouseTime : UInt64
  /-- calls of `onTimerInsertedAtFront` -/
  tickles : Nat
  /-- what `listExpiredCb` has put into `cbs`, and the timers it is of -/
  handedOut : List (Nat × Option Callback)
  /-- the `m_next` of a timer was assigned while it was in the set -/
  changed : Bool
  /-- `find` did not find a timer that has a callback -/
  missed : Bool

/-- `TimerManager()`. -/
def init (now : UInt64) : TimerManager :=
  { timers := fun _ => { Timer.ofNext 0 0 with held := false }
    made := 0
    m_timers := []
    m_tickled := false
    m_previouseTime := now
    tickles := 0
    handedOut := []
    changed := false
    missed := false }

/-- The order of the set, by what the timers are now. -/
def before (timers : Nat → Timer) (k j : Nat) : Bool :=
  Comparator (some (timers k)) (some (timers j))

namespace TimerManager

def setTimer (s : TimerManager) (k : Nat) (t : Timer) : TimerManager :=
  { s with timers := Function.update s.timers k t }

/-- Every assignment to the `m_next` of a timer. -/
def setNext (s : TimerManager) (k : Nat) (m_next : UInt64) : TimerManager :=
  { s.setTimer k { s.timers k with m_next := m_next } with
    changed := s.changed || s.m_timers.contains k }

def setMs (s : TimerManager) (k : Nat) (m_ms : UInt64) : TimerManager :=
  s.setTimer k { s.timers k with m_ms := m_ms }

/-- `m_cb = nullptr` -/
def clearCb (s : TimerManager) (k : Nat) : TimerManager :=
  s.setTimer k { s.timers k with m_cb := none }

def find (s : TimerManager) (k : Nat) : Option Nat := OrderedSet.find (before s.timers) k s.m_timers

def erase (s : TimerManager) (it : Nat) : TimerManager :=
  { s with m_timers := s.m_timers.eraseIdx it }

def insert (s : TimerManager) (k : Nat) : TimerManager :=
  { s with m_timers := OrderedSet.insert (before s.timers) k s.m_timers }

def miss (s : TimerManager) : TimerManager := { s with missed := true }

/-- `addTimer(Timer::ptr val, RWMutexType::WriteLock& lock)`. -/
def addTimerLocked (s : TimerManager) (val : Nat) : TimerManager :=
  let it := OrderedSet.lowerBound (before s.timers) val s.m_timers
  let s := s.insert val
  let at_front := it == 0 && !s.m_tickled
  if at_front then { s with m_tickled := true, tickles := s.tickles + 1 } else s

/-- `addTimer(uint64_t ms, std::function<void()> cb, bool recurring)`, with a new timer at
`address`. -/
def addTimer (s : TimerManager) (ms : UInt64) (cb : Callback) (recurring : Bool) (address : Nat)
    (now : UInt64) : TimerManager :=
  let timer : Timer :=
    { m_recurring := recurring
      m_ms := ms
      m_next := now + ms
      m_cb := some cb
      address := address
      held := true }
  { s.setTimer s.made timer with made := s.made + 1 }.addTimerLocked s.made

/-- `Timer::cancel`, with what it returns. -/
def cancel (s : TimerManager) (k : Nat) : TimerManager × Bool :=
  if (s.timers k).m_cb.isSome then
    let s := s.clearCb k
    match s.find k with
    | none => (s.miss, false)
    | some it => (s.erase it, true)
  else (s, false)

/-- `Timer::refresh`. -/
def refresh (s : TimerManager) (k : Nat) (now : UInt64) : TimerManager × Bool :=
  if (s.timers k).m_cb.isNone then (s, false)
  else
    match s.find k with
    | none => (s.miss, false)
    | some it =>
      let s := s.erase it
      let s := s.setNext k (now + (s.timers k).m_ms)
      (s.insert k, true)

/-- `Timer::reset`. -/
def reset (s : TimerManager) (k : Nat) (ms : UInt64) (from_now : Bool) (now : UInt64) :
    TimerManager × Bool :=
  if ms = (s.timers k).m_ms ∧ from_now = false then (s, true)
  else if (s.timers k).m_cb.isNone then (s, false)
  else
    match s.find k with
    | none => (s.miss, false)
    | some it =>
      let s := s.erase it
      let start := if from_now then now else (s.timers k).m_next - (s.timers k).m_ms
      let s := s.setMs k ms
      let s := s.setNext k (start + (s.timers k).m_ms)
      (s.addTimerLocked k, true)

/-- `detectClockRollover`. -/
def detectClockRollover (s : TimerManager) (now_ms : UInt64) : Bool × TimerManager :=
  (now_ms < s.m_previouseTime && now_ms < s.m_previouseTime - 60 * 60 * 1000,
    { s with m_previouseTime := now_ms })

/-- The body of the loop of `listExpiredCb`. -/
def handOut (now_ms : UInt64) (s : TimerManager) (timer : Nat) : TimerManager :=
  let s := { s with handedOut := s.handedOut ++ [(timer, (s.timers timer).m_cb)] }
  if (s.timers timer).m_recurring then
    (s.setNext timer (now_ms + (s.timers timer).m_ms)).insert timer
  else s.clearCb timer

/-- Where the timers that are not due yet begin. -/
def expiredEnd (s : TimerManager) (rollover : Bool) (now_timer : Timer) : Nat :=
  let it := if rollover then s.m_timers.length
    else
      OrderedSet.lowerBound (fun k t => Comparator (some (s.timers k)) (some t)) now_timer s.m_timers
  it + ((s.m_timers.drop it).takeWhile fun k => (s.timers k).m_next = now_timer.m_next).length

/-- `listExpiredCb`, with `now_timer` at `address`. -/
def listExpiredCb (s : TimerManager) (address : Nat) (now_ms : UInt64) : TimerManager :=
  match s.m_timers with
  | [] => s
  | begin :: _ =>
    let (rollover, s) := s.detectClockRollover now_ms
    if !rollover && (s.timers begin).m_next > now_ms then s
    else
      let it := s.expiredEnd rollover (.ofNext now_ms address)
      let expired := s.m_timers.take it
      expired.foldl (handOut now_ms) { s with m_timers := s.m_timers.drop it }

/-- `getNextTimer`, with what it returns. -/
def getNextTimer (s : TimerManager) (now_ms : UInt64) : TimerManager × UInt64 :=
  ({ s with m_tickled := false },
    match s.m_timers with
    | [] => ~~~0
    | next :: _ =>
      if now_ms ≥ (s.timers next).m_next then 0 else (s.timers next).m_next - now_ms)

/-- Some pointer to the timer exists, and its memory is not used again. -/
def live (s : TimerManager) (k : Nat) : Bool := (s.timers k).held || s.m_timers.contains k

def free (s : TimerManager) (address : Nat) : Bool :=
  (List.range s.made).all fun k => !s.live k || (s.timers k).address != address

end TimerManager

inductive Action
  | addTimer (ms : UInt64) (cb : Callback) (recurring : Bool) (address : Nat) (now : UInt64)
  | cancel (k : Nat)
  | refresh (k : Nat) (now : UInt64)
  | reset (k : Nat) (ms : UInt64) (from_now : Bool) (now : UInt64)
  | listExpiredCb (address : Nat) (now : UInt64)
  | getNextTimer (now : UInt64)
  /-- the last pointer outside of the set goes -/
  | drop (k : Nat)
  deriving DecidableEq, Repr

/-- A function of a timer is called through a pointer, and a new timer lies where no other does. -/
def step (s : TimerManager) : Action → Option TimerManager
  | .addTimer ms cb recurring address now =>
    if s.free address then some (s.addTimer ms cb recurring address now) else none
  | .cancel k => if (s.timers k).held then some (s.cancel k).1 else none
  | .refresh k now => if (s.timers k).held then some (s.refresh k now).1 else none
  | .reset k ms from_now now =>
    if (s.timers k).held then some (s.reset k ms from_now now).1 else none
  | .listExpiredCb address now => some (s.listExpiredCb address now)
  | .getNextTimer now => some (s.getNextTimer now).1
  | .drop k =>
    if (s.timers k).held then some (s.setTimer k { s.timers k with held := false }) else none

/-- The callbacks of a timer that were handed out. -/
def TimerManager.countOut (s : TimerManager) (k : Nat) : Nat := s.handedOut.countP fun e => e.1 = k

/-- Between the operations. -/
structure TimerManager.Ordered (s : TimerManager) : Prop where
  /-- strictly, by `m_next` and by the address -/
  sorted : s.m_timers.Pairwise fun k j => Comparator (some (s.timers k)) (some (s.timers j)) = true
  nodup : s.m_timers.Nodup
  pending : ∀ k, k ∈ s.m_timers ↔ (s.timers k).m_cb.isSome = true
  found : ∀ k, (s.timers k).m_cb.isSome = true → ∃ it, s.find k = some it ∧ s.m_timers[it]? = some k
  unchanged : s.changed = false
  unmissed : s.missed = false
  once : ∀ k, (s.timers k).m_recurring = false → s.countOut k ≤ 1

/-! ### The comparator -/

theorem Comparator_some {t u : Timer} : Comparator (some t) (some u) = true
    ↔ t.m_next < u.m_next ∨ t.m_next = u.m_next ∧ t.address < u.address := by
  rw [Comparator]
  split_ifs with hlt hgt
  · simp only [hlt, true_or]
  · have hne : t.m_next ≠ u.m_next := by
      intro heq
      rw [heq] at hgt
      exact UInt64.lt_irrefl _ hgt
    simp only [hlt, hne, false_and, or_self]
  · have heq : t.m_next = u.m_next :=
      UInt64.le_antisymm (UInt64.not_lt.mp hgt) (UInt64.not_lt.mp hlt)
    simp only [heq, UInt64.lt_irrefl, true_and, false_or, decide_eq_true_eq]

theorem before_irrefl (timers : Nat → Timer) (k : Nat) : before timers k k = false := by
  rw [← Bool.not_eq_true, before, Comparator_some]
  rintro (hlt | ⟨-, hlt⟩)
  · exact UInt64.lt_irrefl _ hlt
  · exact Nat.lt_irrefl _ hlt

theorem Comparator_trans {t u v : Timer} (htu : Comparator (some t) (some u) = true)
    (huv : Comparator (some u) (some v) = true) : Comparator (some t) (some v) = true := by
  rw [Comparator_some] at *
  rcases htu with htu | ⟨htu, htu'⟩ <;> rcases huv with huv | ⟨huv, huv'⟩
  · exact .inl (UInt64.lt_trans htu huv)
  · exact .inl (huv ▸ htu)
  · exact .inl (htu ▸ huv)
  · exact .inr ⟨htu.trans huv, Nat.lt_trans htu' huv'⟩

theorem before_trans (timers : Nat → Timer) (i j k : Nat) (hij : before timers i j = true)
    (hjk : before timers j k = true) : before timers i k = true :=
  Comparator_trans hij hjk

/-- Timers at different addresses compare. -/
theorem before_total {timers : Nat → Timer} {k j : Nat}
    (hne : (timers k).address ≠ (timers j).address) :
    before timers k j = true ∨ before timers j k = true := by
  simp only [before, Comparator_some]
  by_cases hlt : (timers k).m_next < (timers j).m_next
  · exact .inl (.inl hlt)
  by_cases hgt : (timers j).m_next < (timers k).m_next
  · exact .inr (.inl hgt)
  have heq : (timers k).m_next = (timers j).m_next :=
    UInt64.le_antisymm (UInt64.not_lt.mp hgt) (UInt64.not_lt.mp hlt)
  rcases Nat.lt_or_gt_of_ne hne with hlt | hgt
  · exact .inl (.inr ⟨heq, hlt⟩)
  · exact .inr (.inr ⟨heq.symm, hgt⟩)

theorem before_congr {timers timers' : Nat → Timer} {k j : Nat}
    (hk : (timers' k).m_next = (timers k).m_next) (hk' : (timers' k).address = (timers k).address)
    (hj : (timers' j).m_next = (timers j).m_next) (hj' : (timers' j).address = (timers j).address) :
    before timers' k j = before timers k j := by
  rw [before, before, Bool.eq_iff_iff, Comparator_some, Comparator_some, hk, hk', hj, hj']

/-! ### The invariant of an operation -/

namespace TimerManager

variable {s t : TimerManager} {k : Nat} {hands : List Nat}

/-- A pointer to the timer exists, in the hands of the operation if nowhere else. -/
def pointed (s : TimerManager) (k : Nat) : Prop :=
  (s.timers k).held = true ∨ (s.timers k).m_cb.isSome = true

/-- The invariant, while the timers `hands` are in the hands of an operation. -/
structure Inv (s : TimerManager) (hands : List Nat) : Prop where
  sorted : OrderedSet.Sorted (before s.timers) s.m_timers
  pending : ∀ k, k ∈ s.m_timers ∨ k ∈ hands ↔ (s.timers k).m_cb.isSome = true
  apart : ∀ k ∈ hands, k ∉ s.m_timers
  nodup : hands.Nodup
  addresses : ∀ k j, s.pointed k → s.pointed j → (s.timers k).address = (s.timers j).address → k = j
  fresh : ∀ k, s.made ≤ k → ¬ s.pointed k ∧ s.countOut k = 0
  unchanged : s.changed = false
  unmissed : s.missed = false
  once : ∀ k, (s.timers k).m_recurring = false →
    s.countOut k ≤ 1 ∧ ((s.timers k).m_cb.isSome = true → s.countOut k = 0)

theorem inv_init (now : UInt64) : (init now).Inv [] := by
  constructor
  · exact List.Pairwise.nil
  · intro k
    simp [init, Timer.ofNext]
  · exact fun k hk => absurd hk List.not_mem_nil
  · exact List.nodup_nil
  · intro k j hk
    simp [pointed, init, Timer.ofNext] at hk
  · intro k _
    simp [pointed, init, Timer.ofNext, countOut]
  · rfl
  · rfl
  · intro k _
    simp [countOut, init]

theorem Inv.mem (h : s.Inv hands) (hk : (s.timers k).m_cb.isSome = true) (hhands : k ∉ hands) :
    k ∈ s.m_timers :=
  ((h.pending k).mpr hk).resolve_right hhands

/-- **A timer that has a callback is found.** -/
theorem Inv.find (h : s.Inv []) (hk : (s.timers k).m_cb.isSome = true) :
    ∃ it, s.find k = some it ∧ s.m_timers[it]? = some k :=
  ⟨_, OrderedSet.find_of_mem (before_irrefl _) h.sorted (h.mem hk List.not_mem_nil)⟩

theorem Inv.toOrdered (h : s.Inv []) : s.Ordered where
  sorted := h.sorted
  nodup := h.sorted.nodup (before_irrefl _)
  pending k := by
    rw [← h.pending k]
    simp only [List.not_mem_nil, or_false]
  found _ hk := h.find hk
  unchanged := h.unchanged
  unmissed := h.unmissed
  once k hk := (h.once k hk).1

/-- What an operation may change without touching the order of the set. -/
theorem Inv.of_eq (h : s.Inv hands) (htimers : t.m_timers = s.m_timers) (hmade : t.made = s.made)
    (hout : t.handedOut = s.handedOut) (hchanged : t.changed = false) (hmissed : t.missed = s.missed)
    (hnext : ∀ k ∈ s.m_timers, (t.timers k).m_next = (s.timers k).m_next)
    (haddress : ∀ k, (t.timers k).address = (s.timers k).address)
    (hrecurring : ∀ k, (t.timers k).m_recurring = (s.timers k).m_recurring)
    (hcb : ∀ k, (t.timers k).m_cb = (s.timers k).m_cb)
    (hheld : ∀ k, (t.timers k).held = true → (s.timers k).held = true) : t.Inv hands := by
  have hpointed : ∀ k, t.pointed k → s.pointed k := by
    intro k
    rw [pointed, pointed, hcb]
    exact Or.imp_left (hheld k)
  have hcount : ∀ k, t.countOut k = s.countOut k := fun k => by rw [countOut, countOut, hout]
  constructor
  · rw [htimers]
    exact h.sorted.congr fun i hi j hj =>
      before_congr (hnext i hi) (haddress i) (hnext j hj) (haddress j)
  · intro k
    rw [htimers, hcb]
    exact h.pending k
  · rw [htimers]
    exact h.apart
  · exact h.nodup
  · intro k j hk hj
    rw [haddress, haddress]
    exact h.addresses k j (hpointed k hk) (hpointed j hj)
  · intro k hk
    rw [hmade] at hk
    rw [hcount]
    exact ⟨fun hk' => (h.fresh k hk).1 (hpointed k hk'), (h.fresh k hk).2⟩
  · exact hchanged
  · exact hmissed.trans h.unmissed
  · intro k
    rw [hrecurring, hcount, hcb]
    exact h.once k

/-- A field in which the new timer is like the old one. -/
theorem update_field {α : Type} (f : Timer → α) {timers : Nat → Timer} {k : Nat} {t : Timer}
    (hf : f t = f (timers k)) (j : Nat) : f (Function.update timers k t j) = f (timers j) := by
  by_cases hj : j = k
  · subst hj
    rw [Function.update_self, hf]
  · rw [Function.update_of_ne hj]

/-- **A timer in the hands of the operation gets its time.** -/
theorem Inv.setNext (h : s.Inv hands) (hk : k ∈ hands) (m_next : UInt64) :
    (s.setNext k m_next).Inv hands := by
  have hout : k ∉ s.m_timers := h.apart k hk
  refine h.of_eq rfl rfl rfl ?_ rfl ?_ (update_field Timer.address (by rfl))
    (update_field Timer.m_recurring (by rfl)) (update_field Timer.m_cb (by rfl))
    fun j hj => (update_field Timer.held (by rfl) j).symm.trans hj
  · show (s.changed || s.m_timers.contains k) = false
    rw [h.unchanged, Bool.false_or, ← Bool.not_eq_true, List.contains_iff_mem]
    exact hout
  · intro j hj
    have hne : j ≠ k := fun heq => hout (heq ▸ hj)
    show (Function.update s.timers k _ j).m_next = _
    rw [Function.update_of_ne hne]

theorem Inv.setMs (h : s.Inv hands) (k : Nat) (m_ms : UInt64) : (s.setMs k m_ms).Inv hands :=
  h.of_eq rfl rfl rfl h.unchanged rfl (fun j _ => update_field Timer.m_next (by rfl) j)
    (update_field Timer.address (by rfl)) (update_field Timer.m_recurring (by rfl))
    (update_field Timer.m_cb (by rfl))
    fun j hj => (update_field Timer.held (by rfl) j).symm.trans hj

/-- **A timer is taken out of the set.** -/
theorem Inv.erase (h : s.Inv []) {it : Nat} (hit : s.m_timers[it]? = some k) :
    (s.erase it).Inv [k] := by
  have hmem : ∀ j, j ∈ s.m_timers.eraseIdx it ↔ j ∈ s.m_timers ∧ j ≠ k := fun j =>
    OrderedSet.mem_eraseIdx_find (before_irrefl _) h.sorted hit
  constructor
  · exact h.sorted.sublist (List.eraseIdx_sublist _ _)
  · intro j
    show j ∈ s.m_timers.eraseIdx it ∨ j ∈ [k] ↔ _
    have hpending := h.pending j
    rw [hmem, List.mem_singleton]
    simp only [List.not_mem_nil, or_false] at hpending
    rw [TimerManager.erase, ← hpending]
    constructor
    · rintro (⟨hj, -⟩ | rfl)
      · exact hj
      · exact List.mem_of_getElem? hit
    · intro hj
      by_cases hne : j = k
      · exact .inr hne
      · exact .inl ⟨hj, hne⟩
  · intro j hj hj'
    exact ((hmem j).mp hj').2 (List.mem_singleton.mp hj)
  · exact List.pairwise_singleton _ k
  · exact h.addresses
  · exact h.fresh
  · exact h.unchanged
  · exact h.unmissed
  · exact h.once

/-- **A timer in the hands of the operation is put back.** -/
theorem Inv.insert (h : s.Inv (k :: hands)) : (s.insert k).Inv hands := by
  have hout : k ∉ s.m_timers := h.apart k List.mem_cons_self
  have hpointed : ∀ j, j ∈ s.m_timers ∨ j ∈ k :: hands → s.pointed j :=
    fun j hj => .inr ((h.pending j).mp hj)
  have hnew : ∀ j ∈ s.m_timers, before s.timers k j = true ∨ before s.timers j k = true := by
    intro j hj
    refine before_total fun heq => ?_
    have hkj := h.addresses k j (hpointed k (.inr List.mem_cons_self)) (hpointed j (.inl hj)) heq
    exact hout (hkj ▸ hj)
  have hmem : ∀ j, j ∈ (s.insert k).m_timers ↔ j = k ∨ j ∈ s.m_timers := fun j => by
    rw [TimerManager.insert, (OrderedSet.insert_perm hnew).mem_iff, List.mem_cons]
  constructor
  · exact OrderedSet.insert_sorted (before_trans _) h.sorted hnew
  · intro j
    rw [hmem]
    show _ ↔ (s.timers j).m_cb.isSome = true
    rw [← h.pending j, List.mem_cons, or_assoc, or_left_comm]
  · intro j hj hj'
    rcases (hmem j).mp hj' with rfl | hj'
    · exact (List.nodup_cons.mp h.nodup).1 hj
    · exact h.apart j (List.mem_cons_of_mem _ hj) hj'
  · exact (List.nodup_cons.mp h.nodup).2
  · exact h.addresses
  · exact h.fresh
  · exact h.unchanged
  · exact h.unmissed
  · exact h.once

/-- **The callback of a timer in the hands of the operation is cleared.**  It was handed out at
most once more than before. -/
theorem Inv.clearCb (h : s.Inv (k :: hands)) {out : List (Nat × Option Callback)}
    (hout : ∀ j ≠ k, out.countP (·.1 = j) = s.countOut j)
    (honce : out.countP (·.1 = k) ≤ s.countOut k + 1) :
    ({ s with handedOut := out }.clearCb k).Inv hands := by
  have hk : (s.timers k).m_cb.isSome = true := (h.pending k).mp (.inr List.mem_cons_self)
  have hself : (Function.update s.timers k { s.timers k with m_cb := none } k).m_cb = none := by
    rw [Function.update_self]
  have hcb : ∀ j, j ≠ k → (Function.update s.timers k { s.timers k with m_cb := none } j).m_cb
      = (s.timers j).m_cb := fun j hj => by rw [Function.update_of_ne hj]
  have hpointed : ∀ j, ({ s with handedOut := out }.clearCb k).pointed j → s.pointed j := by
    rintro j (hj | hj)
    · exact .inl ((update_field Timer.held (by rfl) j).symm.trans hj)
    · by_cases hjk : j = k
      · exact .inr (hjk ▸ hk)
      · exact .inr (hcb j hjk ▸ hj)
  have haddress : ∀ j, _ = (s.timers j).address :=
    update_field Timer.address (t := { s.timers k with m_cb := none }) (k := k) rfl
  have hrecurring : ∀ j, _ = (s.timers j).m_recurring :=
    update_field Timer.m_recurring (t := { s.timers k with m_cb := none }) (k := k) rfl
  constructor
  · refine h.sorted.congr fun i _ j _ => before_congr ?_ (haddress i) ?_ (haddress j)
    · exact update_field Timer.m_next (by rfl) i
    · exact update_field Timer.m_next (by rfl) j
  · intro j
    show j ∈ s.m_timers ∨ j ∈ hands ↔ (Function.update s.timers k _ j).m_cb.isSome = true
    by_cases hj : j = k
    · subst hj
      rw [hself]
      have hin := h.apart j List.mem_cons_self
      have hhands := (List.nodup_cons.mp h.nodup).1
      simp only [hin, hhands, or_self, Option.isSome_none, Bool.false_eq_true]
    · rw [hcb j hj, ← h.pending j, List.mem_cons]
      simp only [hj, false_or]
  · exact fun j hj => h.apart j (List.mem_cons_of_mem _ hj)
  · exact (List.nodup_cons.mp h.nodup).2
  · intro i j hi hj hij
    exact h.addresses i j (hpointed i hi) (hpointed j hj)
      ((haddress i).symm.trans (hij.trans (haddress j)))
  · intro j hj
    have hne : j ≠ k := fun hjk => (h.fresh j hj).1 (.inr (hjk ▸ hk))
    exact ⟨fun hj' => (h.fresh j hj).1 (hpointed j hj'), (hout j hne).trans (h.fresh j hj).2⟩
  · exact h.unchanged
  · exact h.unmissed
  · intro j hj
    have hrec := (hrecurring j).symm.trans hj
    show out.countP _ ≤ 1 ∧ ((Function.update s.timers k _ j).m_cb.isSome = true → out.countP _ = 0)
    by_cases hjk : j = k
    · subst hjk
      have hzero := (h.once j hrec).2 hk
      rw [hself]
      exact ⟨by omega, fun hsome => nomatch hsome⟩
    · rw [hcb j hjk, hout j hjk]
      exact h.once j hrec

/-! ### The operations -/

theorem Inv.addTimerLocked (h : s.Inv [k]) : (s.addTimerLocked k).Inv [] := by
  have hinsert := h.insert
  rw [TimerManager.addTimerLocked]
  split_ifs
  · exact hinsert.of_eq rfl rfl rfl hinsert.unchanged rfl (fun _ _ => rfl) (fun _ => rfl)
      (fun _ => rfl) (fun _ => rfl) fun _ hheld => hheld
  · exact hinsert

/-- A timer that is made is in the hands of `addTimer`. -/
theorem Inv.make (h : s.Inv []) (timer : Timer) (hcb : timer.m_cb.isSome = true)
    (hfree : s.free timer.address = true) :
    ({ s.setTimer s.made timer with made := s.made + 1 } : TimerManager).Inv [s.made] := by
  obtain ⟨hnot, hzero⟩ := h.fresh s.made (Nat.le_refl _)
  have hold : ∀ j ≠ s.made, Function.update s.timers s.made timer j = s.timers j :=
    fun j hj => Function.update_of_ne hj _ _
  have hself : Function.update s.timers s.made timer s.made = timer := Function.update_self _ _ _
  have hout : s.made ∉ s.m_timers := fun hmem => hnot (.inr ((h.pending _).mp (.inl hmem)))
  have hpointed : ∀ j ≠ s.made,
      ({ s.setTimer s.made timer with made := s.made + 1 } : TimerManager).pointed j →
        s.pointed j := by
    intro j hj
    rw [pointed, pointed]
    show (Function.update s.timers s.made timer j).held = true
      ∨ (Function.update s.timers s.made timer j).m_cb.isSome = true → _
    rw [hold j hj]
    exact id
  -- no timer that is pointed to lies where the new one does
  have hother : ∀ j, s.pointed j → (s.timers j).address ≠ timer.address := by
    intro j hj
    have hlt : j < s.made := Nat.lt_of_not_le fun hle => (h.fresh j hle).1 hj
    have hlive : s.live j = true := by
      rw [live, Bool.or_eq_true, List.contains_iff_mem]
      exact hj.imp_right fun hj => h.mem hj List.not_mem_nil
    have hfree := List.all_eq_true.mp hfree j (List.mem_range.mpr hlt)
    rw [hlive] at hfree
    simpa using hfree
  constructor
  · refine h.sorted.congr fun i hi j hj => ?_
    have hi' : i ≠ s.made := fun heq => hout (heq ▸ hi)
    have hj' : j ≠ s.made := fun heq => hout (heq ▸ hj)
    show before (Function.update s.timers s.made timer) i j = _
    rw [before, hold i hi', hold j hj', before]
  · intro j
    show j ∈ s.m_timers ∨ j ∈ [s.made] ↔ (Function.update s.timers s.made timer j).m_cb.isSome = true
    rw [List.mem_singleton]
    by_cases hj : j = s.made
    · rw [hj, hself]
      simp only [or_true, hcb]
    · rw [hold j hj, ← h.pending j]
      simp only [hj, List.not_mem_nil]
  · intro j hj
    rw [List.mem_singleton.mp hj]
    exact hout
  · exact List.pairwise_singleton _ _
  · intro i j hi hj
    show (Function.update s.timers s.made timer i).address
      = (Function.update s.timers s.made timer j).address → i = j
    by_cases hi' : i = s.made <;> by_cases hj' : j = s.made
    · exact fun _ => hi'.trans hj'.symm
    · rw [hi', hself, hold j hj']
      exact fun heq => absurd heq.symm (hother j (hpointed j hj' hj))
    · rw [hj', hself, hold i hi']
      exact fun heq => absurd heq (hother i (hpointed i hi' hi))
    · rw [hold i hi', hold j hj']
      exact h.addresses i j (hpointed i hi' hi) (hpointed j hj' hj)
  · intro j hj
    have hlt : s.made < j := hj
    obtain ⟨hj', hcount⟩ := h.fresh j (Nat.le_of_lt hlt)
    exact ⟨fun hp => hj' (hpointed j (by omega) hp), hcount⟩
  · exact h.unchanged
  · exact h.unmissed
  · intro j
    show (Function.update s.timers s.made timer j).m_recurring = false → s.countOut j ≤ 1
      ∧ ((Function.update s.timers s.made timer j).m_cb.isSome = true → s.countOut j = 0)
    by_cases hj : j = s.made
    · subst hj
      exact fun _ => ⟨by omega, fun _ => hzero⟩
    · rw [hold j hj]
      exact h.once j

theorem Inv.addTimer (h : s.Inv []) (ms : UInt64) (cb : Callback) (recurring : Bool) {address : Nat}
    (now : UInt64) (hfree : s.free address = true) :
    (s.addTimer ms cb recurring address now).Inv [] :=
  (h.make ⟨recurring, ms, now + ms, some cb, address, true⟩ rfl hfree).addTimerLocked

/-- `m_cb` is not compared. -/
theorem find_clearCb (s : TimerManager) (k : Nat) : (s.clearCb k).find k = s.find k := by
  have hbefore : before (s.clearCb k).timers = before s.timers := by
    funext i j
    exact before_congr (update_field Timer.m_next (by rfl) i) (update_field Timer.address (by rfl) i)
      (update_field Timer.m_next (by rfl) j) (update_field Timer.address (by rfl) j)
  rw [TimerManager.find, hbefore]
  rfl

theorem Inv.cancel (h : s.Inv []) (k : Nat) : (s.cancel k).1.Inv [] := by
  rw [TimerManager.cancel]
  split_ifs with hk
  · obtain ⟨it, hfind, hit⟩ := h.find hk
    simp only [find_clearCb, hfind]
    exact (h.erase hit).clearCb (fun _ _ => rfl) (Nat.le_succ _)
  · exact h

theorem Inv.refresh (h : s.Inv []) (k : Nat) (now : UInt64) : (s.refresh k now).1.Inv [] := by
  rw [TimerManager.refresh]
  split_ifs with hk
  · exact h
  · rw [Option.isNone_iff_eq_none, ← ne_eq, Option.ne_none_iff_isSome] at hk
    obtain ⟨it, hfind, hit⟩ := h.find hk
    simp only [hfind]
    exact ((h.erase hit).setNext (List.mem_singleton_self k) _).insert

theorem Inv.reset (h : s.Inv []) (k : Nat) (ms : UInt64) (from_now : Bool) (now : UInt64) :
    (s.reset k ms from_now now).1.Inv [] := by
  rw [TimerManager.reset]
  by_cases hsame : ms = (s.timers k).m_ms ∧ from_now = false
  · rw [if_pos hsame]
    exact h
  rw [if_neg hsame]
  by_cases hk : (s.timers k).m_cb.isNone = true
  · rw [if_pos hk]
    exact h
  · rw [if_neg hk]
    rw [Option.isNone_iff_eq_none, ← ne_eq, Option.ne_none_iff_isSome] at hk
    obtain ⟨it, hfind, hit⟩ := h.find hk
    simp only [hfind]
    exact (((h.erase hit).setMs k ms).setNext (List.mem_singleton_self k) _).addTimerLocked

/-- **One timer of the loop of `listExpiredCb`.** -/
theorem Inv.handOut (h : s.Inv (k :: hands)) (now_ms : UInt64) : (s.handOut now_ms k).Inv hands := by
  have hcount : ∀ j, (s.handedOut ++ [(k, (s.timers k).m_cb)]).countP (·.1 = j)
      = s.countOut j + if k = j then 1 else 0 := by
    intro j
    rw [List.countP_append, countOut, List.countP_singleton]
    simp only [decide_eq_true_eq]
  rw [TimerManager.handOut]
  by_cases hrec : (s.timers k).m_recurring = true
  · simp only [hrec, if_true]
    refine Inv.insert (Inv.setNext ?_ List.mem_cons_self _)
    refine ⟨h.sorted, h.pending, h.apart, h.nodup, h.addresses, ?_, h.unchanged, h.unmissed, ?_⟩
    · intro j hj
      have hne : k ≠ j := by
        rintro rfl
        exact (h.fresh k hj).1 (.inr ((h.pending k).mp (.inr List.mem_cons_self)))
      refine ⟨(h.fresh j hj).1, ?_⟩
      rw [countOut, hcount, if_neg hne]
      exact (h.fresh j hj).2
    · intro j hj
      have hne : k ≠ j := by
        rintro rfl
        exact absurd hrec (by rw [hj]; decide)
      rw [countOut, hcount, if_neg hne]
      exact h.once j hj
  · simp only [hrec]
    refine h.clearCb (fun j hj => ?_) ?_
    · rw [hcount, if_neg hj.symm, Nat.add_zero]
    · rw [hcount, if_pos rfl]

/-- The loop, with the timers that are left in its hands. -/
theorem Inv.handOut_all (now_ms : UInt64) :
    ∀ (expired : List Nat) (s : TimerManager), s.Inv expired →
      (expired.foldl (TimerManager.handOut now_ms) s).Inv [] := by
  intro expired
  induction expired with
  | nil => exact fun s h => h
  | cons k expired ih => exact fun s h => ih _ (h.handOut now_ms)

theorem Inv.take (h : s.Inv []) (it : Nat) :
    ({ s with m_timers := s.m_timers.drop it } : TimerManager).Inv (s.m_timers.take it) := by
  have hnodup : (s.m_timers.take it ++ s.m_timers.drop it).Nodup := by
    rw [List.take_append_drop]
    exact h.sorted.nodup (before_irrefl _)
  obtain ⟨htake, -, hapart⟩ := List.nodup_append.mp hnodup
  refine ⟨h.sorted.sublist (List.drop_sublist _ _), fun k => ?_, fun k hk hk' => ?_, htake,
    h.addresses, h.fresh, h.unchanged, h.unmissed, h.once⟩
  · rw [or_comm, ← List.mem_append, List.take_append_drop, ← h.pending k]
    simp only [List.not_mem_nil, or_false]
  · exact hapart k hk k hk' rfl

theorem Inv.listExpiredCb (h : s.Inv []) (address : Nat) (now_ms : UInt64) :
    (s.listExpiredCb address now_ms).Inv [] := by
  have hclock : (s.detectClockRollover now_ms).2.Inv [] :=
    h.of_eq rfl rfl rfl h.unchanged rfl (fun _ _ => rfl) (fun _ => rfl) (fun _ => rfl) (fun _ => rfl)
      fun _ hheld => hheld
  rw [TimerManager.listExpiredCb]
  cases hbegin : s.m_timers with
  | nil => exact h
  | cons begin rest =>
    simp only
    split_ifs
    · exact hclock
    · exact Inv.handOut_all now_ms _ _ (hclock.take _)

end TimerManager

open TimerManager

/-- **Every operation keeps the invariant.** -/
theorem inv_step (s : TimerManager) (a : Action) (t : TimerManager) (h : s.Inv [])
    (hstep : step s a = some t) : t.Inv [] := by
  cases a with
  | addTimer ms cb recurring address now =>
    rw [step] at hstep
    split_ifs at hstep with hfree
    cases hstep
    exact h.addTimer ms cb recurring now hfree
  | cancel k =>
    rw [step] at hstep
    split_ifs at hstep
    cases hstep
    exact h.cancel k
  | refresh k now =>
    rw [step] at hstep
    split_ifs at hstep
    cases hstep
    exact h.refresh k now
  | reset k ms from_now now =>
    rw [step] at hstep
    split_ifs at hstep
    cases hstep
    exact h.reset k ms from_now now
  | listExpiredCb address now =>
    cases hstep
    exact h.listExpiredCb address now
  | getNextTimer now =>
    cases hstep
    exact h.of_eq rfl rfl rfl h.unchanged rfl (fun _ _ => rfl) (fun _ => rfl) (fun _ => rfl)
      (fun _ => rfl) fun _ hheld => hheld
  | drop k =>
    rw [step] at hstep
    split_ifs at hstep with hheld
    cases hstep
    refine h.of_eq rfl rfl rfl h.unchanged rfl (fun j _ => update_field Timer.m_next (by rfl) j)
      (update_field Timer.address (by rfl)) (update_field Timer.m_recurring (by rfl))
      (update_field Timer.m_cb (by rfl)) fun j hj => ?_
    by_cases hjk : j = k
    · exact hjk ▸ hheld
    · exact (congrArg Timer.held (Function.update_of_ne hjk _ _)).symm.trans hj

/-- **The set of timers.**  In every run of the operations, with any readings of the clock and any
intervals: the set is strictly ordered by `m_next` and the address and holds exactly the timers
whose `m_cb` is not null, no `m_next` was assigned to a timer in the set, no `find` has missed a
timer with a callback, and no timer that is not recurring was handed out twice. -/
theorem ordered (now : UInt64) (as : List Action) :
    Throughout step TimerManager.Ordered (init now) as :=
  along_true.throughout (fun s a t h _ hstep => inv_step s a t h hstep) (fun _ h => h.toOrdered)
    (inv_init now)

end TimerSet

end FiberServer
