import FiberServer.IOManager.TimerSet

/-!
# What the operations on timers do

`TimerSet.lean` says what the operations keep; here is what each of them does.

* `delivered`: `listExpiredCb` hands out the callbacks of the timers that are due, in the order of
  the set, and of all timers after a rollover of the clock.
* `truthful_iff`: `cancel`, `refresh` and `reset` return true exactly for a timer that is pending,
  in a run exactly if no `reset` to the interval that it has, not from now, is called for a timer
  that is not.
-/

namespace FiberServer

namespace TimerSet

open Transition
open TimerManager

/-! ### `listExpiredCb` -/

/-- What every set of pointers to timers is: ordered, without two timers at one place. -/
structure TimerManager.IsSet (s : TimerManager) : Prop where
  sorted : OrderedSet.Sorted (before s.timers) s.m_timers
  apart : ∀ k ∈ s.m_timers, ∀ j ∈ s.m_timers, (s.timers k).address = (s.timers j).address → k = j

theorem TimerManager.Inv.isSet {s : TimerManager} (h : s.Inv []) : s.IsSet where
  sorted := h.sorted
  apart k hk j hj :=
    h.addresses k j (.inr ((h.pending k).mp (.inl hk))) (.inr ((h.pending j).mp (.inl hj)))

/-- The timers whose time has come; all of them when the clock was set back. -/
def TimerManager.due (s : TimerManager) (now_ms : UInt64) : List Nat :=
  if (s.detectClockRollover now_ms).1 then s.m_timers
  else s.m_timers.filter fun k => (s.timers k).m_next ≤ now_ms

/-- What becomes of a timer whose callback is handed out. -/
def Timer.fired (t : Timer) (now_ms : UInt64) : Timer :=
  if t.m_recurring then { t with m_next := now_ms + t.m_ms } else { t with m_cb := none }

/-- `t` is `s` after a call of `listExpiredCb`. -/
structure Delivered (s : TimerManager) (now_ms : UInt64) (t : TimerManager) : Prop where
  handedOut : t.handedOut = s.handedOut ++ (s.due now_ms).map fun k => (k, (s.timers k).m_cb)
  /-- by `m_next` and by the address -/
  inOrder : (s.due now_ms).Pairwise fun k j =>
    Comparator (some (s.timers k)) (some (s.timers j)) = true
  once : (s.due now_ms).Nodup
  recurring : ∀ k ∈ s.due now_ms, (s.timers k).m_recurring = true →
    k ∈ t.m_timers ∧ t.timers k = { s.timers k with m_next := now_ms + (s.timers k).m_ms }
  oneShot : ∀ k ∈ s.due now_ms, (s.timers k).m_recurring = false →
    k ∉ t.m_timers ∧ t.timers k = { s.timers k with m_cb := none }
  others : ∀ k, k ∉ s.due now_ms → t.timers k = s.timers k ∧ (k ∈ t.m_timers ↔ k ∈ s.m_timers)
  isSet : t.IsSet

/-- One timer of the loop, which was taken out of the set. -/
structure HandedOut (now_ms : UInt64) (s : TimerManager) (k : Nat) (t : TimerManager) : Prop where
  handedOut : t.handedOut = s.handedOut ++ [(k, (s.timers k).m_cb)]
  timers : t.timers = Function.update s.timers k ((s.timers k).fired now_ms)
  mem : ∀ j, j ∈ t.m_timers ↔ j ∈ s.m_timers ∨ j = k ∧ (s.timers k).m_recurring = true
  isSet : t.IsSet

theorem fired_address (t : Timer) (now_ms : UInt64) : (t.fired now_ms).address = t.address := by
  rw [Timer.fired]
  split_ifs <;> rfl

/-- A set in which the timer `k`, which is not in it, has changed. -/
theorem TimerManager.IsSet.update {s t : TimerManager} {k : Nat} {timer : Timer} (h : s.IsSet)
    (hout : k ∉ s.m_timers) (htimers : t.timers = Function.update s.timers k timer)
    (hm_timers : t.m_timers = s.m_timers) : t.IsSet := by
  have hold : ∀ j ∈ s.m_timers, t.timers j = s.timers j := by
    intro j hj
    have hne : j ≠ k := by
      rintro rfl
      exact hout hj
    rw [htimers, Function.update_of_ne hne]
  constructor
  · rw [hm_timers]
    refine h.sorted.congr fun i hi j hj => ?_
    rw [before, hold i hi, hold j hj, before]
  · rw [hm_timers]
    intro i hi j hj
    rw [hold i hi, hold j hj]
    exact h.apart i hi j hj

/-- It is put into the set again. -/
theorem TimerManager.IsSet.insert {s : TimerManager} {k : Nat} (h : s.IsSet)
    (hout : ∀ j ∈ s.m_timers, (s.timers k).address ≠ (s.timers j).address) :
    (∀ j, j ∈ (s.insert k).m_timers ↔ j ∈ s.m_timers ∨ j = k) ∧ (s.insert k).IsSet := by
  have hnew : ∀ j ∈ s.m_timers, before s.timers k j = true ∨ before s.timers j k = true :=
    fun j hj => before_total (hout j hj)
  have hmem : ∀ j, j ∈ (s.insert k).m_timers ↔ j ∈ s.m_timers ∨ j = k := by
    intro j
    rw [TimerManager.insert, (OrderedSet.insert_perm hnew).mem_iff, List.mem_cons, or_comm]
  refine ⟨hmem, OrderedSet.insert_sorted (before_trans _) h.sorted hnew, fun i hi j hj heq => ?_⟩
  change (s.timers i).address = (s.timers j).address at heq
  rcases (hmem i).mp hi with hi | hi <;> rcases (hmem j).mp hj with hj | hj
  · exact h.apart i hi j hj heq
  · rw [hj] at heq
    exact absurd heq.symm (hout i hi)
  · rw [hi] at heq
    exact absurd heq (hout j hj)
  · rw [hi, hj]

theorem handOut_spec (now_ms : UInt64) {s : TimerManager} {k : Nat} (h : s.IsSet)
    (hout : ∀ j ∈ s.m_timers, (s.timers k).address ≠ (s.timers j).address) :
    HandedOut now_ms s k (handOut now_ms s k) := by
  have hnot : k ∉ s.m_timers := fun hk => hout k hk rfl
  rw [handOut]
  by_cases hrec : (s.timers k).m_recurring = true
  · simp only [hrec, if_true]
    generalize ht : ({ s with handedOut := s.handedOut ++ [(k, (s.timers k).m_cb)] } : TimerManager
      ).setNext k (now_ms + (s.timers k).m_ms) = t
    have htimers : t.timers
        = Function.update s.timers k { s.timers k with m_next := now_ms + (s.timers k).m_ms } := by
      rw [← ht]
      rfl
    have hm_timers : t.m_timers = s.m_timers := by
      rw [← ht]
      rfl
    have hhanded : t.handedOut = s.handedOut ++ [(k, (s.timers k).m_cb)] := by
      rw [← ht]
      rfl
    have haway : ∀ j ∈ t.m_timers, (t.timers k).address ≠ (t.timers j).address := by
      intro j hj
      rw [hm_timers] at hj
      have hne : j ≠ k := by
        rintro rfl
        exact hnot hj
      rw [htimers, Function.update_self, Function.update_of_ne hne]
      exact hout j hj
    obtain ⟨hmem, hset⟩ := (h.update hnot htimers hm_timers).insert haway
    refine ⟨hhanded, ?_, fun j => ?_, hset⟩
    · rw [Timer.fired, if_pos hrec]
      exact htimers
    · rw [hmem, hm_timers, hrec]
      simp only [and_true]
  · simp only [if_neg hrec]
    refine ⟨rfl, ?_, fun j => ?_, h.update hnot rfl rfl⟩
    · rw [Timer.fired, if_neg hrec]
      rfl
    · simp only [hrec]
      simp only [Bool.false_eq_true, and_false, or_false]
      rfl

/-- **The loop of `listExpiredCb`**, by induction on the timers that are left. -/
theorem handOut_all (now_ms : UInt64) :
    ∀ (expired : List Nat) (s : TimerManager), s.IsSet →
      (expired.Pairwise fun k j => (s.timers k).address ≠ (s.timers j).address) →
      (∀ k ∈ expired, ∀ j ∈ s.m_timers, (s.timers k).address ≠ (s.timers j).address) →
      let t := expired.foldl (handOut now_ms) s
      t.handedOut = s.handedOut ++ (expired.map fun k => (k, (s.timers k).m_cb))
        ∧ (∀ k ∈ expired, t.timers k = (s.timers k).fired now_ms
          ∧ (k ∈ t.m_timers ↔ (s.timers k).m_recurring = true))
        ∧ (∀ k, k ∉ expired → t.timers k = s.timers k ∧ (k ∈ t.m_timers ↔ k ∈ s.m_timers))
        ∧ t.IsSet := by
  intro expired
  induction expired with
  | nil =>
    intro s h _ _
    exact ⟨(List.append_nil _).symm, fun k hk => absurd hk List.not_mem_nil,
      fun k _ => ⟨rfl, Iff.rfl⟩, h⟩
  | cons k expired ih =>
    intro s h hpairs hout
    obtain ⟨hk, hpairs⟩ := List.pairwise_cons.mp hpairs
    obtain ⟨hhanded, htimers, hmem, hset⟩ := handOut_spec now_ms h (hout k List.mem_cons_self)
    rw [List.foldl_cons]
    generalize handOut now_ms s k = u at *
    have hnot : k ∉ s.m_timers := fun hmem => hout k List.mem_cons_self k hmem rfl
    have hk' : k ∉ expired := fun hmem => hk k hmem rfl
    have hself : u.timers k = (s.timers k).fired now_ms := by rw [htimers, Function.update_self]
    have hold : ∀ j, j ≠ k → u.timers j = s.timers j := by
      intro j hj
      rw [htimers, Function.update_of_ne hj]
    have haddress : ∀ j, (u.timers j).address = (s.timers j).address := by
      intro j
      by_cases hj : j = k
      · rw [hj, hself, fired_address]
      · rw [hold j hj]
    have hne : ∀ j ∈ expired, j ≠ k := by
      rintro j hj rfl
      exact hk' hj
    obtain ⟨hhanded', hexpired', hothers', hset'⟩ := ih u hset
      (hpairs.imp fun hij => by rwa [haddress, haddress]) (by
        intro i hi j hj
        rw [haddress, haddress]
        rcases (hmem j).mp hj with hj | ⟨rfl, -⟩
        · exact hout i (List.mem_cons_of_mem k hi) j hj
        · exact (hk i hi).symm)
    refine ⟨?_, fun j hj => ?_, fun j hj => ?_, hset'⟩
    · have hmap : expired.map (fun j => (j, (u.timers j).m_cb))
          = expired.map fun j => (j, (s.timers j).m_cb) :=
        List.map_congr_left fun j hj => by rw [hold j (hne j hj)]
      rw [hhanded', hmap, hhanded, List.append_assoc]
      rfl
    · rcases List.mem_cons.mp hj with rfl | hj
      · obtain ⟨htimer, hmem'⟩ := hothers' j hk'
        refine ⟨htimer.trans hself, ?_⟩
        rw [hmem', hmem]
        simp only [hnot, false_or, true_and]
      · rw [← hold j (hne j hj)]
        exact hexpired' j hj
    · rw [List.mem_cons, not_or] at hj
      obtain ⟨hjk, hj⟩ := hj
      obtain ⟨htimer, hmem'⟩ := hothers' j hj
      refine ⟨htimer.trans (hold j hjk), ?_⟩
      rw [hmem', hmem]
      simp only [hjk, false_and, or_false]

/-- A timer in front of another one is not due later. -/
theorem le_of_before {t u : Timer} (h : Comparator (some t) (some u) = true) :
    t.m_next ≤ u.m_next := by
  rcases Comparator_some.mp h with hlt | ⟨heq, -⟩
  · exact UInt64.le_of_lt hlt
  · exact UInt64.le_of_eq heq

/-- **Where the timers that are not due begin.**  Those in front of `now_timer` are due, and of
the others those of the same time. -/
theorem take_expiredEnd {s : TimerManager} (h : s.IsSet) (address : Nat) (now_ms : UInt64) :
    s.m_timers.take (s.expiredEnd (s.detectClockRollover now_ms).1 (.ofNext now_ms address))
      = s.due now_ms := by
  rw [TimerManager.due, expiredEnd]
  split_ifs with hrollover
  · rw [List.drop_length, List.takeWhile_nil, List.length_nil, Nat.add_zero, List.take_length]
  · rw [List.take_add, OrderedSet.lowerBound]
    generalize hq :
      (fun k => Comparator (some (s.timers k)) (some (Timer.ofNext now_ms address))) = q
    rw [← List.prefix_iff_eq_take.mp (List.takeWhile_prefix q)]
    have hdrop : s.m_timers.drop (s.m_timers.takeWhile q).length = s.m_timers.dropWhile q :=
      calc s.m_timers.drop (s.m_timers.takeWhile q).length
          = (s.m_timers.takeWhile q ++ s.m_timers.dropWhile q).drop
              (s.m_timers.takeWhile q).length := by rw [List.takeWhile_append_dropWhile]
        _ = s.m_timers.dropWhile q := List.drop_left
    rw [hdrop, ← List.prefix_iff_eq_take.mp (List.takeWhile_prefix _),
      OrderedSet.filter_eq_takeWhile]
    · refine OrderedSet.takeWhile_append_takeWhile (fun k _ hk => ?_) (fun k _ hk => ?_) ?_
      · rw [← hq] at hk
        exact decide_eq_true (le_of_before hk)
      · rw [← hq, ← Bool.not_eq_true, Comparator_some, not_or] at hk
        refine decide_eq_decide.mpr ⟨UInt64.le_of_eq, fun hle => ?_⟩
        exact UInt64.le_antisymm hle (UInt64.not_lt.mp hk.1)
      · refine h.sorted.imp fun {k j} hkj hj => ?_
        rw [← hq] at *
        exact Comparator_trans hkj hj
    · refine h.sorted.imp fun {k j} hkj hj => ?_
      exact decide_eq_true (UInt64.le_trans (le_of_before hkj) (of_decide_eq_true hj))

theorem due_sublist (s : TimerManager) (now_ms : UInt64) :
    (s.due now_ms).Sublist s.m_timers := by
  rw [TimerManager.due]
  split_ifs
  · exact List.Sublist.refl _
  · exact List.filter_sublist

/-- The first of the set comes before all others. -/
theorem due_of_begin {s : TimerManager} (h : s.IsSet) {begin : Nat} {rest : List Nat}
    (hbegin : s.m_timers = begin :: rest) {now_ms : UInt64}
    (hrollover : (s.detectClockRollover now_ms).1 = false)
    (hlater : (s.timers begin).m_next > now_ms) : s.due now_ms = [] := by
  rw [TimerManager.due, if_neg (by rw [hrollover]; decide), List.filter_eq_nil_iff]
  have hle : ∀ k ∈ s.m_timers, (s.timers begin).m_next ≤ (s.timers k).m_next := by
    have hsorted := h.sorted
    rw [hbegin] at hsorted ⊢
    intro k hk
    rcases List.mem_cons.mp hk with rfl | hk
    · exact UInt64.le_refl _
    · exact le_of_before ((List.pairwise_cons.mp hsorted).1 k hk)
  intro k hk hdue
  have hle' := UInt64.le_trans (hle k hk) (of_decide_eq_true hdue)
  exact UInt64.not_le.mpr hlater hle'

/-- When no timer is due, nothing but the clock reading is kept. -/
theorem delivered_of_due_nil {s t : TimerManager} (h : s.IsSet) {now_ms : UInt64}
    (hdue : s.due now_ms = []) (hhanded : t.handedOut = s.handedOut) (htimers : t.timers = s.timers)
    (hm_timers : t.m_timers = s.m_timers) : Delivered s now_ms t := by
  constructor
  · rw [hdue, List.map_nil, List.append_nil]
    exact hhanded
  · rw [hdue]
    exact List.Pairwise.nil
  · rw [hdue]
    exact List.nodup_nil
  · intro k hk
    rw [hdue] at hk
    exact absurd hk List.not_mem_nil
  · intro k hk
    rw [hdue] at hk
    exact absurd hk List.not_mem_nil
  · intro k _
    rw [htimers, hm_timers]
    exact ⟨rfl, Iff.rfl⟩
  · exact ⟨by rw [htimers, hm_timers]; exact h.sorted, by rw [htimers, hm_timers]; exact h.apart⟩

/-- **Delivery of the expired timers.**  For every set of timers, every previous and every current
reading of the clock and every address of `now_timer`: `listExpiredCb` hands out the callbacks of
the timers that are due, each once and in the order of the set; the recurring ones are in the set
again with their next time, the others are out of it with a null callback, and nothing happens to
a timer that is not due. -/
theorem delivered (s : TimerManager) (h : s.IsSet) (address : Nat) (now_ms : UInt64) :
    Delivered s now_ms (s.listExpiredCb address now_ms) := by
  rw [TimerManager.listExpiredCb]
  cases hbegin : s.m_timers with
  | nil =>
    refine delivered_of_due_nil h ?_ rfl rfl rfl
    exact List.eq_nil_of_subset_nil (hbegin ▸ (due_sublist s now_ms).subset)
  | cons begin rest =>
    simp only
    split_ifs with hnone
    · rw [Bool.and_eq_true, Bool.not_eq_true', decide_eq_true_eq] at hnone
      obtain ⟨hrollover, hlater⟩ := hnone
      exact delivered_of_due_nil h (due_of_begin h hbegin hrollover hlater) rfl rfl rfl
    · have htake := take_expiredEnd h address now_ms
      generalize hit : s.expiredEnd (s.detectClockRollover now_ms).1 (.ofNext now_ms address) = it
        at htake
      change Delivered s now_ms ((s.m_timers.take (s.expiredEnd (s.detectClockRollover now_ms).1
        (.ofNext now_ms address))).foldl (handOut now_ms)
        { s with
          m_previouseTime := now_ms
          m_timers := s.m_timers.drop (s.expiredEnd (s.detectClockRollover now_ms).1
            (.ofNext now_ms address)) })
      rw [hit, htake]
      have hparts : s.due now_ms ++ s.m_timers.drop it = s.m_timers := by
        rw [← htake, List.take_append_drop]
      have hnodup : s.m_timers.Nodup := h.sorted.nodup (before_irrefl _)
      rw [← hparts] at hnodup
      obtain ⟨hnodup, -, hapart⟩ := List.nodup_append.mp hnodup
      have hdue : ∀ k ∈ s.due now_ms, k ∈ s.m_timers := fun k hk =>
        (due_sublist s now_ms).subset hk
      have hdrop : ∀ k ∈ s.m_timers.drop it, k ∈ s.m_timers := fun k hk => List.mem_of_mem_drop hk
      have hleft : TimerManager.IsSet
          { s with m_previouseTime := now_ms, m_timers := s.m_timers.drop it } :=
        ⟨h.sorted.sublist (List.drop_sublist _ _),
          fun k hk j hj => h.apart k (hdrop k hk) j (hdrop j hj)⟩
      obtain ⟨hhanded, hexpired, hothers, hset⟩ := handOut_all now_ms (s.due now_ms)
        { s with m_previouseTime := now_ms, m_timers := s.m_timers.drop it } hleft
        (hnodup.imp_of_mem fun hk hj hne heq => hne (h.apart _ (hdue _ hk) _ (hdue _ hj) heq))
        fun k hk j hj heq => hapart k hk j hj (h.apart k (hdue k hk) j (hdrop j hj) heq)
      refine ⟨hhanded, h.sorted.sublist (due_sublist s now_ms), hnodup, ?_, ?_, ?_, hset⟩
      · intro k hk hrec
        obtain ⟨htimer, hmem⟩ := hexpired k hk
        rw [Timer.fired, if_pos hrec] at htimer
        exact ⟨hmem.mpr hrec, htimer⟩
      · intro k hk hrec
        obtain ⟨htimer, hmem⟩ := hexpired k hk
        have hrec' : ¬ (s.timers k).m_recurring = true := by
          rw [hrec]
          decide
        rw [Timer.fired, if_neg hrec'] at htimer
        exact ⟨fun hk => hrec' (hmem.mp hk), htimer⟩
      · intro k hk
        obtain ⟨htimer, hmem⟩ := hothers k hk
        refine ⟨htimer, hmem.trans ⟨hdrop k, fun hk' => ?_⟩⟩
        rw [← hparts] at hk'
        exact (List.mem_append.mp hk').resolve_left hk

/-- A recurring timer and two others, the last of them due later. -/
def threeTimers : TimerManager :=
  { init 0 with
    timers := fun k =>
      { m_recurring := k == 0
        m_ms := 5
        m_next := [5, 10, 20].getD k 0
        m_cb := some k
        address := k
        held := true }
    made := 3
    m_timers := [0, 1, 2] }

theorem delivered_threeTimers :
    Delivered threeTimers 10 (threeTimers.listExpiredCb 1 10) ∧ threeTimers.due 10 = [0, 1] :=
  ⟨delivered threeTimers ⟨by unfold OrderedSet.Sorted; decide, by decide⟩ 1 10, by decide⟩

/-- Between the operations the pointers to the timers are such a set. -/
theorem isSet_throughout (now : UInt64) (as : List Action) :
    Throughout step TimerManager.IsSet (init now) as :=
  along_true.throughout (fun s a t h _ hstep => inv_step s a t h hstep) (fun _ h => h.isSet)
    (inv_init now)

/-! ### `cancel`, `refresh` and `reset` -/

/-- What an operation of a timer returns is whether the timer was pending; if so it has done
its work, and if not it has changed nothing. -/
structure Reports (s : TimerManager) (k : Nat) (done : TimerManager → Prop)
    (r : TimerManager × Bool) : Prop where
  pending : r.2 = true ↔ k ∈ s.m_timers
  done : r.2 = true → done r.1
  unchanged : r.2 = false → r.1 = s

/-- The timer is pending, with this interval and this time. -/
def PendingAt (k : Nat) (m_ms m_next : UInt64) (t : TimerManager) : Prop :=
  k ∈ t.m_timers ∧ (t.timers k).m_ms = m_ms ∧ (t.timers k).m_next = m_next

/-- The three operations report truthfully when they are called in `s`. -/
def Truthful (s : TimerManager) : Action → Prop
  | .cancel k => Reports s k (fun t => k ∉ t.m_timers) (s.cancel k)
  | .refresh k now =>
    Reports s k (PendingAt k (s.timers k).m_ms (now + (s.timers k).m_ms)) (s.refresh k now)
  | .reset k ms true now => Reports s k (PendingAt k ms (now + ms)) (s.reset k ms true now)
  | .reset k ms false now =>
    Reports s k (PendingAt k ms ((s.timers k).m_next - (s.timers k).m_ms + ms))
      (s.reset k ms false now)
  | _ => True

/-- The shortcut of `reset` is taken for a pending timer only. -/
def ShortcutPending (s : TimerManager) : Action → Prop
  | .reset k ms from_now _ => ms = (s.timers k).m_ms → from_now = false → k ∈ s.m_timers
  | _ => True

theorem TimerManager.Inv.pending_iff {s : TimerManager} (h : s.Inv []) (k : Nat) :
    k ∈ s.m_timers ↔ (s.timers k).m_cb.isSome = true := by
  rw [← h.pending k]
  simp only [List.not_mem_nil, or_false]

theorem addTimerLocked_timers (s : TimerManager) (k : Nat) :
    (s.addTimerLocked k).timers = s.timers := by
  rw [addTimerLocked]
  split_ifs <;> rfl

theorem truthful_cancel {s : TimerManager} (h : s.Inv []) (k : Nat) :
    Reports s k (fun t => k ∉ t.m_timers) (s.cancel k) := by
  have hinv := h.cancel k
  rw [TimerManager.cancel] at hinv ⊢
  by_cases hk : (s.timers k).m_cb.isSome = true
  · obtain ⟨it, hfind, -⟩ := h.find hk
    simp only [if_pos hk, find_clearCb, hfind] at hinv ⊢
    have hcb : (((s.clearCb k).erase it).timers k).m_cb = none := by
      change (Function.update s.timers k _ k).m_cb = none
      rw [Function.update_self]
    refine ⟨iff_of_true rfl ((h.pending_iff k).mpr hk), fun _ => ?_, fun hfalse => by cases hfalse⟩
    rw [hinv.pending_iff, hcb]
    decide
  · rw [if_neg hk]
    have hout : k ∉ s.m_timers := fun hmem => hk ((h.pending_iff k).mp hmem)
    exact ⟨iff_of_false Bool.false_ne_true hout, (fun htrue => by cases htrue), fun _ => rfl⟩

theorem truthful_refresh {s : TimerManager} (h : s.Inv []) (k : Nat) (now : UInt64) :
    Reports s k (PendingAt k (s.timers k).m_ms (now + (s.timers k).m_ms)) (s.refresh k now) := by
  have hinv := h.refresh k now
  rw [TimerManager.refresh] at hinv ⊢
  by_cases hk : (s.timers k).m_cb.isNone = true
  · rw [if_pos hk]
    have hout : k ∉ s.m_timers := by
      rw [h.pending_iff, Option.isNone_iff_eq_none.mp hk]
      decide
    exact ⟨iff_of_false Bool.false_ne_true hout, (fun htrue => by cases htrue), fun _ => rfl⟩
  · have hsome : (s.timers k).m_cb.isSome = true := by
      rw [Option.isSome_iff_ne_none]
      exact fun hnone => hk (Option.isNone_iff_eq_none.mpr hnone)
    obtain ⟨it, hfind, -⟩ := h.find hsome
    simp only [if_neg hk, hfind] at hinv ⊢
    have htimer : (((s.erase it).setNext k (now + (s.timers k).m_ms)).insert k).timers k
        = { s.timers k with m_next := now + (s.timers k).m_ms } := Function.update_self _ _ _
    refine ⟨iff_of_true rfl ((h.pending_iff k).mpr hsome), fun _ => ⟨?_, ?_, ?_⟩,
      fun hfalse => by cases hfalse⟩
    · rw [hinv.pending_iff]
      exact (congrArg (fun t : Timer => t.m_cb.isSome) htimer).trans hsome
    · exact (congrArg Timer.m_ms htimer).trans rfl
    · exact (congrArg Timer.m_next htimer).trans rfl

/-- Behind its two checks `reset` sets the interval and the time and puts the timer back. -/
theorem TimerManager.Inv.reset_eq {s : TimerManager} (h : s.Inv []) {k : Nat} {ms : UInt64}
    {from_now : Bool} (now : UInt64) (hsame : ¬ (ms = (s.timers k).m_ms ∧ from_now = false))
    (hsome : (s.timers k).m_cb.isSome = true) :
    ∃ it, s.reset k ms from_now now = ((((s.erase it).setMs k ms).setNext k
      ((if from_now then now else (s.timers k).m_next - (s.timers k).m_ms) + ms)).addTimerLocked k,
      true) := by
  obtain ⟨it, hfind, -⟩ := h.find hsome
  refine ⟨it, ?_⟩
  have hms : ((s.erase it).setMs k ms).timers k = { s.timers k with m_ms := ms } :=
    Function.update_self _ _ _
  have hnone : ¬ (s.timers k).m_cb.isNone = true := by
    rw [Option.isNone_iff_eq_none, ← ne_eq, Option.ne_none_iff_isSome]
    exact hsome
  rw [TimerManager.reset, if_neg hsame, if_neg hnone]
  simp only [hfind, hms]
  rfl

/-- `reset` reports truthfully as long as its shortcut does. -/
theorem truthful_reset {s : TimerManager} (h : s.Inv []) (k : Nat) (ms : UInt64) (from_now : Bool)
    (now : UInt64) :
    Reports s k (PendingAt k ms
        ((if from_now then now else (s.timers k).m_next - (s.timers k).m_ms) + ms))
      (s.reset k ms from_now now)
      ↔ (ms = (s.timers k).m_ms → from_now = false → k ∈ s.m_timers) := by
  have hinv := h.reset k ms from_now now
  by_cases hsame : ms = (s.timers k).m_ms ∧ from_now = false
  · rw [TimerManager.reset, if_pos hsame]
    constructor
    · exact fun hreports _ _ => hreports.pending.mp rfl
    · intro hpending
      have hk := hpending hsame.1 hsame.2
      refine ⟨iff_of_true rfl hk, fun _ => ⟨hk, hsame.1.symm, ?_⟩, fun hfalse => by cases hfalse⟩
      rw [hsame.2, hsame.1]
      simp only [Bool.false_eq_true, if_false, UInt64.sub_add_cancel]
  · refine iff_of_true ?_ fun heq hfrom => absurd ⟨heq, hfrom⟩ hsame
    by_cases hsome : (s.timers k).m_cb.isSome = true
    · obtain ⟨it, heq⟩ := h.reset_eq now hsame hsome
      rw [heq] at hinv ⊢
      generalize (if from_now = true then now else (s.timers k).m_next - (s.timers k).m_ms) + ms
        = m_next at hinv ⊢
      have htimer : ((((s.erase it).setMs k ms).setNext k m_next).addTimerLocked k).timers k
          = { s.timers k with m_ms := ms, m_next := m_next } := by
        have hms : ((s.erase it).setMs k ms).timers k = { s.timers k with m_ms := ms } :=
          Function.update_self _ _ _
        rw [addTimerLocked_timers]
        exact (Function.update_self _ _ _).trans (by rw [hms])
      refine ⟨iff_of_true rfl ((h.pending_iff k).mpr hsome), fun _ => ⟨?_, ?_, ?_⟩,
        fun hfalse => by cases hfalse⟩
      · rw [hinv.pending_iff]
        exact (congrArg (fun t : Timer => t.m_cb.isSome) htimer).trans hsome
      · exact congrArg Timer.m_ms htimer
      · exact congrArg Timer.m_next htimer
    · rw [Option.isSome_iff_ne_none, not_not] at hsome
      rw [TimerManager.reset, if_neg hsame, if_pos (Option.isNone_iff_eq_none.mpr hsome)]
      have hout : k ∉ s.m_timers := by
        rw [h.pending_iff, hsome]
        decide
      exact ⟨iff_of_false Bool.false_ne_true hout, (fun htrue => by cases htrue), fun _ => rfl⟩

theorem truthful_step {s : TimerManager} (h : s.Inv []) (a : Action) :
    Truthful s a ↔ ShortcutPending s a := by
  cases a with
  | cancel k => exact iff_of_true (truthful_cancel h k) trivial
  | refresh k now => exact iff_of_true (truthful_refresh h k now) trivial
  | reset k ms from_now now =>
    have hreset := truthful_reset h k ms from_now now
    cases from_now with
    | true => exact hreset
    | false => exact hreset
  | addTimer ms cb recurring address now => exact Iff.rfl
  | listExpiredCb address now => exact Iff.rfl
  | getNextTimer now => exact Iff.rfl
  | drop k => exact Iff.rfl

/-- **What the operations of a timer return.**  In every run of the operations, with any intervals
and any readings of the clock, `cancel`, `refresh` and `reset` report truthfully if and only if
`reset` is called with the interval that the timer has, and not from now, for pending timers only:
it returns true there before it has looked whether the timer is. -/
theorem truthful_iff (now : UInt64) (as : List Action) :
    Along step Truthful (init now) as ↔ Along step ShortcutPending (init now) as :=
  ⟨Along.imp_of_invariant (fun s a t h _ hstep => inv_step s a t h hstep)
      (fun _ a h => (truthful_step h a).mp) (inv_init now),
    Along.imp_of_invariant (fun s a t h _ hstep => inv_step s a t h hstep)
      (fun _ a h => (truthful_step h a).mpr) (inv_init now)⟩

/-- A timer of five milliseconds is cancelled, and its `reset` to five milliseconds returns
true. -/
theorem reset_of_cancelled : ¬ Along step Truthful (init 0)
    [.addTimer 5 0 false 1 0, .cancel 0, .reset 0 5 false 3] := by
  intro h
  have hreset := ((h.2 _ rfl).2 _ rfl).1
  have hmem := hreset.pending.mp rfl
  exact absurd hmem (by decide)

end TimerSet

end FiberServer
