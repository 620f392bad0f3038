import FiberServer.Library.Tally
import FiberServer.SociManager.Pool

/-!
# Conservation of the connections

A connection is idle, held by a caller, or assigned to a waiter whose fiber has not
run again; a slot is reserved while a `createConnection` runs and until its failure
has been booked.  `totalCount` counts the connections and the slots.

* `Call.Ok`: how the flags `linked`, `done`, `timedOut` and `db` of a waiter go with
  the place where its call is.
* `Linked`: the waiters list has the numbers of the linked waiters, each once.
* `Balanced`: `totalCount`, and each connection in one place.
* `conserved`: **every interleaving keeps them**.
-/

namespace FiberServer

namespace SociManager

open Transition PoolState

/-! ### The places of a connection -/

/-- The connection that the caller has. -/
def Call.held (x : Call) : List Nat :=
  match x.phase with
  | .holding db => [db]
  | _ => []

/-- The connection assigned to the waiter before the call goes on. -/
def Call.assigned (x : Call) : List Nat :=
  match x.phase with
  | .waiting | .suspended | .resumed => x.waiter.db.toList
  | _ => []

/-- The slot that the call has reserved. -/
def Call.reserved (x : Call) : Nat :=
  match x.phase with
  | .creating | .createFailed => 1
  | _ => 0

namespace PoolState

def held (s : PoolState) : List Nat := s.calls.flatMap Call.held

def assigned (s : PoolState) : List Nat := s.calls.flatMap Call.assigned

def reserved (s : PoolState) : Nat := (s.calls.map Call.reserved).sum

/-- A total over the calls. -/
def total (f : Call → Nat) (s : PoolState) : Nat := (s.calls.map f).sum

end PoolState

theorem total_setCall {f : Call → Nat} {s : PoolState} {c : Nat} {x : Call} (y : Call)
    (hx : s.calls[c]? = some x) : (s.setCall c y).total f + f x = s.total f + f y :=
  Tally.sum_map_set f hx

@[simp] theorem total_addCall (f : Call → Nat) (s : PoolState) (x : Call) :
    (s.addCall x).total f = s.total f + f x := by
  simp [total, addCall]

/-- The number of the call's connections and slots. -/
def Call.weight (x : Call) : Nat := x.held.length + x.assigned.length + x.reserved

/-- How often the call has the connection `db`. -/
def Call.uses (db : Nat) (x : Call) : Nat := x.held.count db + x.assigned.count db

theorem total_weight (s : PoolState) :
    s.total Call.weight = s.held.length + s.assigned.length + s.reserved := by
  rw [total, held, assigned, reserved, List.length_flatMap, List.length_flatMap]
  induction s.calls with
  | nil => rfl
  | cons x xs ih =>
    simp only [List.map_cons, List.sum_cons, Call.weight] at ih ⊢
    omega

theorem total_uses (db : Nat) (s : PoolState) :
    s.total (Call.uses db) = s.held.count db + s.assigned.count db := by
  rw [total, held, assigned, List.count_flatMap, List.count_flatMap]
  induction s.calls with
  | nil => rfl
  | cons x xs ih =>
    simp only [List.map_cons, List.sum_cons, Call.uses, Function.comp_apply] at ih ⊢
    omega

/-! ### One waiter -/

/-- The flags of a waiter and the phase of its call. -/
structure Call.Ok (x : Call) : Prop where
  linked : x.waiter.linked = true → x.waiter.done = false
  apart : x.waiter.linked = true → x.phase = .waiting ∨ x.phase = .suspended
  awaited : x.phase = .waiting ∨ x.phase = .suspended → x.waiter.done = false →
    x.waiter.linked = true
  undone : x.waiter.done = false →
    x.waiter.db = none ∧ x.waiter.timedOut = false ∧ x.due = 0 ∧ x.scheduled = 0
  done : x.waiter.done = true →
    (x.waiter.db.isSome = true ↔ x.waiter.timedOut = false) ∧ x.due + x.scheduled = 1
  resumed : x.phase = .resumed → x.waiter.done = true

namespace Call.Ok

variable {x : Call}

theorem unlinked (hx : x.Ok) (h : x.phase ≠ .waiting) (h' : x.phase ≠ .suspended) :
    x.waiter.linked = false := by
  cases hl : x.waiter.linked with
  | false => rfl
  | true =>
    rcases hx.apart hl with hp | hp
    · exact absurd hp h
    · exact absurd hp h'

/-- A call that never waited. -/
theorem fresh {timeout_ms : Int} {p : Phase} (h : p ≠ .waiting) (h' : p ≠ .suspended)
    (h'' : p ≠ .resumed) : Call.Ok { timeout_ms, phase := p } where
  linked := fun hl => absurd hl Bool.noConfusion
  apart := fun hl => absurd hl Bool.noConfusion
  awaited := fun hp => absurd hp (by simp [h, h'])
  undone := fun _ => ⟨rfl, rfl, rfl, rfl⟩
  done := fun hd => absurd hd Bool.noConfusion
  resumed := fun hp => absurd hp h''

theorem enqueued (timeout_ms : Int) :
    Call.Ok { timeout_ms, phase := .waiting, waiter := { linked := true } } where
  linked := fun _ => rfl
  apart := fun _ => .inl rfl
  awaited := fun _ _ => rfl
  undone := fun _ => ⟨rfl, rfl, rfl, rfl⟩
  done := fun hd => absurd hd Bool.noConfusion
  resumed := fun hp => by simp at hp

theorem setTimer (hx : x.Ok) (t : Timer) : Call.Ok { x with timer := t } :=
  ⟨hx.linked, hx.apart, hx.awaited, hx.undone, hx.done, hx.resumed⟩

/-- A call that does not wait goes on to another phase. -/
theorem setPhase (hx : x.Ok) {p : Phase} (hl : x.waiter.linked = false) (h : p ≠ .waiting)
    (h' : p ≠ .suspended) (h'' : p ≠ .resumed) : Call.Ok { x with phase := p } where
  linked := hx.linked
  apart := fun hl' => absurd hl' (by simp [hl])
  awaited := fun hp => absurd hp (by simp [h, h'])
  undone := hx.undone
  done := hx.done
  resumed := fun hp => absurd hp h''

theorem suspend (hx : x.Ok) (h : x.phase = .waiting) : Call.Ok { x with phase := .suspended } where
  linked := hx.linked
  apart := fun _ => .inr rfl
  awaited := fun _ => hx.awaited (.inl h)
  undone := hx.undone
  done := hx.done
  resumed := fun hp => by simp at hp

/-- A fiber that was scheduled has a resolved waiter. -/
theorem done_of_scheduled (hx : x.Ok) (h : 0 < x.due + x.scheduled) : x.waiter.done = true := by
  cases hd : x.waiter.done with
  | true => rfl
  | false =>
    have hnone := hx.undone hd
    omega

theorem resume (hx : x.Ok) (hs : 0 < x.scheduled) (t : Timer) :
    Call.Ok { x with phase := .resumed, timer := t } where
  linked := hx.linked
  apart := by
    intro hl
    have hdone := hx.done_of_scheduled (by omega)
    rw [hx.linked hl] at hdone
    exact absurd hdone Bool.noConfusion
  awaited := fun hp => by simp at hp
  undone := hx.undone
  done := hx.done
  resumed := fun _ => hx.done_of_scheduled (by omega)

theorem schedule (hx : x.Ok) (hdue : 0 < x.due) :
    Call.Ok { x with due := x.due - 1, scheduled := x.scheduled + 1 } where
  linked := hx.linked
  apart := hx.apart
  awaited := hx.awaited
  undone := by
    intro hd
    have hdone := hx.done_of_scheduled (by omega)
    rw [hdone] at hd
    exact absurd hd Bool.noConfusion
  done := by
    intro hd
    have hsum := (hx.done hd).2
    exact ⟨(hx.done hd).1, by simp only; omega⟩
  resumed := hx.resumed

/-- `freeSoci` resolves the waiter. -/
theorem give (hx : x.Ok) (hd : x.waiter.done = false) (db : Nat) : (x.give db).Ok where
  linked := fun hl => absurd hl Bool.noConfusion
  apart := fun hl => absurd hl Bool.noConfusion
  awaited := fun _ hd' => absurd hd' Bool.noConfusion
  undone := fun hd' => absurd hd' Bool.noConfusion
  done := by
    intro _
    obtain ⟨-, hto, hdue, hs⟩ := hx.undone hd
    exact ⟨by simp [Call.give, hto], by simp only [Call.give]; omega⟩
  resumed := fun _ => rfl

/-- The timer resolves the waiter. -/
theorem timeout (hx : x.Ok) (hd : x.waiter.done = false) : Call.Ok { x with
    timer := .over
    waiter := { x.waiter with linked := false, done := true, timedOut := true }
    due := x.due + 1 } where
  linked := fun hl => absurd hl Bool.noConfusion
  apart := fun hl => absurd hl Bool.noConfusion
  awaited := fun _ hd' => absurd hd' Bool.noConfusion
  undone := fun hd' => absurd hd' Bool.noConfusion
  done := by
    intro _
    obtain ⟨hdb, -, hdue, hs⟩ := hx.undone hd
    exact ⟨by simp [hdb], by simp only; omega⟩
  resumed := fun _ => rfl

theorem takeNone (hx : x.Ok) (hp : x.phase = .resumed) : Call.Ok { x with
    phase := .over
    waiter := { x.waiter with linked := false, done := true } } where
  linked := fun hl => absurd hl Bool.noConfusion
  apart := fun hl => absurd hl Bool.noConfusion
  awaited := fun hp' => by simp at hp'
  undone := fun hd' => absurd hd' Bool.noConfusion
  done := fun _ => hx.done (hx.resumed hp)
  resumed := fun hp' => by simp at hp'

end Call.Ok

namespace Call.Ok

variable {x : Call}

theorem db_linked (hx : x.Ok) (hl : x.waiter.linked = true) : x.waiter.db = none :=
  (hx.undone (hx.linked hl)).1

theorem weight_linked (hx : x.Ok) (hl : x.waiter.linked = true) : x.weight = 0 := by
  have hdb := hx.db_linked hl
  rcases hx.apart hl with hp | hp
  · simp [Call.weight, Call.held, Call.assigned, Call.reserved, hp, hdb]
  · simp [Call.weight, Call.held, Call.assigned, Call.reserved, hp, hdb]

theorem uses_linked (hx : x.Ok) (hl : x.waiter.linked = true) (d : Nat) : x.uses d = 0 := by
  have hdb := hx.db_linked hl
  rcases hx.apart hl with hp | hp
  · simp [Call.uses, Call.held, Call.assigned, hp, hdb]
  · simp [Call.uses, Call.held, Call.assigned, hp, hdb]

theorem weight_give (hx : x.Ok) (hl : x.waiter.linked = true) (db : Nat) :
    (x.give db).weight = 1 := by
  rcases hx.apart hl with hp | hp
  · simp [Call.weight, Call.held, Call.assigned, Call.reserved, Call.give, hp]
  · simp [Call.weight, Call.held, Call.assigned, Call.reserved, Call.give, hp]

theorem uses_give (hx : x.Ok) (hl : x.waiter.linked = true) (db d : Nat) :
    (x.give db).uses d = [db].count d := by
  rcases hx.apart hl with hp | hp
  · simp [Call.uses, Call.held, Call.assigned, Call.give, hp]
  · simp [Call.uses, Call.held, Call.assigned, Call.give, hp]

end Call.Ok

/-! ### The waiters list -/

/-- Every call is as it should be, and the list has the linked waiters. -/
structure Linked (s : PoolState) : Prop where
  ok : ∀ {c : Nat} {x : Call}, s.calls[c]? = some x → x.Ok
  mem : ∀ c, c ∈ s.waiters ↔ ∃ x, s.calls[c]? = some x ∧ x.waiter.linked = true
  nodup : s.waiters.Nodup

theorem getElem?_setCall {s : PoolState} {c : Nat} {x : Call} (y : Call) (hx : s.calls[c]? = some x)
    (d : Nat) : (s.setCall c y).calls[d]? = if d = c then some y else s.calls[d]? := by
  obtain ⟨hc, -⟩ := List.getElem?_eq_some_iff.mp hx
  rw [setCall, List.getElem?_set]
  by_cases h : c = d
  · rw [if_pos h, if_pos hc, if_pos h.symm]
  · rw [if_neg h, if_neg fun h' => h h'.symm]

theorem getElem?_addCall {s : PoolState} {c : Nat} {x y : Call} :
    (s.addCall y).calls[c]? = some x ↔ s.calls[c]? = some x ∨ c = s.calls.length ∧ x = y := by
  rw [addCall]
  rcases Nat.lt_trichotomy c s.calls.length with hc | rfl | hc
  · rw [List.getElem?_append_left hc]
    exact ⟨.inl, fun h => h.resolve_right fun h' => absurd h'.1 (Nat.ne_of_lt hc)⟩
  · rw [List.getElem?_concat_length, List.getElem?_eq_none (Nat.le_refl _)]
    simp [eq_comm]
  · rw [List.getElem?_eq_none (by simp; omega), List.getElem?_eq_none (by omega)]
    simp [Nat.ne_of_gt hc]

namespace Linked

variable {s : PoolState} {c : Nat} {x y : Call}

/-- The counters and the idle connections do not matter. -/
theorem counters (hs : Linked s) (idle : List Nat) (totalCount nextDb : Nat) :
    Linked { s with idle, totalCount, nextDb } := ⟨hs.ok, hs.mem, hs.nodup⟩

/-- The other waiters keep their place when one is replaced. -/
theorem mem_setCall (hs : Linked s) (hx : s.calls[c]? = some x) (d : Nat) :
    (∃ z, (s.setCall c y).calls[d]? = some z ∧ z.waiter.linked = true)
      ↔ if d = c then y.waiter.linked = true else d ∈ s.waiters := by
  rw [getElem?_setCall y hx d]
  by_cases h : d = c
  · rw [if_pos h, if_pos h]
    exact ⟨fun ⟨z, hz, hl⟩ => Option.some.inj hz ▸ hl, fun hl => ⟨y, rfl, hl⟩⟩
  · rw [if_neg h, if_neg h, hs.mem d]

theorem ok_setCall (hs : Linked s) (hx : s.calls[c]? = some x) (hy : y.Ok) {d : Nat} {z : Call}
    (hz : (s.setCall c y).calls[d]? = some z) : z.Ok := by
  rw [getElem?_setCall y hx d] at hz
  split_ifs at hz with h
  · exact Option.some.inj hz ▸ hy
  · exact hs.ok hz

theorem setCall (hs : Linked s) (hx : s.calls[c]? = some x) (hy : y.Ok)
    (hl : y.waiter.linked = x.waiter.linked) : Linked (s.setCall c y) where
  ok := hs.ok_setCall hx hy
  mem := by
    intro d
    rw [hs.mem_setCall hx d]
    show d ∈ s.waiters ↔ _
    split_ifs with h
    · rw [h, hs.mem c, hl, hx]
      exact ⟨fun ⟨z, hz, hlz⟩ => Option.some.inj hz ▸ hlz, fun h' => ⟨x, rfl, h'⟩⟩
    · rfl
  nodup := hs.nodup

/-- The waiter leaves the list. -/
theorem unlink (hs : Linked s) (hx : s.calls[c]? = some x) (hy : y.Ok)
    (hl : y.waiter.linked = false) : Linked ((s.unlink c x).setCall c y) := by
  have hw : (s.unlink c x).waiters = s.waiters.erase c := by
    rw [PoolState.unlink]
    split_ifs with h
    · rfl
    · refine (List.erase_of_not_mem fun hc => h ?_).symm
      obtain ⟨z, hz, hlz⟩ := (hs.mem c).mp hc
      obtain rfl : x = z := Option.some.inj (hx.symm.trans hz)
      exact hlz
  have hcalls : (s.unlink c x).calls = s.calls := by
    rw [PoolState.unlink]
    split_ifs <;> rfl
  have heq : ((s.unlink c x).setCall c y).calls = (s.setCall c y).calls := by
    rw [PoolState.setCall, PoolState.setCall, hcalls]
  refine ⟨?_, ?_, ?_⟩
  · intro d z hz
    rw [heq] at hz
    exact hs.ok_setCall hx hy hz
  · intro d
    rw [heq, hs.mem_setCall hx d]
    show d ∈ (s.unlink c x).waiters ↔ _
    rw [hw, hs.nodup.mem_erase_iff]
    split_ifs with h
    · simp [h, hl]
    · exact ⟨fun h' => h'.2, fun h' => ⟨h, h'⟩⟩
  · show (s.unlink c x).waiters.Nodup
    rw [hw]
    exact hs.nodup.erase c

theorem ok_addCall (hs : Linked s) (hy : y.Ok) {d : Nat} {z : Call}
    (hz : (s.addCall y).calls[d]? = some z) : z.Ok := by
  rcases getElem?_addCall.mp hz with hz | ⟨-, rfl⟩
  · exact hs.ok hz
  · exact hy

theorem addCall (hs : Linked s) (hy : y.Ok) (hl : y.waiter.linked = false) :
    Linked (s.addCall y) where
  ok := hs.ok_addCall hy
  mem := by
    intro c
    show c ∈ s.waiters ↔ _
    rw [hs.mem c]
    constructor
    · rintro ⟨x, hx, hlx⟩
      exact ⟨x, getElem?_addCall.mpr (.inl hx), hlx⟩
    · rintro ⟨x, hx, hlx⟩
      rcases getElem?_addCall.mp hx with hx | ⟨-, rfl⟩
      · exact ⟨x, hx, hlx⟩
      · rw [hl] at hlx
        exact absurd hlx Bool.noConfusion
  nodup := hs.nodup

/-- A new call is put at the end of the list. -/
theorem enqueue (hs : Linked s) (hy : y.Ok) (hl : y.waiter.linked = true) :
    Linked ({ s with waiters := s.waiters ++ [s.calls.length] }.addCall y) where
  ok := hs.ok_addCall hy
  mem := by
    intro c
    show c ∈ s.waiters ++ [s.calls.length] ↔ ∃ x, (s.addCall y).calls[c]? = some x ∧ _
    rw [List.mem_append, List.mem_singleton, hs.mem c]
    constructor
    · rintro (⟨x, hx, hlx⟩ | rfl)
      · exact ⟨x, getElem?_addCall.mpr (.inl hx), hlx⟩
      · exact ⟨y, getElem?_addCall.mpr (.inr ⟨rfl, rfl⟩), hl⟩
    · rintro ⟨x, hx, hlx⟩
      rcases getElem?_addCall.mp hx with hx | ⟨rfl, -⟩
      · exact .inl ⟨x, hx, hlx⟩
      · exact .inr rfl
  nodup := by
    refine List.nodup_append.mpr ⟨hs.nodup, List.nodup_singleton _, ?_⟩
    intro c hc d hd
    obtain ⟨x, hx, -⟩ := (hs.mem c).mp hc
    have hlt := (List.getElem?_eq_some_iff.mp hx).1
    rw [List.mem_singleton.mp hd]
    omega

/-- `freeSoci` resolves the first waiter of the list. -/
theorem head (hs : Linked s) {waiters : List Nat} (hw : s.waiters = c :: waiters) :
    ∃ x, s.calls[c]? = some x ∧ x.waiter.linked = true ∧ x.waiter.done = false := by
  obtain ⟨x, hx, hl⟩ := (hs.mem c).mp (hw ▸ List.mem_cons_self)
  exact ⟨x, hx, hl, (hs.ok hx).linked hl⟩

theorem give (hs : Linked s) {waiters : List Nat} (hw : s.waiters = c :: waiters)
    (hx : s.calls[c]? = some x) (hd : x.waiter.done = false) (db : Nat) :
    Linked ({ s with waiters := waiters }.setCall c (x.give db)) := by
  have hnodup := hs.nodup
  rw [hw] at hnodup
  refine ⟨hs.ok_setCall hx ((hs.ok hx).give hd db), ?_, (List.nodup_cons.mp hnodup).2⟩
  intro d
  show d ∈ waiters ↔ ∃ z, (s.setCall c (x.give db)).calls[d]? = some z ∧ _
  rw [hs.mem_setCall hx d, hw]
  split_ifs with h
  · subst h
    have hc := (List.nodup_cons.mp hnodup).1
    simp [hc, Call.give]
  · simp [h]

end Linked

/-- What `freeSoci` does when the list is right. -/
theorem freeSoci_cases {s : PoolState} (hs : Linked s) (db : Nat) :
    (s.waiters = [] ∧ s.freeSoci db = { s with idle := s.idle ++ [db] })
      ∨ ∃ c waiters x, s.waiters = c :: waiters ∧ s.calls[c]? = some x
        ∧ x.waiter.linked = true ∧ x.waiter.done = false
        ∧ s.freeSoci db = { s with waiters := waiters }.setCall c (x.give db) := by
  cases hw : s.waiters with
  | nil =>
    refine .inl ⟨rfl, ?_⟩
    rw [freeSoci, hw]
    simp [handOver, ← hw]
  | cons c waiters =>
    obtain ⟨x, hx, hl, hd⟩ := hs.head hw
    refine .inr ⟨c, waiters, x, rfl, hx, hl, hd, ?_⟩
    rw [freeSoci, hw]
    simp [handOver, hx, hd, PoolState.setCall]

/-- **A step keeps the waiters.** -/
theorem linked_step {s t : PoolState} {a : Action} (hs : Linked s) (h : step s a = some t) :
    Linked t := by
  cases step_cases h with
  | hit hidle =>
    exact (hs.counters _ _ _).addCall (.fresh nofun nofun nofun) rfl
  | reserve hidle hmax =>
    exact (hs.counters _ _ _).addCall (.fresh nofun nofun nofun) rfl
  | refuse hidle hmax => exact hs.addCall (.fresh nofun nofun nofun) rfl
  | enqueue hidle hmax => exact hs.enqueue (.enqueued _) rfl
  | created hx hp =>
    have hok := hs.ok hx
    have hl := hok.unlinked (by simp [hp]) (by simp [hp])
    exact (hs.counters _ _ _).setCall hx (hok.setPhase hl nofun nofun nofun) rfl
  | createFailed hx hp =>
    have hok := hs.ok hx
    have hl := hok.unlinked (by simp [hp]) (by simp [hp])
    exact hs.setCall hx (hok.setPhase hl nofun nofun nofun) rfl
  | giveBack hx hp =>
    have hok := hs.ok hx
    have hl := hok.unlinked (by simp [hp]) (by simp [hp])
    exact (hs.counters _ _ _).setCall hx (hok.setPhase hl nofun nofun nofun) rfl
  | timer t' ha hx => exact hs.setCall hx ((hs.ok hx).setTimer t') rfl
  | yieldToHold hx hp => exact hs.setCall hx ((hs.ok hx).suspend hp) rfl
  | timeout hx htimer hdone => exact hs.unlink hx ((hs.ok hx).timeout hdone) rfl
  | schedule hx hdue => exact hs.setCall hx ((hs.ok hx).schedule hdue) rfl
  | resume t' hx hp hsch => exact hs.setCall hx ((hs.ok hx).resume hsch t') rfl
  | take hx hp hdb =>
    have hok := hs.ok hx
    have hl := hok.unlinked (by simp [hp]) (by simp [hp])
    exact hs.setCall hx (hok.setPhase hl nofun nofun nofun) rfl
  | takeNone hx hp hdb => exact hs.unlink hx ((hs.ok hx).takeNone hp) rfl
  | @freeSoci c x db hx hp =>
    have hok := hs.ok hx
    have hl := hok.unlinked (by simp [hp]) (by simp [hp])
    have hover := hs.setCall hx (hok.setPhase (p := .over) hl nofun nofun nofun) rfl
    rcases freeSoci_cases hover db with ⟨-, ht⟩ | ⟨c', waiters, y, hw, hy, -, hd, ht⟩
    · rw [ht]
      exact hover.counters _ _ _
    · rw [ht]
      exact hover.give hw hy hd db

/-! ### `totalCount` and the places -/

/-- `totalCount` is right, and every connection is in at most one place and older
than the next one. -/
structure Balanced (s : PoolState) : Prop where
  total : s.totalCount = s.idle.length + s.total Call.weight
  bound : s.totalCount ≤ s.maxConn
  once : ∀ db, s.idle.count db + s.total (Call.uses db) ≤ 1
  old : ∀ db, s.nextDb ≤ db → s.idle.count db + s.total (Call.uses db) = 0

namespace Balanced

variable {s : PoolState} {c : Nat} {x y : Call} {idle waiters : List Nat} {totalCount : Nat}

/-- Connections and slots move between the idle list and one call. -/
theorem move (hs : Balanced s) (hx : s.calls[c]? = some x)
    (htotal : totalCount + (s.idle.length + x.weight) = s.totalCount + (idle.length + y.weight))
    (hbound : totalCount ≤ s.maxConn)
    (huses : ∀ db, idle.count db + y.uses db = s.idle.count db + x.uses db) :
    Balanced ({ s with idle, waiters, totalCount }.setCall c y) where
  total := by
    have hset := total_setCall (f := Call.weight) y hx
    have hold := hs.total
    show totalCount = idle.length + (s.setCall c y).total Call.weight
    omega
  bound := hbound
  once := by
    intro db
    have hset := total_setCall (f := Call.uses db) y hx
    have honce := hs.once db
    have hmove := huses db
    show idle.count db + (s.setCall c y).total (Call.uses db) ≤ 1
    omega
  old := by
    intro db hdb
    have hset := total_setCall (f := Call.uses db) y hx
    have hold := hs.old db hdb
    have hmove := huses db
    show idle.count db + (s.setCall c y).total (Call.uses db) = 0
    omega

/-- A call keeps what it has. -/
theorem setCall (hs : Balanced s) (hx : s.calls[c]? = some x) (hw : y.weight = x.weight)
    (hu : ∀ db, y.uses db = x.uses db) : Balanced (s.setCall c y) :=
  hs.move hx (by rw [hw]) hs.bound fun db => by rw [hu db]

theorem unlink (hs : Balanced s) (hx : s.calls[c]? = some x) (hw : y.weight = x.weight)
    (hu : ∀ db, y.uses db = x.uses db) : Balanced ((s.unlink c x).setCall c y) := by
  rw [PoolState.unlink]
  split_ifs
  · exact hs.move hx (by rw [hw]) hs.bound fun db => by rw [hu db]
  · exact hs.setCall hx hw hu

/-- A new call. -/
theorem add (hs : Balanced s)
    (htotal : totalCount + s.idle.length = s.totalCount + (idle.length + y.weight))
    (hbound : totalCount ≤ s.maxConn)
    (huses : ∀ db, idle.count db + y.uses db = s.idle.count db) :
    Balanced ({ s with idle, waiters, totalCount }.addCall y) where
  total := by
    have hold := hs.total
    rw [total_addCall]
    show totalCount = idle.length + (s.total Call.weight + y.weight)
    omega
  bound := hbound
  once := by
    intro db
    have honce := hs.once db
    have hmove := huses db
    rw [total_addCall]
    show idle.count db + (s.total (Call.uses db) + y.uses db) ≤ 1
    omega
  old := by
    intro db hdb
    have hold := hs.old db hdb
    have hmove := huses db
    rw [total_addCall]
    show idle.count db + (s.total (Call.uses db) + y.uses db) = 0
    omega

/-- `createConnection` has returned the next connection. -/
theorem created (hs : Balanced s) (hx : s.calls[c]? = some x) (hw : y.weight = x.weight)
    (hu : ∀ db, y.uses db = x.uses db + [s.nextDb].count db) :
    Balanced ({ s with nextDb := s.nextDb + 1 }.setCall c y) where
  total := by
    have hset := total_setCall (f := Call.weight) y hx
    have hold := hs.total
    show s.totalCount = s.idle.length + (s.setCall c y).total Call.weight
    omega
  bound := hs.bound
  once := by
    intro db
    have hset := total_setCall (f := Call.uses db) y hx
    have honce := hs.once db
    have hmove := hu db
    show s.idle.count db + (s.setCall c y).total (Call.uses db) ≤ 1
    by_cases h : db = s.nextDb
    · have hold := hs.old db (Nat.le_of_eq h.symm)
      have hone : [s.nextDb].count db = 1 := by rw [h, List.count_singleton_self]
      omega
    · have hzero : [s.nextDb].count db = 0 := List.count_eq_zero.mpr (by simp [h])
      omega
  old := by
    intro db hdb
    have hset := total_setCall (f := Call.uses db) y hx
    have hold := hs.old db (Nat.le_of_succ_le hdb)
    have hmove := hu db
    have hlt : s.nextDb < db := hdb
    have hzero : [s.nextDb].count db = 0 := List.count_eq_zero.mpr (by simp [Nat.ne_of_gt hlt])
    show s.idle.count db + (s.setCall c y).total (Call.uses db) = 0
    omega

end Balanced

/-- A call that counts one slot shows in `totalCount`. -/
theorem weight_le {s : PoolState} (hs : Balanced s) {c : Nat} {x : Call}
    (hx : s.calls[c]? = some x) : x.weight ≤ s.totalCount := by
  have hset := total_setCall (f := Call.weight) { x with phase := .over } hx
  have hover : Call.weight { x with phase := .over } = 0 := rfl
  have htotal := hs.total
  omega

theorem balanced_step {s t : PoolState} {a : Action} (hl : Linked s) (hs : Balanced s)
    (h : step s a = some t) : Balanced t := by
  cases step_cases h with
  | @hit _ _ db idle hidle =>
    refine hs.add ?_ hs.bound fun d => ?_
    · rw [hidle, List.length_cons]
      rfl
    · rw [hidle, List.count_cons]
      simp [Call.uses, Call.held, Call.assigned, List.count_singleton]
  | reserve hidle hmax =>
    exact hs.add (by simp only [hidle]; rfl) hmax fun d => by simp [Call.uses, Call.held, Call.assigned]
  | refuse hidle hmax => exact hs.add rfl hs.bound fun d => rfl
  | enqueue hidle hmax => exact hs.add rfl hs.bound fun d => rfl
  | @created c x hx hp =>
    refine hs.created hx ?_ fun d => ?_
    · simp [Call.weight, Call.held, Call.assigned, Call.reserved, hp]
    · simp [Call.uses, Call.held, Call.assigned, hp]
  | createFailed hx hp =>
    refine hs.setCall hx ?_ fun d => ?_
    · simp [Call.weight, Call.held, Call.assigned, Call.reserved, hp]
    · simp [Call.uses, Call.held, Call.assigned, hp]
  | @giveBack c x hx hp =>
    have hone : x.weight = 1 := by
      simp [Call.weight, Call.held, Call.assigned, Call.reserved, hp]
    have hle := weight_le hs hx
    have hbound := hs.bound
    refine hs.move hx ?_ (by omega) fun d => ?_
    · show s.totalCount - 1 + _ = s.totalCount + (s.idle.length + 0)
      omega
    · simp [Call.uses, Call.held, Call.assigned, hp]
  | timer t' ha hx => exact hs.setCall hx rfl fun d => rfl
  | yieldToHold hx hp =>
    refine hs.setCall hx ?_ fun d => ?_
    · simp [Call.weight, Call.held, Call.assigned, Call.reserved, hp]
    · simp [Call.uses, Call.held, Call.assigned, hp]
  | timeout hx htimer hdone => exact hs.unlink hx rfl fun d => rfl
  | schedule hx hdue => exact hs.setCall hx rfl fun d => rfl
  | resume t' hx hp hsch =>
    refine hs.setCall hx ?_ fun d => ?_
    · simp [Call.weight, Call.held, Call.assigned, Call.reserved, hp]
    · simp [Call.uses, Call.held, Call.assigned, hp]
  | take hx hp hdb =>
    refine hs.setCall hx ?_ fun d => ?_
    · simp [Call.weight, Call.held, Call.assigned, Call.reserved, hp, hdb]
    · simp [Call.uses, Call.held, Call.assigned, hp, hdb]
  | takeNone hx hp hdb =>
    refine hs.unlink hx ?_ fun d => ?_
    · simp [Call.weight, Call.held, Call.assigned, Call.reserved, hp, hdb]
    · simp [Call.uses, Call.held, Call.assigned, hp, hdb]
  | @freeSoci c x db hx hp =>
    have hok := hl.ok hx
    have hun := hok.unlinked (by simp [hp]) (by simp [hp])
    have hover := hl.setCall hx (hok.setPhase (p := .over) hun nofun nofun nofun) rfl
    -- the connection goes to the end of the idle list, and from there to a waiter
    have hidle : Balanced ({ s with idle := s.idle ++ [db] }.setCall c { x with phase := .over }) := by
      refine hs.move hx ?_ hs.bound fun d => ?_
      · simp [Call.weight, Call.held, Call.assigned, Call.reserved, hp]
      · simp [Call.uses, Call.held, Call.assigned, hp]
    rcases freeSoci_cases hover db with ⟨-, ht⟩ | ⟨c', waiters, y, hw, hy, hly, hd, ht⟩
    · rw [ht]
      exact hidle
    · rw [ht]
      have hyok := hover.ok hy
      refine hidle.move hy ?_ hidle.bound fun d => ?_
      · rw [hyok.weight_linked hly, hyok.weight_give hly]
        show _ + ((s.idle ++ [db]).length + 0) = _ + (s.idle.length + 1)
        rw [List.length_append]
        rfl
      · rw [hyok.uses_linked hly, hyok.uses_give hly]
        exact List.count_append.symm

/-! ### A resolved waiter -/

/-- The waiters that are resolved in `s` are the same in `t`. -/
def Keeps (s t : PoolState) : Prop :=
  ∀ (c : Nat) (x : Call), s.calls[c]? = some x → x.waiter.done = true →
    ∃ y, t.calls[c]? = some y ∧ y.waiter = x.waiter

theorem Keeps.refl (s : PoolState) : Keeps s s := fun _ x hx _ => ⟨x, hx, rfl⟩

theorem Keeps.trans {s t u : PoolState} (hst : Keeps s t) (htu : Keeps t u) : Keeps s u := by
  intro c x hx hd
  obtain ⟨y, hy, hxy⟩ := hst c x hx hd
  obtain ⟨z, hz, hyz⟩ := htu c y hy (hxy ▸ hd)
  exact ⟨z, hz, hyz.trans hxy⟩

theorem keeps_setCall {s t : PoolState} {c : Nat} {x y : Call} (hx : s.calls[c]? = some x)
    (ht : t.calls = (s.setCall c y).calls) (hy : x.waiter.done = true → y.waiter = x.waiter) :
    Keeps s t := by
  intro d z hz hd
  rw [ht, getElem?_setCall y hx d]
  by_cases h : d = c
  · subst h
    obtain rfl : x = z := Option.some.inj (hx.symm.trans hz)
    exact ⟨y, if_pos rfl, hy hd⟩
  · exact ⟨z, by rw [if_neg h, hz], rfl⟩

theorem keeps_addCall {s t : PoolState} {y : Call} (ht : t.calls = (s.addCall y).calls) :
    Keeps s t := by
  intro c x hx _
  rw [ht]
  exact ⟨x, getElem?_addCall.mpr (.inl hx), rfl⟩

theorem calls_unlink (s : PoolState) (c : Nat) (x y : Call) :
    ((s.unlink c x).setCall c y).calls = (s.setCall c y).calls := by
  rw [PoolState.unlink]
  split_ifs <;> rfl

/-- **A waiter is resolved once.** -/
theorem keeps_step {s t : PoolState} {a : Action} (hl : Linked s) (h : step s a = some t) :
    Keeps s t := by
  cases step_cases h with
  | hit hidle => exact keeps_addCall rfl
  | reserve hidle hmax => exact keeps_addCall rfl
  | refuse hidle hmax => exact keeps_addCall rfl
  | enqueue hidle hmax => exact keeps_addCall rfl
  | created hx hp => exact keeps_setCall hx rfl fun _ => rfl
  | createFailed hx hp => exact keeps_setCall hx rfl fun _ => rfl
  | giveBack hx hp => exact keeps_setCall hx rfl fun _ => rfl
  | timer t' ha hx => exact keeps_setCall hx rfl fun _ => rfl
  | yieldToHold hx hp => exact keeps_setCall hx rfl fun _ => rfl
  | timeout hx htimer hdone =>
    refine keeps_setCall hx (calls_unlink ..) fun hd => ?_
    rw [hdone] at hd
    exact absurd hd Bool.noConfusion
  | schedule hx hdue => exact keeps_setCall hx rfl fun _ => rfl
  | resume t' hx hp hsch => exact keeps_setCall hx rfl fun _ => rfl
  | take hx hp hdb => exact keeps_setCall hx rfl fun _ => rfl
  | @takeNone c x hx hp hdb =>
    refine keeps_setCall hx (calls_unlink ..) fun hd => ?_
    have hun := (hl.ok hx).unlinked (by simp [hp]) (by simp [hp])
    rw [← hun, ← hd]
  | @freeSoci c x db hx hp =>
    have hok := hl.ok hx
    have hun := hok.unlinked (by simp [hp]) (by simp [hp])
    have hover := hl.setCall hx (hok.setPhase (p := .over) hun nofun nofun nofun) rfl
    have hkeep : Keeps s (s.setCall c { x with phase := .over }) :=
      keeps_setCall hx rfl fun _ => rfl
    rcases freeSoci_cases hover db with ⟨-, ht⟩ | ⟨c', waiters, y, hw, hy, -, hd, ht⟩
    · rw [ht]
      exact hkeep
    · rw [ht]
      refine hkeep.trans (keeps_setCall hy rfl fun hd' => ?_)
      rw [hd] at hd'
      exact absurd hd' Bool.noConfusion

/-! ### Runs -/

theorem linked_init (max_conn : Nat) : Linked (init max_conn) where
  ok := fun hx => absurd hx (by simp [init])
  mem := fun c => by simp [init]
  nodup := List.nodup_nil

theorem balanced_init (max_conn : Nat) : Balanced (init max_conn) where
  total := rfl
  bound := Nat.zero_le _
  once := fun _ => Nat.zero_le _
  old := fun _ _ => rfl

theorem linked_exec {max_conn : Nat} {as : List Action} {s : PoolState}
    (h : exec step (init max_conn) as = some s) : Linked s :=
  exec_invariant (fun _ _ _ hs hst => linked_step hs hst) (linked_init max_conn) h

theorem balanced_exec {max_conn : Nat} {as : List Action} {s : PoolState}
    (h : exec step (init max_conn) as = some s) : Balanced s := by
  refine (exec_invariant (I := fun s => Linked s ∧ Balanced s) ?_
    ⟨linked_init max_conn, balanced_init max_conn⟩ h).2
  intro s a t hs hst
  exact ⟨linked_step hs.1 hst, balanced_step hs.1 hs.2 hst⟩

theorem maxConn_step {s t : PoolState} {a : Action} (h : step s a = some t) :
    t.maxConn = s.maxConn := by
  have hunlink (c : Nat) (x : Call) : (s.unlink c x).maxConn = s.maxConn := by
    rw [PoolState.unlink]
    split_ifs <;> rfl
  cases step_cases h with
  | timeout | takeNone => exact hunlink ..
  | _ => rfl

theorem maxConn_exec {max_conn : Nat} {as : List Action} {s : PoolState}
    (h : exec step (init max_conn) as = some s) : s.maxConn = (init max_conn).maxConn :=
  exec_invariant (I := fun s => s.maxConn = (init max_conn).maxConn)
    (fun _ _ _ hs hst => (maxConn_step hst).trans hs) rfl h

/-- The connections and the slots are accounted for, and every waiter is resolved in
one way. -/
structure Conserved (s : PoolState) : Prop where
  total : s.totalCount = s.idle.length + s.held.length + s.assigned.length + s.reserved
  bound : s.totalCount ≤ s.maxConn
  places : (s.idle ++ s.held ++ s.assigned).Nodup
  resolved : ∀ (c : Nat) (x : Call), s.calls[c]? = some x → x.waiter.done = true →
    (x.waiter.db.isSome = true ↔ x.waiter.timedOut = false)
  unresolved : ∀ (c : Nat) (x : Call), s.calls[c]? = some x → x.waiter.done = false →
    x.waiter.db = none ∧ x.waiter.timedOut = false
  resumed : ∀ (c : Nat) (x : Call), s.calls[c]? = some x → x.phase = .resumed → x.waiter.done = true
  scheduled : ∀ (c : Nat) (x : Call), s.calls[c]? = some x → x.due + x.scheduled ≤ 1

theorem Linked.scheduled {s : PoolState} (hs : Linked s) {c : Nat} {x : Call}
    (hx : s.calls[c]? = some x) : x.due + x.scheduled ≤ 1 := by
  cases hd : x.waiter.done with
  | true =>
    have hone := ((hs.ok hx).done hd).2
    omega
  | false =>
    have hzero := (hs.ok hx).undone hd
    omega

/-- **Conservation.**  In every state of every interleaving the connections and the
slots add up to `totalCount`, no connection is in two places, and every waiter is
resolved in one way, which stays, and scheduled at most once. -/
theorem conserved {max_conn : Nat} {as bs : List Action} {s t : PoolState}
    (hs : exec step (init max_conn) as = some s) (ht : exec step s bs = some t) :
    Conserved t ∧ t.maxConn = (init max_conn).maxConn ∧ Keeps s t := by
  have hrun : exec step (init max_conn) (as ++ bs) = some t := by
    rw [exec_append, hs]
    exact ht
  have hl := linked_exec hrun
  have hb := balanced_exec hrun
  refine ⟨⟨?_, hb.bound, ?_, ?_, ?_, ?_, ?_⟩, maxConn_exec hrun, ?_⟩
  · have htotal := hb.total
    rw [total_weight] at htotal
    omega
  · refine List.nodup_iff_count_le_one.mpr fun db => ?_
    have honce := hb.once db
    rw [total_uses] at honce
    rw [List.count_append, List.count_append]
    omega
  · exact fun c x hx hd => ((hl.ok hx).done hd).1
  · exact fun c x hx hd => ⟨((hl.ok hx).undone hd).1, ((hl.ok hx).undone hd).2.1⟩
  · exact fun c x hx hp => (hl.ok hx).resumed hp
  · exact fun c x hx => hl.scheduled hx
  · refine (exec_invariant (I := fun u => Linked u ∧ Keeps s u) ?_
      ⟨linked_exec hs, Keeps.refl s⟩ ht).2
    intro u a v hu huv
    exact ⟨linked_step hu.1 huv, hu.2.trans (keeps_step hu.1 huv)⟩

/-- A caller waits, gets the connection of another one while its timer is expiring,
and gives it back. -/
theorem conserved_wait : ∃ s t,
    exec step (init 1) [.get 3000 true, .call 0 (.created true), .get 3000 true,
      .call 1 .addTimer, .call 1 .yieldToHold, .call 1 .expire, .call 0 .freeSoci] = some s
    ∧ exec step s [.call 1 .timeout, .call 1 .schedule, .call 1 .resume, .call 1 .take,
      .call 1 .freeSoci] = some t
    ∧ Conserved t ∧ t.maxConn = (init 1).maxConn ∧ Keeps s t := by
  refine ⟨?s, ?t, ?hs, ?ht, conserved ?hs ?ht⟩
  case hs => rfl
  case ht => rfl

end SociManager

end FiberServer
