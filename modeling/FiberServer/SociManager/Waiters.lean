import FiberServer.SociManager.Conservation

/-!
# Free capacity and the waiters

A call waits only when nothing is idle and `totalCount` has reached `maxConn`.  The
hit, the reservation and the timeout keep that, and `freeSoci` gives a returned
connection to the first waiter.  The section of `get()` after a failed
`createConnection` gives the slot back and does not look at the waiters.

* `noneLeft_step`: a step keeps it exactly when it is not such a section with a
  waiter in the list.
* `noneLeft_iff`: **the same for a whole run**.
-/

namespace FiberServer

namespace SociManager

open Transition PoolState

/-- No waiter is left behind while capacity is free. -/
def NoneLeft (s : PoolState) : Prop := s.waiters ≠ [] → s.idle = [] ∧ s.totalCount = s.maxConn

/-- The step does not give the slot of a failed creation back while a call waits. -/
def givesBackAlone (s : PoolState) : Action → Bool
  | .call _ .giveBack => s.waiters.isEmpty
  | _ => true

theorem givesBackAlone_of_ne {s : PoolState} {c : Nat} {a : CallAction} (h : a ≠ .giveBack) :
    givesBackAlone s (.call c a) = true := by
  cases a with
  | giveBack => exact absurd rfl h
  | _ => rfl

/-! ### One step -/

theorem NoneLeft.of_capacity {s : PoolState} (hs : NoneLeft s)
    (h : s.idle ≠ [] ∨ s.totalCount < s.maxConn) : s.waiters = [] := by
  by_contra hw
  obtain ⟨hidle, htotal⟩ := hs hw
  rcases h with h | h
  · exact h hidle
  · omega

/-- A step that changes neither the capacity nor, except for its removals, the list. -/
theorem NoneLeft.of_subset {s t : PoolState} (hs : NoneLeft s) (hw : t.waiters ⊆ s.waiters)
    (hidle : t.idle = s.idle) (htotal : t.totalCount = s.totalCount)
    (hmax : t.maxConn = s.maxConn) : NoneLeft t := by
  intro ht
  have hne : s.waiters ≠ [] := fun h => ht (List.subset_nil.mp (h ▸ hw))
  rw [hidle, htotal, hmax]
  exact hs hne

theorem NoneLeft.of_nil {s : PoolState} (h : s.waiters = []) : NoneLeft s := fun hw => absurd h hw

theorem NoneLeft.unlink {s : PoolState} (hs : NoneLeft s) (c : Nat) (x y : Call) :
    NoneLeft ((s.unlink c x).setCall c y) := by
  rw [PoolState.unlink]
  split_ifs
  · exact hs.of_subset (fun d hd => List.mem_of_mem_erase hd) rfl rfl rfl
  · exact hs.of_subset (fun d hd => hd) rfl rfl rfl

/-- A returned connection goes to the idle list only when no call waits. -/
theorem NoneLeft.freeSoci {s : PoolState} (hl : Linked s) (hs : NoneLeft s) (db : Nat) :
    NoneLeft (s.freeSoci db) := by
  rcases freeSoci_cases hl db with ⟨hw, ht⟩ | ⟨c, waiters, x, hw, -, -, -, ht⟩
  · rw [ht]
    exact .of_nil hw
  · rw [ht]
    refine hs.of_subset (fun d hd => ?_) rfl rfl rfl
    rw [hw]
    exact List.mem_cons_of_mem c hd

/-- After the slot was given back there is capacity. -/
theorem noneLeft_giveBack {s : PoolState} (hb : Balanced s) {c : Nat} {x : Call}
    (hx : s.calls[c]? = some x) (hp : x.phase = .createFailed) (y : Call) :
    NoneLeft ({ s with totalCount := s.totalCount - 1 }.setCall c y) ↔ s.waiters = [] := by
  have hone : x.weight = 1 := by
    simp [Call.weight, Call.held, Call.assigned, Call.reserved, hp]
  have hpos := weight_le hb hx
  have hbound := hb.bound
  constructor
  · intro h
    refine h.of_capacity (.inr ?_)
    show s.totalCount - 1 < s.maxConn
    omega
  · exact fun hw => .of_nil hw

/-- A step keeps the property exactly when it does not give a slot back while a call
waits. -/
theorem noneLeft_step {s t : PoolState} {a : Action} (hl : Linked s) (hb : Balanced s)
    (hs : NoneLeft s) (h : step s a = some t) : NoneLeft t ↔ givesBackAlone s a = true := by
  cases step_cases h with
  | hit hidle =>
    refine ⟨fun _ => rfl, fun _ => .of_nil ?_⟩
    exact hs.of_capacity (.inl (by simp [hidle]))
  | reserve hidle hmax => exact ⟨fun _ => rfl, fun _ => .of_nil (hs.of_capacity (.inr hmax))⟩
  | refuse hidle hmax =>
    exact ⟨fun _ => rfl, fun _ => hs.of_subset (fun _ hd => hd) rfl rfl rfl⟩
  | enqueue hidle hmax =>
    exact ⟨fun _ => rfl, fun _ _ => ⟨hidle, Nat.le_antisymm hb.bound hmax⟩⟩
  | created hx hp =>
    exact ⟨fun _ => rfl, fun _ => hs.of_subset (fun _ hd => hd) rfl rfl rfl⟩
  | createFailed hx hp =>
    exact ⟨fun _ => rfl, fun _ => hs.of_subset (fun _ hd => hd) rfl rfl rfl⟩
  | giveBack hx hp =>
    rw [noneLeft_giveBack hb hx hp, givesBackAlone, List.isEmpty_iff]
  | timer t' ha hx =>
    refine ⟨fun _ => givesBackAlone_of_ne ha, fun _ => ?_⟩
    exact hs.of_subset (fun _ hd => hd) rfl rfl rfl
  | yieldToHold hx hp =>
    exact ⟨fun _ => rfl, fun _ => hs.of_subset (fun _ hd => hd) rfl rfl rfl⟩
  | timeout hx htimer hdone => exact ⟨fun _ => rfl, fun _ => hs.unlink _ _ _⟩
  | schedule hx hdue =>
    exact ⟨fun _ => rfl, fun _ => hs.of_subset (fun _ hd => hd) rfl rfl rfl⟩
  | resume t' hx hp hsch =>
    exact ⟨fun _ => rfl, fun _ => hs.of_subset (fun _ hd => hd) rfl rfl rfl⟩
  | take hx hp hdb =>
    exact ⟨fun _ => rfl, fun _ => hs.of_subset (fun _ hd => hd) rfl rfl rfl⟩
  | takeNone hx hp hdb => exact ⟨fun _ => rfl, fun _ => hs.unlink _ _ _⟩
  | @freeSoci c x db hx hp =>
    have hok := hl.ok hx
    have hun := hok.unlinked (by simp [hp]) (by simp [hp])
    have hover := hl.setCall hx (hok.setPhase (p := .over) hun nofun nofun nofun) rfl
    have hkeep : NoneLeft (s.setCall c { x with phase := .over }) :=
      hs.of_subset (fun _ hd => hd) rfl rfl rfl
    exact ⟨fun _ => rfl, fun _ => hkeep.freeSoci hover db⟩

/-! ### Runs -/

/-- **No waiter is left behind throughout a run exactly when no failed creation gives
its slot back while a call waits.** -/
theorem noneLeft_iff {max_conn : Nat} {as : List Action} {s : PoolState}
    (h : exec step (init max_conn) as = some s) :
    Throughout step NoneLeft (init max_conn) as
      ↔ Along step (fun s a => givesBackAlone s a = true) (init max_conn) as := by
  refine throughout_iff_along (I := fun s => Linked s ∧ Balanced s) (A := fun _ _ => True)
    ?_ ?_ ⟨linked_init max_conn, balanced_init max_conn⟩ (.of_nil rfl) along_true h
  · intro s a t hs _ hst
    exact ⟨linked_step hs.1 hst, balanced_step hs.1 hs.2 hst⟩
  · intro s a t hs hP _ hst
    exact noneLeft_step hs.1 hs.2 hP hst

/-- A call waits while the only connection is being created. -/
def createFailure : List Action :=
  [.get 3000 true, .get 3000 true, .call 0 (.created false), .call 0 .giveBack]

theorem noneLeft_iff_createFailure : ∃ s, exec step (init 1) createFailure = some s
    ∧ (Throughout step NoneLeft (init 1) createFailure
      ↔ Along step (fun s a => givesBackAlone s a = true) (init 1) createFailure) :=
  ⟨_, rfl, noneLeft_iff rfl⟩

/-- The slot is free, nobody will give a connection back, and the call still waits. -/
theorem createFailure_left : ∃ s, exec step (init 1) createFailure = some s
    ∧ s.waiters = [1] ∧ s.totalCount = 0 ∧ s.maxConn = 1 ∧ ¬ NoneLeft s := by
  refine ⟨_, rfl, by decide, by decide, by decide, fun h => ?_⟩
  exact absurd (h (by decide)).2 (by decide)

end SociManager

end FiberServer
