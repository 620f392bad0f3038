import Mathlib.Data.List.Count
import Mathlib.Data.List.TakeWhile

/-!
# The three dequeue paths of the scheduler

`Scheduler::popLocalTask`, `Scheduler::popGlobalTask` and the victim section of
`Scheduler::stealTask`, each on the queue it holds the lock of.  The state word
`m_state` of every fiber is a parameter: the three functions read it for each
item and treat an item whose fiber is still `EXEC` differently.

* `popLocalTask_eq`: the local path throws the leading `EXEC` items away.
* `popGlobalTask_count`, `stealVictim_count`: the other two paths lose nothing.
-/

namespace FiberServer

/-- `Fiber::State`. -/
inductive Fiber.State
  | INIT | HOLD | EXEC | TERM | READY | EXCEPT
  deriving DecidableEq, Repr

/-- The two states in which `run()` does not swap a fiber in. -/
def Fiber.State.finished (st : Fiber.State) : Bool := st == .TERM || st == .EXCEPT

namespace Scheduler

/-- `Scheduler::FiberAndThread`.  A fiber and a callback are known by number;
`thread` is `-1` for an unpinned item.  `ticket` is not in the source: it is the
number of the call that queued the item, so that two items are never equal. -/
structure FiberAndThread where
  ticket : Nat
  fiber : Option Nat
  cb : Option Nat
  thread : Int
  deriving DecidableEq, Repr

/-- `ft.fiber && ft.fiber->getState() == Fiber::State::EXEC`. -/
def isExec (m_state : Nat → Fiber.State) (ft : FiberAndThread) : Bool :=
  ft.fiber.any fun f => m_state f == .EXEC

/-! ### `popLocalTask` -/

/-- The loop of `Scheduler::popLocalTask` on the run queue of the caller's
processor: the item it returns and the queue it leaves. -/
def popLocalTask (m_state : Nat → Fiber.State) :
    List FiberAndThread → Option FiberAndThread × List FiberAndThread
  | [] => (none, [])
  | ft :: run_queue =>
    -- `ft.reset(); continue;`: the item has already left the queue
    if isExec m_state ft then popLocalTask m_state run_queue
    else (some ft, run_queue)

theorem popLocalTask_eq (m_state : Nat → Fiber.State) (q : List FiberAndThread) :
    popLocalTask m_state q
      = ((q.dropWhile (isExec m_state)).head?, (q.dropWhile (isExec m_state)).tail) := by
  induction q with
  | nil => rfl
  | cons ft q ih =>
    by_cases h : isExec m_state ft
    · rw [popLocalTask, if_pos h, ih, List.dropWhile_cons, if_pos h]
    · rw [popLocalTask, if_neg h, List.dropWhile_cons, if_neg h]
      rfl

/-- Every item is thrown away, returned or kept. -/
theorem popLocalTask_count (m_state : Nat → Fiber.State) (q : List FiberAndThread)
    (x : FiberAndThread) :
    q.count x = (q.takeWhile (isExec m_state)).count x
      + (popLocalTask m_state q).1.toList.count x + (popLocalTask m_state q).2.count x := by
  rw [popLocalTask_eq]
  have hsplit : q.count x = (q.takeWhile (isExec m_state) ++ q.dropWhile (isExec m_state)).count x :=
    congrArg _ List.takeWhile_append_dropWhile.symm
  rw [hsplit, List.count_append]
  cases q.dropWhile (isExec m_state) with
  | nil => simp
  | cons y ys => simp [List.count_cons]; omega

/-- What a queue had after a path has taken from it, it had before. -/
theorem mem_of_popLocalTask {m_state : Nat → Fiber.State} {q : List FiberAndThread}
    {x : FiberAndThread} (h : (popLocalTask m_state q).1 = some x ∨ x ∈ (popLocalTask m_state q).2) :
    x ∈ q := by
  have hcount := popLocalTask_count m_state q x
  rw [← List.count_pos_iff]
  rcases h with h | h
  · rw [h, Option.toList_some, List.count_singleton_self] at hcount
    omega
  · have hpos := List.count_pos_iff.mpr h
    omega

/-- The local path returns no item whose fiber is in `EXEC`. -/
theorem popLocalTask_isExec {m_state : Nat → Fiber.State} {q : List FiberAndThread}
    {ft : FiberAndThread} (h : (popLocalTask m_state q).1 = some ft) : isExec m_state ft = false := by
  induction q with
  | nil => exact absurd h (by simp [popLocalTask])
  | cons it rest ih =>
    rw [popLocalTask] at h
    split_ifs at h with hexec
    · exact ih h
    · rw [← Option.some.inj h]
      simpa using hexec

theorem popLocalTask_none {m_state : Nat → Fiber.State} {q : List FiberAndThread}
    (h : (popLocalTask m_state q).1 = none) : (popLocalTask m_state q).2 = [] := by
  rw [popLocalTask_eq] at h ⊢
  cases hq : q.dropWhile (isExec m_state) with
  | nil => rfl
  | cons y ys => rw [hq] at h; simp at h

/-! ### `popGlobalTask` -/

/-- What the `m_mutex` section of `popGlobalTask` leaves behind: the returned
item, the items moved to the caller's processor, the global queue and the flag
`tickle_me`. -/
structure GlobalPull where
  ft : Option FiberAndThread
  batch : List FiberAndThread
  m_fibers : List FiberAndThread
  tickle_me : Bool
  deriving DecidableEq, Repr

/-- The inner loop of `popGlobalTask`, `size` being `batch.size()`: the items it
moves, the items it leaves and whether `tickle_me` is set by it or after it. -/
def pullBatch (m_state : Nat → Fiber.State) (batch_target : Nat) :
    Nat → List FiberAndThread → List FiberAndThread × List FiberAndThread × Bool
  | _, [] => ([], [], false)
  | size, it :: rest =>
    if size + 1 < batch_target then
      if it.thread ≠ -1 then
        let r := pullBatch m_state batch_target size rest
        (r.1, it :: r.2.1, true)
      else if isExec m_state it then
        let r := pullBatch m_state batch_target size rest
        (r.1, it :: r.2.1, r.2.2)
      else
        let r := pullBatch m_state batch_target (size + 1) rest
        (it :: r.1, r.2.1, r.2.2)
    else ([], it :: rest, true)

/-- The outer loop of `popGlobalTask`, for the thread `tid`. -/
def popGlobalLoop (m_state : Nat → Fiber.State) (tid : Int) (batch_target : Nat) :
    List FiberAndThread → GlobalPull
  | [] => ⟨none, [], [], false⟩
  | it :: rest =>
    if it.thread ≠ -1 ∧ it.thread ≠ tid then
      let r := popGlobalLoop m_state tid batch_target rest
      { r with m_fibers := it :: r.m_fibers, tickle_me := true }
    else if isExec m_state it then
      let r := popGlobalLoop m_state tid batch_target rest
      { r with m_fibers := it :: r.m_fibers }
    else if it.thread = -1 then
      let r := pullBatch m_state batch_target 0 rest
      ⟨some it, r.1, r.2.1, r.2.2⟩
    else ⟨some it, [], rest, !rest.isEmpty⟩

/-- The `m_mutex` section of `Scheduler::popGlobalTask`, for a worker bound to a
processor. -/
def popGlobalTask (m_state : Nat → Fiber.State) (tid : Int) (m_fibers : List FiberAndThread) :
    GlobalPull :=
  let batch_target := m_fibers.length / 2
  popGlobalLoop m_state tid (if batch_target = 0 then 1 else batch_target) m_fibers

theorem pullBatch_count (m_state : Nat → Fiber.State) (target : Nat) (x : FiberAndThread) :
    ∀ (q : List FiberAndThread) (size : Nat),
      q.count x = (pullBatch m_state target size q).1.count x
        + (pullBatch m_state target size q).2.1.count x := by
  intro q
  induction q with
  | nil => intro size; rfl
  | cons it rest ih =>
    intro size
    rw [pullBatch]
    split_ifs <;> simp only [List.count_cons, List.count_nil]
    · rw [ih size]; omega
    · rw [ih size]; omega
    · rw [ih (size + 1)]; omega
    · omega

theorem popGlobalLoop_count (m_state : Nat → Fiber.State) (tid : Int) (target : Nat)
    (x : FiberAndThread) (q : List FiberAndThread) :
    q.count x = (popGlobalLoop m_state tid target q).ft.toList.count x
      + (popGlobalLoop m_state tid target q).batch.count x
      + (popGlobalLoop m_state tid target q).m_fibers.count x := by
  induction q with
  | nil => rfl
  | cons it rest ih =>
    rw [popGlobalLoop]
    split_ifs
    · simp only [List.count_cons]; omega
    · simp only [List.count_cons]; omega
    · simp only [List.count_cons, Option.toList_some, List.count_nil]
      rw [pullBatch_count m_state target x rest 0]; omega
    · simp only [List.count_cons, Option.toList_some, List.count_nil]; omega

/-- **The global path loses nothing.** -/
theorem popGlobalTask_count (m_state : Nat → Fiber.State) (tid : Int) (q : List FiberAndThread)
    (x : FiberAndThread) :
    q.count x = (popGlobalTask m_state tid q).ft.toList.count x
      + (popGlobalTask m_state tid q).batch.count x
      + (popGlobalTask m_state tid q).m_fibers.count x :=
  popGlobalLoop_count m_state tid _ x q

/-- What is moved with an item is not pinned and does not run. -/
theorem pullBatch_free {m_state : Nat → Fiber.State} {target : Nat} {x : FiberAndThread} :
    ∀ {q : List FiberAndThread} {size : Nat}, x ∈ (pullBatch m_state target size q).1 →
      x.thread = -1 ∧ isExec m_state x = false := by
  intro q
  induction q with
  | nil => intro size h; exact absurd h List.not_mem_nil
  | cons it rest ih =>
    intro size h
    rw [pullBatch] at h
    split_ifs at h with _ hthread hexec
    · exact ih h
    · exact ih h
    · rcases List.mem_cons.mp h with rfl | h
      · exact ⟨not_not.mp hthread, eq_false_of_ne_true hexec⟩
      · exact ih h
    · exact absurd h List.not_mem_nil

/-- Nor does the global path, nor does it move one. -/
theorem popGlobalLoop_isExec {m_state : Nat → Fiber.State} {tid : Int} {target : Nat}
    {x : FiberAndThread} :
    ∀ {q : List FiberAndThread}, (popGlobalLoop m_state tid target q).ft = some x
        ∨ x ∈ (popGlobalLoop m_state tid target q).batch → isExec m_state x = false := by
  intro q
  induction q with
  | nil => intro h; exact absurd h (by simp [popGlobalLoop])
  | cons it rest ih =>
    intro h
    rw [popGlobalLoop] at h
    split_ifs at h with _ hexec
    · exact ih h
    · exact ih h
    · rcases h with h | h
      · rw [← Option.some.inj h]
        simpa using hexec
      · exact (pullBatch_free h).2
    · rcases h with h | h
      · rw [← Option.some.inj h]
        simpa using hexec
      · exact absurd h List.not_mem_nil

theorem popGlobalLoop_none {m_state : Nat → Fiber.State} {tid : Int} {target : Nat} :
    ∀ {q : List FiberAndThread}, (popGlobalLoop m_state tid target q).ft = none →
      (popGlobalLoop m_state tid target q).m_fibers = q ∧
        ∀ x ∈ q, x.thread = -1 → isExec m_state x := by
  intro q
  induction q with
  | nil => intro _; exact ⟨rfl, fun x hx => absurd hx (by simp)⟩
  | cons it rest ih =>
    intro h
    rw [popGlobalLoop] at h ⊢
    split_ifs at h ⊢ with hpin hexec
    · obtain ⟨hq, hall⟩ := ih h
      refine ⟨congrArg (it :: ·) hq, fun x hx hx1 => ?_⟩
      rcases List.mem_cons.mp hx with rfl | hx
      · exact absurd hx1 hpin.1
      · exact hall x hx hx1
    · obtain ⟨hq, hall⟩ := ih h
      refine ⟨congrArg (it :: ·) hq, fun x hx hx1 => ?_⟩
      rcases List.mem_cons.mp hx with rfl | hx
      · exact hexec
      · exact hall x hx hx1

/-- When the global path finds nothing it changes nothing, and every unpinned
item it passed over belongs to a fiber in `EXEC`. -/
theorem popGlobalTask_none {m_state : Nat → Fiber.State} {tid : Int} {q : List FiberAndThread}
    (h : (popGlobalTask m_state tid q).ft = none) :
    (popGlobalTask m_state tid q).m_fibers = q ∧
      ∀ x ∈ q, x.thread = -1 → isExec m_state x :=
  popGlobalLoop_none h

/-! ### `stealTask` -/

/-- The loop of the victim section of `stealTask`, `size` being `stolen.size()`.
The victim's queue is read from its end, so the argument and the kept items are
in reverse order. -/
def stealLoop (m_state : Nat → Fiber.State) (steal_target : Nat) :
    Nat → List FiberAndThread → List FiberAndThread × List FiberAndThread
  | _, [] => ([], [])
  | size, it :: rest =>
    if size < steal_target then
      if it.thread ≠ -1 then
        let r := stealLoop m_state steal_target size rest
        (r.1, it :: r.2)
      else if isExec m_state it then
        let r := stealLoop m_state steal_target size rest
        (r.1, it :: r.2)
      else
        let r := stealLoop m_state steal_target (size + 1) rest
        (it :: r.1, r.2)
    else ([], it :: rest)

/-- The victim section of `Scheduler::stealTask`: the stolen items and the queue
left to the victim. -/
def stealVictim (m_state : Nat → Fiber.State) (run_queue : List FiberAndThread) :
    List FiberAndThread × List FiberAndThread :=
  let steal_target := run_queue.length / 2
  let r := stealLoop m_state (if steal_target = 0 then 1 else steal_target) 0 run_queue.reverse
  (r.1, r.2.reverse)

theorem stealLoop_count (m_state : Nat → Fiber.State) (target : Nat) (x : FiberAndThread) :
    ∀ (q : List FiberAndThread) (size : Nat),
      q.count x = (stealLoop m_state target size q).1.count x
        + (stealLoop m_state target size q).2.count x := by
  intro q
  induction q with
  | nil => intro size; rfl
  | cons it rest ih =>
    intro size
    rw [stealLoop]
    split_ifs <;> simp only [List.count_cons, List.count_nil]
    · rw [ih size]; omega
    · rw [ih size]; omega
    · rw [ih (size + 1)]; omega
    · omega

/-- **Stealing loses nothing.** -/
theorem stealVictim_count (m_state : Nat → Fiber.State) (q : List FiberAndThread)
    (x : FiberAndThread) :
    q.count x = (stealVictim m_state q).1.count x + (stealVictim m_state q).2.count x := by
  have h := stealLoop_count m_state (if q.length / 2 = 0 then 1 else q.length / 2) x q.reverse 0
  rw [List.count_reverse] at h
  rw [h, stealVictim, List.count_reverse]

theorem mem_of_stealVictim {m_state : Nat → Fiber.State} {q : List FiberAndThread}
    {x : FiberAndThread} (h : x ∈ (stealVictim m_state q).2) : x ∈ q := by
  have hcount := stealVictim_count m_state q x
  have hpos := List.count_pos_iff.mpr h
  rw [← List.count_pos_iff]
  omega

/-- What is stolen is not pinned and does not run. -/
theorem stealLoop_free {m_state : Nat → Fiber.State} {target : Nat} {x : FiberAndThread} :
    ∀ {q : List FiberAndThread} {size : Nat}, x ∈ (stealLoop m_state target size q).1 →
      x.thread = -1 ∧ isExec m_state x = false := by
  intro q
  induction q with
  | nil => intro size h; exact absurd h List.not_mem_nil
  | cons it rest ih =>
    intro size h
    rw [stealLoop] at h
    split_ifs at h with _ hthread hexec
    · exact ih h
    · exact ih h
    · rcases List.mem_cons.mp h with rfl | h
      · exact ⟨not_not.mp hthread, eq_false_of_ne_true hexec⟩
      · exact ih h
    · exact absurd h List.not_mem_nil

/-- Nothing is stolen whose fiber is in `EXEC`. -/
theorem stealVictim_isExec {m_state : Nat → Fiber.State} {q : List FiberAndThread}
    {x : FiberAndThread} (h : x ∈ (stealVictim m_state q).1) : isExec m_state x = false :=
  (stealLoop_free h).2

end Scheduler

end FiberServer
