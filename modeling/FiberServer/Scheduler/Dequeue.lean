import FiberServer.Library.Extract
import FiberServer.Scheduler.Run
import Mathlib.Algebra.Order.Ring.Int

/-!
# `popGlobalTask` and `stealTask` as a whole

`Queue.lean` has the sections of the two functions, each on the queue it holds the lock of.  Here
they are whole, with their loops as the source writes them: an iterator of a `std::list` is what
stands before it, the last first, and what stands from it on; `erase` takes the item at the
iterator away, `++it` and `--it` move one item from one side to the other.

* `popGlobalTask_eq`, `stealSection_eq`: the loops come to the sections of `Queue.lean`.
* `pops`: what `popGlobalTask` returns, moves and leaves, and when it sets `tickle_me`.
* `steals`: whom `stealTask` steals from, and what.
-/

namespace FiberServer

namespace Scheduler

namespace Dequeue

open Extract

/-- The run queue and the counters of a `Scheduler::Processor`. -/
structure Processor where
  run_queue : List FiberAndThread
  stats : ProcessorStats := {}
  deriving DecidableEq, Repr

/-- Count something. -/
def Processor.count (p : Processor) (f : ProcessorStats → ProcessorStats) : Processor :=
  { p with stats := f p.stats }

@[simp] theorem run_queue_count (p : Processor) (f : ProcessorStats → ProcessorStats) :
    (p.count f).run_queue = p.run_queue := rfl

/-- `if(!batch.empty())`, then `run_queue.splice(run_queue.end(), batch)`. -/
def Processor.splice (p : Processor) (batch : List FiberAndThread) : Processor :=
  { p with run_queue := if batch.isEmpty then p.run_queue else p.run_queue ++ batch }

@[simp] theorem run_queue_splice (p : Processor) (batch : List FiberAndThread) :
    (p.splice batch).run_queue = p.run_queue ++ batch := by
  cases batch with
  | nil => exact (List.append_nil _).symm
  | cons it batch => rfl

/-! ### `popGlobalTask` -/

/-- The locals of `popGlobalTask` when a loop ends. -/
structure Scan where
  /-- before the iterator, the last first -/
  before : List FiberAndThread
  it : List FiberAndThread
  batch : List FiberAndThread
  tickle_me : Bool
  deriving DecidableEq, Repr

/-- The inner loop. -/
def batchLoop (m_state : Nat → Fiber.State) (batch_target : Nat)
    (before batch : List FiberAndThread) (tickle_me : Bool) : List FiberAndThread → Scan
  | [] => ⟨before, [], batch, tickle_me⟩
  | it :: rest =>
    if batch.length + 1 < batch_target then
      if it.thread ≠ -1 then batchLoop m_state batch_target (it :: before) batch true rest
      else if isExec m_state it then
        batchLoop m_state batch_target (it :: before) batch tickle_me rest
      else batchLoop m_state batch_target before (batch ++ [it]) tickle_me rest
    else ⟨before, it :: rest, batch, tickle_me⟩

/-- From `m_fibers.erase(it++)` to `break`, when `ft` is taken. -/
def takeFirst (m_state : Nat → Fiber.State) (processor : Bool) (batch_target : Nat)
    (before : List FiberAndThread) (tickle_me : Bool) (ft : FiberAndThread)
    (it : List FiberAndThread) : Scan :=
  let scan := if ft.thread = -1 ∧ processor then
      batchLoop m_state batch_target before [] tickle_me it
    else ⟨before, it, [], tickle_me⟩
  { scan with tickle_me := scan.tickle_me || !scan.it.isEmpty }

/-- The outer loop, for the thread `tid`. -/
def globalLoop (m_state : Nat → Fiber.State) (tid : Int) (processor : Bool) (batch_target : Nat)
    (before : List FiberAndThread) (tickle_me : Bool) :
    List FiberAndThread → Option FiberAndThread × Scan
  | [] => (none, ⟨before, [], [], tickle_me⟩)
  | it :: rest =>
    if it.thread ≠ -1 ∧ it.thread ≠ tid then
      globalLoop m_state tid processor batch_target (it :: before) true rest
    else if isExec m_state it then
      globalLoop m_state tid processor batch_target (it :: before) tickle_me rest
    else (some it, takeFirst m_state processor batch_target before tickle_me it rest)

/-- What `popGlobalTask` leaves; `ft` is `none` when it returns false. -/
structure Popped where
  ft : Option FiberAndThread
  m_fibers : List FiberAndThread
  processor : Option Processor
  tickle_me : Bool
  deriving DecidableEq, Repr

/-- `Scheduler::popGlobalTask`; `processor` is `t_processor`, if it is one of this scheduler. -/
def popGlobalTask (m_state : Nat → Fiber.State) (tid : Int) (m_fibers : List FiberAndThread)
    (processor : Option Processor) (tickle_me : Bool) : Popped :=
  let batch_target := m_fibers.length / 2
  let batch_target := if batch_target = 0 then 1 else batch_target
  let (ft, scan) := globalLoop m_state tid processor.isSome batch_target [] tickle_me m_fibers
  { ft := ft
    m_fibers := scan.before.reverse ++ scan.it
    processor :=
      if ft.isSome then
        processor.map fun p =>
          (p.count fun st => { st with
            global_pull_count := st.global_pull_count + (scan.batch.length + 1)
            global_batch_count := st.global_batch_count + 1 }).splice scan.batch
      else processor
    tickle_me := scan.tickle_me }

/-! ### `stealTask` -/

/-- The loop of a victim's section: what it has stolen, and the victim's queue. -/
def stealLoop (m_state : Nat → Fiber.State) (steal_target : Nat)
    (stolen it : List FiberAndThread) :
    List FiberAndThread → List FiberAndThread × List FiberAndThread
  | [] => (stolen, it)
  | current_it :: before =>
    if stolen.length < steal_target then
      if current_it.thread ≠ -1 then stealLoop m_state steal_target stolen (current_it :: it) before
      else if isExec m_state current_it then
        stealLoop m_state steal_target stolen (current_it :: it) before
      else stealLoop m_state steal_target (stolen ++ [current_it]) it before
    else (stolen, (current_it :: before).reverse ++ it)

def stealSection (m_state : Nat → Fiber.State) (run_queue : List FiberAndThread) :
    List FiberAndThread × List FiberAndThread :=
  let steal_target := run_queue.length / 2
  let steal_target := if steal_target = 0 then 1 else steal_target
  stealLoop m_state steal_target [] [] run_queue.reverse

variable {n : Nat}

/-- What `stealTask` leaves; `ft` is `none` when it returns false. -/
structure Stolen (n : Nat) where
  ft : Option FiberAndThread
  m_processors : Fin n → Processor
  m_nextStealProcessor : Nat

/-- The loop over the offsets, with the processors that it comes to. -/
def victimLoop (m_state : Nat → Fiber.State) (current : Fin n) (m_processors : Fin n → Processor) :
    List (Fin n) → Option FiberAndThread × (Fin n → Processor)
  | [] =>
    let c := m_processors current
    (none, Function.update m_processors current (c.count fun st =>
      { st with steal_fail_count := st.steal_fail_count + 1 }))
  | victim :: rest =>
    if victim = current then victimLoop m_state current m_processors rest
    else
      let v := m_processors victim
      let (stolen, run_queue) := stealSection m_state v.run_queue
      let m_processors := Function.update m_processors victim { v with run_queue := run_queue }
      match stolen with
      | [] => victimLoop m_state current m_processors rest
      | ft :: stolen =>
        let c := m_processors current
        (some ft, Function.update m_processors current
          ((c.count fun st => { st with
            steal_count := st.steal_count + (stolen.length + 1)
            steal_batch_count := st.steal_batch_count + 1 }).splice stolen))

/-- `m_processors[(start + offset) % m_processors.size()]` for each offset. -/
def rotation (n start : Nat) : List (Fin n) :=
  (List.finRange n).map fun offset : Fin n => ⟨(start + offset) % n, Nat.mod_lt _ offset.pos⟩

/-- `Scheduler::stealTask`; `current` is `t_processor`, if it is one of this scheduler. -/
def stealTask (m_state : Nat → Fiber.State) (current : Option (Fin n))
    (m_processors : Fin n → Processor) (m_nextStealProcessor : Nat) : Stolen n :=
  match current with
  | none => ⟨none, m_processors, m_nextStealProcessor⟩
  | some current =>
    let c := m_processors current
    let m_processors := Function.update m_processors current (c.count fun st =>
      { st with steal_attempt_count := st.steal_attempt_count + 1 })
    if n ≤ 1 then
      let c := m_processors current
      ⟨none, Function.update m_processors current (c.count fun st =>
        { st with steal_fail_count := st.steal_fail_count + 1 }), m_nextStealProcessor⟩
    else
      -- the counter is a `size_t`
      let start := m_nextStealProcessor % n
      let (ft, m_processors) := victimLoop m_state current m_processors (rotation n start)
      ⟨ft, m_processors, (m_nextStealProcessor + 1) % 2 ^ 64⟩

/-! ### The global queue -/

/-- An item that the thread `tid` may take. -/
def eligible (m_state : Nat → Fiber.State) (tid : Int) (ft : FiberAndThread) : Bool :=
  !isExec m_state ft && (ft.thread == -1 || ft.thread == tid)

/-- An item that may go into a run queue. -/
def movable (m_state : Nat → Fiber.State) (ft : FiberAndThread) : Bool :=
  ft.thread == -1 && !isExec m_state ft

def pinned (ft : FiberAndThread) : Bool := ft.thread != -1

/-- Pinned to a thread other than `tid`. -/
def elsewhere (tid : Int) (ft : FiberAndThread) : Bool := pinned ft && ft.thread != tid

theorem batchLoop_taken (m_state : Nat → Fiber.State) (batch_target : Nat) :
    ∀ (l before batch : List FiberAndThread) (tickle_me : Bool), ∃ seen rest moved left,
      Taken (movable m_state) (batch_target - (batch.length + 1)) l seen rest moved left
        ∧ batchLoop m_state batch_target before batch tickle_me l
          = { before := (seen.filter fun x => !movable m_state x).reverse ++ before
              it := rest
              batch := batch ++ moved
              tickle_me := tickle_me || seen.any pinned } := by
  intro l
  induction l with
  | nil =>
    intro before batch tickle_me
    refine ⟨[], [], [], [], .nil _ _, ?_⟩
    rw [batchLoop, List.append_nil, List.any_nil, Bool.or_false]
    rfl
  | cons it l ih =>
    intro before batch tickle_me
    rw [batchLoop]
    by_cases hroom : batch.length + 1 < batch_target
    · have htarget : batch_target - (batch.length + 1)
          = batch_target - (batch.length + 1 + 1) + 1 := by omega
      rw [if_pos hroom]
      by_cases hpin : it.thread ≠ -1
      · obtain ⟨seen, rest, moved, left, htaken, hloop⟩ := ih (it :: before) batch true
        have hit : movable m_state it = false := by simp [movable, hpin]
        refine ⟨it :: seen, rest, moved, it :: left, ?_, ?_⟩
        · rw [htarget] at htaken ⊢
          exact htaken.skip hit
        · rw [if_pos hpin, hloop]
          simp [hit, pinned, hpin]
      · rw [if_neg hpin]
        rw [ne_eq, not_not] at hpin
        by_cases hexec : isExec m_state it = true
        · obtain ⟨seen, rest, moved, left, htaken, hloop⟩ := ih (it :: before) batch tickle_me
          have hit : movable m_state it = false := by simp [movable, hexec]
          refine ⟨it :: seen, rest, moved, it :: left, ?_, ?_⟩
          · rw [htarget] at htaken ⊢
            exact htaken.skip hit
          · rw [if_pos hexec, hloop]
            simp [hit, pinned, hpin]
        · obtain ⟨seen, rest, moved, left, htaken, hloop⟩ := ih before (batch ++ [it]) tickle_me
          have hit : movable m_state it = true := by simp [movable, hpin, hexec]
          refine ⟨it :: seen, rest, it :: moved, left, ?_, ?_⟩
          · rw [htarget]
            rw [List.length_append, List.length_singleton] at htaken
            exact htaken.take hit
          · rw [if_neg hexec, hloop]
            simp [hit, pinned, hpin]
    · refine ⟨[], it :: l, [], it :: l, ?_, ?_⟩
      · rw [show batch_target - (batch.length + 1) = 0 by omega]
        exact .enough _ _
      · rw [if_neg hroom, List.append_nil, List.any_nil, Bool.or_false]
        rfl

/-- What `popGlobalTask` has come to when it returns `ft`: it has passed over `passed`, and behind
`ft` it has looked at `seen` and not at `rest`. -/
structure Pops (m_state : Nat → Fiber.State) (tid : Int) (m_fibers : List FiberAndThread)
    (processor : Option Processor) (tickle_me : Bool) (passed : List FiberAndThread)
    (ft : FiberAndThread) (seen rest : List FiberAndThread) (r : Popped) : Prop where
  split : m_fibers = passed ++ ft :: (seen ++ rest)
  first : ∀ x ∈ passed, eligible m_state tid x = false
  taken : eligible m_state tid ft = true
  returned : r.ft = some ft
  left : r.m_fibers = passed ++ ((seen.filter fun x => !movable m_state x) ++ rest)
  moved : r.processor.map Processor.run_queue
    = processor.map fun p => p.run_queue ++ seen.filter (movable m_state)
  alone : ft.thread ≠ -1 ∨ processor = none → seen = []
  /-- Half of the queue is taken, the last item that was looked at with it, or its end is
  reached. -/
  filled : ft.thread = -1 → processor ≠ none →
    (seen.countP (movable m_state) + 1 = max 1 (m_fibers.length / 2)
        ∧ ∀ x ∈ seen.getLast?, movable m_state x = true)
      ∨ seen.countP (movable m_state) + 1 < max 1 (m_fibers.length / 2) ∧ rest = []
  tickled : r.tickle_me
    = (tickle_me || passed.any (elsewhere tid) || seen.any pinned || !rest.isEmpty)

/-- The outer loop on `l`: it comes to the end, or to the first item that `tid` may take. -/
inductive Scanned (m_state : Nat → Fiber.State) (tid : Int) (processor : Bool) (batch_target : Nat)
    (before : List FiberAndThread) (tickle_me : Bool) (l : List FiberAndThread)
    (r : Option FiberAndThread × Scan) : Prop
  | finished (hnone : ∀ x ∈ l, eligible m_state tid x = false)
    (hr : r = (none, ⟨l.reverse ++ before, [], [], tickle_me || l.any (elsewhere tid)⟩))
  | first (passed : List FiberAndThread) (ft : FiberAndThread) (rest : List FiberAndThread)
    (hl : l = passed ++ ft :: rest) (hpassed : ∀ x ∈ passed, eligible m_state tid x = false)
    (hft : eligible m_state tid ft = true)
    (hr : r = (some ft, takeFirst m_state processor batch_target (passed.reverse ++ before)
      (tickle_me || passed.any (elsewhere tid)) ft rest))

/-- An item is passed over. -/
theorem Scanned.pass {m_state : Nat → Fiber.State} {tid : Int} {processor : Bool}
    {batch_target : Nat} {before : List FiberAndThread} {tickle_me b : Bool}
    {l : List FiberAndThread} {it : FiberAndThread} {r : Option FiberAndThread × Scan}
    (hit : eligible m_state tid it = false) (hb : b = (tickle_me || elsewhere tid it))
    (h : Scanned m_state tid processor batch_target (it :: before) b l r) :
    Scanned m_state tid processor batch_target before tickle_me (it :: l) r := by
  subst hb
  cases h with
  | finished hnone hr =>
    refine .finished (List.forall_mem_cons.mpr ⟨hit, hnone⟩) ?_
    rw [hr, List.reverse_cons, List.append_assoc, List.any_cons, Bool.or_assoc]
    rfl
  | first passed ft rest hl hpassed hft hr =>
    refine .first (it :: passed) ft rest (congrArg (it :: ·) hl)
      (List.forall_mem_cons.mpr ⟨hit, hpassed⟩) hft ?_
    rw [hr, List.reverse_cons, List.append_assoc, List.any_cons, Bool.or_assoc]
    rfl

theorem globalLoop_scanned (m_state : Nat → Fiber.State) (tid : Int) (processor : Bool)
    (batch_target : Nat) :
    ∀ (l before : List FiberAndThread) (tickle_me : Bool),
      Scanned m_state tid processor batch_target before tickle_me l
        (globalLoop m_state tid processor batch_target before tickle_me l) := by
  intro l
  induction l with
  | nil =>
    intro before tickle_me
    refine .finished (fun x hx => absurd hx List.not_mem_nil) ?_
    rw [globalLoop, List.any_nil, Bool.or_false]
    rfl
  | cons it l ih =>
    intro before tickle_me
    rw [globalLoop]
    by_cases hpin : it.thread ≠ -1 ∧ it.thread ≠ tid
    · have hit : eligible m_state tid it = false := by simp [eligible, hpin]
      have hthere : elsewhere tid it = true := by simp [elsewhere, pinned, hpin]
      rw [if_pos hpin]
      exact (ih (it :: before) true).pass hit (by rw [hthere, Bool.or_true])
    · have hhere : elsewhere tid it = false := by
        simpa [elsewhere, pinned] using hpin
      rw [if_neg hpin]
      by_cases hexec : isExec m_state it = true
      · have hit : eligible m_state tid it = false := by simp [eligible, hexec]
        rw [if_pos hexec]
        exact (ih (it :: before) tickle_me).pass hit (by rw [hhere, Bool.or_false])
      · have hit : eligible m_state tid it = true := by
          simp only [eligible, hexec, Bool.not_false, Bool.true_and, Bool.or_eq_true, beq_iff_eq]
          tauto
        rw [if_neg hexec]
        refine .first [] it l rfl (fun x hx => absurd hx List.not_mem_nil) hit ?_
        rw [List.any_nil, Bool.or_false]
        rfl

/-- What is moved with the item that is returned. -/
theorem takeFirst_taken (m_state : Nat → Fiber.State) (processor : Bool) (batch_target : Nat)
    (before : List FiberAndThread) (tickle_me : Bool) (ft : FiberAndThread)
    (it : List FiberAndThread) :
    ∃ seen rest moved left,
      Taken (movable m_state) (if ft.thread = -1 ∧ processor then batch_target - 1 else 0)
          it seen rest moved left
        ∧ takeFirst m_state processor batch_target before tickle_me ft it
          = { before := (seen.filter fun x => !movable m_state x).reverse ++ before
              it := rest
              batch := moved
              tickle_me := tickle_me || seen.any pinned || !rest.isEmpty } := by
  rw [takeFirst]
  split_ifs
  · obtain ⟨seen, rest, moved, left, htaken, hloop⟩ :=
      batchLoop_taken m_state batch_target it before [] tickle_me
    refine ⟨seen, rest, moved, left, htaken, ?_⟩
    rw [hloop, List.nil_append]
  · refine ⟨[], it, [], it, .enough _ _, ?_⟩
    rw [List.any_nil, Bool.or_false]
    rfl

/-- Half of the queue, and one item at least. -/
theorem half_eq (q : List FiberAndThread) :
    (if q.length / 2 = 0 then 1 else q.length / 2) = max 1 (q.length / 2) := by
  split_ifs <;> omega

/-- **What `popGlobalTask` does.**  If it returns false, there is no item in the queue that the
caller may take, and no queue has changed.  Otherwise it returns the first such item; if that is
not pinned and the caller has a processor, the next items that are not pinned and not in `EXEC`
have gone to the end of its run queue, in their order, until with the returned one they make half
of the queue or the queue has ended.  All other items stay in their order.  `tickle_me` is set
exactly if it was set, an item for another thread was passed over, a pinned item was passed over
behind the returned one, or there are items behind the last one that was looked at. -/
theorem pops (m_state : Nat → Fiber.State) (tid : Int) (m_fibers : List FiberAndThread)
    (processor : Option Processor) (tickle_me : Bool) :
    (∀ x ∈ m_fibers, eligible m_state tid x = false)
        ∧ popGlobalTask m_state tid m_fibers processor tickle_me
          = { ft := none
              m_fibers := m_fibers
              processor := processor
              tickle_me := tickle_me || m_fibers.any (elsewhere tid) }
      ∨ ∃ passed ft seen rest, Pops m_state tid m_fibers processor tickle_me passed ft seen rest
          (popGlobalTask m_state tid m_fibers processor tickle_me) := by
  rw [popGlobalTask]
  simp only [half_eq]
  generalize hr : globalLoop m_state tid processor.isSome (max 1 (m_fibers.length / 2)) [] tickle_me
    m_fibers = r
  have hscanned := globalLoop_scanned m_state tid processor.isSome (max 1 (m_fibers.length / 2))
    m_fibers [] tickle_me
  rw [hr] at hscanned
  cases hscanned with
  | finished hnone hr =>
    refine .inl ⟨hnone, ?_⟩
    simp [hr]
  | first passed ft behind hl hpassed hft hr =>
    refine .inr ⟨passed, ft, ?_⟩
    rw [List.append_nil] at hr
    obtain ⟨seen, rest, moved, left, htaken, hfirst⟩ := takeFirst_taken m_state processor.isSome
      (max 1 (m_fibers.length / 2)) passed.reverse (tickle_me || passed.any (elsewhere tid)) ft
      behind
    rw [hfirst] at hr
    have hmoved : seen.filter (movable m_state) = moved := htaken.taken_eq.symm
    refine ⟨seen, rest, ?_⟩
    constructor
    · rw [hl, htaken.split]
    · exact hpassed
    · exact hft
    · rw [hr]
    · simp [hr]
    · rw [hr, hmoved]
      cases processor with
      | none => rfl
      | some p => simp
    · intro halone
      have hnot : ¬ (ft.thread = -1 ∧ processor.isSome = true) := by
        rintro ⟨hthread, hsome⟩
        rcases halone with hne | hnone
        · exact hne hthread
        · rw [hnone] at hsome
          exact nomatch hsome
      rw [if_neg hnot] at htaken
      exact htaken.seen_of_zero
    · intro hthread hprocessor
      rw [if_pos ⟨hthread, Option.isSome_iff_ne_none.mpr hprocessor⟩] at htaken
      rw [List.countP_eq_length_filter, hmoved]
      rcases htaken.stops with ⟨hlt, hrest⟩ | ⟨hlength, hlast⟩
      · exact .inr ⟨by omega, hrest⟩
      · exact .inl ⟨by omega, hlast⟩
    · rw [hr]

/-- An item that is pinned to the caller and still in `EXEC`, and one that anybody may take. -/
def ownFirst : List FiberAndThread :=
  [{ ticket := 0, fiber := some 0, cb := none, thread := 1 },
    { ticket := 1, fiber := none, cb := some 0, thread := -1 }]

/-- A pinned item that was passed over and stays does not always set `tickle_me`. -/
theorem ownFirst_untickled :
    ¬ ∀ (m_state : Nat → Fiber.State) (tid : Int) (m_fibers : List FiberAndThread)
      (processor : Option Processor) (tickle_me : Bool) (passed : List FiberAndThread)
      (ft : FiberAndThread) (behind : List FiberAndThread),
      m_fibers = passed ++ ft :: behind →
      (popGlobalTask m_state tid m_fibers processor tickle_me).ft = some ft →
      (∃ x ∈ passed, pinned x = true
        ∧ x ∈ (popGlobalTask m_state tid m_fibers processor tickle_me).m_fibers) →
      (popGlobalTask m_state tid m_fibers processor tickle_me).tickle_me = true := by
  intro h
  have htickled := h (fun _ => .EXEC) 1 ownFirst none false [ownFirst[0]] ownFirst[1] [] rfl
    (by decide) (by decide)
  exact absurd htickled (by decide)

/-! ### The sections of `Queue.lean` -/

theorem batchLoop_eq (m_state : Nat → Fiber.State) (batch_target : Nat) :
    ∀ (l before batch : List FiberAndThread) (tickle_me : Bool),
      let scan := batchLoop m_state batch_target before batch tickle_me l
      let r := pullBatch m_state batch_target batch.length l
      scan.batch = batch ++ r.1 ∧ scan.before.reverse ++ scan.it = before.reverse ++ r.2.1
        ∧ (scan.tickle_me || !scan.it.isEmpty) = (tickle_me || r.2.2) := by
  intro l
  induction l with
  | nil =>
    intro before batch tickle_me
    simp [batchLoop, pullBatch]
  | cons it l ih =>
    intro before batch tickle_me
    simp only [batchLoop, pullBatch]
    split_ifs with hroom hpin hexec
    · obtain ⟨hbatch, hleft, htickle⟩ := ih (it :: before) batch true
      refine ⟨hbatch, ?_, ?_⟩
      · rw [hleft, List.reverse_cons, List.append_assoc]
        rfl
      · rw [htickle, Bool.true_or, Bool.or_true]
    · obtain ⟨hbatch, hleft, htickle⟩ := ih (it :: before) batch tickle_me
      refine ⟨hbatch, ?_, htickle⟩
      rw [hleft, List.reverse_cons, List.append_assoc]
      rfl
    · obtain ⟨hbatch, hleft, htickle⟩ := ih before (batch ++ [it]) tickle_me
      rw [List.length_append, List.length_singleton] at hbatch hleft htickle
      refine ⟨?_, hleft, htickle⟩
      rw [hbatch, List.append_assoc]
      rfl
    · simp

theorem globalLoop_eq (m_state : Nat → Fiber.State) (tid : Int) (batch_target : Nat) :
    ∀ (l before : List FiberAndThread) (tickle_me : Bool),
      let (ft, scan) := globalLoop m_state tid true batch_target before tickle_me l
      let r := popGlobalLoop m_state tid batch_target l
      ft = r.ft ∧ scan.batch = r.batch
        ∧ scan.before.reverse ++ scan.it = before.reverse ++ r.m_fibers
        ∧ scan.tickle_me = (tickle_me || r.tickle_me) := by
  intro l
  induction l with
  | nil =>
    intro before tickle_me
    simp [globalLoop, popGlobalLoop]
  | cons it l ih =>
    intro before tickle_me
    simp only [globalLoop, popGlobalLoop]
    split_ifs with hpin hexec hfree
    · obtain ⟨hft, hbatch, hleft, htickle⟩ := ih (it :: before) true
      refine ⟨hft, hbatch, ?_, ?_⟩
      · rw [hleft, List.reverse_cons, List.append_assoc]
        rfl
      · rw [htickle, Bool.true_or, Bool.or_true]
    · obtain ⟨hft, hbatch, hleft, htickle⟩ := ih (it :: before) tickle_me
      refine ⟨hft, hbatch, ?_, htickle⟩
      rw [hleft, List.reverse_cons, List.append_assoc]
      rfl
    · obtain ⟨hbatch, hleft, htickle⟩ := batchLoop_eq m_state batch_target l before [] tickle_me
      simp only [takeFirst, hfree, and_self, if_true]
      exact ⟨trivial, hbatch, hleft, htickle⟩
    · simp [takeFirst, hfree]

/-- **The section of `popGlobalTask`**, and the splice behind it. -/
theorem popGlobalTask_eq (m_state : Nat → Fiber.State) (tid : Int) (m_fibers : List FiberAndThread)
    (p : Processor) (tickle_me : Bool) :
    let r := popGlobalTask m_state tid m_fibers (some p) tickle_me
    let pull := Scheduler.popGlobalTask m_state tid m_fibers
    r.ft = pull.ft ∧ r.m_fibers = pull.m_fibers
      ∧ r.processor.map Processor.run_queue = some (p.run_queue ++ pull.batch)
      ∧ r.tickle_me = (tickle_me || pull.tickle_me) := by
  simp only [popGlobalTask, Scheduler.popGlobalTask, Option.isSome_some]
  generalize (if m_fibers.length / 2 = 0 then 1 else m_fibers.length / 2) = batch_target
  obtain ⟨hft, hbatch, hleft, htickle⟩ :=
    globalLoop_eq m_state tid batch_target m_fibers [] tickle_me
  have hscanned := globalLoop_scanned m_state tid true batch_target m_fibers [] tickle_me
  generalize globalLoop m_state tid true batch_target [] tickle_me m_fibers = r at *
  refine ⟨hft, hleft, ?_, htickle⟩
  rw [← hbatch]
  cases hscanned with
  | finished hnone hr => simp [hr]
  | first passed ft rest hl hpassed hft hr =>
    have hsome : r.1.isSome = true := by rw [hr]; rfl
    simp [hsome]

/-! ### The run queues -/

theorem stealLoop_taken (m_state : Nat → Fiber.State) (steal_target : Nat) :
    ∀ l stolen it : List FiberAndThread, ∃ seen rest moved left,
      Taken (movable m_state) (steal_target - stolen.length) l seen rest moved left
        ∧ stealLoop m_state steal_target stolen it l = (stolen ++ moved, left.reverse ++ it) := by
  intro l
  induction l with
  | nil =>
    intro stolen it
    refine ⟨[], [], [], [], .nil _ _, ?_⟩
    rw [stealLoop, List.append_nil]
    rfl
  | cons current_it l ih =>
    intro stolen it
    rw [stealLoop]
    by_cases hroom : stolen.length < steal_target
    · have htarget : steal_target - stolen.length = steal_target - (stolen.length + 1) + 1 := by
        omega
      rw [if_pos hroom]
      -- the item stays where it is
      have hskip (hit : movable m_state current_it = false) : ∃ seen rest moved left,
          Taken (movable m_state) (steal_target - stolen.length) (current_it :: l) seen rest moved
              left
            ∧ stealLoop m_state steal_target stolen (current_it :: it) l
              = (stolen ++ moved, left.reverse ++ it) := by
        obtain ⟨seen, rest, moved, left, htaken, hloop⟩ := ih stolen (current_it :: it)
        refine ⟨current_it :: seen, rest, moved, current_it :: left, ?_, ?_⟩
        · rw [htarget] at htaken ⊢
          exact htaken.skip hit
        · rw [hloop, List.reverse_cons, List.append_assoc]
          rfl
      by_cases hpin : current_it.thread ≠ -1
      · rw [if_pos hpin]
        exact hskip (by simp [movable, hpin])
      · rw [if_neg hpin]
        by_cases hexec : isExec m_state current_it = true
        · rw [if_pos hexec]
          exact hskip (by simp [movable, hexec])
        · rw [if_neg hexec]
          rw [ne_eq, not_not] at hpin
          obtain ⟨seen, rest, moved, left, htaken, hloop⟩ := ih (stolen ++ [current_it]) it
          refine ⟨current_it :: seen, rest, current_it :: moved, left, ?_, ?_⟩
          · rw [htarget]
            rw [List.length_append, List.length_singleton] at htaken
            exact htaken.take (by simp [movable, hpin, hexec])
          · rw [hloop, List.append_assoc]
            rfl
    · refine ⟨[], current_it :: l, [], current_it :: l, ?_, ?_⟩
      · rw [show steal_target - stolen.length = 0 by omega]
        exact .enough _ _
      · rw [if_neg hroom, List.append_nil]

/-- **A victim's section**: from the end of its queue, what may be stolen of `back`. -/
theorem stealSection_spec (m_state : Nat → Fiber.State) (q : List FiberAndThread) :
    ∃ front back, q = front ++ back
      ∧ back.countP (movable m_state) = min (max 1 (q.length / 2)) (q.countP (movable m_state))
      ∧ stealSection m_state q = ((back.filter (movable m_state)).reverse,
        front ++ back.filter fun x => !movable m_state x) := by
  obtain ⟨seen, rest, moved, left, htaken, hloop⟩ :=
    stealLoop_taken m_state (max 1 (q.length / 2)) q.reverse [] []
  refine ⟨rest.reverse, seen.reverse, ?_, ?_, ?_⟩
  · rw [← List.reverse_append, ← htaken.split, List.reverse_reverse]
  · have hlength := htaken.length_taken
    rw [htaken.taken_eq, ← List.countP_eq_length_filter, List.countP_reverse] at hlength
    rw [List.countP_reverse, hlength]
    rfl
  · rw [stealSection, half_eq]
    rw [hloop, htaken.taken_eq, htaken.left_eq]
    simp [List.filter_reverse]

theorem stealLoop_eq (m_state : Nat → Fiber.State) (steal_target : Nat) :
    ∀ l stolen it : List FiberAndThread, stealLoop m_state steal_target stolen it l
      = (stolen ++ (Scheduler.stealLoop m_state steal_target stolen.length l).1,
        (Scheduler.stealLoop m_state steal_target stolen.length l).2.reverse ++ it) := by
  intro l
  induction l with
  | nil =>
    intro stolen it
    simp [stealLoop, Scheduler.stealLoop]
  | cons current_it l ih =>
    intro stolen it
    simp only [stealLoop, Scheduler.stealLoop]
    split_ifs
    · rw [ih, List.reverse_cons, List.append_assoc]
      rfl
    · rw [ih, List.reverse_cons, List.append_assoc]
      rfl
    · rw [ih, List.length_append, List.length_singleton, List.append_assoc]
      rfl
    · rw [List.append_nil]

theorem stealSection_eq (m_state : Nat → Fiber.State) (q : List FiberAndThread) :
    stealSection m_state q = stealVictim m_state q := by
  simp only [stealSection, stealVictim, stealLoop_eq, List.nil_append, List.append_nil,
    List.length_nil]

theorem mem_rotation {n : Nat} (start : Nat) (u : Fin n) : u ∈ rotation n start := by
  have hn : 0 < n := u.pos
  refine List.mem_map.mpr ⟨⟨(u + (n - start % n)) % n, Nat.mod_lt _ hn⟩, List.mem_finRange _, ?_⟩
  apply Fin.ext
  have hstart : start % n < n := Nat.mod_lt _ hn
  show (start + (u + (n - start % n)) % n) % n = u
  rw [Nat.add_mod_mod, ← Nat.mod_add_mod]
  rw [show start % n + (u + (n - start % n)) = u + n by omega, Nat.add_mod_right,
    Nat.mod_eq_of_lt u.isLt]

/-- Nothing can be stolen from the processor. -/
def Processor.spared (m_state : Nat → Fiber.State) (p : Processor) : Prop :=
  ∀ x ∈ p.run_queue, movable m_state x = false

/-- What `stealTask` has come to when it returns `ft`: of the processors `victims`, in this order,
those of `passed` have nothing that can be stolen, and of the queue of `victim` it has looked at
`back`, from its end. -/
structure Steals (m_state : Nat → Fiber.State) (current : Fin n) (m_processors : Fin n → Processor)
    (victims passed : List (Fin n)) (victim : Fin n) (front back : List FiberAndThread)
    (ft : FiberAndThread) (stolen : List FiberAndThread)
    (r : Option FiberAndThread × (Fin n → Processor)) : Prop where
  first : passed ++ [victim] <+: victims
  nothing : ∀ u ∈ passed, u ≠ current → (m_processors u).spared m_state
  other : victim ≠ current
  split : (m_processors victim).run_queue = front ++ back
  half : back.countP (movable m_state) = min (max 1 ((m_processors victim).run_queue.length / 2))
    ((m_processors victim).run_queue.countP (movable m_state))
  taken : (back.filter (movable m_state)).reverse = ft :: stolen
  returned : r.1 = some ft
  left : (r.2 victim).run_queue = front ++ back.filter fun x => !movable m_state x
  moved : (r.2 current).run_queue = (m_processors current).run_queue ++ stolen
  others : ∀ u, u ≠ victim → u ≠ current → (r.2 u).run_queue = (m_processors u).run_queue

/-- The processors `victims`, in this order, have nothing that can be stolen, or the first of them
that has something is the victim. -/
inductive Searched (m_state : Nat → Fiber.State) (current : Fin n)
    (m_processors : Fin n → Processor) (victims : List (Fin n))
    (r : Option FiberAndThread × (Fin n → Processor)) : Prop
  | nothing (hnone : r.1 = none) (hsame : ∀ u, (r.2 u).run_queue = (m_processors u).run_queue)
    (hspared : ∀ u ∈ victims, u ≠ current → (m_processors u).spared m_state)
  | found (passed : List (Fin n)) (victim : Fin n) (front back : List FiberAndThread)
    (ft : FiberAndThread) (stolen : List FiberAndThread)
    (h : Steals m_state current m_processors victims passed victim front back ft stolen r)

theorem Searched.pass {m_state : Nat → Fiber.State} {current : Fin n}
    {m_processors : Fin n → Processor} {victims : List (Fin n)} {u : Fin n}
    {r : Option FiberAndThread × (Fin n → Processor)}
    (hu : u ≠ current → (m_processors u).spared m_state)
    (h : Searched m_state current m_processors victims r) :
    Searched m_state current m_processors (u :: victims) r := by
  cases h with
  | nothing hnone hsame hspared =>
    exact .nothing hnone hsame (List.forall_mem_cons.mpr ⟨hu, hspared⟩)
  | found passed victim front back ft stolen h =>
    exact .found (u :: passed) victim front back ft stolen { h with
      first := List.cons_prefix_cons.mpr ⟨rfl, h.first⟩
      nothing := List.forall_mem_cons.mpr ⟨hu, h.nothing⟩ }

/-- Only the run queues matter. -/
theorem Searched.congr {m_state : Nat → Fiber.State} {current : Fin n}
    {m_processors m_processors' : Fin n → Processor} {victims : List (Fin n)}
    {r : Option FiberAndThread × (Fin n → Processor)}
    (hsame : ∀ u, (m_processors' u).run_queue = (m_processors u).run_queue)
    (h : Searched m_state current m_processors' victims r) :
    Searched m_state current m_processors victims r := by
  have hspared (u : Fin n) (hu : (m_processors' u).spared m_state) :
      (m_processors u).spared m_state := by
    rw [Processor.spared, ← hsame u]
    exact hu
  cases h with
  | nothing hnone hkept hnothing =>
    exact .nothing hnone (fun u => (hkept u).trans (hsame u))
      fun u hu hne => hspared u (hnothing u hu hne)
  | found passed victim front back ft stolen h =>
    refine .found passed victim front back ft stolen ?_
    constructor
    · exact h.first
    · exact fun u hu hne => hspared u (h.nothing u hu hne)
    · exact h.other
    · rw [← hsame]
      exact h.split
    · rw [← hsame]
      exact h.half
    · exact h.taken
    · exact h.returned
    · exact h.left
    · rw [← hsame]
      exact h.moved
    · exact fun u huv huc => (h.others u huv huc).trans (hsame u)

theorem run_queue_update {m_processors : Fin n → Processor} {c : Fin n} {p : Processor}
    (hp : p.run_queue = (m_processors c).run_queue) (u : Fin n) :
    (Function.update m_processors c p u).run_queue = (m_processors u).run_queue := by
  by_cases hu : u = c
  · rw [hu, Function.update_self, hp]
  · rw [Function.update_of_ne hu]

/-- A victim's section that steals nothing. -/
theorem stealSection_nil {m_state : Nat → Fiber.State} {p : Processor}
    (h : (stealSection m_state p.run_queue).1 = []) :
    p.spared m_state ∧ (stealSection m_state p.run_queue).2 = p.run_queue := by
  obtain ⟨front, back, hsplit, hhalf, hsection⟩ := stealSection_spec m_state p.run_queue
  rw [hsection] at h ⊢
  have hnone : back.filter (movable m_state) = [] := List.reverse_eq_nil_iff.mp h
  rw [List.countP_eq_length_filter, hnone, List.length_nil] at hhalf
  have hcount : p.run_queue.countP (movable m_state) = 0 := by omega
  refine ⟨fun x hx => by simpa using List.countP_eq_zero.mp hcount x hx, ?_⟩
  have hall : back.filter (fun x => !movable m_state x) = back := by
    rw [List.filter_eq_self]
    intro x hx
    simpa using List.filter_eq_nil_iff.mp hnone x hx
  rw [hall, hsplit]

theorem victimLoop_searched (m_state : Nat → Fiber.State) (current : Fin n)
    (m_processors : Fin n → Processor) :
    ∀ victims : List (Fin n), Searched m_state current m_processors victims
      (victimLoop m_state current m_processors victims) := by
  intro victims
  induction victims with
  | nil =>
    exact .nothing rfl (run_queue_update (run_queue_count _ _))
      fun u hu => absurd hu List.not_mem_nil
  | cons v victims ih =>
    rw [victimLoop]
    by_cases hv : v = current
    · rw [if_pos hv]
      exact ih.pass fun hne => absurd hv hne
    rw [if_neg hv]
    cases hstolen : (stealSection m_state (m_processors v).run_queue).1 with
    | nil =>
      obtain ⟨hspared, hleft⟩ := stealSection_nil hstolen
      simp only [hstolen, hleft]
      rw [Function.update_eq_self]
      exact ih.pass fun _ => hspared
    | cons ft stolen =>
      obtain ⟨front, back, hsplit, hhalf, hsection⟩ :=
        stealSection_spec m_state (m_processors v).run_queue
      have htaken := (congrArg Prod.fst hsection).symm.trans hstolen
      have hleft := congrArg Prod.snd hsection
      simp only [hstolen]
      refine .found [] v front back ft stolen ?_
      constructor
      · exact List.cons_prefix_cons.mpr ⟨rfl, List.nil_prefix⟩
      · exact fun u hu => absurd hu List.not_mem_nil
      · exact hv
      · exact hsplit
      · exact hhalf
      · exact htaken
      · rfl
      · simp only [Function.update_of_ne hv, Function.update_self]
        exact hleft
      · simp only [Function.update_self, Function.update_of_ne (Ne.symm hv), run_queue_splice,
          run_queue_count]
      · intro u huv huc
        simp only [Function.update_of_ne huc, Function.update_of_ne huv]

/-- **What `stealTask` does.**  If it returns false, no run queue has changed, and no other
processor has an item that could be stolen.  Otherwise the victim is the first processor in the
order from the start, other than the caller's, that has an item that is not pinned and not in
`EXEC`; half of its queue, at least one and at most all such items, is taken from its end.  The
last of them is returned, the others go to the end of the caller's queue in reverse order, and
what is left stays in its order. -/
theorem steals_half (m_state : Nat → Fiber.State) (current : Option (Fin n))
    (m_processors : Fin n → Processor) (m_nextStealProcessor : Nat) :
    let r := stealTask m_state current m_processors m_nextStealProcessor
    (r.ft = none ∧ (∀ u, (r.m_processors u).run_queue = (m_processors u).run_queue)
        ∧ ∀ c, current = some c → ∀ u, u ≠ c → (m_processors u).spared m_state)
      ∨ ∃ c, current = some c ∧ ∃ passed victim front back ft stolen,
        Steals m_state c m_processors (rotation n (m_nextStealProcessor % n)) passed victim front
          back ft stolen (r.ft, r.m_processors) := by
  cases current with
  | none => exact .inl ⟨rfl, fun u => rfl, fun c hc => nomatch hc⟩
  | some c =>
    simp only [stealTask]
    split_ifs with hone
    · refine .inl ⟨rfl, fun u => ?_, fun c' hc u hu => ?_⟩
      · exact (run_queue_update (run_queue_count _ _) u).trans
          (run_queue_update (run_queue_count _ _) u)
      · exact absurd (Fin.ext (by omega)) hu
    · have hsearched := (victimLoop_searched m_state c (Function.update m_processors c
        ((m_processors c).count fun st =>
          { st with steal_attempt_count := st.steal_attempt_count + 1 }))
        (rotation n (m_nextStealProcessor % n))).congr (run_queue_update (run_queue_count _ _))
      cases hsearched with
      | nothing hnone hsame hspared =>
        refine .inl ⟨hnone, hsame, fun c' hc u hu => hspared u (mem_rotation _ u) ?_⟩
        rw [Option.some.inj hc]
        exact hu
      | found passed victim front back ft stolen h =>
        exact .inr ⟨c, rfl, passed, victim, front, back, ft, stolen, h⟩

end Dequeue

end Scheduler

end FiberServer
