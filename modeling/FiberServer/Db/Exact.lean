import FiberServer.Db.Submit
import FiberServer.Library.Tally
import FiberServer.Scheduler.Suspension

/-!
# What a call of `submit` can rely on

On the side of the db scheduler the closure is a callback, which no dequeue path throws away and
which is swapped in once (`Queued`); its lines come one after the other (`Progress`).  On the side
of the caller's scheduler the fiber waits for its wake-up (`Scheduler.Waiting`).

* `submit_exact`: **in every reachable state**, if nothing else schedules the fiber, `fn` has been
  called once at most, the fiber goes on only after the outcome is stored, its wake-up is never
  dropped, and `submit` returns or throws what came out of `fn`.
-/

namespace FiberServer

namespace DbExecutor

open Scheduler (FiberAndThread Conserved Callbacks EnqueuedOnceOf Inside Waiting Leaves
  places view)

variable {n m : Nat} {V E : Type}

/-! ### The closure -/

/-- The closure's item, which `run()` of the db scheduler has swapped in if the closure has
begun. -/
structure Queued (db : Scheduler.State m) (c : Call V E) : Prop where
  fiber : c.task.fiber = none
  cb : c.task.cb.isSome
  enqueued : c.task ∈ db.enqueued
  waits : c.closure = .queued → c.task ∉ db.executed
  begun : c.closure ≠ .queued → c.task ∈ db.executed

/-- How far the closure has come. -/
def Call.Progress (c : Call V E) : Prop :=
  match c.closure with
  | .queued | .entered _ => c.calls = 0 ∧ c.outcomes = [] ∧ c.state = {} ∧ c.wakeUp = none
  | .inFn _ => c.calls = 1 ∧ c.outcomes = [] ∧ c.state = {} ∧ c.wakeUp = none
  | .finished _ o => c.calls = 1 ∧ c.outcomes = [o] ∧ c.state = {} ∧ c.wakeUp = none
  | .stored _ =>
    c.calls = 1 ∧ (∃ o, c.outcomes = [o] ∧ c.state = TaskState.store {} o) ∧ c.wakeUp = none
  | .woken _ | .ended =>
    c.calls = 1 ∧ (∃ o, c.outcomes = [o] ∧ c.state = TaskState.store {} o) ∧ c.wakeUp.isSome

theorem TaskState.take_store (o : Except E V) : (TaskState.store {} o).take = some o := by
  cases o <;> rfl

theorem Call.Progress.calls_le {c : Call V E} (h : c.Progress) : c.calls ≤ 1 := by
  rw [Call.Progress] at h
  split at h <;> omega

/-- Once its wake-up is queued, the outcome is stored. -/
theorem Call.Progress.stored {c : Call V E} (h : c.Progress) (hw : c.wakeUp.isSome) :
    c.calls = 1 ∧ ∃ o, c.outcomes = [o] ∧ c.state.take = some o := by
  rw [Call.Progress] at h
  split at h
  case h_6 | h_7 =>
    obtain ⟨hcalls, ⟨o, ho, hstate⟩, -⟩ := h
    exact ⟨hcalls, o, ho, by rw [hstate, TaskState.take_store]⟩
  all_goals
    have hnone : c.wakeUp = none := by simp_all
    rw [hnone] at hw
    exact nomatch hw

/-- **A line of the closure** takes it further. -/
theorem Call.Progress.advance {c c' : Call V E} {line : Line V E} {g : Nat} (h : c.Progress)
    (hadv : c.advance line = some (g, c')) : c'.Progress := by
  cases line with
  | fn | outcome o | store =>
    rw [Call.advance] at hadv
    split at hadv
    · rename_i hclosure
      obtain ⟨rfl, rfl⟩ := Prod.mk.inj (Option.some.inj hadv)
      rw [Call.Progress, hclosure] at h
      simp_all [Call.Progress]
    · exact nomatch hadv

/-- A closure that has lines left has not called `caller->schedule(fiber)`. -/
theorem Call.Progress.wakeUp_none {c c' : Call V E} {line : Line V E} {g : Nat} (h : c.Progress)
    (hadv : c.advance line = some (g, c')) : c.wakeUp = none := by
  cases line with
  | fn | outcome o | store =>
    rw [Call.advance] at hadv
    split at hadv
    · rename_i hclosure
      rw [Call.Progress, hclosure] at h
      exact h.2.2.2
    · exact nomatch hadv

/-- A line of the closure changes nothing else. -/
theorem Call.advance_eq {c c' : Call V E} {line : Line V E} {g : Nat}
    (hadv : c.advance line = some (g, c')) : c'.fiber = c.fiber ∧ c'.task = c.task ∧ c'.pc = c.pc
      ∧ c'.wakeUp = c.wakeUp ∧ c.closure ≠ .queued ∧ c'.closure ≠ .queued := by
  cases line with
  | fn | outcome o | store =>
    rw [Call.advance] at hadv
    split at hadv
    · rename_i hclosure
      obtain ⟨rfl, rfl⟩ := Prod.mk.inj (Option.some.inj hadv)
      exact ⟨rfl, rfl, rfl, rfl, by rw [hclosure]; exact nofun, nofun⟩
    · exact nomatch hadv

/-- What a step of the db scheduler is for the closure. -/
inductive Follows (s t : Scheduler.State m) (a : Scheduler.Action m) (c : Call V E) :
    Call V E → Prop
  | same (hno : ∀ w g b, a = .run w → (s.workers w).pc = .swapIn c.task →
      (t.workers w).pc ≠ .running g b) : Follows s t a c c
  | entered {w : Fin m} {g : Nat} {b : Bool} (ha : a = .run w)
      (hpc : (s.workers w).pc = .swapIn c.task) (hpc' : (t.workers w).pc = .running g b) :
      Follows s t a c { c with closure := .entered g }
  | ended {g : Nat} (hclosure : c.closure = .woken g) (hno : ∀ w, a ≠ .run w) :
      Follows s t a c { c with closure := .ended }

theorem follow_cases (s t : Scheduler.State m) (a : Scheduler.Action m) (c : Call V E) :
    Follows s t a c (c.follow s t a) := by
  unfold Call.follow
  split
  · rename_i w
    split
    · rename_i ft g b hpc hpc'
      split_ifs with hft
      · rw [hft] at hpc
        exact .entered rfl hpc hpc'
      · refine .same fun v g' b' ha hv => ?_
        cases ha
        rw [hpc] at hv
        cases hv
        exact absurd rfl hft
    · rename_i hno
      refine .same fun v g b ha hv hv' => ?_
      cases ha
      exact hno _ _ _ hv hv'
  · split
    · rename_i hclosure
      split_ifs
      · exact .ended hclosure fun _ => nofun
      · exact .same fun _ _ _ ha => nomatch ha
    · exact .same fun _ _ _ ha => nomatch ha
  · rename_i hrun hyield
    exact .same fun w _ _ ha => absurd ha (hrun w)

theorem follow_eq (s t : Scheduler.State m) (a : Scheduler.Action m) (c : Call V E) :
    (c.follow s t a).fiber = c.fiber ∧ (c.follow s t a).task = c.task
      ∧ (c.follow s t a).pc = c.pc ∧ (c.follow s t a).wakeUp = c.wakeUp
      ∧ (c.follow s t a).state = c.state := by
  have hfollow := follow_cases s t a c
  generalize c.follow s t a = d at hfollow ⊢
  cases hfollow <;> exact ⟨rfl, rfl, rfl, rfl, rfl⟩

/-! ### The db scheduler -/

section

variable {dbTid : Fin m → Int} {s t : Scheduler.State m} {a : Scheduler.Action m} {c : Call V E}

theorem executed_mono (h : Scheduler.step dbTid s a = some t) {x : FiberAndThread}
    (hx : x ∈ s.executed) : x ∈ t.executed := by
  rcases Scheduler.step_records (Scheduler.step_cases h) with
    ⟨he, -⟩ | ⟨w, ft, -, -, ⟨he, -⟩ | ⟨he, -⟩⟩ <;> rw [he]
  · exact hx
  · exact List.mem_cons_of_mem _ hx
  · exact hx

theorem enqueued_mono (h : Scheduler.step dbTid s a = some t) {x : FiberAndThread}
    (hx : x ∈ s.enqueued) : x ∈ t.enqueued := by
  rcases Scheduler.step_enqueued (Scheduler.step_cases h) with ⟨he, -⟩ | ⟨ft, -, he, -⟩ <;> rw [he]
  · exact hx
  · exact List.mem_cons_of_mem _ hx

/-- **The closure is entered once**: its item leaves the hands of the worker for good. -/
theorem Queued.enter (hs : Conserved s) (hq : Queued s c) {w : Fin m}
    (hpc : (s.workers w).pc = .swapIn c.task) : c.closure = .queued := by
  by_contra hne
  have hplaces : 0 < places s c.task := Scheduler.mem_places (w := w) (by
    rw [hpc]
    exact List.mem_singleton.mpr rfl)
  have hexecuted := List.count_pos_iff.mpr (hq.begun hne)
  have hbal := hs.balance c.task
  have hone := List.nodup_iff_count_le_one.mp hs.nodup c.task
  rw [Scheduler.gone] at hbal
  omega

/-- **A step of the db scheduler** loses neither the item of the closure nor its place. -/
theorem Queued.follow (hs : Conserved s) (hq : Queued s c) (hp : c.Progress)
    (h : Scheduler.step dbTid s a = some t) :
    Queued t (c.follow s t a) ∧ (c.follow s t a).Progress := by
  have henq := enqueued_mono h hq.enqueued
  have hbegun (hne : c.closure ≠ .queued) : c.task ∈ t.executed := executed_mono h (hq.begun hne)
  have hfollow := follow_cases s t a c
  generalize c.follow s t a = d at hfollow ⊢
  cases hfollow with
  | same hno =>
    refine ⟨⟨hq.fiber, hq.cb, henq, fun hqueued hx => ?_, hbegun⟩, hp⟩
    -- an item that is swapped in is another one
    rcases Scheduler.step_records (Scheduler.step_cases h) with
      ⟨he, -⟩ | ⟨w, ft, ha, hpc, ⟨he, -, g, b, hpc'⟩ | ⟨he, -⟩⟩ <;> rw [he] at hx
    · exact hq.waits hqueued hx
    · rcases List.mem_cons.mp hx with heq | hx
      · rw [← heq] at hpc
        exact hno w g b ha hpc hpc'
      · exact hq.waits hqueued hx
    · exact hq.waits hqueued hx
  | @entered w g b ha hpc hpc' =>
    have hqueued := hq.enter hs hpc
    subst ha
    rw [Call.Progress, hqueued] at hp
    refine ⟨⟨hq.fiber, hq.cb, henq, (fun h => by cases h), fun _ => ?_⟩, hp⟩
    rcases Scheduler.swapIn_inv (Scheduler.swapIn_of_step h hpc) with ⟨f, d, k, l, rfl, -⟩ | rfl
    · exact List.mem_cons_self
    · simp [Scheduler.State.goto, Scheduler.State.setWorker] at hpc'
  | @ended g hclosure hno =>
    rw [Call.Progress, hclosure] at hp
    have hnot : c.closure ≠ .queued := by
      rw [hclosure]
      intro h
      cases h
    exact ⟨⟨hq.fiber, hq.cb, henq, (fun h => by cases h), fun _ => hbegun hnot⟩, hp⟩

/-- The item of another call is queued. -/
theorem Queued.schedule (hq : Queued s c) {cb : Option Nat}
    (h : Scheduler.step dbTid s (.scheduleOther none cb (-1)) = some t) : Queued t c := by
  have hexecuted : t.executed = s.executed := by
    rcases Scheduler.step_records (Scheduler.step_cases h) with ⟨he, -⟩ | ⟨w, ft, ha, -⟩
    · exact he
    · exact nomatch ha
  refine ⟨hq.fiber, hq.cb, enqueued_mono h hq.enqueued, ?_, ?_⟩ <;> rw [hexecuted]
  · exact hq.waits
  · exact hq.begun

/-- A new closure. -/
theorem queued_submit (hs : Conserved s) {cb f : Nat}
    (h : Scheduler.step dbTid s (.scheduleOther none (some cb) (-1)) = some t) :
    Queued t ({ fiber := f, task := ⟨s.nextTicket, none, some cb, -1⟩ } : Call V E) := by
  have hstep := Scheduler.step_cases h
  cases hstep with
  | scheduleOther calls hcalls =>
    refine ⟨rfl, rfl, List.mem_cons_self, fun _ hx => ?_, fun hne => absurd rfl hne⟩
    -- the ticket is new
    have hbal := hs.balance ⟨s.nextTicket, none, some cb, -1⟩
    have hpos : 0 < s.executed.count ⟨s.nextTicket, none, some cb, -1⟩ := List.count_pos_iff.mpr hx
    rw [Scheduler.gone] at hbal
    have henq : 0 < s.enqueued.count ⟨s.nextTicket, none, some cb, -1⟩ := by omega
    have hfresh := hs.fresh _ (List.count_pos_iff.mp henq)
    exact Nat.lt_irrefl _ hfresh

end

/-- What holds on the side of the db scheduler, whatever is scheduled on the other. -/
structure Served (x : State n m V E) : Prop where
  conservation : Conserved x.db
  callbacks : Callbacks x.db
  calls : ∀ c ∈ x.calls, Queued x.db c ∧ c.Progress

theorem served_init : Served (init n m V E) :=
  ⟨Scheduler.conserved_init, Scheduler.callbacks_init, fun _ h => absurd h List.not_mem_nil⟩

/-- One call goes on. -/
theorem Served.set {x : State n m V E} (hx : Served x) {s : Scheduler.State n} {i : Nat}
    {c' : Call V E} (hc' : Queued x.db c' ∧ c'.Progress) :
    Served { x with caller := s, calls := x.calls.set i c' } := by
  refine ⟨hx.conservation, hx.callbacks, fun d hd => ?_⟩
  rcases List.mem_or_eq_of_mem_set hd with hd | rfl
  · exact hx.calls d hd
  · exact hc'

theorem served_step {tid : Fin n → Int} {dbTid : Fin m → Int} {x y : State n m V E}
    {a : Action n m V E} (hx : Served x) (h : step tid dbTid x a = some y) : Served y := by
  cases step_cases h with
  | caller hall hs => exact ⟨hx.conservation, hx.callbacks, hx.calls⟩
  | @db a t ht =>
    refine ⟨Scheduler.conserved_step hx.conservation (Scheduler.step_cases ht),
      Scheduler.callbacks_step hx.callbacks (Scheduler.step_cases ht), fun d hd => ?_⟩
    obtain ⟨c, hc, rfl⟩ := List.mem_map.mp hd
    obtain ⟨hq, hp⟩ := hx.calls c hc
    exact hq.follow hx.conservation hp ht
  | @submit w cb f b t hpc hidle ht =>
    refine ⟨Scheduler.conserved_step hx.conservation (Scheduler.step_cases ht),
      Scheduler.callbacks_step hx.callbacks (Scheduler.step_cases ht), fun d hd => ?_⟩
    rcases List.mem_append.mp hd with hd | hd
    · obtain ⟨hq, hp⟩ := hx.calls d hd
      exact ⟨hq.schedule ht, hp⟩
    · rw [List.mem_singleton.mp hd]
      exact ⟨queued_submit hx.conservation ht, rfl, rfl, rfl, rfl⟩
  | @yieldToHold w i c s hc hpc hruns hs =>
    obtain ⟨hq, hp⟩ := hx.calls c (List.mem_of_getElem? hc)
    exact hx.set ⟨⟨hq.fiber, hq.cb, hq.enqueued, hq.waits, hq.begun⟩, hp⟩
  | @closure w i g line c c' hc hadv =>
    obtain ⟨hq, hp⟩ := hx.calls c (List.mem_of_getElem? hc)
    obtain ⟨-, htask, -, -, hne, hne'⟩ := Call.advance_eq hadv
    refine hx.set ⟨⟨?_, ?_, ?_, fun hqueued => absurd hqueued hne', fun _ => ?_⟩, hp.advance hadv⟩
    all_goals rw [htask]
    · exact hq.fiber
    · exact hq.cb
    · exact hq.enqueued
    · exact hq.begun hne
  | @wake w i g c s hc hclosure hs =>
    obtain ⟨hq, hp⟩ := hx.calls c (List.mem_of_getElem? hc)
    rw [Call.Progress, hclosure] at hp
    refine hx.set ⟨⟨hq.fiber, hq.cb, hq.enqueued, nofun, fun _ => hq.begun ?_⟩,
      hp.1, hp.2.1, rfl⟩
    rw [hclosure]
    exact nofun
  | @result w i c r hc hpc hruns hr =>
    obtain ⟨hq, hp⟩ := hx.calls c (List.mem_of_getElem? hc)
    exact hx.set (s := x.caller) ⟨⟨hq.fiber, hq.cb, hq.enqueued, hq.waits, hq.begun⟩, hp⟩

/-! ### The caller's scheduler -/

/-- What the caller's scheduler knows of a call: its fiber waits until the call returns, and then
the wake-up has been used. -/
structure Called (s : Scheduler.State n) (c : Call V E) : Prop where
  wakeUp : ∀ ft, c.wakeUp = some ft →
    ft.fiber = some c.fiber ∧ ft ∈ s.enqueued ∧ ¬ (ft ∈ s.dropped ∨ ft ∈ s.ended)
  active : c.pc.active → Waiting s c.fiber c.wakeUp
  yield : c.pc = .yield → Inside s c.fiber
  suspended : c.pc = .suspended → Inside s c.fiber →
    c.wakeUp.isSome ∧ ¬ (view s).Pending c.fiber
  returned : ∀ r, c.pc = .returned r →
    (∃ ft, c.wakeUp = some ft ∧ ¬ (view s).pending ft) ∧ c.state.take = some r

section

variable {tid : Fin n → Int} {s t : Scheduler.State n} {a : Scheduler.Action n} {c : Call V E}

/-- The wake-up after a step. -/
theorem Called.wakeUp_step (hc : Called s c) (h : Scheduler.step tid s a = some t)
    {ft : FiberAndThread} (hft : c.wakeUp = some ft) :
    ft.fiber = some c.fiber ∧ ft ∈ t.enqueued ∧ ¬ (ft ∈ t.dropped ∨ ft ∈ t.ended) := by
  obtain ⟨hfib, henq, hkept⟩ := hc.wakeUp ft hft
  refine ⟨hfib, enqueued_mono h henq, fun hlost => hkept ?_⟩
  cases hpc : c.pc with
  | yield | suspended =>
    exact (hc.active (by rw [hpc]; rfl)).keeps h hfib hlost
  | returned r =>
    obtain ⟨⟨ft', hft', hnp⟩, -⟩ := hc.returned r hpc
    rw [hft] at hft'
    cases hft'
    rcases Scheduler.lost_step h hlost with hd | he | hp
    · exact .inl hd
    · exact .inr he
    · exact absurd hp hnp

/-- **A step of the caller's scheduler** that is not one of the calling fiber. -/
theorem Called.step (hs : Scheduler.Settled s c.fiber) (ht : Conserved t) (hc : Called s c)
    (hleaves : c.pc.active → Leaves s c.fiber a)
    (hyield : c.pc = .yield → ∀ w next, a = .yield w next → runs s w c.fiber = false)
    (h : Scheduler.step tid s a = some t) : Called t c := by
  refine ⟨fun ft hft => hc.wakeUp_step h hft, fun hact => ?_, fun hpc => ?_, fun hpc hin => ?_,
    fun r hpc => ?_⟩
  · exact (hc.active hact).step hs (hleaves hact) h
  · obtain ⟨w, b, hrun⟩ := hc.yield hpc
    refine ⟨w, b, Scheduler.Inside.stays hrun (fun next ha => ?_) h⟩
    have hno := hyield hpc w next ha
    rw [runs_iff.mpr ⟨b, hrun⟩] at hno
    exact nomatch hno
  · have hact : c.pc.active = true := by rw [hpc]; rfl
    have hwait := hc.active hact
    rcases hwait.resumes hs h hin with hin | hresumed
    · obtain ⟨hwake, hnp⟩ := hc.suspended hpc hin
      refine ⟨hwake, fun ⟨x, hx, hxf⟩ => hnp ⟨x, ?_, hxf⟩⟩
      refine Scheduler.pending_of_step h (hleaves hact).schedule ?_ hx hxf
      rcases hwait.state with hst | hst <;> rw [hst] <;> decide
    · exact hresumed
  · obtain ⟨⟨ft, hft, hnp⟩, hr⟩ := hc.returned r hpc
    exact ⟨⟨ft, hft, Scheduler.not_pending_step ht h (hc.wakeUp ft hft).2.1 hnp⟩, hr⟩

end

/-- Nothing else schedules the fiber `f`: each of its suspensions is enqueued once, that of a
call of `submit` by the closure alone. -/
def NothingElse (f : Nat) (x : State n m V E) : Action n m V E → Prop
  | .caller a => EnqueuedOnceOf x.caller f a ∧ (inSubmit x f = true → a.scheduled ≠ some f)
  | .submit w _ => runs x.caller w f = true → ¬ (view x.caller).Pending f
  | _ => True

/-- What holds on the caller's side for the calls of one fiber. -/
structure Calling (f : Nat) (x : State n m V E) : Prop where
  settled : Scheduler.Settled x.caller f
  called : ∀ (i : Nat) (c : Call V E), x.calls[i]? = some c → c.fiber = f → Called x.caller c
  unique : ∀ (i j : Nat) (c d : Call V E), x.calls[i]? = some c → x.calls[j]? = some d →
    c.fiber = f → d.fiber = f → c.pc.active → d.pc.active → i = j

theorem calling_init (f : Nat) : Calling f (init n m V E) :=
  ⟨Scheduler.settled_init f, fun _ _ h => by simp [init] at h, fun _ _ _ _ h => by simp [init] at h⟩

section

variable {f : Nat} {tid : Fin n → Int} {x : State n m V E}

theorem Calling.idle (hx : inSubmit x f = false) {c : Call V E} (hc : c ∈ x.calls)
    (hcf : c.fiber = f) : c.pc.active = false := by
  rw [Bool.eq_false_iff]
  intro hact
  have hin : inSubmit x f = true := List.any_eq_true.mpr ⟨c, hc, by simp [hact, hcf]⟩
  rw [hx] at hin
  exact nomatch hin

/-- Calls that only the db scheduler has changed. -/
theorem Called.of_eq {s : Scheduler.State n} {c d : Call V E} (hc : Called s c)
    (hf : d.fiber = c.fiber) (hpc : d.pc = c.pc) (hw : d.wakeUp = c.wakeUp)
    (hst : ∀ r, c.pc = .returned r → d.state = c.state) : Called s d := by
  refine ⟨?_, ?_, ?_, ?_, fun r hr => ?_⟩
  · rw [hf, hw]
    exact hc.wakeUp
  · rw [hf, hpc, hw]
    exact hc.active
  · rw [hf, hpc]
    exact hc.yield
  · rw [hf, hpc, hw]
    exact hc.suspended
  · rw [hpc] at hr
    rw [hw, hst r hr]
    exact hc.returned r hr

/-- One call goes on and is no more active than before. -/
theorem Calling.set (hx : Calling f x) {s : Scheduler.State n} {i : Nat} {c c' : Call V E}
    (hc : x.calls[i]? = some c) (hfiber : c'.fiber = c.fiber)
    (hact : c'.pc.active = true → c.pc.active = true) (hs : Scheduler.Settled s f)
    (hself : c.fiber = f → Called s c')
    (hother : ∀ (j : Nat) (d : Call V E), j ≠ i → x.calls[j]? = some d → d.fiber = f → Called s d) :
    Calling f { x with caller := s, calls := x.calls.set i c' } := by
  have hback (j : Nat) (d : Call V E) (hd : (x.calls.set i c')[j]? = some d) (hdf : d.fiber = f) :
      ∃ d₀, x.calls[j]? = some d₀ ∧ d₀.fiber = f ∧ (d.pc.active = true → d₀.pc.active = true) := by
    rcases Tally.getElem?_set_cases hd with ⟨rfl, rfl⟩ | ⟨-, hd⟩
    · exact ⟨c, hc, hfiber.symm.trans hdf, hact⟩
    · exact ⟨d, hd, hdf, id⟩
  refine ⟨hs, fun j d hd hdf => ?_, fun j k d e hd he hdf hef hdact heact => ?_⟩
  · rcases Tally.getElem?_set_cases hd with ⟨rfl, rfl⟩ | ⟨hne, hd⟩
    · exact hself (hfiber.symm.trans hdf)
    · exact hother j d hne hd hdf
  · obtain ⟨d₀, hd₀, hd₀f, hd₀act⟩ := hback j d hd hdf
    obtain ⟨e₀, he₀, he₀f, he₀act⟩ := hback k e he hef
    exact hx.unique j k d₀ e₀ hd₀ he₀ hd₀f he₀f (hd₀act hdact) (he₀act heact)

/-- Another fiber's step on the caller's scheduler. -/
theorem Calling.called_step (hx : Calling f x) {a : Scheduler.Action n} {s : Scheduler.State n}
    (ha : Leaves x.caller f a)
    (hyield : ∀ w next, a = .yield w next → runs x.caller w f = false)
    (h : Scheduler.step tid x.caller a = some s) :
    Scheduler.Settled s f ∧
      ∀ (j : Nat) (d : Call V E), x.calls[j]? = some d → d.fiber = f → Called s d := by
  have hs := hx.settled.step ha.enqueuedOnceOf h
  refine ⟨hs, fun j d hd hdf => ?_⟩
  have hsettled := hx.settled
  rw [← hdf] at hsettled ha hyield
  exact (hx.called j d hd hdf).step hsettled hs.conservation (fun _ => ha) (fun _ => hyield) h

/-- A step of the calling fiber itself leaves its other calls, which have returned. -/
theorem Calling.called_other (hx : Calling f x) {a : Scheduler.Action n} {s : Scheduler.State n}
    (hs : Scheduler.Settled s f) {i : Nat} {c : Call V E} (hc : x.calls[i]? = some c)
    (hcf : c.fiber = f)
    (hact : c.pc.active = true) (h : Scheduler.step tid x.caller a = some s) (j : Nat)
    (d : Call V E) (hne : j ≠ i) (hd : x.calls[j]? = some d) (hdf : d.fiber = f) : Called s d := by
  have hidle : ¬ d.pc.active = true := fun hdact =>
    hne (hx.unique j i d c hd hc hdf hcf hdact hact)
  have hsettled := hx.settled
  rw [← hdf] at hsettled
  refine (hx.called j d hd hdf).step hsettled hs.conservation (fun h => absurd h hidle)
    (fun hpc => ?_) h
  rw [hpc] at hidle
  exact absurd rfl hidle

end

section

variable {f : Nat} {tid : Fin n → Int} {dbTid : Fin m → Int} {x y : State n m V E}

/-- **`YieldToHold`** of the calling fiber. -/
theorem calling_yieldToHold (hx : Calling f x) {w : Fin n} {i : Nat} {c : Call V E}
    {s : Scheduler.State n} (hc : x.calls[i]? = some c) (hpc : c.pc = .yield)
    (hruns : runs x.caller w c.fiber = true)
    (hs : Scheduler.step tid x.caller (.yield w .EXEC) = some s) :
    Calling f { x with caller := s, calls := x.calls.set i { c with pc := .suspended } } := by
  have hleaves : Leaves x.caller f (.yield w .EXEC) :=
    ⟨(fun ha => by cases ha), fun _ _ _ ha _ => by cases ha; rfl⟩
  have hact : c.pc.active = true := by rw [hpc]; rfl
  by_cases hcf : c.fiber = f
  · have hset := hx.settled.step hleaves.enqueuedOnceOf hs
    refine hx.set hc rfl (fun _ => hact) hset (fun _ => ?_) (hx.called_other hset hc hcf hact hs)
    have hcalled := hx.called i c hc hcf
    have hsettled := hx.settled
    rw [← hcf] at hsettled hleaves hset
    refine ⟨fun ft hft => hcalled.wakeUp_step hs hft,
      fun _ => (hcalled.active hact).step hsettled hleaves hs, (fun h => by cases h),
      fun _ hin => ?_, fun r h => by cases h⟩
    -- the worker that ran it has left it
    obtain ⟨b, hrun⟩ := runs_iff.mp hruns
    obtain ⟨v, d, hv⟩ := hin
    have hout : (s.workers w).pc = .switched c.fiber b := by
      cases Scheduler.step_cases hs with
      | yieldToHold hpc' =>
        rw [hrun] at hpc'
        cases hpc'
        simp [Scheduler.State.goto, Scheduler.State.setWorker]
      | yield hpc' hne => exact absurd rfl hne
    have hvw : v = w := hset.sound.single v w ⟨d, true, by
      show (s.workers v).pc.stay = _
      rw [hv]
      rfl⟩ ⟨b, false, by
      show (s.workers w).pc.stay = _
      rw [hout]
      rfl⟩
    rw [hvw, hout] at hv
    cases hv
  · -- another fiber's call
    obtain ⟨hset, hcalled⟩ := hx.called_step hleaves (fun v next ha => by
      cases ha
      obtain ⟨b, hrun⟩ := runs_iff.mp hruns
      rw [Bool.eq_false_iff]
      intro hrun'
      obtain ⟨b', hrun'⟩ := runs_iff.mp hrun'
      rw [hrun] at hrun'
      cases hrun'
      exact hcf rfl) hs
    exact hx.set hc rfl (fun _ => hact) hset (fun h => absurd h hcf) fun j d _ hd => hcalled j d hd

/-- **The wake-up** of the calling fiber. -/
theorem calling_wake (hserved : Served x) (hx : Calling f x) {i g : Nat} {c : Call V E}
    {s : Scheduler.State n} (hc : x.calls[i]? = some c) (hclosure : c.closure = .stored g)
    (hs : Scheduler.step tid x.caller (.scheduleOther (some c.fiber) none (-1)) = some s) :
    Calling f { x with
      caller := s
      calls := x.calls.set i { c with
        closure := .woken g
        wakeUp := some ⟨x.caller.nextTicket, some c.fiber, none, -1⟩ } } := by
  have hnone : c.wakeUp = none := by
    have hp := (hserved.calls c (List.mem_of_getElem? hc)).2
    rw [Call.Progress, hclosure] at hp
    exact hp.2.2
  by_cases hcf : c.fiber = f
  · have hcalled := hx.called i c hc hcf
    have hnotReturned : ∀ r, c.pc ≠ .returned r := by
      intro r hr
      obtain ⟨⟨ft, hft, -⟩, -⟩ := hcalled.returned r hr
      rw [hnone] at hft
      exact nomatch hft
    have hact : c.pc.active = true := by
      cases hpc : c.pc with
      | yield | suspended => rfl
      | returned r => exact absurd hpc (hnotReturned r)
    have hsettled := hx.settled
    have hwait := hcalled.active hact
    rw [hnone] at hwait
    rw [← hcf] at hsettled
    obtain ⟨hset, hwait', hpending, hworkers⟩ := hwait.wake hsettled hs
    have hinside : ∀ {g : Nat}, Inside s g → Inside x.caller g := by
      rintro g ⟨w, b, hrun⟩
      rw [hworkers] at hrun
      exact ⟨w, b, hrun⟩
    obtain ⟨henq, hdropped, hended⟩ := hset.conservation.of_pending hpending
    have hset' : Scheduler.Settled s f := hcf ▸ hset
    refine hx.set hc rfl id hset' (fun _ => ⟨?_, fun _ => hwait', fun hpc => ?_, fun hpc hin => ?_,
      fun r hr => absurd hr (hnotReturned r)⟩) (hx.called_other hset' hc hcf hact hs)
    · intro ft hft
      cases hft
      exact ⟨rfl, henq, fun h => h.elim hdropped hended⟩
    · obtain ⟨w, b, hrun⟩ := hcalled.yield hpc
      exact ⟨w, b, by rw [hworkers]; exact hrun⟩
    · have hwake := (hcalled.suspended hpc (hinside hin)).1
      rw [hnone] at hwake
      exact nomatch hwake
  · have hleaves : Leaves x.caller f (.scheduleOther (some c.fiber) none (-1)) :=
      ⟨fun h => hcf (Option.some.inj h), nofun⟩
    obtain ⟨hset, hcalled⟩ := hx.called_step hleaves nofun hs
    exact hx.set hc rfl id hset (fun h => absurd h hcf) fun j d _ hd => hcalled j d hd

/-- **A step** of the two schedulers and the calls, in which nothing else schedules `f`. -/
theorem calling_step {a : Action n m V E} (hserved : Served x) (hx : Calling f x)
    (ha : NothingElse f x a) (h : step tid dbTid x a = some y) : Calling f y := by
  cases step_cases h with
  | @caller a s hall hs =>
    have hset := hx.settled.step ha.1 hs
    refine ⟨hset, fun j d hd hdf => ?_, hx.unique⟩
    have hmem := List.mem_of_getElem? hd
    have hsettled := hx.settled
    have hblocked : d.pc.active = true → ∀ w next, a = .yield w next →
        runs x.caller w d.fiber = false := by
      rintro hact w next rfl
      have hno := hall d hmem
      simpa [Call.allowsCaller, hact] using hno
    rw [← hdf] at hsettled
    refine (hx.called j d hd hdf).step hsettled hset.conservation (fun hact => ⟨?_, ?_⟩)
      (fun hpc => hblocked (by rw [hpc]; rfl)) hs
    · rw [hdf]
      exact ha.2 (List.any_eq_true.mpr ⟨d, hmem, by simp [hact, hdf]⟩)
    · intro w next b hyield hrun
      have hno := hblocked hact w next hyield
      rw [runs_iff.mpr ⟨b, hrun⟩] at hno
      exact nomatch hno
  | @db a t ht =>
    have hback (j : Nat) (d : Call V E) (hd : (x.calls.map (Call.follow x.db t a))[j]? = some d) :
        ∃ c, x.calls[j]? = some c ∧ d = c.follow x.db t a := by
      rw [List.getElem?_map] at hd
      obtain ⟨c, hc, rfl⟩ := Option.map_eq_some_iff.mp hd
      exact ⟨c, hc, rfl⟩
    refine ⟨hx.settled, fun j d hd hdf => ?_, fun j k d e hd he hdf hef hdact heact => ?_⟩
    · obtain ⟨c, hc, rfl⟩ := hback j d hd
      obtain ⟨hfiber, -, hpc, hwake, hstate⟩ := follow_eq x.db t a c
      exact (hx.called j c hc (hfiber.symm.trans hdf)).of_eq hfiber hpc hwake fun _ _ => hstate
    · obtain ⟨c, hc, rfl⟩ := hback j d hd
      obtain ⟨c', hc', rfl⟩ := hback k e he
      rw [(follow_eq x.db t a c).1] at hdf
      rw [(follow_eq x.db t a c').1] at hef
      rw [(follow_eq x.db t a c).2.2.1] at hdact
      rw [(follow_eq x.db t a c').2.2.1] at heact
      exact hx.unique j k c c' hc hc' hdf hef hdact heact
  | @submit w cb g b t hpc hidle ht =>
    refine ⟨hx.settled, fun j d hd hdf => ?_, fun j k d e hd he hdf hef hdact heact => ?_⟩
    · rcases Tally.getElem?_concat_cases hd with hd | ⟨-, rfl⟩
      · exact hx.called j d hd hdf
      · -- the new call
        have hgf : g = f := hdf
        subst hgf
        have hin : Inside x.caller g := ⟨w, b, hpc⟩
        have hnp := ha (runs_iff.mpr ⟨b, hpc⟩)
        exact ⟨nofun, fun _ => Scheduler.waiting_start hx.settled hin hnp, fun _ => hin, nofun, nofun⟩
    · rcases Tally.getElem?_concat_cases hd with hd | ⟨hj, rfl⟩
      · rcases Tally.getElem?_concat_cases he with he | ⟨hk, rfl⟩
        · exact hx.unique j k d e hd he hdf hef hdact heact
        · have hgf : g = f := hef
          rw [hgf] at hidle
          rw [Calling.idle hidle (List.mem_of_getElem? hd) hdf] at hdact
          exact nomatch hdact
      · rcases Tally.getElem?_concat_cases he with he | ⟨hk, -⟩
        · have hgf : g = f := hdf
          rw [hgf] at hidle
          rw [Calling.idle hidle (List.mem_of_getElem? he) hef] at heact
          exact nomatch heact
        · rw [hj, hk]
  | @yieldToHold w i c s hc hpc hruns hs => exact calling_yieldToHold hx hc hpc hruns hs
  | @closure w i g line c c' hc hadv =>
    obtain ⟨hfiber, -, hpc, hwake, -⟩ := Call.advance_eq hadv
    refine hx.set hc hfiber (by rw [hpc]; exact id) hx.settled (fun hcf => ?_)
      fun j d _ hd hdf => hx.called j d hd hdf
    refine (hx.called i c hc hcf).of_eq hfiber hpc hwake fun r hr => ?_
    -- the closure of a call that has returned has nothing to do any more
    obtain ⟨⟨ft, hft, -⟩, -⟩ := (hx.called i c hc hcf).returned r hr
    have hnone := (hserved.calls c (List.mem_of_getElem? hc)).2.wakeUp_none hadv
    rw [hnone] at hft
    exact nomatch hft
  | @wake w i g c s hc hclosure hs => exact calling_wake hserved hx hc hclosure hs
  | @result w i c r hc hpc hruns hr =>
    refine hx.set (s := x.caller) hc rfl (fun h => nomatch h) hx.settled (fun hcf => ?_)
      fun j d _ hd hdf => hx.called j d hd hdf
    have hcalled := hx.called i c hc hcf
    obtain ⟨b, hrun⟩ := runs_iff.mp hruns
    obtain ⟨hwake, hnp⟩ := hcalled.suspended hpc ⟨w, b, hrun⟩
    refine ⟨hcalled.wakeUp, nofun, nofun, nofun, fun r' hr' => ?_⟩
    cases hr'
    obtain ⟨ft, hft⟩ := Option.isSome_iff_exists.mp hwake
    exact ⟨⟨ft, hft, fun hp => hnp ⟨ft, hp, (hcalled.wakeUp ft hft).1⟩⟩, hr⟩

end

/-! ### Exactness -/

/-- What `submit` promises: `fn` is called once, the fiber goes on after its outcome is stored,
no item of the call is lost, and `submit` gives what came out of `fn`. -/
structure Exact (x : State n m V E) (c : Call V E) : Prop where
  calls : c.calls ≤ 1
  task : places x.db c.task + x.db.executed.count c.task = 1
  begun : c.task ∈ x.db.executed ↔ c.closure ≠ .queued
  /-- the assertion of `YieldToHold` -/
  yield : c.pc = .yield → Inside x.caller c.fiber ∧ x.caller.m_state c.fiber = .EXEC
  resumed : c.pc = .suspended → Inside x.caller c.fiber →
    c.calls = 1 ∧ ∃ o, c.outcomes = [o] ∧ c.state.take = some o
  /-- the assertion of `swapIn` -/
  swapIn : c.pc.active → ∀ w ft, (x.caller.workers w).pc = .swapIn ft →
    ft.fiber = some c.fiber → x.caller.m_state c.fiber = .HOLD
  wakeUp : ∀ ft, c.wakeUp = some ft → ft ∉ x.caller.dropped
    ∧ places x.caller ft + x.caller.executed.count ft = 1
  returned : ∀ r, c.pc = .returned r → c.calls = 1 ∧ c.outcomes = [r]

theorem exact_of_calling {f i : Nat} {x : State n m V E} (hserved : Served x) (hx : Calling f x)
    {c : Call V E} (hc : x.calls[i]? = some c) (hcf : c.fiber = f) : Exact x c := by
  obtain ⟨hq, hp⟩ := hserved.calls c (List.mem_of_getElem? hc)
  have hcalled := hx.called i c hc hcf
  have hset := hx.settled
  rw [← hcf] at hset
  refine ⟨hp.calls_le, hserved.conservation.callback hserved.callbacks hq.enqueued hq.fiber hq.cb,
    ⟨fun hexec hqueued => hq.waits hqueued hexec, hq.begun⟩, fun hpc => ?_, fun hpc hin => ?_,
    fun hact w ft hpc hft => ?_, fun ft hft => ?_, fun r hr => ?_⟩
  · have hin := hcalled.yield hpc
    obtain ⟨w, b, hstay⟩ := Scheduler.inside_iff.mp hin
    exact ⟨hin, hset.sound.inside w b hstay⟩
  · exact hp.stored (hcalled.suspended hpc hin).1
  · refine (hcalled.active hact).state.resolve_left fun hexec => ?_
    refine hset.held hexec (w := w) (x := ft) ?_ hft
    rw [hpc]
    exact List.mem_singleton.mpr rfl
  · obtain ⟨-, henq, hkept⟩ := hcalled.wakeUp ft hft
    have hdropped : ft ∉ x.caller.dropped := fun h => hkept (.inl h)
    have hended : ft ∉ x.caller.ended := fun h => hkept (.inr h)
    have hbal := hset.conservation.balance ft
    have hone := List.count_eq_one_of_mem hset.conservation.nodup henq
    rw [Scheduler.gone, List.count_eq_zero.mpr hdropped, List.count_eq_zero.mpr hended] at hbal
    exact ⟨hdropped, by omega⟩
  · obtain ⟨⟨ft, hft, -⟩, htake⟩ := hcalled.returned r hr
    obtain ⟨hcalls, o, ho, hstored⟩ := hp.stored (by rw [hft]; rfl)
    rw [htake] at hstored
    cases hstored
    exact ⟨hcalls, ho⟩

/-- **`submit` is exact** for a fiber that nothing else schedules, whatever `fn` does and in
whatever order the workers of both schedulers take their steps. -/
theorem submit_exact (tid : Fin n → Int) (dbTid : Fin m → Int) (f : Nat)
    {as : List (Action n m V E)} {x : State n m V E}
    (ha : Transition.Along (step tid dbTid) (NothingElse f) (init n m V E) as)
    (h : Transition.exec (step tid dbTid) (init n m V E) as = some x) :
    ∀ c ∈ x.calls, c.fiber = f → Exact x c := by
  have hinv : Served x ∧ Calling f x :=
    Transition.along_invariant (I := fun x => Served x ∧ Calling f x)
      (fun _ _ _ hx ha hst => ⟨served_step hx.1 hst, calling_step hx.1 hx.2 ha hst⟩)
      ⟨served_init, calling_init f⟩ ha h
  intro c hc hcf
  obtain ⟨i, hi⟩ := List.getElem?_of_mem hc
  exact exact_of_calling hinv.1 hinv.2 hi hcf

instance decidableNothingElse (f : Nat) (x : State n m V E) :
    ∀ a, Decidable (NothingElse f x a)
  | .caller a => inferInstanceAs (Decidable (EnqueuedOnceOf x.caller f a ∧ (_ → _)))
  | .submit _ _ => inferInstanceAs (Decidable (_ → ¬ (view x.caller).Pending f))
  | .db _ | .yieldToHold _ _ | .closure _ _ _ | .wake _ _ | .result _ _ => .isTrue trivial

attribute [local instance] Scheduler.neZero_one Scheduler.neZero_two

/-- The closure is done, and worker 1 has passed the wake-up over, before the fiber on worker 0
calls `YieldToHold`. -/
def earlyWakeUp : List (Action 2 1 Nat String) :=
  [.caller (.scheduleOther none (some 7) (-1)), .caller (.run 0), .caller (.run 0), .caller (.run 0),
   .caller (.run 0), .caller (.run 0), .submit 0 9, .db (.tickleOther 0), .db (.run 0), .db (.run 0),
   .db (.run 0), .db (.run 0), .db (.run 0), .closure 0 0 .fn, .closure 0 0 (.outcome (.ok 5)),
   .closure 0 0 .store, .wake 0 0, .caller (.run 1), .caller (.run 1), .yieldToHold 0 0,
   .caller (.run 0), .caller (.run 0), .caller (.run 0), .caller (.run 0), .caller (.run 0),
   .caller (.run 0), .caller (.run 0), .result 0 0, .caller (.tickleOther 1), .db (.yield 0 .TERM)]

theorem submit_exact_earlyWakeUp :
    ∃ x c, Transition.exec (step (fun w => (w : Int)) fun w => (w : Int)) (init 2 1 Nat String)
        earlyWakeUp = some x
      ∧ c ∈ x.calls ∧ c.fiber = 0 ∧ c.pc = .returned (.ok 5) ∧ Exact x c := by
  refine ⟨?x, ?c, ?run, ?mem, ?fiber, ?pc, submit_exact _ _ 0 ?alone ?run _ ?mem ?fiber⟩
  case run => rfl
  case c => exact (⟨0, ⟨0, none, some 9, -1⟩, .returned (.ok 5), .ended, ⟨some 5, none⟩,
    some ⟨1, some 0, none, -1⟩, 1, [.ok 5]⟩ : Call Nat String)
  case mem => exact List.mem_singleton.mpr rfl
  case fiber => rfl
  case pc => rfl
  case alone => decide

end DbExecutor

end FiberServer
