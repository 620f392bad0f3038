import FiberServer.Hook.DoIo

/-!
# What `close` leaves behind

`close(fd)` wakes the waiters of `fd` by `cancelAll` and closes the file two steps later.  A
waiter that is woken goes back to its system call with the same number.  Before `close_f` it may
register again, after `close_f` the number may have become another file.

* `close_isolates`: in a run in which nobody registers on `fd` between the `cancelAll` and the
  `close_f` of a `close(fd)` and no number is given to a new file while a call that began on the
  old one may come back, each `close(fd)` leaves `FdContext(fd)` empty and no call of `do_io`
  reaches another file than the one it began on.
-/

namespace FiberServer

namespace Hook

open Transition
open IOManager (Event Events EventContext FdContext SlotStep Indexed)
open State (scheduler)

/-- No event is registered in `FdContext(fd)`. -/
def State.empty (s : State) (fd : Nat) : Prop :=
  ∀ p ∈ s.io.m_fdContexts[fd]?, ∀ ctx ∈ s.io.contexts[p]?, ctx.events = {}

instance (s : State) (fd : Nat) : Decidable (s.empty fd) :=
  inferInstanceAs (Decidable (∀ p ∈ s.io.m_fdContexts[fd]?, ∀ ctx ∈ s.io.contexts[p]?, _))

/-- When `close(fd)` returns, `FdContext(fd)` is empty; a system call of a `do_io` goes to the
file that its fd was when it began, if to any. -/
def Isolates (s : State) : Action → Prop
  | .close i _ => ∀ c ∈ s.closes[i]?, c.pc = .close_f → s.empty c.fd
  | .call k _ => ∀ c ∈ s.calls[k]?, c.pc = .call → ∀ file ∈ s.files c.fd, c.file = some file
  | _ => True

instance (s : State) (a : Action) : Decidable (Isolates s a) := by
  unfold Isolates
  cases a <;> infer_instance

/-- Between the section of `cancelAll` and the end of `close`. -/
def ClosePc.cleared : ClosePc → Bool
  | .del | .close_f => true
  | _ => false

/-- No event is registered on an fd between the `cancelAll` and the `close_f` of its `close`, and
the `cancelAll` succeeds; a `close` that finds no `FdCtx` finds no waiter either; a number is not
given to a new file while a call on the old one may come back. -/
def keepsClosed (s : State) : Action → Bool
  | .beginClose fd => s.managed fd || decide (s.empty fd)
  | .close i ok => s.closes[i]?.all fun c =>
    match c.pc with
    | .cancelAll _ => ok || decide (s.empty c.fd)
    | _ => true
  | .open fd => s.calls.all fun c => !(c.fd = fd && c.mayCall)
  | a =>
    match fills s a with
    | some (p, _) => s.closes.all fun c => !(c.pc.cleared && c.fd = p)
    | none => true

/-! ### Slots of a closed fd -/

/-- No event of the fd is registered. -/
def Cleared (s : IOManager.State) (fd : Nat) : Prop :=
  ∀ (event : Event) (b : Bool) (ctx : EventContext), s.slot fd event = some (b, ctx) → b = false

theorem cleared_of_empty {s : State} (hs : Indexed s.io) {fd : Nat} (h : s.empty fd) :
    Cleared s.io fd := by
  intro event b ctx hslot
  have hp := fd_ctx_isSome hs hslot
  obtain ⟨c, hc, hbit⟩ := Option.map_eq_some_iff.mp hslot
  have hnone := h fd hp c hc
  rw [hnone] at hbit
  cases hbit
  cases event <;> rfl

theorem empty_of_cleared {s : State} (hs : Indexed s.io) {fd : Nat} (h : Cleared s.io fd) :
    s.empty fd := by
  intro p hp ctx hctx
  rw [fd_ctx_eq hs hp] at hctx
  have hread : ctx.events.READ = false := h .READ _ _ (IOManager.State.slot_eq hctx .READ)
  have hwrite : ctx.events.WRITE = false := h .WRITE _ _ (IOManager.State.slot_eq hctx .WRITE)
  show (⟨ctx.events.READ, ctx.events.WRITE⟩ : Events) = {}
  rw [hread, hwrite]

theorem cleared_of_short {s : State} (hs : Indexed s.io) {fd : Nat}
    (h : s.io.m_fdContexts[fd]? = none) : Cleared s.io fd := by
  intro event b ctx hslot
  rw [fd_ctx_isSome hs hslot] at h
  exact nomatch h

/-- A slot that nobody fills stays unregistered. -/
theorem cleared_kept {s t : State} {a : Action} {fd : Nat} (h : IOStep s t a)
    (hs : Cleared s.io fd) (hfills : ∀ event, fills s a ≠ some (fd, event)) :
    Cleared t.io fd := by
  intro event b ctx hslot
  cases h.slot fd event with
  | moves hmoves =>
    cases hmoves with
    | kept hkept => exact hs event b ctx (hkept.symm.trans hslot)
    | new _ ht =>
      rw [hslot] at ht
      cases ht
      rfl
    | triggered _ ht _ =>
      rw [hslot] at ht
      cases ht
      rfl
  | filled hfilled => exact absurd hfilled (hfills event)
  | emptied _ ht =>
    rw [hslot] at ht
    cases ht
    rfl

theorem triggerIf_cleared {s : IOManager.State} {p : Nat} {c : FdContext} {on : Bool}
    (hc : s.contexts[p]? = some c) (event : Event) (hon : c.events.has event = on) :
    ∃ ctx, (s.triggerIf p event on).slot p event = some (false, ctx) := by
  cases on with
  | true =>
    rw [IOManager.State.triggerIf, if_pos rfl, hc]
    exact ⟨_, (IOManager.trigger_updates hc).self⟩
  | false =>
    rw [IOManager.State.triggerIf, if_neg Bool.false_ne_true, IOManager.State.slot_eq hc, hon]
    exact ⟨_, rfl⟩

/-- **The section of `cancelAll`** leaves no event registered. -/
theorem cancelAll_cleared {s : IOManager.State} {p : Nat} {c : FdContext} {ok : Bool}
    (hc : s.contexts[p]? = some c) (hok : ok = true ∨ c.events = {}) :
    Cleared (IOManager.cancelAll s p c ok) p := by
  rw [IOManager.cancelAll]
  split_ifs with hnone hsucceeds
  · intro event b ctx hslot
    rw [IOManager.State.slot_eq hc, hnone] at hslot
    cases hslot
    cases event <;> rfl
  · obtain ⟨hread, hother⟩ := And.intro
      (triggerIf_cleared hc .READ rfl) (IOManager.triggerIf_slot hc .READ c.events.READ)
    have hkept := (hother p .WRITE).2 fun h => by cases h.2
    rw [IOManager.State.slot_eq hc] at hkept
    obtain ⟨c', hc', hbit⟩ := Option.map_eq_some_iff.mp hkept
    rw [Prod.mk.injEq] at hbit
    obtain ⟨rest, hwrite⟩ := triggerIf_cleared hc' .WRITE hbit.1
    have hread' := (IOManager.triggerIf_slot hc' .WRITE c.events.WRITE p .READ).2 fun h => by cases h.2
    intro event b ctx hslot
    cases event with
    | READ =>
      obtain ⟨rest', hread⟩ := hread
      have hboth := hslot.symm.trans (hread'.trans hread)
      cases hboth
      rfl
    | WRITE =>
      have hboth := hslot.symm.trans hwrite
      cases hboth
      rfl
  · exact absurd (hok.resolve_right hnone) hsucceeds

/-! ### Runs -/

/-- What the allowed steps keep. -/
structure Closed (s : State) : Prop where
  indexed : Indexed s.io
  fd_ctx : ∀ c ∈ s.closes, ∀ p, c.pc = .cancelAll p → p = c.fd
  cleared : ∀ c ∈ s.closes, c.pc.cleared = true → Cleared s.io c.fd
  file : ∀ c ∈ s.calls, c.mayCall = true → ∀ file, s.files c.fd = some file → c.file = some file

theorem closed_init : Closed init :=
  ⟨IOManager.indexed_init, (fun _ hc => nomatch hc), (fun _ hc => nomatch hc),
    (fun _ hc => nomatch hc)⟩

/-- Nobody fills a slot of an fd that is about to be closed. -/
theorem not_filled {s : State} {a : Action} {c : Close} (ha : keepsClosed s a = true)
    (hc : c ∈ s.closes) (hpc : c.pc.cleared = true) (event : Event) :
    fills s a ≠ some (c.fd, event) := by
  intro hfills
  have hall : (match fills s a with
      | some (p, _) => s.closes.all fun c => !(c.pc.cleared && c.fd = p)
      | none => true) = true := by
    cases a with
    | beginClose fd => exact nomatch hfills
    | close i ok => exact nomatch hfills
    | «open» fd => exact nomatch hfills
    | _ => exact ha
  rw [hfills] at hall
  simpa [hpc] using List.all_eq_true.mp hall c hc

/-- What a step does to the open files. -/
theorem files_step {s t : State} {a : Action} (h : step s a = some t) {fd file : Nat}
    (hfile : t.files fd = some file) :
    s.files fd = some file ∨ a = .open fd ∧ t.calls = s.calls := by
  cases step_cases h with
  | @close_f i c ok hc hpc =>
    left
    simp only [Function.update_apply] at hfile
    split_ifs at hfile
    exact hfile
  | @«open» fd' hfree =>
    simp only [Function.update_apply] at hfile
    split_ifs at hfile with hfd
    · exact .inr ⟨by rw [hfd], rfl⟩
    · exact .inl hfile
  | _ => exact .inl hfile

/-- **A call that may come back** knows its file. -/
theorem file_step {s t : State} {a : Action} (hs : Closed s) (ha : keepsClosed s a = true)
    (h : step s a = some t) :
    ∀ c ∈ t.calls, c.mayCall = true → ∀ file, t.files c.fd = some file → c.file = some file := by
  intro c hc hmay file hfile
  rcases files_step h hfile with hold | ⟨rfl, hcalls⟩
  · cases step_calls h with
    | same hcalls => exact hs.file c (hcalls ▸ hc) hmay file hold
    | @entered new hidle hpc hnew hfiles hcalls =>
      rw [hcalls] at hc
      rcases List.mem_append.mp hc with hc | hc
      · exact hs.file c hc hmay file hold
      · rw [List.mem_singleton.mp hc, hnew, ← hold, List.mem_singleton.mp hc]
    | @moved k old new hk hmoved hcalls =>
      rw [hcalls] at hc
      rcases List.mem_or_eq_of_mem_set hc with hc | rfl
      · exact hs.file c hc hmay file hold
      · rw [hmoved.fd] at hold
        rw [hmoved.file]
        exact hs.file old (List.mem_of_getElem? hk) (hmoved.mayCall hmay) file hold
  · rw [hcalls] at hc
    simp only [keepsClosed, List.all_eq_true] at ha
    simpa [hmay] using ha c hc

/-- **A close that has passed its `cancelAll`** finds no event on its fd. -/
theorem closes_step {s t : State} {a : Action} (hs : Closed s) (ha : keepsClosed s a = true)
    (h : step s a = some t) (hindexed : Indexed t.io) :
    (∀ c ∈ t.closes, ∀ p, c.pc = .cancelAll p → p = c.fd)
      ∧ ∀ c ∈ t.closes, c.pc.cleared = true → Cleared t.io c.fd := by
  have hkept {c : Close} (hc : c ∈ s.closes) (hpc : c.pc.cleared = true) : Cleared t.io c.fd :=
    cleared_kept (step_slot h) (hs.cleared c hc hpc) (not_filled ha hc hpc)
  -- one close moves
  have hmoved {i : Nat} {c' : Close} (hcloses : t.closes = s.closes.set i c')
      (hfd : ∀ p, c'.pc = .cancelAll p → p = c'.fd)
      (hcleared : c'.pc.cleared = true → Cleared t.io c'.fd) :
      (∀ c ∈ t.closes, ∀ p, c.pc = .cancelAll p → p = c.fd)
        ∧ ∀ c ∈ t.closes, c.pc.cleared = true → Cleared t.io c.fd := by
    rw [hcloses]
    refine ⟨fun c hc => ?_, fun c hc => ?_⟩
    · rcases List.mem_or_eq_of_mem_set hc with hc | rfl
      · exact hs.fd_ctx c hc
      · exact hfd
    · rcases List.mem_or_eq_of_mem_set hc with hc | rfl
      · exact hkept hc
      · exact hcleared
  cases step_cases h with
  | @beginClose fd =>
    refine ⟨fun c hc p hp => ?_, fun c hc hpc => ?_⟩
    · rcases List.mem_append.mp hc with hc | hc
      · exact hs.fd_ctx c hc p hp
      · rw [List.mem_singleton.mp hc] at hp
        simp only at hp
        split_ifs at hp
    · rcases List.mem_append.mp hc with hc | hc
      · exact hkept hc hpc
      · rw [List.mem_singleton.mp hc] at hpc ⊢
        simp only [keepsClosed, Bool.or_eq_true, decide_eq_true_eq] at ha
        rcases ha with hmanaged | hempty
        · rw [hmanaged] at hpc
          exact nomatch hpc
        · exact cleared_of_empty hs.indexed hempty
  | @closeFound i p c ok hc hpc hp =>
    refine hmoved rfl (fun q hq => ?_) fun hcleared => nomatch hcleared
    cases hq
    exact fd_ctx_eq hs.indexed hp
  | @closeShort i c ok hc hpc hp =>
    exact hmoved rfl (fun q hq => nomatch hq) fun _ => cleared_of_short hs.indexed hp
  | @cancelAll i p c ctx ok hc hpc hctx =>
    refine hmoved rfl (fun q hq => nomatch hq) fun _ => ?_
    have hp := hs.fd_ctx c (List.mem_of_getElem? hc) p hpc
    simp only [keepsClosed, hc, hpc, Option.all_some, Bool.or_eq_true, decide_eq_true_eq] at ha
    rw [← hp]
    refine cancelAll_cleared hctx (ha.imp id fun hempty => ?_)
    rw [hp] at hctx
    refine hempty c.fd ?_ ctx hctx
    exact fd_ctx_isSome hs.indexed (IOManager.State.slot_eq hctx .READ)
  | @del i c ok hc hpc =>
    refine hmoved rfl (fun q hq => nomatch hq) fun _ => ?_
    exact hkept (c := c) (List.mem_of_getElem? hc) (by rw [hpc]; rfl)
  | @close_f i c ok hc hpc =>
    exact hmoved rfl (fun q hq => nomatch hq) fun hcleared => nomatch hcleared
  | _ => exact ⟨hs.fd_ctx, fun c hc => hkept hc⟩

theorem closed_step {s t : State} {a : Action} (hs : Closed s)
    (ha : grows s a = true ∧ keepsClosed s a = true) (h : step s a = some t) : Closed t := by
  have hindexed := indexed_step hs.indexed ha.1 h
  obtain ⟨hfd, hcleared⟩ := closes_step hs ha.2 h hindexed
  exact ⟨hindexed, hfd, hcleared, file_step hs ha.2 h⟩

theorem Closed.isolates {s : State} (hs : Closed s) (a : Action) : Isolates s a := by
  cases a with
  | close i ok =>
    intro c hc hpc
    exact empty_of_cleared hs.indexed (hs.cleared c (List.mem_of_getElem? hc) (by rw [hpc]; rfl))
  | call k ret =>
    intro c hc hpc
    exact hs.file c (List.mem_of_getElem? hc) (by rw [DoIo.mayCall, hpc]; rfl)
  | _ => exact trivial

/-- **`close` isolates its descriptor**, in a run whose steps are all allowed. -/
theorem close_isolates {as : List Action}
    (h : Along step (fun s a => grows s a = true ∧ keepsClosed s a = true) init as) :
    Along step Isolates init as :=
  h.imp_of_invariant (fun _ _ _ hs ha hst => closed_step hs ha hst)
    (fun _ a hs _ => hs.isolates a) closed_init

/-- A fiber waits on fd 5, and another one begins to close it. -/
def waiting : List Action :=
  [.open 5, .manage 5, .enter 1 5 .READ false false, .call 0 .EAGAIN, .run 0, .run 0,
   .addEvent 0 true, .run 0, .beginClose 5, .close 0 true, .close 0 true]

/-- The waiter comes back when the file is closed and its number free. -/
def closedFirst : List Action :=
  waiting ++ [.close 0 true, .close 0 true, .resume 0, .run 0, .run 0, .call 0 .done, .open 5]

theorem close_isolates_closedFirst :
    (∃ t, exec step init closedFirst = some t) ∧ Along step Isolates init closedFirst :=
  ⟨⟨_, rfl⟩, close_isolates (by decide)⟩

/-- The waiter comes back before `close_f` and registers again. -/
def registersAgain : List Action :=
  waiting ++ [.resume 0, .run 0, .run 0, .call 0 .EAGAIN, .run 0, .run 0, .addEvent 0 true,
    .run 0, .close 0 true, .close 0 true]

/-- The waiter comes back when its number belongs to a new file. -/
def reused : List Action :=
  waiting ++ [.close 0 true, .close 0 true, .open 5, .resume 0, .run 0, .run 0, .call 0 .done]

theorem not_isolates :
    (∃ t, exec step init registersAgain = some t) ∧ ¬ Along step Isolates init registersAgain
      ∧ (∃ t, exec step init reused = some t) ∧ ¬ Along step Isolates init reused :=
  ⟨⟨_, rfl⟩, by decide, ⟨_, rfl⟩, by decide⟩

end Hook

end FiberServer
