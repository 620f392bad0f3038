import FiberServer.Hook.Wakeups

/-!
# `connect_with_timeout`

When `connect_f` answers `EINPROGRESS` the call arms a timer, registers `WRITE` and suspends its
fiber as one round of `do_io` does.  Woken, it returns `ETIMEDOUT` if the callback of the timer has
run, and else what `getsockopt(SO_ERROR)` says; it asks `getsockopt` also when `addEvent` fails.

* `Right`: 0 is returned for an established connection, an error for the one that failed so.
* `connect_right`: **every call returns right**, in every run in which no `addEvent` fails and
  nobody else takes the event of a call while its connection is undecided.
* `zeroEarly`: without that a call returns 0 for a connection that is not there.
-/

namespace FiberServer

namespace Connect

open Transition
open IOManager (Event EpollEvents Op)
open Hook (DoIo Pc Holds Triggers)

/-- The connection of a file. -/
inductive Conn
  | idle
  | connecting
  | established
  | failed (error : Nat)
  deriving DecidableEq, Repr

/-- What `connect_with_timeout` returns, with `errno`. -/
inductive Result
  | ok
  | ETIMEDOUT
  | EBADF
  | error (error : Nat)
  deriving DecidableEq, Repr

/-- A call whose `connect_f` has answered `EINPROGRESS`: its wait is the call `wait` of `do_io`.
Behind it, what it returned and what the connection was then. -/
structure Call where
  wait : Nat
  result : Option (Result × Conn) := none
  deriving DecidableEq, Repr

structure State where
  hook : Hook.State
  /-- the connections of the files -/
  conn : Nat → Conn
  calls : List Call

def init : State where
  hook := Hook.init
  conn := fun _ => .idle
  calls := []

inductive Action
  /-- anything that is no step of a `connect`, or a step that a `do_io` would take too -/
  | hook (a : Hook.Action)
  /-- `connect_f` has answered `EINPROGRESS` -/
  | connect (fiber fd : Nat) (timed : Bool)
  /-- the kernel has decided a connection -/
  | decide (file : Nat) (conn : Conn)
  /-- `tinfo->cancelled` is set -/
  | timedOut (i : Nat)
  | getsockopt (i : Nat)
  deriving DecidableEq, Repr

namespace State

/-- The connection of an fd. -/
def connOf (s : State) (fd : Nat) : Conn :=
  match s.hook.files fd with
  | some file => s.conn file
  | none => .idle

/-- `getsockopt(fd, SOL_SOCKET, SO_ERROR, …)` and what is returned for it. -/
def getsockopt (s : State) (fd : Nat) : Result :=
  match s.hook.files fd with
  | some file =>
    match s.conn file with
    | .failed error => .error error
    | _ => .ok
  | none => .EBADF

/-- The wait of a call that has not returned. -/
def waits (s : State) (k : Nat) : Bool :=
  s.calls.any fun call => call.wait = k && call.result = none

/-- The waits of the calls that have not returned. -/
def pending (s : State) : List (Nat × DoIo) :=
  s.calls.filterMap fun call =>
    if call.result = none then (s.hook.calls[call.wait]?).map fun c => (call.wait, c) else none

/-- A call returns; `c` is its wait. -/
def ret (s : State) (i : Nat) (call : Call) (c : DoIo) (result : Result) : State :=
  { s with calls := s.calls.set i { call with result := some (result, s.connOf c.fd) } }

/-- A step that is no step of a `connect`; the kernel does not tell of a socket whose connection is
undecided. -/
def others (s : State) : Hook.Action → Bool
  | .call k _ => !s.waits k
  | .run k => !(s.waits k && s.hook.calls[k]?.any fun c => c.pc = .test && c.cancelled)
  | .io (.epollWait p ev) => !(ev.writable && s.connOf p = .connecting)
  | _ => true

end State

def step (s : State) : Action → Option State
  | .hook a =>
    if s.others a then (Hook.step s.hook a).map fun hook => { s with hook := hook } else none
  | .connect fiber fd timed =>
    match s.hook.files fd with
    | some file =>
      -- otherwise it is `EALREADY` or `EISCONN`
      if s.conn file ≠ .connecting ∧ s.conn file ≠ .established then
        (exec Hook.step s.hook [.enter fiber fd .WRITE timed false,
          .call s.hook.calls.length .EAGAIN]).map fun hook =>
            { hook := hook
              conn := Function.update s.conn file .connecting
              calls := s.calls ++ [{ wait := s.hook.calls.length }] }
      else none
    | none => none
  | .decide file conn =>
    if s.conn file = .connecting ∧ conn ≠ .idle ∧ conn ≠ .connecting then
      some { s with conn := Function.update s.conn file conn }
    else none
  | .timedOut i =>
    match s.calls[i]? with
    | some call =>
      match s.hook.calls[call.wait]? with
      | some c =>
        if call.result = none ∧ c.pc = .test ∧ c.cancelled then
          (Hook.step s.hook (.run call.wait)).map fun hook =>
            { s.ret i call c .ETIMEDOUT with hook := hook }
        else none
      | none => none
    | none => none
  | .getsockopt i =>
    match s.calls[i]? with
    | some call =>
      match s.hook.calls[call.wait]? with
      | some c =>
        if call.result = none then
          match c.pc with
          | .call =>
            (Hook.step s.hook (.call call.wait .done)).map fun hook =>
              { s.ret i call c (s.getsockopt c.fd) with hook := hook }
          -- `addEvent` has failed
          | .returned => some (s.ret i call c (s.getsockopt c.fd))
          | _ => none
        else none
      | none => none
    | none => none

/-- A call returns 0 if the connection is there, the error of the connection if it has failed, and
`ETIMEDOUT` only if it was given a timeout. -/
def Right (s : State) : Prop :=
  ∀ call ∈ s.calls, ∀ result conn, call.result = some (result, conn) →
    match result with
    | .ok => conn = .established
    | .error error => conn = .failed error
    | .ETIMEDOUT => ∃ c, s.hook.calls[call.wait]? = some c ∧ c.timed = true
    | .EBADF => False

/-! ### What may go wrong -/

/-- Nobody closes the fd of the call. -/
def keepsFd (s : Hook.State) (c : DoIo) : Hook.Action → Bool
  | .close i _ => s.closes[i]?.all fun close => close.fd ≠ c.fd
  | _ => true

/-- The `addEvent` of the call `k` does not fail, nobody else takes its event away, and its fiber
registers nothing else. -/
def keepsEvent (s : Hook.State) (k : Nat) (c : DoIo) : Hook.Action → Bool
  | .addEvent j false => j ≠ k
  | .cancelEvent j i _ =>
    j = k ||
      s.calls[j]?.all fun d => !(d.event = c.event && d.timers[i]? = some (.cancellingAt c.fd))
  | .close i _ => s.closes[i]?.all fun close => close.pc ≠ .cancelAll c.fd
  | .io (.perform i _) =>
    match s.io.calls[i]? with
    | some (.ready (.addEvent _ cb _ fiber) _) => cb.isSome || fiber ≠ c.fiber
    | some (.ready (.delEvent event) p) => !(p = c.fd && event = c.event)
    | some (.ready (.cancelEvent event) p) => !(p = c.fd && event = c.event)
    | some (.ready .cancelAll p) => p ≠ c.fd
    | _ => true
  | _ => true

def allowed (s : State) : Action → Bool
  | .hook a =>
    Hook.grows s.hook a && s.pending.all fun (k, c) =>
      keepsFd s.hook c a && (s.connOf c.fd ≠ .connecting || keepsEvent s.hook k c a)
  -- the fiber waits for nothing, no report of the fd is left, and nobody else connects the file
  | .connect fiber fd _ =>
    !s.hook.queued fiber
      && (s.hook.io.contexts.all fun ctx =>
        ctx.read.fiber ≠ some fiber && ctx.write.fiber ≠ some fiber)
      && (s.hook.io.reports.all fun (p, ev) => !(p = fd && ev.writable))
      && s.pending.all fun (_, c) => c.file ≠ s.hook.files fd
  | _ => true

/-! ### An undecided connection -/

/-- The fiber waits for nothing. -/
def Free (s : Hook.State) (fiber : Nat) : Prop := ¬ s.queued fiber ∧ ∀ q e, ¬ Holds s fiber q e

/-- Where a wait is while the connection is undecided: only its own timer wakes its fiber. -/
def Wait (s : Hook.State) (c : DoIo) : Pc → Prop
  | .arm | .lookup | .resize => Free s c.fiber
  | .addEvent p => p = c.fd ∧ Free s c.fiber
  | .registered | .suspended => (s.queued c.fiber → c.cancelled = true)
    ∧ ∀ q e, Holds s c.fiber q e → q = c.fd ∧ e = c.event
  | .resumed | .test => c.cancelled = true
  | .call | .failed | .returned => False

section

variable {s t : Hook.State} {a : Hook.Action} {c c' : DoIo} {k : Nat}

theorem Wait.ne_returned (h : Wait s c c.pc) : c.pc ≠ .returned := by
  intro hpc
  rw [hpc] at h
  exact h

theorem Wait.of_continues (hfiber : c'.fiber = c.fiber) (hfd : c'.fd = c.fd)
    (hevent : c'.event = c.event) (hcancelled : c.cancelled = true → c'.cancelled = true) {pc : Pc}
    (h : Wait s c pc) : Wait s c' pc := by
  cases pc with
  | arm => rw [Wait, hfiber]; exact h
  | lookup => rw [Wait, hfiber]; exact h
  | resize => rw [Wait, hfiber]; exact h
  | addEvent p => rw [Wait, hfiber, hfd]; exact h
  | registered =>
    rw [Wait, hfiber, hfd, hevent]
    exact ⟨fun hqueued => hcancelled (h.1 hqueued), h.2⟩
  | suspended =>
    rw [Wait, hfiber, hfd, hevent]
    exact ⟨fun hqueued => hcancelled (h.1 hqueued), h.2⟩
  | resumed => exact hcancelled h
  | test => exact hcancelled h
  | call => exact h
  | failed => exact h
  | returned => exact h

theorem free_step (h : Hook.step s a = some t) {fiber : Nat} (hs : Free s fiber)
    (hregisters : ¬ Hook.Registers s fiber a) : Free t fiber := by
  refine ⟨fun hqueued => ?_, fun q e hholds => ?_⟩
  · rcases Hook.queued_step h hqueued with hold | ⟨q, e, hold, -⟩
    · exact hs.1 hold
    · exact hs.2 q e hold
  · exact (Hook.holds_step h hholds).elim (hs.2 q e) hregisters

/-- A step that does not register the fiber, and does not trigger its event unless the call is
cancelled. -/
theorem wait_step (h : Hook.step s a = some t) {pc : Pc} (hs : Wait s c pc)
    (hregisters : ¬ Hook.Registers s c.fiber a)
    (htriggers : Triggers s c.fd c.event a → c.cancelled = true) : Wait t c pc := by
  have hwaits (hwait : (s.queued c.fiber → c.cancelled = true)
      ∧ ∀ q e, Holds s c.fiber q e → q = c.fd ∧ e = c.event) :
      (t.queued c.fiber → c.cancelled = true)
        ∧ ∀ q e, Holds t c.fiber q e → q = c.fd ∧ e = c.event := by
    refine ⟨fun hqueued => ?_, fun q e hholds => ?_⟩
    · rcases Hook.queued_step h hqueued with hold | ⟨q, e, hold, htrigger⟩
      · exact hwait.1 hold
      · obtain ⟨rfl, rfl⟩ := hwait.2 q e hold
        exact htriggers htrigger
    · exact (Hook.holds_step h hholds).elim (hwait.2 q e) fun hreg => absurd hreg hregisters
  cases pc with
  | arm => exact free_step h hs hregisters
  | lookup => exact free_step h hs hregisters
  | resize => exact free_step h hs hregisters
  | addEvent p => exact ⟨hs.1, free_step h hs.2 hregisters⟩
  | registered => exact hwaits hs
  | suspended => exact hwaits hs
  | resumed => exact hs
  | test => exact hs
  | call => exact hs
  | failed => exact hs
  | returned => exact hs

/-! ### Timers -/

/-- Only a call with a timeout is cancelled, and one whose callback has begun. -/
structure Timers (c : DoIo) : Prop where
  untimed : c.timed = false → c.timers = [] ∧ c.cancelled = false
  cancels : ∀ timer ∈ c.timers, timer.cancels = true → c.cancelled = true

theorem Timers.set (h : Timers c) {i : Nat} {old timer : Hook.Timer} (hi : c.timers[i]? = some old)
    (hold : timer.cancels = true → old.cancels = true) :
    Timers { c with timers := c.timers.set i timer } := by
  refine ⟨fun htimed => ?_, fun x hx hcancels => ?_⟩
  · obtain ⟨hnil, -⟩ := h.untimed htimed
    rw [hnil] at hi
    cases hi
  · rcases List.mem_or_eq_of_mem_set hx with hx | rfl
    · exact h.cancels x hx hcancels
    · exact h.cancels old (List.mem_of_getElem? hi) (hold hcancels)

theorem Timers.pc (h : Timers c) (pc : Pc) : Timers { c with pc := pc } := ⟨h.untimed, h.cancels⟩

theorem Timers.cancelTimer (h : Timers c) : Timers c.cancelTimer := by
  rw [DoIo.cancelTimer]
  split
  next timers htimers =>
    refine ⟨fun htimed => ?_, fun x hx hcancels => ?_⟩
    · rw [(h.untimed htimed).1] at htimers
      cases htimers
    · rcases List.mem_cons.mp hx with rfl | hx
      · cases hcancels
      · exact h.cancels x (htimers ▸ List.mem_cons_of_mem _ hx) hcancels
  next => exact h

theorem Timers.next (h : Timers c) {m_fdContexts : List Nat}
    (hnext : c.next m_fdContexts = some c') : Timers c' := by
  rw [DoIo.next] at hnext
  split at hnext
  · cases hnext
    refine ⟨fun htimed => ?_, fun x hx hcancels => ?_⟩
    · rw [htimed]
      exact h.untimed htimed
    · simp only at hx
      split at hx
      · rcases List.mem_cons.mp hx with rfl | hx
        · cases hcancels
        · exact h.cancels x hx hcancels
      · exact h.cancels x hx hcancels
  · split at hnext <;> cases hnext <;> exact h.pc _
  · cases hnext
    exact h.cancelTimer.pc _
  · cases hnext
    exact h.pc _
  · cases hnext
    exact h.cancelTimer.pc _
  · cases hnext
    exact h.pc _
  · cases hnext

theorem Timers.callback (h : Timers c) {i : Nat} {m_fdContexts : List Nat}
    (hcallback : c.callback i m_fdContexts = some c') : Timers c' := by
  rw [DoIo.callback] at hcallback
  split at hcallback
  · cases hcallback
    refine h.set ‹_› fun hcancels => ?_
    split at hcancels <;> cases hcancels
  · rename_i hi
    split at hcallback
    · cases hcallback
      exact h.set hi fun hcancels => by cases hcancels
    · cases hcallback
      refine ⟨fun htimed => ?_, fun _ _ _ => rfl⟩
      obtain ⟨hnil, -⟩ := h.untimed htimed
      rw [hnil] at hi
      cases hi
  · split at hcallback <;> cases hcallback
    · exact h.set ‹_› fun _ => rfl
    · exact h.set ‹_› fun hcancels => by cases hcancels
  · cases hcallback

theorem Timers.afterCall (h : Timers c) {ret : Hook.Ret} (hcall : c.afterCall ret = some c') :
    Timers c' := by
  unfold DoIo.afterCall at hcall
  split at hcall
  · split at hcall
    · cases hcall
      exact h.pc _
    · cases ret <;> cases hcall
      · exact h.pc _
      · exact h
      · exact h.pc _
  · cases hcall

/-- **Every step** keeps it for every call. -/
theorem timers_step (h : Hook.step s a = some t) (hs : ∀ c ∈ s.calls, Timers c) :
    ∀ c ∈ t.calls, Timers c := by
  have hset {k : Nat} {c' : DoIo} (hcalls : t.calls = s.calls.set k c') (hc' : Timers c') :
      ∀ c ∈ t.calls, Timers c := by
    intro c hc
    rw [hcalls] at hc
    rcases List.mem_or_eq_of_mem_set hc with hc | rfl
    · exact hs c hc
    · exact hc'
  have hold {k : Nat} {c : DoIo} (hc : s.calls[k]? = some c) : Timers c :=
    hs c (List.mem_of_getElem? hc)
  cases Hook.step_cases h with
  | enter hidle =>
    intro c hc
    rcases List.mem_append.mp hc with hc | hc
    · exact hs c hc
    · rw [List.mem_singleton.mp hc]
      exact ⟨fun _ => ⟨rfl, rfl⟩, fun timer htimer => by cases htimer⟩
  | call hc hcall => exact hset rfl ((hold hc).afterCall hcall)
  | run hc hnext => exact hset rfl ((hold hc).next hnext)
  | resize hc hpc hp => exact hset rfl ((hold hc).pc _)
  | addEvent hc hpc hctx hempty => exact hset rfl ((hold hc).pc _)
  | failed hc hpc => exact hset rfl ((hold hc).pc _)
  | resume hc hpc hqueued => exact hset rfl ((hold hc).pc _)
  | expire hc hi => exact hset rfl ((hold hc).set hi fun hcancels => by cases hcancels)
  | callback hc hcallback => exact hset rfl ((hold hc).callback hcallback)
  | cancelEvent hc hi hctx => exact hset rfl ((hold hc).set hi fun hcancels => by cases hcancels)
  | _ => exact hs

/-! ### A step of the others -/

/-- A step that leaves the fd open. -/
theorem files_step (h : Hook.step s a = some t) (hfd : keepsFd s c a = true) {f : Nat}
    (hs : s.files c.fd = some f) : t.files c.fd = some f := by
  cases Hook.step_cases h with
  | @close_f i close ok hclose hpc =>
    simp only [keepsFd, hclose, Option.all_some, decide_eq_true_eq] at hfd
    exact (Function.update_of_ne (Ne.symm hfd) _ _).trans hs
  | @«open» fd hfree =>
    have hne : c.fd ≠ fd := by
      rintro rfl
      rw [hs] at hfree
      cases hfree
    exact (Function.update_of_ne hne _ _).trans hs
  | _ => exact hs

/-- Nobody registers the fiber of a call that waits, its own `addEvent` apart. -/
theorem not_registers (hdistinct : Hook.Distinct s) (h : Hook.step s a = some t)
    (hc : s.calls[k]? = some c) (hpc : c.pc ≠ .returned) (hkeeps : keepsEvent s k c a = true)
    (hother : a ≠ .addEvent k true) : ¬ Hook.Registers s c.fiber a := by
  intro hregisters
  cases a with
  | addEvent j ok =>
    cases ok with
    | false => exact hregisters
    | true =>
      obtain ⟨d, hd, hfiber⟩ := hregisters
      cases Hook.step_cases h with
      | @addEvent _ p d' ctx hd' hdpc hctx hempty =>
        obtain rfl : d = d' := Option.some.inj (hd.symm.trans hd')
        have hne : d.pc ≠ .returned := by
          rw [hdpc]
          rintro ⟨⟩
        exact hother (congrArg (Hook.Action.addEvent · true)
          (hdistinct j k d c hd' hc hne hpc hfiber))
  | io a =>
    cases a with
    | perform i ok =>
      cases ok with
      | false => exact hregisters
      | true =>
        obtain ⟨event, scheduler, p, hcall⟩ := hregisters
        simp [keepsEvent, hcall] at hkeeps
    | _ => exact hregisters
  | _ => exact hregisters

/-- Nobody but its own timer triggers the event of a call that waits. -/
theorem cancelled_of_triggers (hevent : c.event = .WRITE) (hc : s.calls[k]? = some c)
    (htimers : Timers c) (hreports : ∀ ev, (c.fd, ev) ∈ s.io.reports → ev.writable = false)
    (hkeeps : keepsEvent s k c a = true) (htriggers : Triggers s c.fd c.event a) :
    c.cancelled = true := by
  cases a with
  | cancelEvent j i ok =>
    obtain ⟨d, hd, hdevent, htimer⟩ := htriggers
    simp only [keepsEvent, Bool.or_eq_true, decide_eq_true_eq] at hkeeps
    rcases hkeeps with rfl | hkeeps
    · obtain rfl : c = d := Option.some.inj (hc.symm.trans hd)
      exact htimers.cancels _ (List.mem_of_getElem? htimer) rfl
    · rw [show s.calls[j]? = some d from hd] at hkeeps
      simp [hdevent, htimer] at hkeeps
  | close i ok =>
    obtain ⟨close, hclose, hpc⟩ := htriggers
    rw [keepsEvent, show s.closes[i]? = some close from hclose] at hkeeps
    simp [hpc] at hkeeps
  | io a =>
    cases a with
    | perform i ok =>
      rcases htriggers with hcall | hcall <;> simp [keepsEvent, hcall] at hkeeps
    | dispatch i ok =>
      obtain ⟨ev, hreport, hwritable⟩ := htriggers
      have hfalse := hreports ev (List.mem_of_getElem? hreport)
      rw [hwritable hevent] at hfalse
      cases hfalse
    | _ => exact htriggers.elim
  | _ => exact htriggers.elim

/-- No report of an undecided connection comes in. -/
theorem reports_step (h : Hook.step s a = some t)
    (hkernel : ∀ ev, a = .io (.epollWait c.fd ev) → ev.writable = false)
    (hs : ∀ ev, (c.fd, ev) ∈ s.io.reports → ev.writable = false) :
    ∀ ev, (c.fd, ev) ∈ t.io.reports → ev.writable = false := by
  intro ev hev
  cases Hook.step_cases h with
  | @cancelEvent j i p d ctx ok hd hi hctx =>
    have hsame := IOManager.perform_reports hctx (.cancelEvent d.event) ok
    exact hs ev (hsame ▸ hev)
  | @cancelAll i p close ctx ok hclose hpc hctx =>
    have hsame := IOManager.perform_reports hctx .cancelAll ok
    exact hs ev (hsame ▸ hev)
  | @io a io hassert hio =>
    cases IOManager.step_cases hio with
    | @perform i p op ctx ok hcall hctx =>
      have hsame := IOManager.perform_reports hctx op ok
      exact hs ev (hsame ▸ hev)
    | @epollWait p ctx ev' hctx hev' =>
      rcases List.mem_append.mp hev with hev | hev
      · exact hs ev hev
      · obtain ⟨rfl, rfl⟩ := Prod.mk.inj (List.mem_singleton.mp hev)
        exact hkernel ev rfl
    | @dispatch i p ev' ctx ok hreport hctx => exact hs ev (List.mem_of_mem_eraseIdx hev)
    | _ => exact hs ev hev
  | _ => exact hs ev hev

/-- The section of `addEvent` registers the fiber for its own event. -/
theorem wait_addEvent {p : Nat} {ctx : IOManager.FdContext} (hs : Wait s c (.addEvent p))
    (hctx : s.io.contexts[p]? = some ctx) (hempty : ctx.getContext c.event = {})
    (ht : t.io = IOManager.addEvent s.io p ctx c.event none Hook.State.scheduler c.fiber true)
    (hresumes : t.resumes = s.resumes) : Wait t c .registered := by
  obtain ⟨rfl, hidle, hfree⟩ := hs
  refine ⟨fun hqueued => absurd ?_ hidle, fun q e hholds => ?_⟩
  · rw [Hook.State.queued, Hook.State.items, ht, hresumes] at hqueued
    exact hqueued
  · by_contra hne
    obtain ⟨b, ctx', hslot, hfiber⟩ := hholds
    have hupdates := IOManager.addEvent_updates hctx none Hook.State.scheduler c.fiber hempty
    rw [ht, hupdates.other q e hne] at hslot
    exact hfree q e ⟨b, ctx', hslot, hfiber⟩

theorem Wait.of_io (hio : t.io = s.io) (hresumes : t.resumes = s.resumes) {pc : Pc}
    (h : Wait s c pc) : Wait t c pc := by
  have hqueued : t.queued c.fiber ↔ s.queued c.fiber := by
    rw [Hook.State.queued, Hook.State.queued, Hook.State.items, Hook.State.items, hio, hresumes]
  have hholds : ∀ q e, Holds t c.fiber q e ↔ Holds s c.fiber q e := by
    intro q e
    rw [Holds, Holds, hio]
  have hfree (hs : Free s c.fiber) : Free t c.fiber :=
    ⟨fun ht => hs.1 (hqueued.mp ht), fun q e ht => hs.2 q e ((hholds q e).mp ht)⟩
  cases pc with
  | arm => exact hfree h
  | lookup => exact hfree h
  | resize => exact hfree h
  | addEvent p => exact ⟨h.1, hfree h.2⟩
  | registered =>
    exact ⟨fun ht => h.1 (hqueued.mp ht), fun q e ht => h.2 q e ((hholds q e).mp ht)⟩
  | suspended =>
    exact ⟨fun ht => h.1 (hqueued.mp ht), fun q e ht => h.2 q e ((hholds q e).mp ht)⟩
  | _ => exact h

theorem callback_pc {i : Nat} {m_fdContexts : List Nat}
    (h : c.callback i m_fdContexts = some c') :
    c'.pc = c.pc ∧ (c.cancelled = true → c'.cancelled = true) := by
  rw [DoIo.callback] at h
  split at h
  · cases h
    exact ⟨rfl, id⟩
  · split at h
    · cases h
      exact ⟨rfl, id⟩
    · cases h
      exact ⟨rfl, fun _ => rfl⟩
  · split at h <;> cases h <;> exact ⟨rfl, id⟩
  · cases h

/-- What the fiber of a call does on its own. -/
theorem wait_next (hs : Wait s c c.pc) {m_fdContexts : List Nat}
    (hfd : ∀ p, m_fdContexts[c.fd]? = some p → p = c.fd)
    (htest : ¬ (c.pc = .test ∧ c.cancelled = true)) (hnext : c.next m_fdContexts = some c') :
    Wait s c' c'.pc := by
  obtain ⟨timers, htimers⟩ := c.cancelTimer_eq
  rw [DoIo.next, htimers] at hnext
  split at hnext
  · rename_i hpc
    rw [hpc] at hs
    cases hnext
    exact hs
  · rename_i hpc
    rw [hpc] at hs
    split at hnext
    · rename_i p hp
      cases hnext
      exact ⟨hfd p hp, hs⟩
    · cases hnext
      exact hs
  · rename_i hpc
    rw [hpc] at hs
    exact hs.elim
  · rename_i hpc
    rw [hpc] at hs
    cases hnext
    exact hs
  · rename_i hpc
    rw [hpc] at hs
    cases hnext
    exact hs
  · rename_i hpc
    rw [hpc] at hs
    exact absurd ⟨hpc, hs⟩ htest
  · cases hnext

/-- **The wait of an undecided connection** after a step of its own or of others. -/
theorem wait_hook (hindexed : IOManager.Indexed s.io) (hdistinct : Hook.Distinct s)
    (h : Hook.step s a = some t) (hgrows : Hook.grows s a = true) (hc : s.calls[k]? = some c)
    (hevent : c.event = .WRITE) (htimers : Timers c)
    (hreports : ∀ ev, (c.fd, ev) ∈ s.io.reports → ev.writable = false)
    (hkeeps : keepsEvent s k c a = true) (hcall : ∀ ret, a ≠ .call k ret)
    (htest : a = .run k → ¬ (c.pc = .test ∧ c.cancelled = true)) (hs : Wait s c c.pc)
    (hc' : t.calls[k]? = some c') : Wait t c' c'.pc := by
  have hindexed' := Hook.indexed_step hindexed hgrows h
  -- what the step leaves at the place where the call was
  have hkept (hother : a ≠ .addEvent k true) {pc : Pc} (hpc : Wait s c pc) : Wait t c pc :=
    wait_step h hpc (not_registers hdistinct h hc hs.ne_returned hkeeps hother)
      (cancelled_of_triggers hevent hc htimers hreports hkeeps)
  have hsame (hother : a ≠ .addEvent k true) (hcalls : t.calls = s.calls) :
      Wait t c' c'.pc := by
    rw [hcalls, hc] at hc'
    cases hc'
    exact hkept hother hs
  have hset {j : Nat} {d : DoIo} (hcalls : t.calls = s.calls.set j d) :
      (j = k ∧ c' = d) ∨ (j ≠ k ∧ c' = c) := by
    rw [hcalls] at hc'
    rcases Tally.getElem?_set_cases hc' with ⟨hj, heq⟩ | ⟨hj, hold⟩
    · exact Or.inl ⟨hj.symm, heq⟩
    · exact Or.inr ⟨Ne.symm hj, Option.some.inj (hold.symm.trans hc)⟩
  have hadd {p : Nat} {ctx : IOManager.FdContext} (hpc : c.pc = .addEvent p)
      (hctx : s.io.contexts[p]? = some ctx) (hempty : ctx.getContext c.event = {})
      (hio : t.io = IOManager.addEvent s.io p ctx c.event none Hook.State.scheduler c.fiber true)
      (hresumes : t.resumes = s.resumes) : Wait t c .registered :=
    wait_addEvent (hpc ▸ hs) hctx hempty hio hresumes
  cases Hook.step_cases h with
  | enter hidle =>
    obtain ⟨hk, -⟩ := List.getElem?_eq_some_iff.mp hc
    have heq : c' = c := Option.some.inj
      ((hc'.symm.trans (List.getElem?_append_left hk)).trans hc)
    rw [heq]
    exact hkept (fun heq => by cases heq) hs
  | @call j ret d d' hd hdcall =>
    rcases hset rfl with ⟨rfl, -⟩ | ⟨-, rfl⟩
    · exact absurd rfl (hcall ret)
    · exact hkept (fun heq => by cases heq) hs
  | @run j d d' hd hnext =>
    rcases hset rfl with ⟨rfl, rfl⟩ | ⟨-, rfl⟩
    · obtain rfl : c = d := Option.some.inj (hc.symm.trans hd)
      have hnew := wait_next hs (fun p hp => Hook.fd_ctx_eq hindexed hp) (htest rfl) hnext
      exact hnew.of_io rfl rfl
    · exact hkept (fun heq => by cases heq) hs
  | @resize j p d hd hpc hp =>
    rcases hset rfl with ⟨rfl, rfl⟩ | ⟨-, rfl⟩
    · obtain rfl : c = d := Option.some.inj (hc.symm.trans hd)
      have hfree : Wait _ c .resize := hkept (fun heq => by cases heq) (hpc ▸ hs)
      exact ⟨Hook.fd_ctx_eq hindexed' hp, hfree⟩
    · exact hkept (fun heq => by cases heq) hs
  | @addEvent j p d ctx hd hpc hctx hempty =>
    rcases hset rfl with ⟨rfl, rfl⟩ | ⟨hj, rfl⟩
    · obtain rfl : c = d := Option.some.inj (hc.symm.trans hd)
      exact (hadd hpc hctx hempty rfl rfl).of_continues rfl rfl rfl id
    · refine hkept (fun heq => hj ?_) hs
      cases heq
      rfl
  | @failed j p d hd hpc =>
    rcases hset rfl with ⟨rfl, -⟩ | ⟨-, rfl⟩
    · simp [keepsEvent] at hkeeps
    · exact hkept (fun heq => by cases heq) hs
  | @resume j d hd hpc hqueued =>
    rcases hset rfl with ⟨rfl, rfl⟩ | ⟨-, rfl⟩
    · obtain rfl : c = d := Option.some.inj (hc.symm.trans hd)
      rw [hpc] at hs
      exact hs.1 hqueued
    · exact hkept (fun heq => by cases heq) hs
  | @expire j i d hd hi =>
    rcases hset rfl with ⟨rfl, rfl⟩ | ⟨-, rfl⟩
    · obtain rfl : c = d := Option.some.inj (hc.symm.trans hd)
      have hwait := hkept (fun heq => by cases heq) hs
      exact hwait.of_continues rfl rfl rfl id
    · exact hkept (fun heq => by cases heq) hs
  | @callback j i d d' hd hcallback =>
    rcases hset rfl with ⟨rfl, rfl⟩ | ⟨-, rfl⟩
    · obtain rfl : c = d := Option.some.inj (hc.symm.trans hd)
      obtain ⟨hpc, hcancelled⟩ := callback_pc hcallback
      have hcontinues := DoIo.callback_continues hcallback
      have hwait := hkept (fun heq => by cases heq) hs
      rw [hpc]
      exact hwait.of_continues hcontinues.fiber hcontinues.fd hcontinues.event hcancelled
    · exact hkept (fun heq => by cases heq) hs
  | @cancelEvent j i p d ctx ok hd hi hctx =>
    rcases hset rfl with ⟨rfl, rfl⟩ | ⟨-, rfl⟩
    · obtain rfl : c = d := Option.some.inj (hc.symm.trans hd)
      have hwait := hkept (fun heq => by cases heq) hs
      exact hwait.of_continues rfl rfl rfl id
    · exact hkept (fun heq => by cases heq) hs
  | _ => exact hsame (fun heq => by cases heq) rfl

/-! ### A call that has not returned -/

/-- The fd is that of the file `f`, and as long as the connection is undecided the call waits. -/
structure Pending (s : Hook.State) (conn : Nat → Conn) (c : DoIo) (f : Nat) : Prop where
  event : c.event = .WRITE
  file : c.file = some f
  files : s.files c.fd = some f
  begun : conn f ≠ .idle
  wait : conn f = .connecting → Wait s c c.pc
  reports : conn f = .connecting → ∀ ev, (c.fd, ev) ∈ s.io.reports → ev.writable = false

theorem continues_step (h : Hook.step s a = some t) (hc : s.calls[k]? = some c) :
    ∃ c', t.calls[k]? = some c' ∧ c.Continues c' := by
  have hrefl : c.Continues c := ⟨rfl, rfl, rfl, rfl, rfl, id, id⟩
  cases Hook.step_calls h with
  | same hcalls => exact ⟨c, hcalls ▸ hc, hrefl⟩
  | entered hidle hpc hfile hfiles hcalls =>
    obtain ⟨hk, -⟩ := List.getElem?_eq_some_iff.mp hc
    exact ⟨c, hcalls ▸ (List.getElem?_append_left hk).trans hc, hrefl⟩
  | @moved j d d' hd hmoved hcalls =>
    by_cases hj : j = k
    · subst hj
      obtain rfl : c = d := Option.some.inj (hc.symm.trans hd)
      obtain ⟨hk, -⟩ := List.getElem?_eq_some_iff.mp hc
      exact ⟨d', by rw [hcalls, List.getElem?_set_self hk], hmoved⟩
    · exact ⟨c, by rw [hcalls, List.getElem?_set_ne hj, hc], hrefl⟩

/-- The step does nothing that only a `connect` does, and it leaves the fd and the event of the
call alone. -/
structure Undisturbed (s : Hook.State) (conn : Conn) (k : Nat) (c : DoIo) (a : Hook.Action) :
    Prop where
  call : ∀ ret, a ≠ .call k ret
  test : a = .run k → ¬ (c.pc = .test ∧ c.cancelled = true)
  kernel : conn = .connecting → ∀ ev, a = .io (.epollWait c.fd ev) → ev.writable = false
  grows : Hook.grows s a = true
  keepsFd : keepsFd s c a = true
  keepsEvent : conn = .connecting → keepsEvent s k c a = true

theorem Pending.step {conn : Nat → Conn} {f : Nat} (hp : Pending s conn c f)
    (hindexed : IOManager.Indexed s.io) (hdistinct : Hook.Distinct s) (htimers : Timers c)
    (h : Hook.step s a = some t) (hc : s.calls[k]? = some c)
    (ha : Undisturbed s (conn f) k c a) (hc' : t.calls[k]? = some c') : Pending t conn c' f := by
  obtain ⟨d, hd, hcontinues⟩ := continues_step h hc
  obtain rfl : d = c' := Option.some.inj (hd.symm.trans hc')
  refine ⟨hcontinues.event.trans hp.event, hcontinues.file.trans hp.file, ?_, hp.begun,
    fun hconn => ?_, fun hconn => ?_⟩
  · rw [hcontinues.fd]
    exact files_step h ha.keepsFd hp.files
  · exact wait_hook hindexed hdistinct h ha.grows hc hp.event htimers (hp.reports hconn)
      (ha.keepsEvent hconn) ha.call ha.test (hp.wait hconn) hc'
  · rw [hcontinues.fd]
    exact reports_step h (ha.kernel hconn) (hp.reports hconn)

end

/-! ### Runs -/

theorem State.connOf_eq {s : State} {fd f : Nat} (h : s.hook.files fd = some f) :
    s.connOf fd = s.conn f := by
  rw [State.connOf, h]

/-- What the allowed steps keep. -/
structure Inv (s : State) : Prop where
  indexed : IOManager.Indexed s.hook.io
  distinct : Hook.Distinct s.hook
  timers : ∀ c ∈ s.hook.calls, Timers c
  wait_lt : ∀ call ∈ s.calls, call.wait < s.hook.calls.length
  wait_nodup : (s.calls.map Call.wait).Nodup
  pending : ∀ call ∈ s.calls, call.result = none → ∀ c, s.hook.calls[call.wait]? = some c →
    ∃ f, Pending s.hook s.conn c f
  right : Right s

theorem inv_init : Inv init := by
  refine ⟨IOManager.indexed_init, fun _ _ _ _ hc => ?_, fun _ hc => ?_, fun _ hcall => ?_,
    List.nodup_nil, fun _ hcall => ?_, fun _ hcall => ?_⟩
  · cases hc
  · cases hc
  · cases hcall
  · cases hcall
  · cases hcall

section

variable {s t : State} {a : Action}

theorem mem_pending {call : Call} {c : DoIo} (hcall : call ∈ s.calls) (hnone : call.result = none)
    (hc : s.hook.calls[call.wait]? = some c) : (call.wait, c) ∈ s.pending := by
  refine List.mem_filterMap.mpr ⟨call, hcall, ?_⟩
  rw [if_pos hnone, hc]
  rfl

/-- An allowed step of the others. -/
theorem undisturbed {b : Hook.Action} (hothers : s.others b = true)
    (ha : allowed s (.hook b) = true) {call : Call} {c : DoIo} {f : Nat}
    (hcall : call ∈ s.calls) (hnone : call.result = none)
    (hc : s.hook.calls[call.wait]? = some c) (hp : Pending s.hook s.conn c f) :
    Undisturbed s.hook (s.conn f) call.wait c b := by
  have hwaits : s.waits call.wait = true :=
    List.any_eq_true.mpr ⟨call, hcall, by simp [hnone]⟩
  simp only [allowed, Bool.and_eq_true, List.all_eq_true] at ha
  obtain ⟨hgrows, hall⟩ := ha
  have hkeeps := hall _ (mem_pending hcall hnone hc)
  simp only [Bool.or_eq_true, decide_eq_true_eq] at hkeeps
  refine ⟨?_, ?_, ?_, hgrows, hkeeps.1, fun hconn => hkeeps.2.resolve_left ?_⟩
  · rintro ret rfl
    simp [State.others, hwaits] at hothers
  · rintro rfl ⟨hpc, hcancelled⟩
    simp [State.others, hwaits, hc, hpc, hcancelled] at hothers
  · rintro hconn ev rfl
    have hof := State.connOf_eq hp.files
    rw [hconn] at hof
    simpa [State.others, hof] using hothers
  · rw [State.connOf_eq hp.files]
    exact not_not_intro hconn

/-- A result stays right: the timeouts of the waits do not change. -/
theorem Right.of_timed (h : Right s) (hcalls : t.calls = s.calls)
    (htimed : ∀ (k : Nat) (c : DoIo), s.hook.calls[k]? = some c →
      ∃ c', t.hook.calls[k]? = some c' ∧ c'.timed = c.timed) : Right t := by
  intro call hcall result conn hresult
  have hold := h call (hcalls ▸ hcall) result conn hresult
  cases result with
  | ETIMEDOUT =>
    obtain ⟨c, hc, hctimed⟩ := hold
    obtain ⟨c', hc', heq⟩ := htimed _ c hc
    exact ⟨c', hc', heq.trans hctimed⟩
  | _ => exact hold

theorem inv_hook {b : Hook.Action} {hook : Hook.State} (hs : Inv s) (hothers : s.others b = true)
    (ha : allowed s (.hook b) = true) (h : Hook.step s.hook b = some hook) :
    Inv { s with hook := hook } := by
  have hgrows : Hook.grows s.hook b = true := by
    simp only [allowed, Bool.and_eq_true] at ha
    exact ha.1
  refine ⟨Hook.indexed_step hs.indexed hgrows h, Hook.distinct_step hs.distinct h,
    timers_step h hs.timers, fun call hcall => ?_, hs.wait_nodup,
    fun call hcall hnone c' hc' => ?_, hs.right.of_timed rfl fun k c hc => ?_⟩
  · obtain ⟨c', hc', -⟩ := continues_step h
      (List.getElem?_eq_getElem (hs.wait_lt call hcall))
    exact (List.getElem?_eq_some_iff.mp hc').1
  · have hc := List.getElem?_eq_getElem (hs.wait_lt call hcall)
    obtain ⟨f, hp⟩ := hs.pending call hcall hnone _ hc
    exact ⟨f, hp.step hs.indexed hs.distinct (hs.timers _ (List.getElem_mem _)) h hc
      (undisturbed hothers ha hcall hnone hc hp) hc'⟩
  · obtain ⟨c', hc', hcontinues⟩ := continues_step h hc
    exact ⟨c', hc', hcontinues.timed⟩

/-- `connect_f` has answered: a new wait that begins with its timer. -/
theorem exec_connect {s hook : Hook.State} {fiber fd : Nat} {timed : Bool}
    (h : exec Hook.step s [.enter fiber fd .WRITE timed false, .call s.calls.length .EAGAIN]
      = some hook) :
    hook = { s with calls := s.calls ++ [{
      fiber := fiber, fd := fd, event := .WRITE, timed := timed, raw := false
      file := s.files fd, pc := .arm }] } := by
  obtain ⟨s₁, h₁, h⟩ := exec_cons h
  obtain ⟨s₂, h₂, h⟩ := exec_cons h
  obtain rfl := Option.some.inj h
  cases Hook.step_cases h₁ with
  | enter hidle =>
    cases Hook.step_cases h₂ with
    | @call _ _ d d' hd hcall =>
      rw [List.getElem?_concat_length] at hd
      obtain rfl := Option.some.inj hd
      obtain rfl := Option.some.inj hcall
      simp only [Hook.State.setCall, Hook.State.mk.injEq, true_and, and_true]
      rw [List.set_append_right _ _ (Nat.le_refl _), Nat.sub_self]
      rfl

theorem free_of_allowed {fiber fd : Nat} {timed : Bool}
    (ha : allowed s (.connect fiber fd timed) = true) : Free s.hook fiber := by
  simp only [allowed, Bool.and_eq_true, Bool.not_eq_true', decide_eq_false_iff_not,
    List.all_eq_true, decide_eq_true_eq] at ha
  obtain ⟨⟨⟨hidle, hcontexts⟩, -⟩, -⟩ := ha
  refine ⟨hidle, fun q e hholds => ?_⟩
  obtain ⟨b, ctx, hslot, hfiber⟩ := hholds
  obtain ⟨c, hc, hctx⟩ := Option.map_eq_some_iff.mp hslot
  obtain ⟨hread, hwrite⟩ := hcontexts c (List.mem_of_getElem? hc)
  obtain ⟨-, rfl⟩ := Prod.mk.inj hctx
  cases e with
  | READ => exact hread hfiber
  | WRITE => exact hwrite hfiber

theorem inv_connect {fiber fd file : Nat} {timed : Bool} {hook : Hook.State} (hs : Inv s)
    (ha : allowed s (.connect fiber fd timed) = true) (hfile : s.hook.files fd = some file)
    (h : exec Hook.step s.hook [.enter fiber fd .WRITE timed false,
      .call s.hook.calls.length .EAGAIN] = some hook) :
    Inv {
      hook := hook
      conn := Function.update s.conn file .connecting
      calls := s.calls ++ [{ wait := s.hook.calls.length }] } := by
  have hfree := free_of_allowed ha
  have htimers := exec_invariant (I := fun u : Hook.State => ∀ c ∈ u.calls, Timers c)
    (fun _ _ _ hu hstep => timers_step hstep hu) hs.timers h
  have hdistinct := exec_invariant (I := Hook.Distinct)
    (fun _ _ _ hu hstep => Hook.distinct_step hu hstep) hs.distinct h
  simp only [allowed, Bool.and_eq_true, List.all_eq_true, decide_eq_true_eq] at ha
  obtain ⟨⟨-, hreports⟩, hothers⟩ := ha
  rw [exec_connect h] at htimers hdistinct ⊢
  have hlt : ∀ call ∈ s.calls, call.wait < s.hook.calls.length := hs.wait_lt
  refine ⟨hs.indexed, hdistinct, htimers, fun call hcall => ?_, ?_,
    fun call hcall hnone c hc => ?_, fun call hcall result conn hresult => ?_⟩
  · rw [List.length_append, List.length_singleton]
    rcases List.mem_append.mp hcall with hcall | hcall
    · exact Nat.lt_succ_of_lt (hlt call hcall)
    · rw [List.mem_singleton.mp hcall]
      exact Nat.lt_succ_self _
  · rw [List.map_append, List.nodup_append]
    refine ⟨hs.wait_nodup, List.nodup_singleton _, ?_⟩
    rintro x hx y hy rfl
    obtain ⟨call, hcall, rfl⟩ := List.mem_map.mp hx
    exact absurd (List.mem_singleton.mp hy) (Nat.ne_of_lt (hlt call hcall))
  · rcases List.mem_append.mp hcall with hin | hin
    · have hold : s.hook.calls[call.wait]? = some c :=
        (List.getElem?_append_left (hlt call hin)).symm.trans hc
      obtain ⟨f, hp⟩ := hs.pending call hin hnone c hold
      have hne : f ≠ file := by
        intro hf
        refine hothers _ (mem_pending hin hnone hold) (hp.file.trans ?_)
        rw [hf, hfile]
      have hconn : Function.update s.conn file .connecting f = s.conn f :=
        Function.update_of_ne hne _ _
      exact ⟨f, hp.event, hp.file, hp.files, fun hidle => hp.begun (hconn.symm.trans hidle),
        fun hconnecting => (hp.wait (hconn.symm.trans hconnecting)).of_io rfl rfl,
        fun hconnecting => hp.reports (hconn.symm.trans hconnecting)⟩
    · rw [List.mem_singleton.mp hin, List.getElem?_concat_length] at hc
      obtain rfl := Option.some.inj hc
      have hconn : Function.update s.conn file .connecting file = .connecting :=
        Function.update_self _ _ _
      refine ⟨file, rfl, hfile, hfile, fun hidle => ?_, fun _ => ?_, fun _ ev hev => ?_⟩
      · cases hconn.symm.trans hidle
      · have hwait (c : DoIo) (hc : c.fiber = fiber) : Wait s.hook c .arm := by
          rw [Wait, hc]
          exact hfree
        exact (hwait _ rfl).of_io rfl rfl
      · simpa using hreports _ hev
  · rcases List.mem_append.mp hcall with hcall | hcall
    · have hold := hs.right call hcall result conn hresult
      cases result with
      | ETIMEDOUT =>
        obtain ⟨c, hc, htimed⟩ := hold
        exact ⟨c, (List.getElem?_append_left (hlt call hcall)).trans hc, htimed⟩
      | _ => exact hold
    · rw [List.mem_singleton.mp hcall] at hresult
      cases hresult

theorem inv_decide {file : Nat} {conn : Conn} (hs : Inv s) (hidle : conn ≠ .idle)
    (hconnecting : conn ≠ .connecting) :
    Inv { s with conn := Function.update s.conn file conn } := by
  refine ⟨hs.indexed, hs.distinct, hs.timers, hs.wait_lt, hs.wait_nodup,
    fun call hcall hnone c hc => ?_, hs.right.of_timed rfl fun k c hc => ⟨c, hc, rfl⟩⟩
  obtain ⟨f, hp⟩ := hs.pending call hcall hnone c hc
  by_cases hf : f = file
  · have hself : Function.update s.conn file conn f = conn := by
      rw [hf, Function.update_self]
    exact ⟨f, hp.event, hp.file, hp.files, fun h => hidle (hself.symm.trans h),
      fun h => absurd (hself.symm.trans h) hconnecting,
      fun h => absurd (hself.symm.trans h) hconnecting⟩
  · have hother : Function.update s.conn file conn f = s.conn f := Function.update_of_ne hf _ _
    exact ⟨f, hp.event, hp.file, hp.files, fun h => hp.begun (hother.symm.trans h),
      fun h => hp.wait (hother.symm.trans h), fun h => hp.reports (hother.symm.trans h)⟩

/-- A call returns with the right result. -/
theorem inv_ret {i : Nat} {call : Call} {c : DoIo} {result : Result} (hs : Inv s)
    (hi : s.calls[i]? = some call)
    (hright : match result with
      | .ok => s.connOf c.fd = .established
      | .error error => s.connOf c.fd = .failed error
      | .ETIMEDOUT => ∃ c, s.hook.calls[call.wait]? = some c ∧ c.timed = true
      | .EBADF => False) : Inv (s.ret i call c result) := by
  obtain ⟨hlt, hget⟩ := List.getElem?_eq_some_iff.mp hi
  have hmem : ∀ x ∈ (s.ret i call c result).calls,
      x ∈ s.calls ∨ x = { call with result := some (result, s.connOf c.fd) } :=
    fun x hx => List.mem_or_eq_of_mem_set hx
  have hwaits : (s.ret i call c result).calls.map Call.wait = s.calls.map Call.wait := by
    have hwait : (s.calls.map Call.wait)[i]? = some call.wait := by
      rw [List.getElem?_map, hi]
      rfl
    obtain ⟨hlen, hwait⟩ := List.getElem?_eq_some_iff.mp hwait
    rw [State.ret, List.map_set]
    change (s.calls.map Call.wait).set i call.wait = _
    rw [← hwait, List.set_getElem_self]
  refine ⟨hs.indexed, hs.distinct, hs.timers, fun x hx => ?_, ?_, fun x hx hnone => ?_,
    fun x hx result' conn hresult => ?_⟩
  · rcases hmem x hx with hx | rfl
    · exact hs.wait_lt x hx
    · exact hs.wait_lt call (List.mem_of_getElem? hi)
  · rw [hwaits]
    exact hs.wait_nodup
  · rcases hmem x hx with hx | rfl
    · exact hs.pending x hx hnone
    · cases hnone
  · rcases hmem x hx with hx | rfl
    · exact hs.right x hx result' conn hresult
    · obtain ⟨rfl, rfl⟩ := Prod.mk.inj (Option.some.inj hresult)
      cases result with
      | _ => exact hright

/-- A call that has returned waits no more. -/
theorem waits_ret (hs : Inv s) {i : Nat} {call : Call} (c : DoIo) (result : Result)
    (hi : s.calls[i]? = some call) : (s.ret i call c result).waits call.wait = false := by
  rw [State.waits, State.ret, List.any_eq_false]
  intro x hx
  obtain ⟨j, hj⟩ := List.getElem?_of_mem hx
  rcases Tally.getElem?_set_cases hj with ⟨-, rfl⟩ | ⟨hne, hj⟩
  · simp
  · have hwait : x.wait ≠ call.wait := by
      intro heq
      have hx' : (s.calls.map Call.wait)[j]? = some call.wait := by
        rw [List.getElem?_map, hj, ← heq]
        rfl
      have hi' : (s.calls.map Call.wait)[i]? = some call.wait := by
        rw [List.getElem?_map, hi]
        rfl
      obtain ⟨hlt, -⟩ := List.getElem?_eq_some_iff.mp hx'
      exact hne ((List.getElem?_inj hlt hs.wait_nodup).mp (hx'.trans hi'.symm))
    simp [hwait]

/-- What `getsockopt` says of a decided connection is right. -/
theorem getsockopt_right {c : DoIo} {f : Nat} (hp : Pending s.hook s.conn c f)
    (hpc : c.pc = .call ∨ c.pc = .returned) :
    match s.getsockopt c.fd with
    | .ok => s.connOf c.fd = .established
    | .error error => s.connOf c.fd = .failed error
    | .ETIMEDOUT => False
    | .EBADF => False := by
  have hof := State.connOf_eq hp.files
  cases hconn : s.conn f with
  | idle => exact absurd hconn hp.begun
  | connecting =>
    have hwait := hp.wait hconn
    rcases hpc with hpc | hpc <;> rw [hpc] at hwait <;> exact hwait.elim
  | established =>
    have hanswer : s.getsockopt c.fd = .ok := by
      rw [State.getsockopt, hp.files]
      simp only [hconn]
    rw [hanswer]
    exact hof.trans hconn
  | failed error =>
    have hanswer : s.getsockopt c.fd = .error error := by
      rw [State.getsockopt, hp.files]
      simp only [hconn]
    rw [hanswer]
    exact hof.trans hconn

/-- **Every allowed step** keeps it. -/
theorem inv_step (hs : Inv s) (ha : allowed s a = true) (h : step s a = some t) : Inv t := by
  cases a with
  | hook b =>
    rw [step] at h
    split at h
    · obtain ⟨hook, hhook, rfl⟩ := Option.map_eq_some_iff.mp h
      exact inv_hook hs ‹_› ha hhook
    · cases h
  | connect fiber fd timed =>
    rw [step] at h
    split at h
    next file hfile =>
      split at h
      · obtain ⟨hook, hhook, rfl⟩ := Option.map_eq_some_iff.mp h
        exact inv_connect hs ha hfile hhook
      · cases h
    next => cases h
  | decide file conn =>
    rw [step] at h
    split at h
    next hdecide =>
      cases h
      exact inv_decide hs hdecide.2.1 hdecide.2.2
    next => cases h
  | timedOut i =>
    rw [step] at h
    split at h
    next call hi =>
      split at h
      next c hc =>
        split at h
        next hready =>
          obtain ⟨hook, hhook, rfl⟩ := Option.map_eq_some_iff.mp h
          have htimed : c.timed = true := by
            by_contra hn
            have huntimed := (hs.timers c (List.mem_of_getElem? hc)).untimed (by simpa using hn)
            rw [huntimed.2] at hready
            cases hready.2.2
          have hret : Inv (s.ret i call c .ETIMEDOUT) := inv_ret hs hi ⟨c, hc, htimed⟩
          have hwaits := waits_ret hs c .ETIMEDOUT hi
          refine inv_hook hret ?_ ?_ hhook
          · rw [State.others, hwaits]
            rfl
          · simp [allowed, Hook.grows, keepsFd, keepsEvent]
        next => cases h
      next => cases h
    next => cases h
  | getsockopt i =>
    rw [step] at h
    split at h
    next call hi =>
      split at h
      next c hc =>
        split at h
        next hnone =>
          have hright (hpc : c.pc = .call ∨ c.pc = .returned) :
              Inv (s.ret i call c (s.getsockopt c.fd)) := by
            obtain ⟨f, hp⟩ := hs.pending call (List.mem_of_getElem? hi) hnone c hc
            have hresult := getsockopt_right hp hpc
            refine inv_ret hs hi ?_
            cases hanswer : s.getsockopt c.fd <;> rw [hanswer] at hresult
            · exact hresult
            · exact hresult.elim
            · exact hresult
            · exact hresult
          split at h
          next hpc =>
            obtain ⟨hook, hhook, rfl⟩ := Option.map_eq_some_iff.mp h
            have hwaits := waits_ret hs c (s.getsockopt c.fd) hi
            refine inv_hook (hright (Or.inl hpc)) ?_ ?_ hhook
            · rw [State.others, hwaits]
              rfl
            · simp [allowed, Hook.grows, keepsFd, keepsEvent]
          next hpc =>
            cases h
            exact hright (Or.inr hpc)
          next => cases h
        next => cases h
      next => cases h
    next => cases h

end

/-- A connection that is refused while the fiber waits, and the error is returned. -/
def refused : List Action :=
  [.hook (.open 5), .hook (.manage 5), .connect 1 5 true, .hook (.run 0), .hook (.run 0),
    .hook (.addEvent 0 true), .hook (.run 0), .decide 0 (.failed 111),
    .hook (.io (.epollWait 5 { EPOLLERR := true })), .hook (.io (.dispatch 0 true)),
    .hook (.resume 0), .hook (.run 0), .hook (.run 0), .getsockopt 0]

/-- `addEvent` fails, and the call asks `getsockopt` at once. -/
def zeroEarly : List Action :=
  [.hook (.open 5), .hook (.manage 5), .connect 1 5 true, .hook (.run 0), .hook (.run 0),
    .hook (.addEvent 0 false), .hook (.run 0), .getsockopt 0]

/-- Then 0 is returned for a connection that is not there. -/
theorem zeroEarly_not_right :
    (exec step init zeroEarly).map (fun s => s.calls)
      = some [{ wait := 0, result := some (.ok, .connecting) }] := by
  decide +kernel

end Connect

end FiberServer
