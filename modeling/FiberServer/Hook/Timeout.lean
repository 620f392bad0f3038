import FiberServer.Hook.DoIo

/-!
# The timeout of `do_io`

`do_io` arms its timer before it calls `addEvent`.  A callback that runs in between sets
`cancelled` and cancels nothing: the wait that follows has no timer that would end it.

* `timed_waits_live`: a fiber that is suspended with a timeout has a timer that will cancel its
  event, or an item in a run queue, in every state of a run in which no call registers after its
  callback has run, no `epoll_ctl` of a callback fails for a waiting call, nobody deletes the
  event of a waiting call and no resize makes the table shorter.
-/

namespace FiberServer

namespace Hook

open Transition
open IOManager (Event Events EventContext FdContext SlotStep Indexed)
open State (scheduler)

/-- The callback of the timer has not looked at `cancelled` yet. -/
def Timer.waits : Timer → Bool
  | .pending | .expired | .locked => true
  | _ => false

/-- The callback is about to cancel the event. -/
def Timer.cancels : Timer → Bool
  | .cancelling | .cancellingAt _ => true
  | _ => false

/-- A timer of the call will cancel its event: the one of this round, whose callback will find
`cancelled` unset, or one whose callback has set it. -/
def DoIo.live (c : DoIo) : Bool :=
  if c.cancelled then c.timers.any Timer.cancels else c.timers.head?.any Timer.waits

/-- The event of the call should be registered, or its fiber should have an item. -/
def Pc.waits : Pc → Bool
  | .registered | .suspended => true
  | _ => false

/-- The timer of the round has been armed and not been cancelled. -/
def Pc.armed : Pc → Bool
  | .lookup | .resize | .addEvent _ | .registered | .suspended => true
  | _ => false

/-- Every fiber that is suspended in `do_io` with a finite timeout has a timer that will wake it
or an item in a run queue. -/
def TimedWaits (s : State) : Prop :=
  ∀ c ∈ s.calls, c.pc = .suspended → c.timed = true → c.live = true ∨ s.queued c.fiber

/-- No call registers after its callback has run, and nothing takes the event of a waiting call
away. -/
def keepsTimeout (s : State) : Action → Bool
  | .addEvent k true => s.calls[k]?.all fun c => !c.cancelled || c.timers.any Timer.cancels
  | .cancelEvent k _ false => s.calls[k]?.all fun c => !c.pc.waits
  | .io a =>
    match IOManager.deletes s.io a with
    | some (p, event) => s.calls.all fun c => !(c.pc.waits && c.fd = p && c.event = event)
    | none => true
  | _ => true

/-! ### Items -/

/-- No fiber has been taken more often than scheduled. -/
def Counted (s : State) : Prop := ∀ fiber, s.resumes fiber ≤ s.items fiber

theorem items_le {s t : State} (h : ∃ new, t.io.scheduled = new ++ s.io.scheduled) (fiber : Nat) :
    s.items fiber ≤ t.items fiber := by
  obtain ⟨new, hnew⟩ := h
  rw [State.items, State.items, hnew, List.countP_append]
  omega

theorem items_lt {s t : State} {new : List IOManager.Task} {task : IOManager.Task} {fiber : Nat}
    (h : t.io.scheduled = new ++ s.io.scheduled) (htask : task ∈ new)
    (hfiber : task.fiber = some fiber) : s.items fiber < t.items fiber := by
  have hpos : 0 < new.countP fun task => task.fiber = some fiber :=
    List.countP_pos_iff.mpr ⟨task, htask, by simpa using hfiber⟩
  rw [State.items, State.items, h, List.countP_append]
  omega

theorem taken_resumes (s : State) (fiber other : Nat) :
    (s.taken fiber).resumes other
      = if other = fiber then s.resumes fiber + 1 else s.resumes other :=
  Function.update_apply _ _ _ _

theorem counted_step {s t : State} {a : Action} (hs : Counted s) (h : step s a = some t) :
    Counted t := by
  have htaken {fiber : Nat} (hqueued : s.queued fiber) (other : Nat) :
      (s.taken fiber).resumes other ≤ s.items other := by
    rw [taken_resumes]
    split_ifs with hother
    · rw [hother]
      exact hqueued
    · exact hs other
  intro fiber
  have hle := items_le (step_slot h).scheduled fiber
  cases step_cases h with
  | resume hc hpc hqueued => exact htaken hqueued fiber
  | take hidle hqueued => exact htaken hqueued fiber
  | _ => exact Nat.le_trans (hs fiber) hle

/-! ### One call for each fiber -/

/-- A fiber is in one call of `do_io` at most. -/
def Distinct (s : State) : Prop :=
  ∀ (i j : Nat) (c d : DoIo), s.calls[i]? = some c → s.calls[j]? = some d →
    c.pc ≠ .returned → d.pc ≠ .returned → c.fiber = d.fiber → i = j

theorem not_inDoIo {s : State} {fiber i : Nat} {c : DoIo} (h : s.inDoIo fiber = false)
    (hc : s.calls[i]? = some c) (hpc : c.pc ≠ .returned) : c.fiber ≠ fiber := by
  intro hfiber
  have hin : s.inDoIo fiber = true :=
    List.any_eq_true.mpr ⟨c, List.mem_of_getElem? hc, by simp [hfiber, hpc]⟩
  rw [h] at hin
  exact nomatch hin

theorem distinct_step {s t : State} {a : Action} (hs : Distinct s) (h : step s a = some t) :
    Distinct t := by
  cases step_calls h with
  | same hcalls =>
    rw [Distinct, hcalls]
    exact hs
  | @entered new hidle hpc hfile hfiles hcalls =>
    intro i j c d hc hd hcpc hdpc hfiber
    rw [hcalls] at hc hd
    rcases Tally.getElem?_concat_cases hc with hold | ⟨hi, hnew⟩
    · rcases Tally.getElem?_concat_cases hd with hold' | ⟨hj, hnew'⟩
      · exact hs i j c d hold hold' hcpc hdpc hfiber
      · rw [hnew'] at hfiber
        exact absurd hfiber (not_inDoIo hidle hold hcpc)
    · rcases Tally.getElem?_concat_cases hd with hold' | ⟨hj, -⟩
      · rw [hnew] at hfiber
        exact absurd hfiber.symm (not_inDoIo hidle hold' hdpc)
      · rw [hi, hj]
  | @moved k old new hold hmoved hcalls =>
    have hback (i : Nat) (c : DoIo) (hc : t.calls[i]? = some c) (hpc : c.pc ≠ .returned) :
        ∃ c', s.calls[i]? = some c' ∧ c'.pc ≠ .returned ∧ c'.fiber = c.fiber := by
      rw [hcalls] at hc
      rcases Tally.getElem?_set_cases hc with ⟨rfl, rfl⟩ | ⟨-, hc⟩
      · exact ⟨old, hold, fun hret => hpc (hmoved.returned hret), hmoved.fiber.symm⟩
      · exact ⟨c, hc, hpc, rfl⟩
    intro i j c d hc hd hcpc hdpc hfiber
    obtain ⟨c', hc', hcpc', hcfiber⟩ := hback i c hc hcpc
    obtain ⟨d', hd', hdpc', hdfiber⟩ := hback j d hd hdpc
    exact hs i j c' d' hc' hd' hcpc' hdpc' (hcfiber.trans (hfiber.trans hdfiber.symm))

/-! ### A call keeps its timer -/

/-- What a call knows of its own timers and of the context it has found. -/
structure Timed (c : DoIo) : Prop where
  fd_ctx : ∀ p, c.pc = .addEvent p → p = c.fd
  timer_fd_ctx : ∀ p, Timer.cancellingAt p ∈ c.timers → p = c.fd
  armed : c.pc.armed = true → c.timed = true → c.cancelled = false →
    c.timers.head?.any Timer.waits = true

namespace Timed

variable {c c' : DoIo}

/-- A point at which no timer is armed. -/
theorem unarmed (h : Timed c) {pc : Pc} (hpc : pc.armed = false) (hsection : ∀ p, pc ≠ .addEvent p) :
    Timed { c with pc := pc } :=
  ⟨fun p hp => absurd hp (hsection p), h.timer_fd_ctx,
    fun harmed => absurd (hpc.symm.trans harmed) Bool.noConfusion⟩

theorem afterCall (h : Timed c) {ret : Ret} (hcall : c.afterCall ret = some c') : Timed c' := by
  unfold DoIo.afterCall at hcall
  split_ifs at hcall
  · cases hcall
    exact h.unarmed rfl fun _ hp => nomatch hp
  · cases ret <;> cases hcall
    · exact h.unarmed rfl fun _ hp => nomatch hp
    · exact h
    · exact h.unarmed rfl fun _ hp => nomatch hp

theorem cancelTimer (h : Timed c) {pc : Pc} (hpc : pc.armed = false)
    (hsection : ∀ p, pc ≠ .addEvent p) : Timed { c.cancelTimer with pc := pc } := by
  rw [DoIo.cancelTimer]
  split
  · rename_i timers htimers
    refine ⟨fun p hp => absurd hp (hsection p), fun p hp => ?_,
      fun harmed => absurd (hpc.symm.trans harmed) Bool.noConfusion⟩
    refine h.timer_fd_ctx p ?_
    rw [htimers]
    rcases List.mem_cons.mp hp with hp | hp
    · cases hp
    · exact List.mem_cons_of_mem _ hp
  · exact h.unarmed hpc hsection

/-- The steps of the fiber. -/
theorem next (h : Timed c) {m_fdContexts : List Nat}
    (htable : ∀ p, m_fdContexts[c.fd]? = some p → p = c.fd)
    (hnext : c.next m_fdContexts = some c') : Timed c' := by
  rw [DoIo.next] at hnext
  split at hnext
  · cases hnext
    refine ⟨(fun p hp => by cases hp), fun p hp => ?_, fun _ htimed _ => ?_⟩
    · refine h.timer_fd_ctx p ?_
      simp only at hp
      split_ifs at hp
      · rcases List.mem_cons.mp hp with hp | hp
        · cases hp
        · exact hp
      · exact hp
    · have htimed : c.timed = true := htimed
      simp only [htimed, if_true]
      rfl
  · rename_i hpc
    have harmed := h.armed (by rw [hpc]; rfl)
    split at hnext
    · rename_i p hp
      cases hnext
      refine ⟨fun q hq => ?_, h.timer_fd_ctx, fun _ => harmed⟩
      cases hq
      exact htable p hp
    · cases hnext
      exact ⟨(fun p hp => by cases hp), h.timer_fd_ctx, fun _ => harmed⟩
  · cases hnext
    exact h.cancelTimer rfl fun _ hp => by cases hp
  · rename_i hpc
    cases hnext
    exact ⟨(fun p hp => by cases hp), h.timer_fd_ctx, fun _ => h.armed (by rw [hpc]; rfl)⟩
  · cases hnext
    exact h.cancelTimer rfl fun _ hp => by cases hp
  · cases hnext
    split_ifs
    · exact h.unarmed rfl fun _ hp => by cases hp
    · exact h.unarmed rfl fun _ hp => by cases hp
  · cases hnext

theorem head?_any_set {timers : List Timer} {i : Nat} {timer : Timer}
    (h : timers.head?.any Timer.waits = true) (htimer : i = 0 → timer.waits = true) :
    (timers.set i timer).head?.any Timer.waits = true := by
  cases timers with
  | nil => exact h
  | cons first rest =>
    cases i with
    | zero => exact htimer rfl
    | succ i => exact h

/-- A timer of the call has gone on. -/
theorem setTimer (h : Timed c) {i : Nat} {timer : Timer} (cancelled : Bool)
    (hfd : ∀ p, timer = .cancellingAt p → p = c.fd)
    (harmed : c.pc.armed = true → c.timed = true → cancelled = false →
      c.cancelled = false ∧ (i = 0 → timer.waits = true)) :
    Timed { c with timers := c.timers.set i timer, cancelled := cancelled } := by
  refine ⟨h.fd_ctx, fun p hp => ?_, fun hpc htimed hfalse => ?_⟩
  · rcases List.mem_or_eq_of_mem_set hp with hp | hp
    · exact h.timer_fd_ctx p hp
    · exact hfd p hp.symm
  · obtain ⟨hcancelled, htimer⟩ := harmed hpc htimed hfalse
    exact head?_any_set (h.armed hpc htimed hcancelled) htimer

/-- A timer that has begun to cancel is not the one of an armed round. -/
theorem not_head (h : Timed c) {i : Nat} {timer : Timer} (hi : c.timers[i]? = some timer)
    (htimer : timer.waits = false) (hpc : c.pc.armed = true) (htimed : c.timed = true)
    (hcancelled : c.cancelled = false) : i ≠ 0 := by
  rintro rfl
  have hhead := h.armed hpc htimed hcancelled
  rw [List.head?_eq_getElem?, hi, Option.any_some, htimer] at hhead
  exact nomatch hhead

/-- The steps of a callback. -/
theorem callback (h : Timed c) {i : Nat} {m_fdContexts : List Nat}
    (htable : ∀ p, m_fdContexts[c.fd]? = some p → p = c.fd)
    (hcallback : c.callback i m_fdContexts = some c') : Timed c' := by
  rw [DoIo.callback] at hcallback
  split at hcallback
  · cases hcallback
    refine h.setTimer c.cancelled ?_ ?_
    · intro p hp
      split_ifs at hp
    · intro hpc _ hcancelled
      refine ⟨hcancelled, fun _ => ?_⟩
      have hne : c.pc ≠ .returned := by
        intro hret
        rw [hret] at hpc
        cases hpc
      have halive : c.alive = true := by simp [DoIo.alive, hne]
      rw [if_pos halive]
      rfl
  · split_ifs at hcallback with hset
    · cases hcallback
      refine h.setTimer c.cancelled (fun p hp => by cases hp) ?_
      intro _ _ hfalse
      exact absurd (hset.symm.trans hfalse) Bool.noConfusion
    · cases hcallback
      exact h.setTimer true (fun p hp => by cases hp) fun _ _ hfalse => by cases hfalse
  · rename_i hi
    have hlater : c.pc.armed = true → c.timed = true → c.cancelled = false →
        c.cancelled = false ∧ (i = 0 → False) :=
      fun hpc htimed hcancelled => ⟨hcancelled, h.not_head hi rfl hpc htimed hcancelled⟩
    split at hcallback
    · rename_i p hp
      cases hcallback
      refine h.setTimer c.cancelled (fun q hq => ?_) ?_
      · cases hq
        exact htable p hp
      · exact fun hpc htimed hcancelled =>
          ⟨hcancelled, fun hzero => ((hlater hpc htimed hcancelled).2 hzero).elim⟩
    · cases hcallback
      exact h.setTimer c.cancelled (fun q hq => by cases hq)
        fun hpc htimed hcancelled =>
          ⟨hcancelled, fun hzero => ((hlater hpc htimed hcancelled).2 hzero).elim⟩
  · cases hcallback

end Timed

/-! ### A call that waits is registered or queued -/

/-- The event of a waiting call is registered for its fiber, and if its callback has begun it
goes on to cancel the event; otherwise the fiber has an item. -/
structure Waiting (s : State) (c : DoIo) : Prop where
  registered : c.pc.waits = true → s.queued c.fiber
    ∨ s.io.slot c.fd c.event = some (true, .register none scheduler c.fiber)
  cancels : c.pc.waits = true → c.cancelled = true →
    s.queued c.fiber ∨ c.timers.any Timer.cancels = true

namespace Waiting

variable {s t : State} {c c' : DoIo}

theorem of_not_waits (h : c.pc.waits = false) : Waiting s c :=
  ⟨fun hpc => absurd (h.symm.trans hpc) Bool.noConfusion,
    fun hpc => absurd (h.symm.trans hpc) Bool.noConfusion⟩

theorem afterCall {ret : Ret} (hcall : c.afterCall ret = some c') : Waiting s c' := by
  unfold DoIo.afterCall at hcall
  split_ifs at hcall with hpc
  · cases hcall
    exact of_not_waits rfl
  · cases ret <;> cases hcall
    · exact of_not_waits rfl
    · exact of_not_waits (by rw [hpc]; rfl)
    · exact of_not_waits rfl

theorem next (h : Waiting s c) {m_fdContexts : List Nat} (hnext : c.next m_fdContexts = some c') :
    Waiting s c' := by
  rw [DoIo.next] at hnext
  split at hnext
  · cases hnext
    exact of_not_waits rfl
  · split at hnext <;> cases hnext <;> exact of_not_waits rfl
  · cases hnext
    exact of_not_waits rfl
  · rename_i hpc
    have hwaits : c.pc.waits = true := by rw [hpc]; rfl
    cases hnext
    exact ⟨fun _ => h.registered hwaits, fun _ => h.cancels hwaits⟩
  · cases hnext
    exact of_not_waits rfl
  · cases hnext
    refine of_not_waits ?_
    simp only
    split_ifs <;> rfl
  · cases hnext

/-- A timer of the call has gone on. -/
theorem setTimer (h : Waiting s c) {i : Nat} {old timer : Timer} (hi : c.timers[i]? = some old)
    (hold : old.cancels = true → timer.cancels = true) :
    Waiting s { c with timers := c.timers.set i timer } :=
  ⟨h.registered, fun hpc hcancelled =>
    (h.cancels hpc hcancelled).imp id fun hany => Tally.any_set hi hold hany⟩

theorem callback (h : Waiting s c) (hs : Indexed s.io) {i : Nat}
    (hcallback : c.callback i s.io.m_fdContexts = some c') : Waiting s c' := by
  rw [DoIo.callback] at hcallback
  split at hcallback
  · rename_i hi
    cases hcallback
    exact h.setTimer hi fun hold => by cases hold
  · rename_i hi
    obtain ⟨hlt, -⟩ := List.getElem?_eq_some_iff.mp hi
    split_ifs at hcallback
    · cases hcallback
      exact h.setTimer hi fun hold => by cases hold
    · cases hcallback
      refine ⟨h.registered, fun _ _ => .inr ?_⟩
      exact List.any_eq_true.mpr ⟨.cancelling, List.mem_set hlt _, rfl⟩
  · rename_i hi
    split at hcallback
    · cases hcallback
      exact h.setTimer hi fun _ => rfl
    · rename_i hnone
      cases hcallback
      refine ⟨h.registered, fun hpc _ => .inl ?_⟩
      rcases h.registered hpc with hqueued | hslot
      · exact hqueued
      · -- the table has the context of a registered event
        rw [fd_ctx_isSome hs hslot] at hnone
        cases hnone
  · cases hcallback

theorem setCall (h : Waiting s c) (k : Nat) (c' : DoIo) : Waiting (s.setCall k c') c :=
  ⟨h.registered, h.cancels⟩

/-- What becomes of a waiting call when others go on. -/
theorem frame (h : Waiting s c) (hqueued : c.pc.waits = true → s.queued c.fiber → t.queued c.fiber)
    (hslot : c.pc.waits = true →
      s.io.slot c.fd c.event = some (true, .register none scheduler c.fiber) →
      t.queued c.fiber ∨ t.io.slot c.fd c.event = some (true, .register none scheduler c.fiber)) :
    Waiting t c :=
  ⟨fun hpc => (h.registered hpc).elim (fun hq => .inl (hqueued hpc hq)) (hslot hpc),
    fun hpc hcancelled => (h.cancels hpc hcancelled).imp (hqueued hpc) id⟩

end Waiting

theorem queued_mono {s t : State} (hresumes : t.resumes = s.resumes)
    (h : ∃ new, t.io.scheduled = new ++ s.io.scheduled) {fiber : Nat} (hs : s.queued fiber) :
    t.queued fiber := by
  have hle := items_le h fiber
  have hlt : s.resumes fiber < s.items fiber := hs
  rw [State.queued, hresumes]
  omega

/-- A registration stays, or its fiber is scheduled, unless the event is deleted. -/
theorem registered_kept {s t : State} {a : Action} (hs : Counted s) (h : IOStep s t a)
    (hresumes : t.resumes = s.resumes) {fd fiber : Nat} {event : Event}
    (hslot : s.io.slot fd event = some (true, .register none scheduler fiber))
    (hempties : empties s a ≠ some (fd, event)) :
    t.queued fiber ∨ t.io.slot fd event = some (true, .register none scheduler fiber) := by
  cases h.slot fd event with
  | moves hmoves =>
    cases hmoves with
    | kept hkept => exact .inr (hkept.trans hslot)
    | new hnone =>
      rw [hslot] at hnone
      exact nomatch hnone
    | @triggered b ctx hbefore _ hw =>
      left
      rw [hslot] at hbefore
      cases hbefore
      obtain ⟨new, hnew, htask⟩ := hw _ (IOManager.EventContext.task_register _ _ _)
      have hlt : s.items fiber < t.items fiber := items_lt hnew htask rfl
      have hle := hs fiber
      rw [State.queued, hresumes]
      omega
  | filled _ hempty =>
    rw [hslot] at hempty
    exact nomatch hempty
  | emptied hdeletes => exact absurd hdeletes hempties

/-- Nobody deletes the event of a waiting call. -/
theorem not_emptied {s : State} {a : Action} {k : Nat} {c : DoIo} (ha : keepsTimeout s a = true)
    (hc : s.calls[k]? = some c) (hpc : c.pc.waits = true) :
    empties s a ≠ some (c.fd, c.event) := by
  intro hempties
  cases a with
  | io a =>
    have hdeletes : IOManager.deletes s.io a = some (c.fd, c.event) := hempties
    simp only [keepsTimeout, hdeletes, List.all_eq_true] at ha
    simpa [hpc] using ha c (List.mem_of_getElem? hc)
  | _ => exact nomatch hempties

/-- **A call that does not move** waits as before. -/
theorem waiting_kept {s t : State} {a : Action} (hs : Counted s) (hdistinct : Distinct s)
    (ha : keepsTimeout s a = true) (h : step s a = some t) {j : Nat} {c : DoIo}
    (hc : s.calls[j]? = some c) (hw : Waiting s c) (hother : a ≠ .resume j) : Waiting t c := by
  have hslots := step_slot h
  have hsame (hresumes : t.resumes = s.resumes) : Waiting t c :=
    hw.frame (fun _ => queued_mono hresumes hslots.scheduled)
      fun hpc hslot => registered_kept hs hslots hresumes hslot (not_emptied ha hc hpc)
  have hactive (hpc : c.pc.waits = true) : c.pc ≠ .returned := by
    intro hret
    rw [hret] at hpc
    exact nomatch hpc
  -- somebody else's item is taken
  have htaken {fiber : Nat} (hio : t.io = s.io) (hresumes : t.resumes = (s.taken fiber).resumes)
      (hne : c.pc.waits = true → c.fiber ≠ fiber) : Waiting t c := by
    refine hw.frame (fun hpc hqueued => ?_) fun _ hslot => .inr (by rw [hio]; exact hslot)
    rw [State.queued, State.items, hio, hresumes, taken_resumes, if_neg (hne hpc)]
    exact hqueued
  cases step_cases h with
  | @resume k old hold hpc hqueued =>
    refine htaken rfl rfl fun hwaits hfiber => hother ?_
    have hne : old.pc ≠ .returned := by
      rw [hpc]
      decide
    rw [hdistinct j k c old hc hold (hactive hwaits) hne hfiber]
  | take hidle hqueued => exact htaken rfl rfl fun hwaits => not_inDoIo hidle hc (hactive hwaits)
  | _ => exact hsame rfl

/-- The section of a successful `cancelEvent` leaves the event unregistered. -/
theorem cancelEvent_slot {s : IOManager.State} {p : Nat} {ctx : FdContext}
    (hctx : s.contexts[p]? = some ctx) (event : Event) :
    ∃ rest, (IOManager.cancelEvent s p ctx event true).slot p event = some (false, rest) := by
  rw [IOManager.cancelEvent, Bool.and_true]
  split_ifs with hhas
  · exact ⟨_, (IOManager.trigger_updates hctx).self⟩
  · exact ⟨_, by rw [IOManager.State.slot_eq hctx, Bool.eq_false_iff.mpr hhas]⟩

/-! ### Runs -/

/-- What the allowed steps keep. -/
structure Inv (s : State) : Prop where
  indexed : Indexed s.io
  counted : Counted s
  distinct : Distinct s
  calls : ∀ (k : Nat) (c : DoIo), s.calls[k]? = some c → Timed c ∧ Waiting s c

theorem inv_init : Inv init :=
  ⟨IOManager.indexed_init, fun _ => Nat.zero_le _, (fun _ _ _ _ hc => nomatch hc),
    (fun _ _ hc => nomatch hc)⟩

/-- **The calls after an allowed step.** -/
theorem calls_step {s t : State} {a : Action} (hs : Inv s) (ha : keepsTimeout s a = true)
    (h : step s a = some t) (hindexed : Indexed t.io) :
    ∀ (k : Nat) (c : DoIo), t.calls[k]? = some c → Timed c ∧ Waiting t c := by
  have hkept {j : Nat} {c : DoIo} (hc : s.calls[j]? = some c) (hother : a ≠ .resume j) :
      Timed c ∧ Waiting t c :=
    ⟨(hs.calls j c hc).1, waiting_kept hs.counted hs.distinct ha h hc (hs.calls j c hc).2 hother⟩
  -- one call moves
  have hmoved {k : Nat} {c' : DoIo} (hcalls : t.calls = s.calls.set k c')
      (hself : Timed c' ∧ Waiting t c') (hresume : ∀ j, j ≠ k → a ≠ .resume j) :
      ∀ (j : Nat) (c : DoIo), t.calls[j]? = some c → Timed c ∧ Waiting t c := by
    intro j c hc
    rw [hcalls] at hc
    rcases Tally.getElem?_set_cases hc with ⟨-, rfl⟩ | ⟨hne, hc⟩
    · exact hself
    · exact hkept hc (hresume j hne)
  have htable {fd p : Nat} : s.io.m_fdContexts[fd]? = some p → p = fd := fd_ctx_eq hs.indexed
  cases step_cases h with
  | @enter fiber fd event timed raw hidle =>
    intro j c hc
    rcases Tally.getElem?_concat_cases hc with hc | ⟨-, rfl⟩
    · exact hkept hc fun hresume => nomatch hresume
    · refine ⟨⟨(fun p hp => nomatch hp), (fun p hp => nomatch hp), fun hpc => nomatch hpc⟩, ?_⟩
      exact .of_not_waits rfl
  | call hc hcall =>
    refine hmoved rfl ?_ fun _ _ hresume => nomatch hresume
    exact ⟨(hs.calls _ _ hc).1.afterCall hcall, .afterCall hcall⟩
  | run hc hnext =>
    refine hmoved rfl ?_ fun _ _ hresume => nomatch hresume
    obtain ⟨htimed, hwaiting⟩ := hs.calls _ _ hc
    exact ⟨htimed.next (fun _ => htable) hnext, (hwaiting.next hnext).setCall _ _⟩
  | @resize k p c hc hpc hp =>
    refine hmoved rfl ⟨⟨fun q hq => ?_, (hs.calls _ _ hc).1.timer_fd_ctx, fun _ => ?_⟩,
      .of_not_waits rfl⟩ fun _ _ hresume => nomatch hresume
    · cases hq
      exact fd_ctx_eq hindexed hp
    · exact (hs.calls _ _ hc).1.armed (by rw [hpc]; rfl)
  | @addEvent k p c ctx hc hpc hctx hempty =>
    refine hmoved rfl ?_ fun _ _ hresume => nomatch hresume
    have htimed := (hs.calls _ _ hc).1
    have hp := htimed.fd_ctx p hpc
    have hupdates := IOManager.addEvent_updates hctx none scheduler c.fiber hempty
    refine ⟨⟨(fun q hq => nomatch hq), htimed.timer_fd_ctx, fun _ => htimed.armed (by rw [hpc]; rfl)⟩,
      fun _ => .inr ?_, fun _ hcancelled => .inr ?_⟩
    · rw [← hp]
      exact hupdates.self
    · simpa [keepsTimeout, hc, show c.cancelled = true from hcancelled] using ha
  | @failed k p c hc hpc =>
    refine hmoved rfl ?_ fun _ _ hresume => nomatch hresume
    exact ⟨(hs.calls _ _ hc).1.unarmed rfl (fun _ hp => nomatch hp), .of_not_waits rfl⟩
  | @resume k c hc hpc hqueued =>
    refine hmoved rfl ?_ fun j hne hresume => hne (by cases hresume; rfl)
    exact ⟨(hs.calls _ _ hc).1.unarmed rfl (fun _ hp => nomatch hp), .of_not_waits rfl⟩
  | @expire k i c hc hi =>
    refine hmoved rfl ?_ fun _ _ hresume => nomatch hresume
    obtain ⟨htimed, hwaiting⟩ := hs.calls _ _ hc
    exact ⟨htimed.setTimer c.cancelled (fun _ hp => nomatch hp) fun _ _ hcancelled =>
      ⟨hcancelled, fun _ => rfl⟩, (hwaiting.setTimer hi fun hold => nomatch hold).setCall _ _⟩
  | @callback k i c c' hc hcallback =>
    refine hmoved rfl ?_ fun _ _ hresume => nomatch hresume
    obtain ⟨htimed, hwaiting⟩ := hs.calls _ _ hc
    exact ⟨htimed.callback (fun _ => htable) hcallback, (hwaiting.callback hs.indexed hcallback).setCall _ _⟩
  | @cancelEvent k i p c ctx ok hc hi hctx =>
    refine hmoved rfl ?_ fun _ _ hresume => nomatch hresume
    obtain ⟨htimed, hwaiting⟩ := hkept hc fun hresume => nomatch hresume
    have hp := htimed.timer_fd_ctx p (List.mem_of_getElem? hi)
    refine ⟨htimed.setTimer c.cancelled (fun _ hp => nomatch hp) fun hpc htime hcancelled =>
      ⟨hcancelled, fun hzero => absurd hzero (htimed.not_head hi rfl hpc htime hcancelled)⟩,
      hwaiting.registered, fun hpc _ => .inl ?_⟩
    rcases hwaiting.registered hpc with hqueued | hslot
    · exact hqueued
    · -- the section has triggered the event
      have hok : ok = true := by
        cases ok with
        | true => rfl
        | false => simp [keepsTimeout, hc, show c.pc.waits = true from hpc] at ha
      obtain ⟨rest, hrest⟩ := cancelEvent_slot hctx c.event
      rw [hok, ← hp] at hslot
      exact nomatch hrest.symm.trans hslot
  | io hassert hio => exact fun j c hc => hkept hc fun hresume => nomatch hresume
  | _ => exact fun j c hc => hkept hc fun hresume => nomatch hresume

theorem inv_step {s t : State} {a : Action} (hs : Inv s)
    (ha : grows s a = true ∧ keepsTimeout s a = true) (h : step s a = some t) : Inv t := by
  have hindexed := indexed_step hs.indexed ha.1 h
  exact ⟨hindexed, counted_step hs.counted h, distinct_step hs.distinct h,
    calls_step hs ha.2 h hindexed⟩

theorem Inv.timedWaits {s : State} (hs : Inv s) : TimedWaits s := by
  intro c hc hpc htimed
  obtain ⟨k, hk⟩ := List.getElem?_of_mem hc
  obtain ⟨htimer, hwaiting⟩ := hs.calls k c hk
  rw [DoIo.live]
  split_ifs with hcancelled
  · exact (hwaiting.cancels (by rw [hpc]; rfl) hcancelled).symm
  · exact .inl (htimer.armed (by rw [hpc]; rfl) htimed (Bool.eq_false_iff.mpr hcancelled))

/-- A wait that ends with its timeout: the timer expires after the registration. -/
def timedOut : List Action :=
  [.open 5, .manage 5, .enter 1 5 .READ true false, .call 0 .EAGAIN, .run 0, .run 0,
   .addEvent 0 true, .run 0, .expire 0 0, .callback 0 0, .callback 0 0, .callback 0 0,
   .cancelEvent 0 0 true, .resume 0, .run 0, .run 0]

/-- The timer expires, and its callback runs, between `addConditionTimer` and `addEvent`. -/
def lostTimeout : List Action :=
  [.open 5, .manage 5, .enter 1 5 .READ true false, .call 0 .EAGAIN, .run 0, .expire 0 0,
   .callback 0 0, .callback 0 0, .callback 0 0, .cancelEvent 0 0 true, .run 0, .addEvent 0 true,
   .run 0]

/-- The fiber is suspended, its only timer is done, and no item of it was ever scheduled. -/
theorem lostTimeout_suspended :
    (exec step init lostTimeout).map (fun t => (t.calls, t.io.scheduled))
      = some ([{ fiber := 1, fd := 5, event := .READ, timed := true, raw := false
                 file := some 0, cancelled := true, timers := [.done], pc := .suspended }], []) := by
  decide

end Hook

end FiberServer
