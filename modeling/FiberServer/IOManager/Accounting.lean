import FiberServer.IOManager.Event
import FiberServer.Library.Tally

/-!
# The pending event counter

`m_pendingEventCount` should be the number of event bits over all `FdContext`s,
and `triggerEvent` should be called only for an event that is registered.  The
sections of `addEvent`, `delEvent`, `cancelEvent` and `cancelAll` keep both.  The
section of `idle()` checks that one of the reported events is registered and then
triggers all of them.

* `accounted_iff_no_stale_mix`: a run keeps both exactly when no report is
  dispatched that has a stale event next to a registered one.
-/

namespace FiberServer

namespace IOManager

open Transition

/-- The number of event bits over all `FdContext`s. -/
def State.registered (s : State) : Nat := (s.contexts.map fun c => c.events.size).sum

/-- The counter is right, and no unregistered event was triggered. -/
def Accounted (s : State) : Prop :=
  s.m_pendingEventCount = s.registered ∧ s.unregistered = false

/-- `addEvent` is called for an event that is not registered. -/
def addsNew (s : State) : Action → Bool
  | .perform i _ => s.calls[i]?.all fun
    | .ready (.addEvent event _ _ _) p => s.contexts[p]?.all fun c => !c.events.has event
    | _ => true
  | _ => true

/-- The report has an event that is not registered any more. -/
def stale (m : Events) (ev : EpollEvents) : Bool :=
  ev.EPOLLIN && !m.READ || ev.EPOLLOUT && !m.WRITE

/-- The report has an event that is registered; an error or a hang-up is a report
of every registered event. -/
def live (m : Events) (ev : EpollEvents) : Bool :=
  m.READ && (ev.EPOLLIN || ev.EPOLLERR || ev.EPOLLHUP)
    || m.WRITE && (ev.EPOLLOUT || ev.EPOLLERR || ev.EPOLLHUP)

/-- The step does not dispatch, with a successful `epoll_ctl`, a report that is
stale in one event and live in the other. -/
def noStaleMix (s : State) : Action → Bool
  | .dispatch i ok => s.reports[i]?.all fun r => s.contexts[r.1]?.all fun c =>
      !(ok && stale c.events r.2 && live c.events r.2)
  | _ => true

/-! ### `triggerEvent` and the counter -/

theorem registered_set {s : State} {p : Nat} {c : FdContext} (c' : FdContext)
    (hc : s.contexts[p]? = some c) :
    ((s.contexts.set p c').map fun c => c.events.size).sum + c.events.size
      = s.registered + c'.events.size :=
  Tally.sum_map_set (fun c => c.events.size) hc

/-- `--m_pendingEventCount` next to the removal of one bit. -/
theorem decPending_accounted {s : State} {p : Nat} {c c' : FdContext} {event : Event}
    (hs : Accounted s) (hc : s.contexts[p]? = some c) (h : c.events.has event)
    (hc' : c'.events = c.events.erase event) :
    Accounted (State.decPending { s with contexts := s.contexts.set p c' }) := by
  have hsum := registered_set c' hc
  have hsize := Events.size_erase h
  have hcount := hs.1
  rw [← hc'] at hsize
  refine ⟨?_, hs.2⟩
  simp only [State.decPending, State.registered]
  rw [if_neg (by omega)]
  omega

theorem trigger_accounted {s : State} {p : Nat} {c : FdContext} {event : Event}
    (hs : Accounted s) (hc : s.contexts[p]? = some c) (h : c.events.has event) :
    Accounted (s.trigger p c event) := by
  have hdec := decPending_accounted hs hc h (c.triggerEvent_events event)
  exact ⟨hdec.1, by simp [State.trigger, State.decPending, hs.2, h]⟩

theorem trigger_unregistered {s : State} {p : Nat} {c : FdContext} {event : Event}
    (h : c.events.has event = false) : (s.trigger p c event).unregistered = true := by
  simp [State.trigger, State.decPending, h]

theorem triggerIf_unregistered {s : State} {p : Nat} {event : Event} {on : Bool}
    (h : s.unregistered = true) : (s.triggerIf p event on).unregistered = true := by
  rw [State.triggerIf]
  split_ifs
  · split
    · simp [State.trigger, State.decPending, h]
    · exact h
  · exact h

/-- One conditional trigger keeps the books exactly when its event is registered. -/
theorem triggerIf_accounted {s : State} {p : Nat} {c : FdContext} {event : Event} {on : Bool}
    (hs : Accounted s) (hc : s.contexts[p]? = some c) :
    Accounted (s.triggerIf p event on) ↔ (on = true → c.events.has event = true) := by
  cases on with
  | false => exact ⟨fun _ h => absurd h Bool.noConfusion, fun _ => hs⟩
  | true =>
    rw [State.triggerIf, if_pos rfl, hc]
    cases hhas : c.events.has event with
    | true => exact ⟨fun _ _ => rfl, fun _ => trigger_accounted hs hc hhas⟩
    | false =>
      refine ⟨fun h => ?_, fun h => absurd (h rfl) Bool.noConfusion⟩
      have hbad : (s.trigger p c event).unregistered = false := h.2
      rw [trigger_unregistered hhas] at hbad
      exact absurd hbad Bool.noConfusion

/-- The other event of the context is not touched. -/
theorem triggerIf_contexts {s : State} {p : Nat} {c : FdContext} {event other : Event}
    (on : Bool) (hc : s.contexts[p]? = some c) (h : other ≠ event) :
    ∃ c', (s.triggerIf p event on).contexts[p]? = some c'
      ∧ c'.events.has other = c.events.has other := by
  cases on with
  | false => exact ⟨c, hc, rfl⟩
  | true =>
    refine ⟨(c.triggerEvent event).1, ?_, ?_⟩
    · rw [State.triggerIf, if_pos rfl, hc]
      have hp : p < s.contexts.length := (List.getElem?_eq_some_iff.mp hc).1
      simp [State.trigger, State.decPending, hp]
    · rw [FdContext.triggerEvent_events, Events.has_erase_of_ne h]

/-- **Triggering `READ` and `WRITE` where asked** keeps the books exactly when
what is asked for is registered. -/
theorem triggerBoth_accounted {s : State} {p : Nat} {c : FdContext} {r w : Bool}
    (hs : Accounted s) (hc : s.contexts[p]? = some c) :
    Accounted ((s.triggerIf p .READ r).triggerIf p .WRITE w)
      ↔ (r = true → c.events.READ = true) ∧ (w = true → c.events.WRITE = true) := by
  by_cases hr : r = true → c.events.READ = true
  · have hread : Accounted (s.triggerIf p .READ r) := (triggerIf_accounted hs hc).mpr hr
    obtain ⟨c', hc', hw'⟩ := triggerIf_contexts r hc (show Event.WRITE ≠ .READ by decide)
    rw [triggerIf_accounted hread hc', hw']
    exact ⟨fun hw => ⟨hr, hw⟩, fun h => h.2⟩
  · refine ⟨fun h => ?_, fun h => absurd h.1 hr⟩
    have hr' : r = true ∧ c.events.READ = false := by simpa using hr
    have hbad : (s.triggerIf p .READ r).unregistered = true := by
      rw [State.triggerIf, if_pos hr'.1, hc]
      exact trigger_unregistered hr'.2
    have hfalse := h.2
    rw [triggerIf_unregistered hbad] at hfalse
    exact absurd hfalse Bool.noConfusion

/-! ### The sections -/

theorem addEvent_eq (s : State) (p : Nat) (c : FdContext) (event : Event)
    (cb scheduler : Option Nat) (fiber : Nat) :
    ∃ c', c'.events = c.events.insert event ∧ addEvent s p c event cb scheduler fiber true
      = { s with
          m_pendingEventCount := s.m_pendingEventCount + 1
          contexts := s.contexts.set p c' } :=
  ⟨_, FdContext.setContext_events _ _ _, rfl⟩

theorem addEvent_accounted {s : State} {p : Nat} {c : FdContext} {event : Event}
    {cb scheduler : Option Nat} {fiber : Nat} {ok : Bool} (hs : Accounted s)
    (hc : s.contexts[p]? = some c) (h : c.events.has event = false) :
    Accounted (addEvent s p c event cb scheduler fiber ok) := by
  cases ok with
  | false => exact hs
  | true =>
    obtain ⟨c', hc', heq⟩ := addEvent_eq s p c event cb scheduler fiber
    have hsum := registered_set c' hc
    have hsize := Events.size_insert h
    have hcount := hs.1
    rw [← hc'] at hsize
    rw [heq]
    refine ⟨?_, hs.2⟩
    simp only [State.registered] at hsum hcount ⊢
    omega

theorem delEvent_accounted {s : State} {p : Nat} {c : FdContext} {event : Event} {ok : Bool}
    (hs : Accounted s) (hc : s.contexts[p]? = some c) : Accounted (delEvent s p c event ok) := by
  rw [delEvent]
  split_ifs with h
  · rw [Bool.and_eq_true] at h
    exact decPending_accounted hs hc h.1 (FdContext.setContext_events _ _ _)
  · exact hs

theorem cancelEvent_accounted {s : State} {p : Nat} {c : FdContext} {event : Event} {ok : Bool}
    (hs : Accounted s) (hc : s.contexts[p]? = some c) :
    Accounted (cancelEvent s p c event ok) := by
  rw [cancelEvent]
  split_ifs with h
  · rw [Bool.and_eq_true] at h
    exact trigger_accounted hs hc h.1
  · exact hs

theorem cancelAll_accounted {s : State} {p : Nat} {c : FdContext} {ok : Bool}
    (hs : Accounted s) (hc : s.contexts[p]? = some c) : Accounted (cancelAll s p c ok) := by
  rw [cancelAll]
  split_ifs
  · exact hs
  · exact (triggerBoth_accounted hs hc).mpr ⟨id, id⟩
  · exact hs

/-- What `idle()` triggers is registered exactly when the report is not stale. -/
theorem real_events_registered (m : Events) (ev : EpollEvents) :
    ((ev.EPOLLIN || (ev.EPOLLERR || ev.EPOLLHUP) && m.READ) = true → m.READ = true)
        ∧ ((ev.EPOLLOUT || (ev.EPOLLERR || ev.EPOLLHUP) && m.WRITE) = true → m.WRITE = true)
      ↔ stale m ev = false := by
  obtain ⟨i, o, e, u⟩ := ev
  obtain ⟨r, w⟩ := m
  revert i o e u r w
  decide

/-- The test of `idle()` for events "to care about". -/
theorem real_events_live (m : Events) (ev : EpollEvents) :
    (m.READ && (ev.EPOLLIN || (ev.EPOLLERR || ev.EPOLLHUP) && m.READ)
        || m.WRITE && (ev.EPOLLOUT || (ev.EPOLLERR || ev.EPOLLHUP) && m.WRITE)) = live m ev := by
  obtain ⟨i, o, e, u⟩ := ev
  obtain ⟨r, w⟩ := m
  revert i o e u r w
  decide

/-- **The section of `idle()`** keeps the books exactly when the report is not
stale in one event and live in the other. -/
theorem dispatch_accounted {s : State} {p : Nat} {c : FdContext} {ev : EpollEvents} {ok : Bool}
    (hs : Accounted s) (hc : s.contexts[p]? = some c) :
    Accounted (dispatch s p c ev ok)
      ↔ (!(ok && stale c.events ev && live c.events ev)) = true := by
  rw [dispatch]
  simp only [real_events_live]
  cases hlive : live c.events ev with
  | false =>
    rw [Bool.and_false]
    exact ⟨fun _ => rfl, fun _ => hs⟩
  | true =>
    cases ok with
    | false => exact ⟨fun _ => rfl, fun _ => hs⟩
    | true =>
      rw [if_neg (by decide), if_pos rfl, triggerBoth_accounted hs hc, real_events_registered]
      cases stale c.events ev <;> decide

theorem contextResize_accounted {s : State} (hs : Accounted s) (size : Nat) :
    Accounted (s.contextResize size) := by
  refine ⟨?_, hs.2⟩
  have hnew : ((List.range (size - s.m_fdContexts.length)).map
      (fun i => ({ fd := s.m_fdContexts.length + i } : FdContext))).map (fun c => c.events.size)
        = List.replicate (size - s.m_fdContexts.length) 0 := by
    rw [List.map_map]
    exact List.eq_replicate_iff.mpr ⟨by simp, by simp [Events.size]⟩
  rw [State.registered, State.contextResize, List.map_append, List.sum_append, hnew,
    List.sum_replicate]
  simpa [State.registered] using hs.1

/-! ### Runs -/

theorem accounted_init : Accounted init := contextResize_accounted ⟨rfl, rfl⟩ 32

/-- A step keeps the books exactly when its guard allows it. -/
theorem accounted_step {s t : State} {a : Action} (hs : Accounted s) (ha : addsNew s a = true)
    (h : step s a = some t) : Accounted t ↔ noStaleMix s a = true := by
  cases step_cases h with
  | found _ | missing _ _ | refused _ _ | epollWait _ _ => exact ⟨fun _ => rfl, fun _ => hs⟩
  | resize hcall hp => exact ⟨fun _ => rfl, fun _ => contextResize_accounted hs _⟩
  | @perform i p op c ok hcall hc =>
    refine ⟨fun _ => rfl, fun _ => ?_⟩
    have hop : Accounted (op.perform s p c ok) := by
      cases op with
      | addEvent event cb scheduler fiber =>
        simp only [addsNew, hcall, hc, Option.all_some, Bool.not_eq_true'] at ha
        exact addEvent_accounted hs hc ha
      | delEvent event => exact delEvent_accounted hs hc
      | cancelEvent event => exact cancelEvent_accounted hs hc
      | cancelAll => exact cancelAll_accounted hs hc
    exact hop
  | @dispatch i p ev c ok hreport hc =>
    have hdis : Accounted (dispatch s p c ev ok) ↔ _ := dispatch_accounted hs hc
    simp only [noStaleMix, hreport, hc, Option.all_some]
    exact hdis

/-- **The counter and `triggerEvent` are right throughout a run exactly when no
report is dispatched that is stale in one event and live in the other.** -/
theorem accounted_iff_no_stale_mix {as : List Action} {t : State}
    (ha : Along step (fun s a => addsNew s a = true) init as) (h : exec step init as = some t) :
    Throughout step Accounted init as
      ↔ Along step (fun s a => noStaleMix s a = true) init as :=
  throughout_iff_along (fun _ _ _ _ _ _ => trivial)
    (fun _ _ _ _ hs ha h => accounted_step hs ha h) trivial accounted_init ha h

/-- Both events of fd 5 are registered and reported; `READ` is removed before the
report is dispatched. -/
def staleReport : List Action :=
  [.lookup (.addEvent .READ (some 1) (some 0) 0) 5, .perform 0 true,
   .lookup (.addEvent .WRITE (some 2) (some 0) 0) 5, .perform 0 true,
   .epollWait 5 { EPOLLIN := true, EPOLLOUT := true },
   .lookup (.delEvent .READ) 5, .perform 0 true, .dispatch 0 true]

theorem accounted_iff_no_stale_mix_staleReport :
    ∃ t, exec step init staleReport = some t
      ∧ (Throughout step Accounted init staleReport
        ↔ Along step (fun s a => noStaleMix s a = true) init staleReport) :=
  ⟨_, rfl, accounted_iff_no_stale_mix (by decide) rfl⟩

/-- The counter has wrapped around, and `READ` was triggered though it was not
registered. -/
theorem staleReport_not_accounted :
    ∃ t, exec step init staleReport = some t ∧ t.m_pendingEventCount = 2 ^ 64 - 1
      ∧ t.registered = 0 ∧ t.unregistered = true ∧ ¬ Accounted t := by
  refine ⟨_, rfl, by decide, by decide, by decide, fun h => ?_⟩
  exact absurd h.2 (by decide)

end IOManager

end FiberServer
