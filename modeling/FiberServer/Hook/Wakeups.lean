import FiberServer.Hook.Timeout

/-!
# Who is woken

An item of a fiber comes from a slot in which the fiber waits.

* `Hook.holds_step`: a fiber waits in a slot only if it did, or the step registers it.
* `Hook.queued_step`: a fiber has an item only if it had one, or the step triggers its slot.
-/

namespace FiberServer

namespace IOManager

/-- `epoll_wait` tells of a socket that may be written. -/
def EpollEvents.writable (ev : EpollEvents) : Bool := ev.EPOLLOUT || ev.EPOLLERR || ev.EPOLLHUP

theorem triggerIf_new {s : State} {p : Nat} {c : FdContext} (hc : s.contexts[p]? = some c)
    (event : Event) (on : Bool) :
    (s.triggerIf p event on).scheduled
      = (if on then (c.getContext event).task.toList else []) ++ s.scheduled := by
  cases on with
  | false => rfl
  | true =>
    rw [State.triggerIf, if_pos rfl, hc]
    exact trigger_scheduled s p c event

/-- The tasks that come from the two events of a context. -/
theorem triggerBoth_new {s : State} {p : Nat} {c : FdContext} (hc : s.contexts[p]? = some c)
    (r w : Bool) :
    ∃ new, ((s.triggerIf p .READ r).triggerIf p .WRITE w).scheduled = new ++ s.scheduled
      ∧ ∀ task ∈ new, (r = true ∧ (c.getContext .READ).task = some task)
        ∨ (w = true ∧ (c.getContext .WRITE).task = some task) := by
  have hkept := (triggerIf_slot hc .READ r p .WRITE).2 fun h => by cases h.2
  rw [State.slot_eq hc] at hkept
  obtain ⟨c', hc', hslot⟩ := Option.map_eq_some_iff.mp hkept
  have hwrite : c'.getContext .WRITE = c.getContext .WRITE := (Prod.mk.inj hslot).2
  have hnew := triggerIf_new hc' .WRITE w
  rw [triggerIf_new hc .READ r, ← List.append_assoc, hwrite] at hnew
  refine ⟨_, hnew, fun task htask => ?_⟩
  rcases List.mem_append.mp htask with htask | htask
  · right
    split at htask
    · exact ⟨‹_›, Option.mem_toList.mp htask⟩
    · cases htask
  · left
    split at htask
    · exact ⟨‹_›, Option.mem_toList.mp htask⟩
    · cases htask

theorem triggerIf_reports (s : State) (p : Nat) (event : Event) (on : Bool) :
    (s.triggerIf p event on).reports = s.reports := by
  rw [State.triggerIf]
  split
  · split <;> rfl
  · rfl

theorem perform_reports {s : State} {p : Nat} {c : FdContext} (hc : s.contexts[p]? = some c)
    (op : Op) (ok : Bool) : (op.perform s p c ok).reports = s.reports := by
  cases op with
  | addEvent event cb scheduler fiber => cases ok <;> rfl
  | delEvent event =>
    rw [Op.perform, delEvent]
    split <;> rfl
  | cancelEvent event =>
    rw [Op.perform, cancelEvent_eq hc, triggerIf_reports, triggerIf_reports]
  | cancelAll => rw [Op.perform, cancelAll_eq, triggerIf_reports, triggerIf_reports]

theorem EventContext.fiber_of_task {ctx : EventContext} {task : Task} {fiber : Nat}
    (h : ctx.task = some task) (hfiber : task.fiber = some fiber) : ctx.fiber = some fiber := by
  rw [EventContext.task] at h
  split at h
  · obtain rfl := Option.some.inj h
    cases hfiber
  · split at h
    · obtain rfl := Option.some.inj h
      exact hfiber
    · cases h

theorem EventContext.fiber_of_rest {ctx : EventContext} {fiber : Nat}
    (h : ctx.rest.fiber = some fiber) : ctx.fiber = some fiber := by
  rw [EventContext.rest] at h
  split at h
  · exact h
  · split at h
    · cases h
    · exact h

/-- `cancelEvent` triggers its own event only. -/
theorem Op.eq_of_triggered {c : FdContext} {ok : Bool} {event e : Event}
    (h : (Op.triggered c ok (.cancelEvent event)).has e = true) : event = e := by
  rw [Op.triggered] at h
  split at h
  · cases event <;> cases e <;> first | rfl | cases h
  · cases e <;> cases h

theorem EpollEvents.writable_of_triggered {c : FdContext} {ok : Bool} {ev : EpollEvents}
    (h : (ev.triggered c ok).WRITE = true) : ev.writable = true := by
  rw [EpollEvents.triggered] at h
  simp only at h
  split at h
  · simp only [writable, Bool.or_eq_true]
    simp only [Bool.or_eq_true, Bool.and_eq_true] at h
    rcases h with h | ⟨h, -⟩
    · exact Or.inl (Or.inl h)
    · rcases h with h | h
      · exact Or.inl (Or.inr h)
      · exact Or.inr h
  · cases h

end IOManager

namespace Hook

open IOManager (Event)

/-- The fiber waits in a slot. -/
def Holds (s : State) (fiber q : Nat) (e : Event) : Prop :=
  ∃ b ctx, s.io.slot q e = some (b, ctx) ∧ ctx.fiber = some fiber

/-- The step registers the fiber. -/
def Registers (s : State) (fiber : Nat) : Action → Prop
  | .addEvent k true => ∃ c ∈ s.calls[k]?, c.fiber = fiber
  | .io (.perform i true) => ∃ event scheduler p,
    s.io.calls[i]? = some (.ready (.addEvent event none scheduler fiber) p)
  | _ => False

/-- The step may trigger a slot. -/
def Triggers (s : State) (q : Nat) (e : Event) : Action → Prop
  | .cancelEvent k i _ => ∃ c ∈ s.calls[k]?, c.event = e ∧ c.timers[i]? = some (.cancellingAt q)
  | .close i _ => ∃ c ∈ s.closes[i]?, c.pc = .cancelAll q
  | .io (.perform i _) => s.io.calls[i]? = some (.ready (.cancelEvent e) q)
    ∨ s.io.calls[i]? = some (.ready .cancelAll q)
  | .io (.dispatch i _) => ∃ ev, s.io.reports[i]? = some (q, ev)
    ∧ (e = .WRITE → ev.writable = true)
  | _ => False

/-- **Who is registered.** A fiber waits in a slot only if it did, or the step registers it. -/
theorem holds_step {s t : State} {a : Action} (h : step s a = some t) {fiber q : Nat} {e : Event}
    (ht : Holds t fiber q e) : Holds s fiber q e ∨ Registers s fiber a := by
  obtain ⟨b, ctx, hslot, hfiber⟩ := ht
  cases (step_slot h).slot q e with
  | moves hmoves =>
    left
    cases hmoves with
    | kept hkept => exact ⟨b, ctx, hkept ▸ hslot, hfiber⟩
    | new hs hnew =>
      rw [hslot] at hnew
      cases hnew
      cases hfiber
    | triggered hs hrest hw =>
      rw [hslot] at hrest
      cases hrest
      exact ⟨_, _, hs, IOManager.EventContext.fiber_of_rest hfiber⟩
  | emptied hdeletes hrest =>
    rw [hslot] at hrest
    cases hrest
    cases hfiber
  | filled hfills hempty =>
    right
    cases step_cases h with
    | @addEvent k p c ctx' hc hpc hctx hctxempty =>
      have hupdates := IOManager.addEvent_updates hctx none State.scheduler c.fiber hctxempty
      simp only [fills, hc, hpc, Option.some.injEq, Prod.mk.injEq] at hfills
      obtain ⟨rfl, rfl⟩ := hfills
      have hctxeq := hslot.symm.trans hupdates.self
      cases hctxeq
      exact ⟨c, hc, Option.some.inj hfiber⟩
    | @io a io hassert hio =>
      cases IOManager.step_cases hio with
      | @perform i p op c ok hcall hc =>
        cases ok with
        | false => cases hfills
        | true =>
          cases op with
          | addEvent event cb scheduler fiber' =>
            have hcempty : c.getContext event = {} := by
              simpa [IOManager.asserted, hcall, hc] using hassert
            have hupdates := IOManager.addEvent_updates hc cb scheduler fiber' hcempty
            simp only [fills, IOManager.adds, hcall, Option.some.injEq, Prod.mk.injEq] at hfills
            obtain ⟨rfl, rfl⟩ := hfills
            have hctxeq := hslot.symm.trans hupdates.self
            cases cb with
            | none =>
              cases hctxeq
              obtain rfl := Option.some.inj hfiber
              exact ⟨event, scheduler, p, hcall⟩
            | some cb =>
              cases hctxeq
              cases hfiber
          | _ => simp [fills, IOManager.adds, hcall] at hfills
      | _ => cases hfills
    | _ => cases hfills

/-- **Who is scheduled.** A fiber has an item only if it had one, or the step triggers a slot in
which it waits. -/
theorem queued_step {s t : State} {a : Action} (h : step s a = some t) {fiber : Nat}
    (ht : t.queued fiber) : s.queued fiber ∨ ∃ q e, Holds s fiber q e ∧ Triggers s q e a := by
  -- what an item of the fiber comes from
  have hnew {io : IOManager.State} (new : List IOManager.Task)
      (hscheduled : io.scheduled = new ++ s.io.scheduled)
      (hio : t.io.scheduled = io.scheduled) (hresumes : t.resumes = s.resumes)
      (hsource : ∀ task ∈ new, task.fiber = some fiber →
        ∃ q e, Holds s fiber q e ∧ Triggers s q e a) :
      s.queued fiber ∨ ∃ q e, Holds s fiber q e ∧ Triggers s q e a := by
    by_cases hmem : ∃ task ∈ new, task.fiber = some fiber
    · obtain ⟨task, htask, hfiber⟩ := hmem
      exact Or.inr (hsource task htask hfiber)
    · left
      have hzero : new.countP (fun task => task.fiber = some fiber) = 0 :=
        List.countP_eq_zero.mpr fun task htask hfiber => hmem ⟨task, htask, by simpa using hfiber⟩
      rw [State.queued, State.items, hio, hscheduled, List.countP_append, hzero, hresumes,
        Nat.zero_add] at ht
      exact ht
  -- the two events of a context
  have hboth {io : IOManager.State} {p : Nat} {c : IOManager.FdContext} {r w : Bool}
      (hc : s.io.contexts[p]? = some c)
      (hboth : io = (s.io.triggerIf p .READ r).triggerIf p .WRITE w)
      (hio : t.io.scheduled = io.scheduled) (hresumes : t.resumes = s.resumes)
      (hread : r = true → Triggers s p .READ a)
      (hwrite : w = true → Triggers s p .WRITE a) :
      s.queued fiber ∨ ∃ q e, Holds s fiber q e ∧ Triggers s q e a := by
    obtain ⟨new, hscheduled, hsource⟩ := IOManager.triggerBoth_new hc r w
    refine hnew new hscheduled (hio.trans (congrArg _ hboth)) hresumes fun task htask hfiber => ?_
    rcases hsource task htask with ⟨hr, hctx⟩ | ⟨hw, hctx⟩
    · exact ⟨p, .READ, ⟨_, _, IOManager.State.slot_eq hc .READ,
        IOManager.EventContext.fiber_of_task hctx hfiber⟩, hread hr⟩
    · exact ⟨p, .WRITE, ⟨_, _, IOManager.State.slot_eq hc .WRITE,
        IOManager.EventContext.fiber_of_task hctx hfiber⟩, hwrite hw⟩
  have hsame (hio : t.io.scheduled = s.io.scheduled) (hresumes : t.resumes = s.resumes) :
      s.queued fiber ∨ ∃ q e, Holds s fiber q e ∧ Triggers s q e a :=
    hnew [] rfl hio hresumes fun task htask => by cases htask
  have htaken {other : Nat} (hio : t.io = s.io) (hresumes : t.resumes = (s.taken other).resumes) :
      s.queued fiber := by
    rw [State.queued, State.items, hio, hresumes, taken_resumes] at ht
    rw [State.queued, State.items]
    split_ifs at ht with hother
    · rw [hother]
      rw [hother] at ht
      omega
    · exact ht
  cases step_cases h with
  | resume hc hpc hqueued => exact Or.inl (htaken rfl rfl)
  | take hidle hqueued => exact Or.inl (htaken rfl rfl)
  | @cancelEvent k i p c ctx ok hc hi hctx =>
    have hevent {e : Event} (he : c.event = e) : Triggers s p e (.cancelEvent k i ok) :=
      ⟨c, hc, he, hi⟩
    exact hboth hctx (IOManager.cancelEvent_eq hctx c.event ok) rfl rfl
      (fun hr => hevent (IOManager.Op.eq_of_triggered hr))
      (fun hw => hevent (IOManager.Op.eq_of_triggered hw))
  | @cancelAll i p c ctx ok hc hpc hctx =>
    exact hboth hctx (IOManager.cancelAll_eq s.io p ctx ok) rfl rfl
      (fun _ => ⟨c, hc, hpc⟩) (fun _ => ⟨c, hc, hpc⟩)
  | @io a io hassert hio =>
    cases IOManager.step_cases hio with
    | @perform i p op c ok hcall hc =>
      have hcancel {e : Event} (he : op = .cancelEvent e) :
          Triggers s p e (.io (.perform i ok)) := Or.inl (he ▸ hcall)
      cases op with
      | addEvent event cb scheduler fiber' =>
        refine hsame ?_ rfl
        cases ok <;> rfl
      | delEvent event =>
        refine hsame ?_ rfl
        change (IOManager.delEvent s.io p c event ok).scheduled = _
        rw [IOManager.delEvent]
        split <;> rfl
      | cancelEvent event =>
        refine hboth hc (IOManager.cancelEvent_eq hc event ok) rfl rfl
          (fun hr => hcancel ?_) (fun hw => hcancel ?_)
        · exact congrArg _ (IOManager.Op.eq_of_triggered hr)
        · exact congrArg _ (IOManager.Op.eq_of_triggered hw)
      | cancelAll =>
        exact hboth hc (IOManager.cancelAll_eq s.io p c ok) rfl rfl
          (fun _ => Or.inr hcall) (fun _ => Or.inr hcall)
    | @dispatch i p ev c ok hreport hc =>
      refine hboth hc (IOManager.dispatch_eq s.io p c ev ok) rfl rfl
        (fun _ => ⟨ev, hreport, fun he => by cases he⟩) (fun hw => ⟨ev, hreport, fun _ => ?_⟩)
      exact IOManager.EpollEvents.writable_of_triggered hw
    | _ => exact hsame rfl rfl
  | _ => exact hsame rfl rfl

end Hook

end FiberServer
