import FiberServer.IOManager.Table

/-!
# Slots

A slot is one event of one `FdContext`: its bit in `events` and its `EventContext`.  Every
section of `IOManager` changes one slot at a time: `addEvent` fills an empty one, `triggerEvent`
empties one and schedules who waits there, `delEvent` empties one and schedules nobody.

* `step_slot`: these are the only changes that a step makes.
-/

namespace FiberServer

namespace IOManager

/-- The events that a section other than that of `addEvent` triggers. -/
def Op.triggered (c : FdContext) (ok : Bool) : Op → Events
  | .cancelEvent event => if c.events.has event && ok then Events.insert {} event else {}
  | .cancelAll => if ok then c.events else {}
  | _ => {}

/-- The events that the section of `idle()` triggers. -/
def EpollEvents.triggered (c : FdContext) (ok : Bool) (ev : EpollEvents) : Events :=
  let errHup := ev.EPOLLERR || ev.EPOLLHUP
  let real_events : Events :=
    { READ := ev.EPOLLIN || errHup && c.events.READ
      WRITE := ev.EPOLLOUT || errHup && c.events.WRITE }
  if (c.events.READ && real_events.READ || c.events.WRITE && real_events.WRITE) && ok then real_events
  else {}

/-- What is scheduled for a call of `addEvent`. -/
def waiter (cb scheduler : Option Nat) (fiber : Nat) : Task :=
  if cb.isSome then ⟨scheduler, none, cb⟩ else ⟨scheduler, some fiber, none⟩

/-- `FIBER_ASSERT(!event_ctx.scheduler && !event_ctx.fiber && !event_ctx.cb)` of `addEvent`. -/
def asserted (s : State) : Action → Bool
  | .perform i ok => s.calls[i]?.all fun
    | .ready (.addEvent event ..) p => s.contexts[p]?.all fun c => !ok || c.getContext event = {}
    | _ => true
  | _ => true

/-- The step is the section of a `delEvent`. -/
def isDelEvent (s : State) : Action → Bool
  | .perform i _ => s.calls[i]?.any fun
    | .ready (.delEvent _) _ => true
    | _ => false
  | _ => false

/-! ### Event contexts -/

namespace EventContext

/-- What `triggerEvent` schedules. -/
def task (ctx : EventContext) : Option Task :=
  if ctx.cb.isSome then some ⟨ctx.scheduler, none, ctx.cb⟩
  else if ctx.fiber.isSome then some ⟨ctx.scheduler, ctx.fiber, none⟩
  else none

/-- What `triggerEvent` leaves. -/
def rest (ctx : EventContext) : EventContext :=
  if ctx.cb.isSome then { ctx with cb := none, scheduler := none }
  else if ctx.fiber.isSome then { ctx with fiber := none, scheduler := none }
  else { ctx with scheduler := none }

/-- What `addEvent` writes into an empty context. -/
def register (cb scheduler : Option Nat) (fiber : Nat) : EventContext :=
  if cb.isSome then ⟨scheduler, none, cb⟩ else ⟨scheduler, some fiber, none⟩

theorem task_register (cb scheduler : Option Nat) (fiber : Nat) :
    (register cb scheduler fiber).task = some (waiter cb scheduler fiber) := by
  cases cb <;> rfl

theorem rest_register (cb scheduler : Option Nat) (fiber : Nat) :
    (register cb scheduler fiber).rest = {} := by
  cases cb <;> rfl

end EventContext

namespace FdContext

@[simp] theorem getContext_setContext_self (c : FdContext) (event : Event) (ctx : EventContext) :
    (c.setContext event ctx).getContext event = ctx := by
  cases event <;> rfl

theorem getContext_setContext_of_ne (c : FdContext) {event other : Event} (h : other ≠ event)
    (ctx : EventContext) : (c.setContext event ctx).getContext other = c.getContext other := by
  cases event <;> cases other <;> first | rfl | exact absurd rfl h

theorem getContext_events (c : FdContext) (event : Event) (m : Events) :
    ({ c with events := m } : FdContext).getContext event = c.getContext event := by
  cases event <;> rfl

theorem triggerEvent_eq (c : FdContext) (event : Event) :
    c.triggerEvent event
      = ({ c with events := c.events.erase event }.setContext event (c.getContext event).rest,
        (c.getContext event).task) := by
  rw [triggerEvent]
  simp only [getContext_events, EventContext.rest, EventContext.task]
  split_ifs <;> rfl

end FdContext

theorem Events.has_erase_self (m : Events) (event : Event) : (m.erase event).has event = false := by
  cases event <;> rfl

theorem Events.has_insert_self (m : Events) (event : Event) : (m.insert event).has event = true := by
  cases event <;> rfl

theorem Events.has_insert_of_ne {m : Events} {event other : Event} (h : other ≠ event) :
    (m.insert event).has other = m.has other := by
  cases event <;> cases other <;> first | rfl | exact absurd rfl h

/-- One event of a context: its bit, and who waits for it. -/
def State.slot (s : State) (p : Nat) (event : Event) : Option (Bool × EventContext) :=
  s.contexts[p]?.map fun c => (c.events.has event, c.getContext event)

theorem State.slot_eq {s : State} {p : Nat} {c : FdContext} (hc : s.contexts[p]? = some c)
    (event : Event) : s.slot p event = some (c.events.has event, c.getContext event) := by
  rw [State.slot, hc]
  rfl

/-- One event of one context changes. -/
structure Updates (s t : State) (p : Nat) (event : Event) (b : Bool) (ctx : EventContext) :
    Prop where
  self : t.slot p event = some (b, ctx)
  other : ∀ q e, ¬ (q = p ∧ e = event) → t.slot q e = s.slot q e

theorem updates_set {s t : State} {p : Nat} {c : FdContext} {event : Event} {ctx : EventContext}
    {m : Events} (hc : s.contexts[p]? = some c)
    (ht : t.contexts = s.contexts.set p ({ c with events := m }.setContext event ctx))
    (hm : ∀ e, e ≠ event → m.has e = c.events.has e) :
    Updates s t p event (m.has event) ctx := by
  obtain ⟨hp, -⟩ := List.getElem?_eq_some_iff.mp hc
  have hself : t.contexts[p]? = some ({ c with events := m }.setContext event ctx) := by
    rw [ht, List.getElem?_set_self hp]
  refine ⟨?_, ?_⟩
  · rw [State.slot_eq hself, FdContext.setContext_events, FdContext.getContext_setContext_self]
  · intro q e hne
    by_cases hq : q = p
    · subst hq
      have he : e ≠ event := fun he => hne ⟨rfl, he⟩
      rw [State.slot_eq hself, State.slot_eq hc, FdContext.setContext_events,
        FdContext.getContext_setContext_of_ne _ he, FdContext.getContext_events, hm e he]
    · rw [State.slot, State.slot, ht, List.getElem?_set_ne (Ne.symm hq)]

section

variable {s : State} {p : Nat} {c : FdContext} {event : Event}

theorem trigger_updates (hc : s.contexts[p]? = some c) :
    Updates s (s.trigger p c event) p event false (c.getContext event).rest := by
  have hset : (s.trigger p c event).contexts = s.contexts.set p
      ({ c with events := c.events.erase event }.setContext event (c.getContext event).rest) := by
    show s.contexts.set p (c.triggerEvent event).1 = _
    rw [FdContext.triggerEvent_eq]
  have h := updates_set hc hset fun e he => Events.has_erase_of_ne he
  rwa [Events.has_erase_self] at h

theorem trigger_scheduled (s : State) (p : Nat) (c : FdContext) (event : Event) :
    (s.trigger p c event).scheduled = (c.getContext event).task.toList ++ s.scheduled := by
  show (c.triggerEvent event).2.toList ++ s.scheduled = _
  rw [FdContext.triggerEvent_eq]

theorem dispatch_eq (s : State) (p : Nat) (c : FdContext) (ev : EpollEvents) (ok : Bool) :
    dispatch s p c ev ok = (s.triggerIf p .READ (ev.triggered c ok).READ).triggerIf p .WRITE
      (ev.triggered c ok).WRITE := by
  rw [dispatch, EpollEvents.triggered]
  cases ok with
  | false =>
    simp only [Bool.and_false, Bool.false_eq_true, if_false, ite_self]
    rfl
  | true =>
    simp only [Bool.and_true, if_true]
    split_ifs with hnone hlive hlive
    · exact absurd hlive (by rw [hnone]; decide)
    · rfl
    · rfl
    · exact absurd (Bool.eq_false_iff.mpr hlive) hnone

theorem cancelEvent_eq (hc : s.contexts[p]? = some c) (event : Event) (ok : Bool) :
    cancelEvent s p c event ok
      = (s.triggerIf p .READ (Op.triggered c ok (.cancelEvent event)).READ).triggerIf p .WRITE
        (Op.triggered c ok (.cancelEvent event)).WRITE := by
  have htrigger (e : Event) : s.triggerIf p e true = s.trigger p c e := by
    rw [State.triggerIf, if_pos rfl, hc]
  rw [cancelEvent, Op.triggered]
  split_ifs
  · cases event with
    | READ => exact (htrigger .READ).symm
    | WRITE => exact (htrigger .WRITE).symm
  · rfl

theorem cancelAll_eq (s : State) (p : Nat) (c : FdContext) (ok : Bool) :
    cancelAll s p c ok = (s.triggerIf p .READ (Op.triggered c ok .cancelAll).READ).triggerIf p .WRITE
      (Op.triggered c ok .cancelAll).WRITE := by
  rw [cancelAll, Op.triggered]
  split_ifs with hnone
  · rw [hnone]
    rfl
  · rfl
  · rfl
  · rfl

theorem addEvent_updates (hc : s.contexts[p]? = some c) (cb scheduler : Option Nat) (fiber : Nat)
    (hempty : c.getContext event = {}) :
    Updates s (addEvent s p c event cb scheduler fiber true) p event true
      (.register cb scheduler fiber) := by
  have hset : (addEvent s p c event cb scheduler fiber true).contexts = s.contexts.set p
      ({ c with events := c.events.insert event }.setContext event
        (.register cb scheduler fiber)) := by
    simp only [addEvent, if_true, hempty]
    cases cb <;> rfl
  have h := updates_set hc hset fun e he => Events.has_insert_of_ne he
  rwa [Events.has_insert_self] at h

theorem delEvent_updates (hc : s.contexts[p]? = some c) (event : Event) (ok : Bool) :
    delEvent s p c event ok = s ∨ Updates s (delEvent s p c event ok) p event false {} := by
  rw [delEvent]
  split_ifs
  · have h := updates_set (t := State.decPending { s with
        contexts := s.contexts.set p
          ({ c with events := c.events.erase event }.setContext event {}) })
      hc rfl fun e he => Events.has_erase_of_ne he
    rw [Events.has_erase_self] at h
    exact .inr h
  · exact .inl rfl

end

/-! ### Steps -/

/-- What happens to a slot that is neither filled by `addEvent` nor emptied by `delEvent`. -/
inductive SlotStep (s t : State) (q : Nat) (e : Event) : Prop
  | kept (h : t.slot q e = s.slot q e)
  | new (hs : s.slot q e = none) (ht : t.slot q e = some (false, {}))
  | triggered {b : Bool} {ctx : EventContext} (hs : s.slot q e = some (b, ctx))
      (ht : t.slot q e = some (false, ctx.rest))
      (hw : ∀ task ∈ ctx.task, ∃ new, t.scheduled = new ++ s.scheduled ∧ task ∈ new)

theorem SlotStep.of_eq {s t u : State} {q : Nat} {e : Event} (h : SlotStep s t q e)
    (hc : u.contexts = t.contexts) (hs : u.scheduled = t.scheduled) : SlotStep s u q e := by
  have hslot : u.slot q e = t.slot q e := by rw [State.slot, State.slot, hc]
  cases h with
  | kept h => exact .kept (hslot.trans h)
  | new h ht => exact .new h (hslot.trans ht)
  | triggered h ht hw => exact .triggered h (hslot.trans ht) (by rwa [hs])

theorem triggerIf_scheduled (s : State) (p : Nat) (event : Event) (on : Bool) :
    ∃ new, (s.triggerIf p event on).scheduled = new ++ s.scheduled := by
  rw [State.triggerIf]
  split_ifs
  · split
    · exact ⟨_, rfl⟩
    · exact ⟨[], rfl⟩
  · exact ⟨[], rfl⟩

theorem triggerIf_slot {s : State} {p : Nat} {c : FdContext} (hc : s.contexts[p]? = some c)
    (event : Event) (on : Bool) (q : Nat) (e : Event) :
    SlotStep s (s.triggerIf p event on) q e
      ∧ (¬ (q = p ∧ e = event) → (s.triggerIf p event on).slot q e = s.slot q e) := by
  cases on with
  | false => exact ⟨.kept rfl, fun _ => rfl⟩
  | true =>
    have hupdates : Updates s (s.trigger p c event) p event false (c.getContext event).rest :=
      trigger_updates hc
    have htrigger : s.triggerIf p event true = s.trigger p c event := by
      rw [State.triggerIf, if_pos rfl, hc]
    rw [htrigger]
    refine ⟨?_, hupdates.other q e⟩
    by_cases hq : q = p ∧ e = event
    · obtain ⟨rfl, rfl⟩ := hq
      refine .triggered (State.slot_eq hc e) hupdates.self fun task htask => ?_
      exact ⟨_, trigger_scheduled s q c e, Option.mem_toList.mpr htask⟩
    · exact .kept (hupdates.other q e hq)

/-- `READ` and `WRITE` where asked. -/
theorem triggerBoth_slot {s : State} {p : Nat} {c : FdContext} (hc : s.contexts[p]? = some c)
    (r w : Bool) (q : Nat) (e : Event) :
    SlotStep s ((s.triggerIf p .READ r).triggerIf p .WRITE w) q e := by
  have hread := triggerIf_slot hc .READ r
  have hkept := (hread p .WRITE).2 fun h => absurd h.2 (by decide)
  rw [State.slot_eq hc] at hkept
  obtain ⟨c', hc', -⟩ := Option.map_eq_some_iff.mp hkept
  have hwrite := triggerIf_slot hc' .WRITE w
  obtain ⟨new, hnew⟩ := triggerIf_scheduled (s.triggerIf p .READ r) p .WRITE w
  by_cases he : e = .WRITE
  · -- `READ` has left the slot alone
    have hsame := (hread q e).2 fun h => absurd (he.symm.trans h.2) (by decide)
    obtain ⟨new', hnew'⟩ := triggerIf_scheduled s p .READ r
    cases (hwrite q e).1 with
    | kept h => exact .kept (h.trans hsame)
    | new h ht => exact .new (hsame.symm.trans h) ht
    | triggered h ht hw =>
      refine .triggered (hsame.symm.trans h) ht fun task htask => ?_
      obtain ⟨more, hmore, hmem⟩ := hw task htask
      rw [hnew', ← List.append_assoc] at hmore
      exact ⟨_, hmore, List.mem_append_left _ hmem⟩
  · have hsame := (hwrite q e).2 fun h => he h.2
    cases (hread q e).1 with
    | kept h => exact .kept (hsame.trans h)
    | new h ht => exact .new h (hsame.trans ht)
    | triggered h ht hw =>
      refine .triggered h (hsame.trans ht) fun task htask => ?_
      obtain ⟨more, hmore, hmem⟩ := hw task htask
      rw [hmore, ← List.append_assoc] at hnew
      exact ⟨_, hnew, List.mem_append_right _ hmem⟩

theorem triggerBoth_scheduled (s : State) (p : Nat) (r w : Bool) :
    ∃ new, ((s.triggerIf p .READ r).triggerIf p .WRITE w).scheduled = new ++ s.scheduled := by
  obtain ⟨new, hnew⟩ := triggerIf_scheduled s p .READ r
  obtain ⟨more, hmore⟩ := triggerIf_scheduled (s.triggerIf p .READ r) p .WRITE w
  exact ⟨more ++ new, by rw [hmore, hnew, List.append_assoc]⟩

theorem contextResize_slot (s : State) (size : Nat) (q : Nat) (e : Event) :
    SlotStep s (s.contextResize size) q e := by
  by_cases hq : q < s.contexts.length
  · refine .kept ?_
    rw [State.slot, State.slot, State.contextResize, List.getElem?_append_left hq]
  · have hnone : s.slot q e = none := by
      rw [State.slot, List.getElem?_eq_none (Nat.le_of_not_lt hq)]
      rfl
    cases hslot : (s.contextResize size).slot q e with
    | none => exact .kept (hslot.trans hnone.symm)
    | some x =>
      refine .new hnone (hslot.trans ?_)
      rw [State.slot, State.contextResize, List.getElem?_append_right (Nat.le_of_not_lt hq),
        List.getElem?_map, Option.map_map, Option.map_eq_some_iff] at hslot
      obtain ⟨i, -, hnew⟩ := hslot
      rw [← hnew]
      cases e <;> rfl

/-- The slot that a step fills by `addEvent`. -/
def adds (s : State) : Action → Option (Nat × Event)
  | .perform i true =>
    match s.calls[i]? with
    | some (.ready (.addEvent event ..) p) => some (p, event)
    | _ => none
  | _ => none

/-- The slot that a step may empty by `delEvent`. -/
def deletes (s : State) : Action → Option (Nat × Event)
  | .perform i _ =>
    match s.calls[i]? with
    | some (.ready (.delEvent event) p) => some (p, event)
    | _ => none
  | _ => none

/-- What a step does to the slots, if the assertion of `addEvent` holds. -/
inductive StepSlots (s t : State) (a : Action) : Prop
  | quiet (h : ∀ q e, SlotStep s t q e)
  | adds {p : Nat} {event : Event} {ctx : EventContext} {b : Bool} (ha : adds s a = some (p, event))
      (hempty : s.slot p event = some (b, {})) (h : Updates s t p event true ctx)
  | deletes {p : Nat} {event : Event} (ha : deletes s a = some (p, event))
      (h : Updates s t p event false {})

theorem StepSlots.of_eq {s t u : State} {a : Action} (h : StepSlots s t a)
    (hc : u.contexts = t.contexts) (hs : u.scheduled = t.scheduled) : StepSlots s u a := by
  have hslot (q : Nat) (e : Event) : u.slot q e = t.slot q e := by rw [State.slot, State.slot, hc]
  cases h with
  | quiet h => exact .quiet fun q e => (h q e).of_eq hc hs
  | adds ha hempty h =>
    exact .adds ha hempty ⟨(hslot _ _).trans h.self, fun q e hne => (hslot q e).trans (h.other q e hne)⟩
  | deletes ha h =>
    exact .deletes ha ⟨(hslot _ _).trans h.self, fun q e hne => (hslot q e).trans (h.other q e hne)⟩

/-- **The section of a call.** -/
theorem perform_slots {s : State} {i p : Nat} {op : Op} {c : FdContext} {ok : Bool}
    (hcall : s.calls[i]? = some (.ready op p)) (hc : s.contexts[p]? = some c)
    (hassert : asserted s (.perform i ok) = true) :
    StepSlots s (op.perform s p c ok) (.perform i ok)
      ∧ ∃ new, (op.perform s p c ok).scheduled = new ++ s.scheduled := by
  cases op with
  | addEvent event cb scheduler fiber =>
    cases ok with
    | false => exact ⟨.quiet fun _ _ => .kept rfl, [], rfl⟩
    | true =>
      have hempty : c.getContext event = {} := by simpa [asserted, hcall, hc] using hassert
      refine ⟨.adds (b := c.events.has event) (by simp only [adds, hcall]) ?_
        (addEvent_updates hc _ _ _ hempty), [], rfl⟩
      rw [State.slot_eq hc, hempty]
  | delEvent event =>
    rcases delEvent_updates hc event ok with hsame | h
    · rw [Op.perform, hsame]
      exact ⟨.quiet fun _ _ => .kept rfl, [], rfl⟩
    · refine ⟨.deletes (by simp only [deletes, hcall]) h, [], ?_⟩
      rw [Op.perform, delEvent]
      split_ifs <;> rfl
  | cancelEvent event =>
    rw [Op.perform, cancelEvent_eq hc]
    exact ⟨.quiet fun q e => triggerBoth_slot hc _ _ q e, triggerBoth_scheduled s p _ _⟩
  | cancelAll =>
    rw [Op.perform, cancelAll_eq]
    exact ⟨.quiet fun q e => triggerBoth_slot hc _ _ q e, triggerBoth_scheduled s p _ _⟩

/-- **A step** changes the slots only so, and a task that was scheduled stays in the list. -/
theorem step_slots {s t : State} {a : Action} (h : step s a = some t)
    (hassert : asserted s a = true) :
    StepSlots s t a ∧ ∃ new, t.scheduled = new ++ s.scheduled := by
  cases step_cases h with
  | found _ | missing _ _ | refused _ _ | epollWait _ _ =>
    exact ⟨.quiet fun _ _ => .kept rfl, [], rfl⟩
  | resize hcall hp =>
    exact ⟨.quiet fun q e => (contextResize_slot s _ q e).of_eq rfl rfl, [], rfl⟩
  | perform hcall hc =>
    obtain ⟨hslots, hnew⟩ := perform_slots hcall hc hassert
    exact ⟨hslots.of_eq rfl rfl, hnew⟩
  | @dispatch i p ev c ok hreport hc =>
    have hslots : StepSlots s (dispatch s p c ev ok) (.dispatch i ok) := by
      rw [dispatch_eq]
      exact .quiet fun q e => triggerBoth_slot hc _ _ q e
    have hnew : ∃ new, (dispatch s p c ev ok).scheduled = new ++ s.scheduled := by
      rw [dispatch_eq]
      exact triggerBoth_scheduled s p _ _
    exact ⟨hslots.of_eq rfl rfl, hnew⟩

end IOManager

end FiberServer
