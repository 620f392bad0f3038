import FiberServer.IOManager.Event

/-!
# The table of `FdContext`s

`addEvent` finds `m_fdContexts` too short under the read lock and calls
`contextResize(fd*1.5)` under the write lock, without looking at the size again.
Two callers that have seen the same short table may come in either order, and the
one with the smaller fd may shrink what the other has made.

* `stable_iff_grows`: in a run the table never becomes shorter and every context
  with registered events is the one found under its fd, exactly when no resize of the
  run finds a table longer than it asks for.
-/

namespace FiberServer

namespace IOManager

open Transition

/-- A context with registered events is the one found under its fd. -/
def Reachable (s : State) : Prop :=
  ∀ p (c : FdContext), s.contexts[p]? = some c → c.events ≠ {} → s.m_fdContexts[c.fd]? = some p

/-- The step does not make `m_fdContexts` shorter. -/
def NotShorter (s : State) (a : Action) : Prop :=
  ∀ t, step s a = some t → s.m_fdContexts.length ≤ t.m_fdContexts.length

/-- The table is not longer than a resize asks for. -/
def grows (s : State) : Action → Bool
  | .resize i => s.calls[i]?.all fun
    | .resize _ fd => decide (s.m_fdContexts.length ≤ fd * 3 / 2)
    | _ => true
  | _ => true

/-! ### Sections keep the table -/

/-- The table is the same, and every context has kept its fd. -/
def SameTable (s t : State) : Prop :=
  t.m_fdContexts = s.m_fdContexts ∧ t.contexts.map FdContext.fd = s.contexts.map FdContext.fd

theorem SameTable.refl (s : State) : SameTable s s := ⟨rfl, rfl⟩

theorem SameTable.trans {s t u : State} (h : SameTable s t) (g : SameTable t u) : SameTable s u :=
  ⟨g.1.trans h.1, g.2.trans h.2⟩

theorem setContext_fd (c : FdContext) (event : Event) (ctx : EventContext) :
    (c.setContext event ctx).fd = c.fd := by
  cases event <;> rfl

theorem triggerEvent_fd (c : FdContext) (event : Event) : (c.triggerEvent event).1.fd = c.fd := by
  rw [FdContext.triggerEvent]
  split_ifs <;> rw [setContext_fd]

theorem map_fd_set {cs : List FdContext} {p : Nat} {c c' : FdContext} (hc : cs[p]? = some c)
    (h : c'.fd = c.fd) : (cs.set p c').map FdContext.fd = cs.map FdContext.fd := by
  obtain ⟨hp, rfl⟩ := List.getElem?_eq_some_iff.mp hc
  rw [List.map_set, h, ← List.getElem_map FdContext.fd (h := by rwa [List.length_map]),
    List.set_getElem_self]

section

variable {s : State} {p : Nat} {c : FdContext}

theorem trigger_sameTable (hc : s.contexts[p]? = some c) (event : Event) :
    SameTable s (s.trigger p c event) :=
  ⟨rfl, map_fd_set hc (triggerEvent_fd c event)⟩

theorem triggerIf_sameTable (s : State) (p : Nat) (event : Event) (on : Bool) :
    SameTable s (s.triggerIf p event on) := by
  rw [State.triggerIf]
  split_ifs
  · split
    · exact trigger_sameTable ‹_› event
    · exact .refl s
  · exact .refl s

theorem triggerBoth_sameTable (s : State) (p : Nat) (r w : Bool) :
    SameTable s ((s.triggerIf p .READ r).triggerIf p .WRITE w) :=
  (triggerIf_sameTable s p .READ r).trans (triggerIf_sameTable _ p .WRITE w)

theorem dispatch_sameTable (s : State) (p : Nat) (c : FdContext) (ev : EpollEvents) (ok : Bool) :
    SameTable s (dispatch s p c ev ok) := by
  rw [dispatch]
  simp only
  split_ifs
  · exact .refl s
  · exact triggerBoth_sameTable s p _ _
  · exact .refl s

theorem perform_sameTable (hc : s.contexts[p]? = some c) (op : Op) (ok : Bool) :
    SameTable s (op.perform s p c ok) := by
  cases op with
  | addEvent event cb scheduler fiber =>
    cases ok with
    | false => exact .refl s
    | true => exact ⟨rfl, map_fd_set hc (setContext_fd _ _ _)⟩
  | delEvent event =>
    rw [Op.perform, delEvent]
    split_ifs
    · exact ⟨rfl, map_fd_set hc (setContext_fd _ _ _)⟩
    · exact .refl s
  | cancelEvent event =>
    rw [Op.perform, cancelEvent]
    split_ifs
    · exact trigger_sameTable hc event
    · exact .refl s
  | cancelAll =>
    rw [Op.perform, cancelAll]
    split_ifs
    · exact .refl s
    · exact triggerBoth_sameTable s p _ _
    · exact .refl s

end

/-! ### Steps -/

/-- What a step does to the table: nothing, or one `contextResize`. -/
theorem step_table {s t : State} {a : Action} (h : step s a = some t) :
    SameTable s t ∧ grows s a = true ∨ ∃ i op fd, a = .resize i ∧ s.calls[i]? = some (.resize op fd)
      ∧ SameTable (s.contextResize (fd * 3 / 2)) t := by
  cases step_cases h with
  | found _ | missing _ _ | refused _ _ | epollWait _ _ => exact .inl ⟨.refl s, rfl⟩
  | resize hcall hp => exact .inr ⟨_, _, _, rfl, hcall, .refl _⟩
  | perform hcall hc => exact .inl ⟨perform_sameTable hc _ _, rfl⟩
  | dispatch hreport hc => exact .inl ⟨dispatch_sameTable s _ _ _ _, rfl⟩

/-- Every context that was allocated is in the table, under its own fd. -/
def Indexed (s : State) : Prop :=
  s.m_fdContexts = List.range s.contexts.length
    ∧ s.contexts.map FdContext.fd = List.range s.contexts.length

theorem Indexed.of_sameTable {s t : State} (hs : Indexed s) (h : SameTable s t) : Indexed t := by
  have hlen : t.contexts.length = s.contexts.length := by
    rw [← List.length_map (f := FdContext.fd), h.2, List.length_map]
  rw [Indexed, hlen, h.1, h.2]
  exact hs

theorem Indexed.reachable {s : State} (hs : Indexed s) : Reachable s := by
  intro p c hc _
  have hfd : (s.contexts.map FdContext.fd)[p]? = some c.fd := by rw [List.getElem?_map, hc]; rfl
  rw [hs.2] at hfd
  obtain ⟨hp, hfd⟩ := List.getElem?_eq_some_iff.mp hfd
  rw [List.getElem_range] at hfd
  rw [hs.1, ← hfd, List.getElem?_range (by simpa using hp)]

theorem length_contextResize (s : State) (size : Nat) :
    (s.contextResize size).m_fdContexts.length = size := by
  simp only [State.contextResize, List.length_append, List.length_take, List.length_map,
    List.length_range]
  omega

theorem Indexed.contextResize {s : State} (hs : Indexed s) {size : Nat}
    (h : s.m_fdContexts.length ≤ size) : Indexed (s.contextResize size) := by
  have hlen : s.m_fdContexts.length = s.contexts.length := by rw [hs.1, List.length_range]
  have hsize : size = s.contexts.length + (size - s.contexts.length) := by omega
  have hnew : (s.contextResize size).contexts.length = size := by
    simp only [State.contextResize, List.length_append, List.length_map, List.length_range, hlen]
    omega
  have hrange : List.range size = List.range s.contexts.length
      ++ (List.range (size - s.contexts.length)).map (s.contexts.length + ·) := by
    rw [← List.range_add, ← hsize]
  refine ⟨?_, ?_⟩
  · rw [hnew, hrange]
    simp only [State.contextResize, hlen]
    rw [List.take_of_length_le (by omega), hs.1]
  · rw [hnew, hrange]
    simp only [State.contextResize, List.map_append, List.map_map, hlen, hs.2]
    rfl

theorem indexed_init : Indexed init :=
  Indexed.contextResize (s := ⟨[], [], 0, [], [], [], false⟩) ⟨rfl, rfl⟩ (Nat.zero_le 32)

/-- An allowed step keeps every context in the table. -/
theorem indexed_step {s t : State} {a : Action} (hs : Indexed s) (ha : grows s a = true)
    (h : step s a = some t) : Indexed t := by
  obtain ⟨hsame, hgrows⟩ | ⟨i, op, fd, rfl, hcall, hsame⟩ := step_table h
  · exact hs.of_sameTable hsame
  · simp only [grows, hcall, Option.all_some, decide_eq_true_eq] at ha
    exact (hs.contextResize ha).of_sameTable hsame

/-- A possible step makes the table shorter exactly when it is not allowed. -/
theorem notShorter_iff_grows {s t : State} {a : Action} (h : step s a = some t) :
    NotShorter s a ↔ grows s a = true := by
  have hone : NotShorter s a ↔ s.m_fdContexts.length ≤ t.m_fdContexts.length :=
    ⟨fun hs => hs t h, fun hle t' h' => Option.some.inj (h.symm.trans h') ▸ hle⟩
  rw [hone]
  obtain ⟨hsame, hgrows⟩ | ⟨i, op, fd, rfl, hcall, hsame⟩ := step_table h
  · rw [hsame.1]
    exact ⟨fun _ => hgrows, fun _ => Nat.le_refl _⟩
  · rw [hsame.1, length_contextResize]
    simp [grows, hcall]

/-- **The table never becomes shorter and finds every registered event** exactly when no
resize finds a table longer than it asks for. -/
theorem stable_iff_grows {as : List Action} {t : State} (h : exec step init as = some t) :
    Along step NotShorter init as ∧ Throughout step Reachable init as
      ↔ Along step (fun s a => grows s a = true) init as := by
  constructor
  · rintro ⟨hlength, -⟩
    exact hlength.mono_exec (fun _ _ _ hst => (notShorter_iff_grows hst).mp) h
  · intro hgrows
    exact ⟨hgrows.mono_exec (fun _ _ _ hst => (notShorter_iff_grows hst).mpr) h,
      hgrows.throughout (fun _ _ _ hs ha hst => indexed_step hs ha hst) (fun _ hs => hs.reachable)
        indexed_init⟩

/-- Two calls see the table of 32 contexts; the resize for fd 60 comes first. -/
def shrinking : List Action :=
  [.lookup (.addEvent .READ none (some 0) 1) 60, .lookup (.addEvent .READ none (some 0) 2) 40,
   .resize 0, .perform 0 true, .resize 0]

theorem stable_iff_grows_shrinking :
    ∃ t, exec step init shrinking = some t
      ∧ (Along step NotShorter init shrinking ∧ Throughout step Reachable init shrinking
        ↔ Along step (fun s a => grows s a = true) init shrinking) :=
  ⟨_, rfl, stable_iff_grows rfl⟩

/-- The context of fd 60 holds an event, and the table, 90 contexts long before the last step,
ends before it. -/
theorem shrinking_lost :
    (exec step init (shrinking.take 4)).map (fun s => s.m_fdContexts.length) = some 90
    ∧ (exec step init shrinking).map (fun t => (t.contexts[60]?, t.m_fdContexts.length))
      = some (some { fd := 60, read := ⟨some 0, some 1, none⟩, events := { READ := true } }, 60) := by
  decide

theorem shrinking_not_stable :
    ¬ ∀ as t, exec step init as = some t →
      Along step NotShorter init as ∧ Throughout step Reachable init as := by
  intro h
  obtain ⟨t, ht, hlost⟩ := Option.map_eq_some_iff.mp shrinking_lost.2
  rw [Prod.mk.injEq] at hlost
  have hfound := (h _ _ ht).2.last ht 60 _ hlost.1 (by decide)
  rw [List.getElem?_eq_none (Nat.le_of_eq hlost.2)] at hfound
  exact nomatch hfound

end IOManager

end FiberServer
