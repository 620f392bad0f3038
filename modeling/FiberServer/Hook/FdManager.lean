import FiberServer.Library.Transition
import Mathlib.Algebra.Order.Ring.Int
import Mathlib.Data.Int.Init
import Mathlib.Tactic.SplitIfs

/-!
# `FdManager::get`

`get` looks a descriptor up under the read lock and creates its `FdCtx` under the write lock,
without a second look: another call may have created one in between.  Any number of threads may
call `get` for any descriptors; a call that has to create is counted among the `creating` until
it takes the write lock.

* `oneCtx_iff`: no entry of `m_datas` is lost and all calls for a descriptor return one object,
  in exactly the runs in which every creation finds an empty entry and its `resize` cuts off none.
-/

namespace FiberServer

namespace FdManager

open Transition

/-- `(uint64_t)-1` -/
def noTimeout : UInt64 := ~~~0

def SO_RCVTIMEO : Nat := 20

structure FdCtx where
  m_isInit : Bool
  m_isSocket : Bool
  m_sysNonblock : Bool
  m_userNonblock : Bool
  m_isClosed : Bool
  m_fd : Nat
  m_recvTimeout : UInt64
  m_sendTimeout : UInt64
  deriving DecidableEq, Repr

/-- `FdCtx(int fd)` with its `init`; `fd_stat` is whether `fstat` says that the descriptor is a
socket, if it does not fail. -/
def FdCtx.make (fd : Nat) (fd_stat : Option Bool) : FdCtx :=
  { m_isInit := fd_stat.isSome
    m_isSocket := fd_stat = some true
    m_sysNonblock := fd_stat = some true
    m_userNonblock := false
    m_isClosed := false
    m_fd := fd
    m_recvTimeout := noTimeout
    m_sendTimeout := noTimeout }

def FdCtx.setUserNonblock (ctx : FdCtx) (v : Bool) : FdCtx := { ctx with m_userNonblock := v }

def FdCtx.setTimeout (ctx : FdCtx) (type : Nat) (v : UInt64) : FdCtx :=
  if type = SO_RCVTIMEO then { ctx with m_recvTimeout := v } else { ctx with m_sendTimeout := v }

structure State where
  /-- the objects, by their numbers -/
  ctxs : List FdCtx
  m_datas : List (Option Nat)
  /-- the calls that have left the read lock and are to take the write lock -/
  creating : List Nat
  /-- the calls that have returned, with what they were called for -/
  returned : List (Int × Option Nat)
  /-- the assignments `m_datas[fd] = ctx` -/
  stored : List (Nat × Nat)
  deriving DecidableEq, Repr

/-- `FdManager()`. -/
def init : State :=
  { ctxs := []
    m_datas := List.replicate 64 none
    creating := []
    returned := []
    stored := [] }

/-- `(int)m_datas.size()` -/
def State.size (s : State) : Int := (s.m_datas.length : Int).bmod (2 ^ 32)

def resize (m_datas : List (Option Nat)) (n : Nat) : List (Option Nat) :=
  m_datas.take n ++ List.replicate (n - m_datas.length) none

def State.giveBack (s : State) (fd : Int) (ctx : Option Nat) : State :=
  { s with returned := s.returned ++ [(fd, ctx)] }

/-- What `get` does under the read lock; a negative index of `m_datas` has no meaning. -/
def State.lookup (s : State) (fd : Int) (auto_create : Bool) : Option State :=
  if fd = -1 then some (s.giveBack fd none)
  else if fd < 0 ∨ 2 ^ 31 ≤ fd then none
  else
    let creates := { s with creating := s.creating ++ [fd.toNat] }
    if s.size ≤ fd then
      if auto_create then some creates else some (s.giveBack fd none)
    else
      let ctx := s.m_datas[fd.toNat]?.join
      if ctx.isSome || !auto_create then some (s.giveBack fd ctx) else some creates

/-- `m_datas` before the assignment to `m_datas[fd]`. -/
def State.resized (s : State) (fd : Nat) : List (Option Nat) :=
  if s.size ≤ fd then resize s.m_datas (fd * 3 / 2) else s.m_datas

/-- What `get` does under the write lock. -/
def State.create (s : State) (fd : Nat) (fd_stat : Option Bool) : Option State :=
  let ctx := s.ctxs.length
  let m_datas := s.resized fd
  if fd < m_datas.length then
    some
      { s with
        ctxs := s.ctxs ++ [.make fd fd_stat]
        m_datas := m_datas.set fd (some ctx)
        returned := s.returned ++ [((fd : Int), some ctx)]
        stored := s.stored ++ [(fd, ctx)] }
  else none

inductive Action
  | lookup (fd : Int) (auto_create : Bool)
  /-- a call takes the write lock -/
  | create (i : Nat) (fd_stat : Option Bool)
  | setTimeout (ctx : Nat) (type : Nat) (v : UInt64)
  | setUserNonblock (ctx : Nat) (v : Bool)
  deriving DecidableEq, Repr

def step (s : State) : Action → Option State
  | .lookup fd auto_create => s.lookup fd auto_create
  | .create i fd_stat =>
    match s.creating[i]? with
    | none => none
    | some fd => { s with creating := s.creating.eraseIdx i }.create fd fd_stat
  | .setTimeout ctx type v =>
    some { s with ctxs := s.ctxs.modify ctx fun c => c.setTimeout type v }
  | .setUserNonblock ctx v =>
    some { s with ctxs := s.ctxs.modify ctx fun c => c.setUserNonblock v }

/-- One `FdCtx` for each descriptor. -/
structure OneCtx (s : State) : Prop where
  agree : ∀ fd c c', (fd, some c) ∈ s.returned → (fd, some c') ∈ s.returned → c = c'
  /-- what was put into `m_datas` is still there -/
  kept : ∀ fd c, (fd, c) ∈ s.stored → s.m_datas[fd]? = some (some c)

/-- A call that takes the write lock finds no object, and cuts none off. -/
def CreatesOnce (s : State) : Action → Prop
  | .create i _ => ∀ fd, s.creating[i]? = some fd →
      s.m_datas[fd]?.join = none
        ∧ ∀ j c, s.m_datas[j]? = some (some c) → j < (s.resized fd).length
  | _ => True

/-- Where the objects that calls return come from. -/
structure Books (s : State) : Prop where
  entries : ∀ fd c, s.m_datas[fd]? = some (some c) → (fd, c) ∈ s.stored
  returned : ∀ fd c, (fd, some c) ∈ s.returned → (fd.toNat, c) ∈ s.stored
  made : ∀ fd c, (fd, c) ∈ s.stored → c < s.ctxs.length

theorem Books.oneCtx {s : State} (h : Books s)
    (hkept : ∀ fd c, (fd, c) ∈ s.stored → s.m_datas[fd]? = some (some c)) : OneCtx s := by
  refine ⟨fun fd c c' hc hc' => ?_, hkept⟩
  have hentry := hkept _ _ (h.returned fd c hc)
  have hentry' := hkept _ _ (h.returned fd c' hc')
  exact Option.some.inj (Option.some.inj (hentry.symm.trans hentry'))

theorem getElem?_resize (l : List (Option Nat)) (n j : Nat) (h : j < n) :
    (resize l n)[j]?.join = l[j]?.join := by
  rw [resize]
  by_cases hj : j < l.length
  · rw [List.getElem?_append_left (by rw [List.length_take]; omega), List.getElem?_take_of_lt h]
  · rw [List.getElem?_append_right (by rw [List.length_take]; omega), List.getElem?_replicate,
      List.getElem?_eq_none (Nat.le_of_not_lt hj)]
    split_ifs <;> rfl

theorem length_resize (l : List (Option Nat)) (n : Nat) : (resize l n).length = n := by
  rw [resize, List.length_append, List.length_take, List.length_replicate]
  omega

theorem join_eq_some {l : List (Option Nat)} {j c : Nat} :
    l[j]?.join = some c ↔ l[j]? = some (some c) := by
  rw [Option.join_eq_some_iff]

/-- **What is in `m_datas` after it has been resized** was there before. -/
theorem State.getElem?_resized (s : State) (fd j : Nat) (h : j < (s.resized fd).length) :
    (s.resized fd)[j]?.join = s.m_datas[j]?.join := by
  rw [State.resized] at h ⊢
  split_ifs at h ⊢ with hsize
  · rw [length_resize] at h
    exact getElem?_resize _ _ _ h
  · rfl

/-! ### The two parts of a call -/

theorem books_init : Books init := by
  constructor
  · intro fd c h
    rw [init, List.getElem?_replicate] at h
    split_ifs at h
    exact absurd (Option.some.inj h) (by simp)
  · exact fun fd c h => absurd h List.not_mem_nil
  · exact fun fd c h => absurd h List.not_mem_nil

/-- **A call under the read lock** returns an object that lies in `m_datas`, if one at all. -/
theorem lookup_spec {s t : State} {fd : Int} {auto_create : Bool}
    (h : s.lookup fd auto_create = some t) :
    t.ctxs = s.ctxs ∧ t.m_datas = s.m_datas ∧ t.stored = s.stored
      ∧ (t.returned = s.returned ∨ ∃ ctx, t.returned = s.returned ++ [(fd, ctx)]
        ∧ ∀ c, ctx = some c → s.m_datas[fd.toNat]? = some (some c)) := by
  rw [State.lookup] at h
  simp only at h
  split_ifs at h
  · cases h
    exact ⟨rfl, rfl, rfl, .inr ⟨none, rfl, fun _ hc => nomatch hc⟩⟩
  · cases h
    exact ⟨rfl, rfl, rfl, .inl rfl⟩
  · cases h
    exact ⟨rfl, rfl, rfl, .inr ⟨none, rfl, fun _ hc => nomatch hc⟩⟩
  · cases h
    exact ⟨rfl, rfl, rfl, .inr ⟨_, rfl, fun _ hc => join_eq_some.mp hc⟩⟩
  · cases h
    exact ⟨rfl, rfl, rfl, .inl rfl⟩

/-- **A call under the write lock** stores a new object and returns it. -/
theorem create_spec {s t : State} {fd : Nat} {fd_stat : Option Bool}
    (h : s.create fd fd_stat = some t) :
    fd < (s.resized fd).length ∧ t.ctxs = s.ctxs ++ [.make fd fd_stat]
      ∧ t.m_datas = (s.resized fd).set fd (some s.ctxs.length)
      ∧ t.returned = s.returned ++ [((fd : Int), some s.ctxs.length)]
      ∧ t.stored = s.stored ++ [(fd, s.ctxs.length)] := by
  rw [State.create] at h
  split_ifs at h with hfd
  rw [← Option.some.inj h]
  simp only [hfd, and_self]

theorem books_lookup {s t : State} {fd : Int} {auto_create : Bool} (h : Books s)
    (hstep : s.lookup fd auto_create = some t) : Books t := by
  obtain ⟨hctxs, hdatas, hstored, hreturned⟩ := lookup_spec hstep
  constructor
  · rw [hdatas, hstored]
    exact h.entries
  · rw [hstored]
    intro fd' c hc
    rcases hreturned with heq | ⟨ctx, heq, hctx⟩
    · rw [heq] at hc
      exact h.returned fd' c hc
    · rw [heq, List.mem_append, List.mem_singleton] at hc
      rcases hc with hc | hc
      · exact h.returned fd' c hc
      · cases hc
        exact h.entries _ c (hctx c rfl)
  · rw [hctxs, hstored]
    exact h.made

theorem books_create {s t : State} {fd : Nat} {fd_stat : Option Bool} (h : Books s)
    (hstep : s.create fd fd_stat = some t) : Books t := by
  obtain ⟨hfd, hctxs, hdatas, hreturned, hstored⟩ := create_spec hstep
  constructor
  · intro j c hj
    rw [hstored, List.mem_append, List.mem_singleton]
    rw [hdatas] at hj
    by_cases hne : fd = j
    · subst hne
      rw [List.getElem?_set_self hfd] at hj
      exact .inr (by rw [Option.some.inj (Option.some.inj hj)])
    · rw [List.getElem?_set_ne hne] at hj
      refine .inl (h.entries j c (join_eq_some.mp ?_))
      rw [← State.getElem?_resized s fd j (List.getElem?_eq_some_iff.mp hj).1]
      exact join_eq_some.mpr hj
  · intro fd' c hc
    rw [hstored, List.mem_append, List.mem_singleton]
    rw [hreturned, List.mem_append, List.mem_singleton] at hc
    rcases hc with hc | hc
    · exact .inl (h.returned fd' c hc)
    · cases hc
      exact .inr rfl
  · intro fd' c hc
    rw [hctxs, List.length_append, List.length_singleton]
    rw [hstored, List.mem_append, List.mem_singleton] at hc
    rcases hc with hc | hc
    · exact Nat.lt_succ_of_lt (h.made fd' c hc)
    · cases hc
      exact Nat.lt_succ_self _

/-- The creation keeps all entries exactly if it finds none and cuts none off. -/
theorem kept_create {s t : State} {fd : Nat} {fd_stat : Option Bool} (h : Books s)
    (hkept : ∀ j c : Nat, (j, c) ∈ s.stored → s.m_datas[j]? = some (some c))
    (hstep : s.create fd fd_stat = some t) :
    (∀ j c : Nat, (j, c) ∈ t.stored → t.m_datas[j]? = some (some c))
      ↔ s.m_datas[fd]?.join = none
        ∧ ∀ j c : Nat, s.m_datas[j]? = some (some c) → j < (s.resized fd).length := by
  obtain ⟨hfd, -, hdatas, -, hstored⟩ := create_spec hstep
  have hself : t.m_datas[fd]? = some (some s.ctxs.length) := by
    rw [hdatas, List.getElem?_set_self hfd]
  constructor
  · intro ht
    -- whatever lies in `m_datas` was stored, and so is there afterwards
    have hthere : ∀ j c : Nat, s.m_datas[j]? = some (some c) → t.m_datas[j]? = some (some c) := by
      intro j c hj
      refine ht j c ?_
      rw [hstored]
      exact List.mem_append_left _ (h.entries j c hj)
    constructor
    · rw [Option.eq_none_iff_forall_ne_some]
      intro c hc
      have hentry := join_eq_some.mp hc
      have hnew : c = s.ctxs.length :=
        Option.some.inj (Option.some.inj ((hthere fd c hentry).symm.trans hself))
      exact Nat.lt_irrefl _ (hnew ▸ h.made fd c (h.entries fd c hentry))
    · intro j c hj
      have hlt := (List.getElem?_eq_some_iff.mp (hthere j c hj)).1
      rw [hdatas, List.length_set] at hlt
      exact hlt
  · rintro ⟨hempty, hcut⟩ j c hj
    rw [hstored, List.mem_append, List.mem_singleton] at hj
    rcases hj with hj | hj
    · have hentry := hkept j c hj
      have hne : fd ≠ j := by
        rintro rfl
        rw [join_eq_some.mpr hentry] at hempty
        exact nomatch hempty
      rw [hdatas, List.getElem?_set_ne hne, ← join_eq_some,
        State.getElem?_resized s fd j (hcut j c hentry), join_eq_some]
      exact hentry
    · cases hj
      exact hself

/-! ### Runs -/

theorem step_create {s t : State} {i : Nat} {fd_stat : Option Bool}
    (h : step s (.create i fd_stat) = some t) :
    ∃ fd, s.creating[i]? = some fd
      ∧ { s with creating := s.creating.eraseIdx i }.create fd fd_stat = some t := by
  rw [step] at h
  cases hi : s.creating[i]? with
  | none =>
    rw [hi] at h
    exact nomatch h
  | some fd =>
    rw [hi] at h
    exact ⟨fd, rfl, h⟩

/-- A call that does not take the write lock is not counted. -/
theorem Books.pop {s : State} (h : Books s) (creating : List Nat) :
    Books { s with creating := creating } := ⟨h.entries, h.returned, h.made⟩

theorem books_modify {s : State} (h : Books s) (ctx : Nat) (f : FdCtx → FdCtx) :
    Books { s with ctxs := s.ctxs.modify ctx f } := by
  refine ⟨h.entries, h.returned, ?_⟩
  show ∀ fd c, (fd, c) ∈ s.stored → c < (s.ctxs.modify ctx f).length
  rw [List.length_modify]
  exact h.made

theorem books_step (s : State) (a : Action) (t : State) (h : Books s) (hstep : step s a = some t) :
    Books t := by
  cases a with
  | lookup fd auto_create => exact books_lookup h hstep
  | create i fd_stat =>
    obtain ⟨fd, -, hcreate⟩ := step_create hstep
    exact books_create (h.pop _) hcreate
  | setTimeout ctx type v =>
    cases hstep
    exact books_modify h ctx _
  | setUserNonblock ctx v =>
    cases hstep
    exact books_modify h ctx _

theorem oneCtx_step (s : State) (a : Action) (t : State) (h : Books s) (hs : OneCtx s)
    (hstep : step s a = some t) : OneCtx t ↔ CreatesOnce s a := by
  have hbooks := books_step s a t h hstep
  cases a with
  | lookup fd auto_create =>
    obtain ⟨-, hdatas, hstored, -⟩ := lookup_spec hstep
    refine iff_of_true (hbooks.oneCtx ?_) trivial
    rw [hdatas, hstored]
    exact hs.kept
  | create i fd_stat =>
    obtain ⟨fd, hfd, hcreate⟩ := step_create hstep
    have hiff := kept_create (h.pop (s.creating.eraseIdx i)) hs.kept hcreate
    constructor
    · intro ht fd' hfd'
      obtain rfl : fd = fd' := Option.some.inj (hfd.symm.trans hfd')
      exact hiff.mp ht.kept
    · exact fun hC => hbooks.oneCtx (hiff.mpr (hC fd hfd))
  | setTimeout ctx type v =>
    cases hstep
    exact iff_of_true ⟨hs.agree, hs.kept⟩ trivial
  | setUserNonblock ctx v =>
    cases hstep
    exact iff_of_true ⟨hs.agree, hs.kept⟩ trivial

/-- **One `FdCtx` for each descriptor.**  In a run of calls of `get`, all calls that have
returned an object for a descriptor returned the same one, and what was put into `m_datas` is
still there, in every state, exactly if each creation finds no object in its entry and its
`resize` cuts off no object. -/
theorem oneCtx_iff {as : List Action} {u : State} (h : exec step init as = some u) :
    Throughout step OneCtx init as ↔ Along step CreatesOnce init as :=
  throughout_iff_along (A := fun _ _ => True) (fun s a t hs _ => books_step s a t hs)
    (fun s a t hs hone _ => oneCtx_step s a t hs hone) books_init
    (books_init.oneCtx fun _ _ hc => absurd hc List.not_mem_nil) along_true h

/-- Two threads look descriptor 3 up before one of them creates its object. -/
def raced : List Action :=
  [.lookup 3 true, .lookup 3 true, .create 0 (some true), .create 0 (some true)]

/-- One thread creates, another one finds. -/
def created : List Action := [.lookup 3 true, .create 0 (some true), .lookup 3 false]

theorem oneCtx_iff_created : (exec step init created).isSome = true
    ∧ (Throughout step OneCtx init created ↔ Along step CreatesOnce init created) := by
  have hrun : (exec step init created).isSome = true := by decide
  exact ⟨hrun, oneCtx_iff (Option.some_get hrun).symm⟩

/-- The two threads have different objects, and the first is no longer in `m_datas`. -/
theorem raced_loses : ¬ Throughout step OneCtx init raced := by
  intro hall
  cases h : exec step init raced with
  | none => exact absurd h (by decide)
  | some u =>
    have hone : OneCtx u := hall.last h
    have hreturned : u.returned = [((3 : Int), some 0), ((3 : Int), some 1)] := by
      have hmap : (exec step init raced).map State.returned
          = some [((3 : Int), some 0), ((3 : Int), some 1)] := by decide
      rw [h] at hmap
      exact Option.some.inj hmap
    have hagree := hone.agree 3 0 1 (by rw [hreturned]; decide) (by rw [hreturned]; decide)
    exact absurd hagree (by decide)

end FdManager

end FiberServer
