import FiberServer.Hook.FdManager
import Mathlib.Tactic.SplitIfs

/-!
# The non-blocking mode of a managed socket

The mode of a socket is kept three times: `O_NONBLOCK` of the descriptor in the kernel, which is
to be set at all times, `m_sysNonblock`, and `m_userNonblock`, which is what the user has asked
for.  The hooked `fcntl` hides the first behind the last; the hooked `ioctl` hands the value of
the user on to the kernel.

* `managed_iff`: the kernel's flag stays set and the user's mode is what `F_GETFL` reports, in
  exactly the runs that begin with a new `FdCtx` (or one that happens to fit) and have no
  `ioctl(FIONBIO)` of the value 0.
-/

namespace FiberServer

namespace Nonblock

open Transition

open FdManager (FdCtx)

def O_NONBLOCK : BitVec 32 := 0o4000

/-- `flags & O_NONBLOCK` -/
def nonblock (flags : BitVec 32) : Bool := flags &&& O_NONBLOCK ≠ 0

/-- The flags that `F_SETFL` can change: `O_APPEND`, `O_NONBLOCK`, `O_ASYNC`, `O_DIRECT` and
`O_NOATIME`. -/
def SETFL_MASK : BitVec 32 := 0o2000 ||| O_NONBLOCK ||| 0o20000 ||| 0o40000 ||| 0o1000000

structure State where
  /-- `m_datas[fd]` -/
  ctx : Option FdCtx
  /-- the flags of the descriptor in the kernel -/
  flags : BitVec 32
  /-- the mode that the user has asked for last -/
  asked : Bool
  deriving DecidableEq, Repr

namespace State

/-- `fcntl_f(fd, F_SETFL, arg)`; the kernel refuses some flags. -/
def fcntl_f (s : State) (arg : BitVec 32) (refused : Bool) : State :=
  if refused then s else { s with flags := (s.flags &&& ~~~SETFL_MASK) ||| (arg &&& SETFL_MASK) }

/-- `ioctl_f(d, FIONBIO, arg)` -/
def ioctl_f (s : State) (value : BitVec 32) : State :=
  { s with flags := if value = 0 then s.flags &&& ~~~O_NONBLOCK else s.flags ||| O_NONBLOCK }

/-- The `FdCtx` that the hooked functions go by. -/
def managed (s : State) : Option FdCtx := s.ctx.filter fun ctx => !ctx.m_isClosed && ctx.m_isSocket

def setUserNonblock (s : State) (v : Bool) : State :=
  { s with ctx := s.ctx.map fun ctx => ctx.setUserNonblock v }

/-- `FdMgr::GetInstance()->get(fd, true)`; a new `FdCtx` makes the descriptor non-blocking. -/
def register (s : State) (fd : Nat) : State :=
  match s.ctx with
  | some _ => s
  | none =>
    let s := { s with ctx := some (.make fd (some true)) }
    if nonblock s.flags then s else s.fcntl_f (s.flags ||| O_NONBLOCK) false

/-- `fcntl(fd, F_SETFL, arg)` -/
def setfl (s : State) (arg : BitVec 32) (refused : Bool) : State :=
  let s := { s with asked := nonblock arg }
  match s.managed with
  | none => s.fcntl_f arg refused
  | some ctx =>
    let s := s.setUserNonblock (nonblock arg)
    let arg := if ctx.m_sysNonblock then arg ||| O_NONBLOCK else arg &&& ~~~O_NONBLOCK
    s.fcntl_f arg refused

/-- What `fcntl(fd, F_GETFL)` returns. -/
def getfl (s : State) : BitVec 32 :=
  match s.managed with
  | none => s.flags
  | some ctx => if ctx.m_userNonblock then s.flags ||| O_NONBLOCK else s.flags &&& ~~~O_NONBLOCK

/-- `ioctl(d, FIONBIO, &value)` -/
def ioctl (s : State) (value : BitVec 32) : State :=
  let user_nonblock := value ≠ 0
  let s := { s with asked := user_nonblock }
  match s.managed with
  | none => s.ioctl_f value
  | some _ => (s.setUserNonblock user_nonblock).ioctl_f value

end State

inductive Creation
  | socket
  | accept
  deriving DecidableEq, Repr

/-- A socket that was created by the hooked `socket` or `accept`, which has got the descriptor
`fd` with some flags; `stale` is what an earlier descriptor of the number has left in
`m_datas`. -/
def create (how : Creation) (fd : Nat) (flags : BitVec 32) (stale : Option FdCtx) : State :=
  let s : State := { ctx := stale, flags := flags, asked := false }
  match how with
  | .socket => s.register fd
  | .accept => if fd > 0 then s.register fd else s

inductive Action
  | setfl (arg : BitVec 32) (refused : Bool)
  | getfl
  | ioctl (value : BitVec 32)
  deriving DecidableEq, Repr

def step (s : State) : Action → Option State
  | .setfl arg refused => some (s.setfl arg refused)
  | .getfl => some s
  | .ioctl value => some (s.ioctl value)

/-- `do_io` does not block a thread, and the user sees the mode that was asked for. -/
def Managed (s : State) : Prop :=
  nonblock s.flags = true
    ∧ ∃ ctx, s.ctx = some ctx ∧ ctx.m_userNonblock = s.asked
      ∧ nonblock s.getfl = ctx.m_userNonblock

/-- The socket begins with a new `FdCtx`, or with one that fits. -/
def Fresh (how : Creation) (fd : Nat) (flags : BitVec 32) : Option FdCtx → Prop
  | none => how = .accept → fd ≠ 0
  | some ctx => ctx.m_isSocket = true ∧ ctx.m_userNonblock = false ∧ nonblock flags = true

def KeepsNonblock : Action → Prop
  | .ioctl value => value ≠ 0
  | _ => True

/-- Every `FdCtx`: `m_sysNonblock` is set for sockets, and nothing sets `m_isClosed`. -/
def Formed (ctx : FdCtx) : Prop := ctx.m_sysNonblock = ctx.m_isSocket ∧ ctx.m_isClosed = false

theorem formed_make (fd : Nat) (fd_stat : Option Bool) : Formed (.make fd fd_stat) := ⟨rfl, rfl⟩

/-! ### One flag among others -/

theorem nonblock_eq (flags : BitVec 32) : nonblock flags = flags.getLsbD 11 := by
  have hflag : O_NONBLOCK = BitVec.twoPow 32 11 := by decide
  rw [nonblock, hflag, BitVec.and_twoPow]
  cases flags.getLsbD 11 <;> decide

theorem nonblock_or (flags : BitVec 32) : nonblock (flags ||| O_NONBLOCK) = true := by
  have hflag : O_NONBLOCK.getLsbD 11 = true := by decide
  rw [nonblock_eq, BitVec.getLsbD_or, hflag, Bool.or_true]

theorem nonblock_and_not (flags : BitVec 32) : nonblock (flags &&& ~~~O_NONBLOCK) = false := by
  have hflag : (~~~O_NONBLOCK).getLsbD 11 = false := by decide
  rw [nonblock_eq, BitVec.getLsbD_and, hflag, Bool.and_false]

theorem nonblock_setfl (flags arg : BitVec 32) :
    nonblock ((flags &&& ~~~SETFL_MASK) ||| (arg &&& SETFL_MASK)) = nonblock arg := by
  have hmask : SETFL_MASK.getLsbD 11 = true := by decide
  have hmask' : (~~~SETFL_MASK).getLsbD 11 = false := by decide
  rw [nonblock_eq, BitVec.getLsbD_or, BitVec.getLsbD_and, BitVec.getLsbD_and, hmask, hmask',
    Bool.and_false, Bool.and_true, Bool.false_or, nonblock_eq]

/-! ### The three copies -/

/-- A socket with an `FdCtx` for it. -/
structure Inv (s : State) (ctx : FdCtx) : Prop where
  entry : s.ctx = some ctx
  socket : ctx.m_isSocket = true
  system : ctx.m_sysNonblock = true
  opened : ctx.m_isClosed = false

theorem Inv.managed {s : State} {ctx : FdCtx} (h : Inv s ctx) : s.managed = some ctx := by
  rw [State.managed, h.entry, Option.filter_some, h.opened, h.socket]
  rfl

theorem Inv.getfl {s : State} {ctx : FdCtx} (h : Inv s ctx) :
    nonblock s.getfl = ctx.m_userNonblock := by
  rw [State.getfl, h.managed]
  simp only
  cases ctx.m_userNonblock with
  | true => exact nonblock_or _
  | false => exact nonblock_and_not _

theorem Inv.managed_flags {s : State} {ctx : FdCtx} (h : Inv s ctx) :
    Managed s ↔ nonblock s.flags = true ∧ ctx.m_userNonblock = s.asked := by
  constructor
  · rintro ⟨hflags, ctx', hctx', hasked, -⟩
    obtain rfl : ctx = ctx' := Option.some.inj (h.entry.symm.trans hctx')
    exact ⟨hflags, hasked⟩
  · rintro ⟨hflags, hasked⟩
    exact ⟨hflags, ctx, h.entry, hasked, h.getfl⟩

/-- The flags that the kernel has after `F_SETFL`. -/
theorem nonblock_fcntl_f (s : State) (arg : BitVec 32) (refused : Bool) :
    nonblock (s.fcntl_f arg refused).flags
      = if refused then nonblock s.flags else nonblock arg := by
  rw [State.fcntl_f]
  cases refused with
  | true => rfl
  | false => exact nonblock_setfl _ _

theorem nonblock_ioctl_f (s : State) (value : BitVec 32) :
    nonblock (s.ioctl_f value).flags = decide (value ≠ 0) := by
  show nonblock (if value = 0 then s.flags &&& ~~~O_NONBLOCK else s.flags ||| O_NONBLOCK) = _
  by_cases hvalue : value = 0
  · rw [if_pos hvalue, nonblock_and_not, hvalue]
    rfl
  · rw [if_neg hvalue, nonblock_or, decide_eq_true hvalue]

theorem fcntl_f_ctx (s : State) (arg : BitVec 32) (refused : Bool) :
    (s.fcntl_f arg refused).ctx = s.ctx ∧ (s.fcntl_f arg refused).asked = s.asked := by
  rw [State.fcntl_f]
  cases refused <;> exact ⟨rfl, rfl⟩

/-- **`F_SETFL`** remembers what the user asks for and keeps the kernel's flag. -/
theorem setfl_spec {s : State} {ctx : FdCtx} (h : Inv s ctx) (arg : BitVec 32) (refused : Bool) :
    Inv (s.setfl arg refused) (ctx.setUserNonblock (nonblock arg))
      ∧ (s.setfl arg refused).asked = nonblock arg
      ∧ (nonblock s.flags = true → nonblock (s.setfl arg refused).flags = true) := by
  have hmanaged : ({ s with asked := nonblock arg } : State).managed = some ctx := h.managed
  rw [State.setfl, hmanaged]
  simp only [h.system, if_true]
  obtain ⟨hctx, hasked⟩ := fcntl_f_ctx
    (({ s with asked := nonblock arg } : State).setUserNonblock (nonblock arg))
    (arg ||| O_NONBLOCK) refused
  refine ⟨⟨?_, h.socket, h.system, h.opened⟩, hasked, fun hflags => ?_⟩
  · rw [hctx]
    show s.ctx.map _ = _
    rw [h.entry, Option.map_some]
  · rw [nonblock_fcntl_f, nonblock_or]
    show (if refused then nonblock s.flags else true) = true
    rw [hflags, ite_self]

/-- **`ioctl(FIONBIO)`** remembers what the user asks for and lets the kernel follow it. -/
theorem ioctl_spec {s : State} {ctx : FdCtx} (h : Inv s ctx) (value : BitVec 32) :
    Inv (s.ioctl value) (ctx.setUserNonblock (decide (value ≠ 0)))
      ∧ (s.ioctl value).asked = decide (value ≠ 0)
      ∧ nonblock (s.ioctl value).flags = decide (value ≠ 0) := by
  have hmanaged : ({ s with asked := decide (value ≠ 0) } : State).managed = some ctx := h.managed
  rw [State.ioctl]
  simp only [hmanaged]
  refine ⟨⟨?_, h.socket, h.system, h.opened⟩, rfl, nonblock_ioctl_f _ value⟩
  show s.ctx.map _ = _
  rw [h.entry, Option.map_some]

/-! ### Runs -/

theorem inv_step (s : State) (a : Action) (t : State) (h : ∃ ctx, Inv s ctx)
    (hstep : step s a = some t) : ∃ ctx, Inv t ctx := by
  obtain ⟨ctx, h⟩ := h
  cases a with
  | setfl arg refused =>
    cases hstep
    exact ⟨_, (setfl_spec h arg refused).1⟩
  | getfl =>
    cases hstep
    exact ⟨ctx, h⟩
  | ioctl value =>
    cases hstep
    exact ⟨_, (ioctl_spec h value).1⟩

theorem managed_step (s : State) (a : Action) (t : State) (h : ∃ ctx, Inv s ctx) (hs : Managed s)
    (hstep : step s a = some t) : Managed t ↔ KeepsNonblock a := by
  obtain ⟨ctx, h⟩ := h
  cases a with
  | setfl arg refused =>
    cases hstep
    obtain ⟨hinv, hasked, hflags⟩ := setfl_spec h arg refused
    refine iff_of_true (hinv.managed_flags.mpr ⟨hflags hs.1, ?_⟩) trivial
    rw [hasked]
    rfl
  | getfl =>
    cases hstep
    exact iff_of_true hs trivial
  | ioctl value =>
    cases hstep
    obtain ⟨hinv, hasked, hflags⟩ := ioctl_spec h value
    rw [hinv.managed_flags, hasked, hflags, decide_eq_true_eq]
    exact and_iff_left rfl

/-- The registration of a descriptor that has no `FdCtx`. -/
theorem register_spec (fd : Nat) (flags : BitVec 32) :
    let s : State := State.register { ctx := none, flags := flags, asked := false } fd
    Inv s (.make fd (some true)) ∧ s.asked = false ∧ nonblock s.flags = true := by
  simp only [State.register]
  split_ifs with hflags
  · exact ⟨⟨rfl, rfl, rfl, rfl⟩, rfl, hflags⟩
  · refine ⟨⟨rfl, rfl, rfl, rfl⟩, rfl, ?_⟩
    rw [nonblock_fcntl_f, if_neg Bool.false_ne_true, nonblock_or]

/-- A socket with an `FdCtx` that an earlier descriptor has left. -/
theorem create_some (how : Creation) (fd : Nat) (flags : BitVec 32) (ctx : FdCtx) :
    create how fd flags (some ctx) = { ctx := some ctx, flags := flags, asked := false } := by
  cases how with
  | socket => rfl
  | accept =>
    rw [create]
    split_ifs <;> rfl

/-- **The creation of a socket.** -/
theorem managed_create (how : Creation) (fd : Nat) (flags : BitVec 32) {stale : Option FdCtx}
    (hstale : ∀ ctx, stale = some ctx → Formed ctx) :
    (Managed (create how fd flags stale) ↔ Fresh how fd flags stale)
      ∧ (Fresh how fd flags stale → ∃ ctx, Inv (create how fd flags stale) ctx) := by
  cases stale with
  | some ctx =>
    obtain ⟨hsystem, hopened⟩ := hstale ctx rfl
    rw [create_some]
    have hinv : ctx.m_isSocket = true →
        Inv { ctx := some ctx, flags := flags, asked := false } ctx :=
      fun hsocket => ⟨rfl, hsocket, hsystem.trans hsocket, hopened⟩
    refine ⟨⟨?_, fun ⟨hsocket, huser, hflags⟩ => ?_⟩, fun hfresh => ⟨ctx, hinv hfresh.1⟩⟩
    · rintro ⟨hflags, ctx', hctx', hasked, hgetfl⟩
      obtain rfl : ctx = ctx' := Option.some.inj hctx'
      refine ⟨?_, hasked, hflags⟩
      -- of no socket `F_GETFL` reports what the kernel has
      by_contra hsocket
      rw [Bool.not_eq_true] at hsocket
      have hmanaged :
          (State.managed { ctx := some ctx, flags := flags, asked := false }) = none := by
        rw [State.managed, Option.filter_some, hsocket, Bool.and_false]
        rfl
      rw [State.getfl, hmanaged, hasked] at hgetfl
      exact nomatch hflags.symm.trans hgetfl
    · exact (hinv hsocket).managed_flags.mpr ⟨hflags, huser⟩
  | none =>
    have hregister := register_spec fd flags
    simp only at hregister
    obtain ⟨hinv, hasked, hflags⟩ := hregister
    have hmanaged := hinv.managed_flags.mpr ⟨hflags, hasked.symm⟩
    cases how with
    | socket => exact ⟨iff_of_true hmanaged (fun h => nomatch h), fun _ => ⟨_, hinv⟩⟩
    | accept =>
      rw [create]
      split_ifs with hfd
      · exact ⟨iff_of_true hmanaged fun _ => Nat.ne_of_gt hfd, fun _ => ⟨_, hinv⟩⟩
      · refine ⟨iff_of_false ?_ fun hfresh => hfd (Nat.pos_of_ne_zero (hfresh rfl)),
          fun hfresh => absurd (Nat.pos_of_ne_zero (hfresh rfl)) hfd⟩
        rintro ⟨-, ctx, hctx, -⟩
        exact nomatch hctx

theorem exec_possible (as : List Action) (s : State) : ∃ u, exec step s as = some u := by
  induction as generalizing s with
  | nil => exact ⟨s, rfl⟩
  | cons a as ih => cases a <;> exact ih _

theorem forall_of_along (as : List Action) (s : State)
    (h : Along step (fun _ a => KeepsNonblock a) s as) : ∀ a ∈ as, KeepsNonblock a := by
  induction as generalizing s with
  | nil => exact fun a ha => absurd ha List.not_mem_nil
  | cons b as ih =>
    intro a ha
    rcases List.mem_cons.mp ha with rfl | ha
    · exact h.1
    · obtain ⟨t, ht⟩ : ∃ t, step s b = some t := by cases b <;> exact ⟨_, rfl⟩
      exact ih t (h.2 t ht) a ha

/-- **The non-blocking mode of a socket** that the hooked `socket` or `accept` has created, over
every sequence of `fcntl` and `ioctl(FIONBIO)` calls: the kernel's flag is always set, the user's
flag is what the user has asked for last and `F_GETFL` reports it, exactly if the socket begins
with an `FdCtx` that fits and no value of an `ioctl` is 0. -/
theorem managed_iff (how : Creation) (fd : Nat) (flags : BitVec 32) {stale : Option FdCtx}
    (hstale : ∀ ctx, stale = some ctx → Formed ctx) (as : List Action) :
    Throughout step Managed (create how fd flags stale) as
      ↔ Fresh how fd flags stale ∧ ∀ a ∈ as, KeepsNonblock a := by
  obtain ⟨hcreate, hinv⟩ := managed_create how fd flags hstale
  have hiff : (∃ ctx, Inv (create how fd flags stale) ctx) → Managed (create how fd flags stale) →
      (Throughout step Managed (create how fd flags stale) as ↔ ∀ a ∈ as, KeepsNonblock a) := by
    intro hctx hmanaged
    obtain ⟨u, hu⟩ := exec_possible as (create how fd flags stale)
    rw [throughout_iff_along (A := fun _ _ => True) (fun s a t hs _ => inv_step s a t hs)
      (fun s a t hs hm _ => managed_step s a t hs hm) hctx hmanaged along_true hu]
    exact ⟨forall_of_along as _, Along.of_forall⟩
  constructor
  · intro hall
    have hfresh := hcreate.mp hall.head
    exact ⟨hfresh, (hiff (hinv hfresh) hall.head).mp hall⟩
  · rintro ⟨hfresh, hkeeps⟩
    exact (hiff (hinv hfresh) (hcreate.mpr hfresh)).mpr hkeeps

/-- A socket whose user sets the mode by `fcntl` and clears it by `ioctl`, for good values. -/
theorem managed_iff_used :
    Throughout step Managed (create .socket 5 2 none) [.setfl O_NONBLOCK false, .getfl, .ioctl 1]
      ↔ Fresh .socket 5 2 none
        ∧ ∀ a ∈ [Action.setfl O_NONBLOCK false, .getfl, .ioctl 1], KeepsNonblock a :=
  managed_iff .socket 5 2 (by intro _ h; exact nomatch h) _

/-- After `ioctl(FIONBIO)` of 0 on a new socket the kernel's flag is clear. -/
theorem not_managed_fionbio :
    ¬ Throughout step Managed (create .socket 5 2 none) [.ioctl 0] := by
  intro hall
  have hflags := (hall.2 _ rfl).1
  exact absurd hflags (by decide)

end Nonblock

end FiberServer
