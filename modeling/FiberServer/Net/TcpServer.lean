import FiberServer.Library.Tally
import FiberServer.Library.Transition
import Mathlib.Data.List.Perm.Basic
import Mathlib.Data.List.Range
import Mathlib.Data.List.ReduceOption

/-!
# The life of a `TcpServer`

`start` schedules one `startAccept` for each socket of `m_socks`; `stop` sets `m_isStop` and
schedules a lambda that closes the sockets of `m_socks`.  `bind` clears `m_socks` when an address
fails.  A `shared_ptr` keeps a socket open as long as `m_socks`, a queued `startAccept` or a running
one has it.

* `Reached`: the lambda of `stop` reaches every socket that somebody still accepts on.
* `stop_final`: a run keeps it exactly if no `bind` fails while an open socket is accepted on, and
  then nobody is accepted after the lambda until the next `bind`.
* `start_serves_iff`: after `start` every socket keeps its one accept loop until `stop` is called,
  exactly if no lambda of an earlier `stop` was left.
-/

namespace FiberServer

namespace TcpServer

open Transition

/-- What `m_acceptWorker` has to run. -/
inductive Task
  | startAccept (sock : Nat)
  /-- the lambda of `stop` -/
  | close
  deriving DecidableEq, Repr

/-- Where a run of `startAccept` is. -/
inductive Loop
  /-- before the test of `m_isStop` -/
  | test (sock : Nat)
  /-- in `::accept(m_sock, …)`, for the `m_sock` at the beginning of the call -/
  | accept (sock : Nat) (m_sock : Option Nat)
  | finished
  deriving DecidableEq, Repr

/-- The server, the `m_sock` of every `Socket` that was put into `m_socks` (`none` for -1), and the
clients that were handed to `m_ioWorker`. -/
structure Server where
  m_isStop : Bool
  m_socks : List Nat
  sockets : List (Option Nat)
  tasks : List Task
  loops : List Loop
  clients : List Nat
  deriving DecidableEq, Repr

/-- `TcpServer::TcpServer` -/
def init : Server where
  m_isStop := true
  m_socks := []
  sockets := []
  tasks := []
  loops := []
  clients := []

/-- The socket of a run of `startAccept`. -/
def Loop.sock : Loop → Option Nat
  | test sock => some sock
  | accept sock _ => some sock
  | finished => none

namespace Server

/-- `sock->m_sock`, `none` for -1. -/
def m_sock (s : Server) (sock : Nat) : Option Nat := s.sockets[sock]?.join

/-- How many runs of `startAccept` there are or will be on a socket. -/
def acceptors (s : Server) (sock : Nat) : Nat :=
  s.tasks.count (.startAccept sock) + s.loops.countP fun loop => loop.sock = some sock

/-- Somebody has a `shared_ptr` to the socket. -/
def owned (s : Server) (sock : Nat) : Bool := sock ∈ s.m_socks || s.acceptors sock ≠ 0

/-- `Socket::~Socket` of the sockets that nobody has any more. -/
def release (s : Server) : Server :=
  { s with sockets := s.sockets.mapIdx fun sock m_sock => if s.owned sock then m_sock else none }

/-- One address of `bind`: the number of the socket that is bound and listens, or the failure. -/
def bindAddr (s : Server) (result : Option Nat) : Server :=
  match result with
  | some fd =>
    { s with
      sockets := s.sockets ++ [some fd]
      m_socks := s.m_socks ++ [s.sockets.length] }
  | none => s

/-- `TcpServer::bind`, for a `fails` that has some addresses when it is called, and the results for
the addresses. -/
def bind (s : Server) (fails : Nat) (results : List (Option Nat)) : Server :=
  let fails := fails + results.count none
  let s := results.foldl bindAddr s
  if fails ≠ 0 then { s with m_socks := [] }.release else s

/-- `TcpServer::start` -/
def start (s : Server) : Server :=
  if s.m_isStop then
    { s with m_isStop := false, tasks := s.tasks ++ s.m_socks.map .startAccept }
  else s

/-- `TcpServer::stop` -/
def stop (s : Server) : Server := { s with m_isStop := true, tasks := s.tasks ++ [.close] }

/-- The lambda of `stop`. -/
def close (s : Server) : Server :=
  { s with
    sockets := s.sockets.mapIdx fun sock m_sock => if sock ∈ s.m_socks then none else m_sock
    m_socks := [] }

def takeTask (s : Server) (i : Nat) : Server := { s with tasks := s.tasks.eraseIdx i }

/-- The beginning of `TcpServer::startAccept`. -/
def startAccept (s : Server) (sock : Nat) : Server := { s with loops := s.loops ++ [.test sock] }

def setLoop (s : Server) (k : Nat) (loop : Loop) : Server := { s with loops := s.loops.set k loop }

end Server

inductive Action
  | bind (fails : Nat) (results : List (Option Nat))
  | start
  | stop
  /-- a worker of `m_acceptWorker` takes a task -/
  | take (i : Nat)
  /-- a `startAccept` reads `m_isStop` -/
  | test (k : Nat)
  /-- its `accept` returns a client, or nothing -/
  | accept (k : Nat) (client : Option Nat)
  deriving DecidableEq, Repr

/-- The kernel gives a socket a number that is not in use, and it hands out clients of a listening
socket only. -/
def step (s : Server) : Action → Option Server
  | .bind fails results =>
    if (results.reduceOption).Nodup ∧ ∀ fd ∈ results.reduceOption, some fd ∉ s.sockets then
      some (s.bind fails results)
    else none
  | .start => some s.start
  | .stop => some s.stop
  | .take i =>
    match s.tasks[i]? with
    | some (.startAccept sock) => some ((s.takeTask i).startAccept sock)
    | some .close => some (s.takeTask i).close
    | none => none
  | .test k =>
    match s.loops[k]? with
    | some (.test sock) =>
      if s.m_isStop then some (s.setLoop k .finished).release
      else some (s.setLoop k (.accept sock (s.m_sock sock)))
    | _ => none
  | .accept k client =>
    match s.loops[k]? with
    | some (.accept sock m_sock) =>
      match client with
      | some c =>
        if m_sock ≠ none ∧ m_sock ∈ s.sockets then
          some ({ s with clients := s.clients ++ [c] }.setLoop k (.test sock))
        else none
      | none => some (s.setLoop k (.test sock))
    | _ => none

/-! ### What the operations do -/

namespace Server

theorem m_sock_release (s : Server) (i : Nat) :
    s.release.m_sock i = if s.owned i then s.m_sock i else none := by
  rw [m_sock, release, List.getElem?_mapIdx, m_sock]
  cases s.sockets[i]? with
  | none => simp
  | some m_sock => rfl

theorem m_sock_close (s : Server) (i : Nat) :
    s.close.m_sock i = if i ∈ s.m_socks then none else s.m_sock i := by
  rw [m_sock, close, List.getElem?_mapIdx, m_sock]
  cases s.sockets[i]? with
  | none => simp
  | some m_sock => rfl

theorem lt_of_m_sock {s : Server} {i : Nat} (h : s.m_sock i ≠ none) : i < s.sockets.length := by
  by_contra hi
  rw [m_sock, List.getElem?_eq_none (by omega)] at h
  exact h rfl

/-- The addresses one after the other. -/
theorem foldl_bindAddr (results : List (Option Nat)) : ∀ s : Server,
    results.foldl bindAddr s = { s with
      sockets := s.sockets ++ results.reduceOption.map some
      m_socks := s.m_socks ++ List.range' s.sockets.length results.reduceOption.length } := by
  induction results with
  | nil =>
    intro s
    simp
  | cons result results ih =>
    intro s
    rw [List.foldl_cons, ih]
    cases result with
    | none => simp [bindAddr]
    | some fd => simp [bindAddr, List.range'_succ]

theorem m_sock_foldl_bindAddr {s : Server} {i : Nat} (results : List (Option Nat))
    (h : i < s.sockets.length) : (results.foldl bindAddr s).m_sock i = s.m_sock i := by
  rw [foldl_bindAddr, m_sock, m_sock, List.getElem?_append_left h]

@[simp] theorem acceptors_foldl_bindAddr (s : Server) (results : List (Option Nat)) (i : Nat) :
    (results.foldl bindAddr s).acceptors i = s.acceptors i := by
  rw [foldl_bindAddr]
  rfl

@[simp] theorem acceptors_release (s : Server) (i : Nat) : s.release.acceptors i = s.acceptors i :=
  rfl

@[simp] theorem owned_release (s : Server) (i : Nat) : s.release.owned i = s.owned i := rfl

theorem acceptors_bind (s : Server) (fails : Nat) (results : List (Option Nat)) (i : Nat) :
    (s.bind fails results).acceptors i = s.acceptors i := by
  rw [bind]
  split
  · exact acceptors_foldl_bindAddr s results i
  · exact acceptors_foldl_bindAddr s results i

theorem acceptors_start {s : Server} (h : s.m_isStop = true) (i : Nat) :
    s.start.acceptors i = s.acceptors i + s.m_socks.count i := by
  have hinj : Function.Injective Task.startAccept := fun _ _ heq => Task.startAccept.inj heq
  rw [start, if_pos h, acceptors, acceptors, List.count_append,
    List.count_map_of_injective _ _ hinj]
  exact Nat.add_right_comm _ _ _

theorem acceptors_stop (s : Server) (i : Nat) : s.stop.acceptors i = s.acceptors i := by
  rw [stop, acceptors, acceptors, List.count_append]
  rfl

/-- A task that is taken, or its run. -/
theorem acceptors_takeTask {s : Server} {j : Nat} {task : Task} (h : s.tasks[j]? = some task)
    (i : Nat) :
    (s.takeTask j).acceptors i + (if task = .startAccept i then 1 else 0) = s.acceptors i := by
  obtain ⟨hj, hget⟩ := List.getElem?_eq_some_iff.mp h
  have hcount := (List.getElem_cons_eraseIdx_perm hj).count_eq (.startAccept i)
  rw [hget, List.count_cons] at hcount
  simp only [beq_iff_eq] at hcount
  rw [acceptors, acceptors, ← hcount, takeTask]
  exact Nat.add_right_comm _ _ _

theorem acceptors_startAccept (s : Server) (sock i : Nat) :
    (s.startAccept sock).acceptors i = s.acceptors i + if sock = i then 1 else 0 := by
  rw [acceptors, acceptors, startAccept, List.countP_append, List.countP_singleton]
  simp [Loop.sock, Nat.add_assoc]

theorem acceptors_setLoop {s : Server} {k : Nat} {loop : Loop} (new : Loop)
    (h : s.loops[k]? = some loop) (i : Nat) :
    (s.setLoop k new).acceptors i + (if loop.sock = some i then 1 else 0)
      = s.acceptors i + if new.sock = some i then 1 else 0 := by
  obtain ⟨hk, hget⟩ := List.getElem?_eq_some_iff.mp h
  have hset := (List.set_perm_cons_eraseIdx hk new).countP_eq fun l => l.sock = some i
  have hold := (List.getElem_cons_eraseIdx_perm hk).countP_eq fun l => l.sock = some i
  rw [List.countP_cons] at hset hold
  rw [hget] at hold
  simp only [decide_eq_true_eq] at hset hold
  rw [setLoop, acceptors, acceptors, ← hold]
  simp only [hset]
  omega

theorem acceptors_setLoop_eq {s : Server} {k : Nat} {loop : Loop} (new : Loop)
    (h : s.loops[k]? = some loop) (hnew : new.sock = loop.sock) (i : Nat) :
    (s.setLoop k new).acceptors i = s.acceptors i := by
  have hset := acceptors_setLoop new h i
  rw [hnew] at hset
  exact Nat.add_right_cancel hset

theorem acceptors_finished_le {s : Server} {k : Nat} {loop : Loop} (h : s.loops[k]? = some loop)
    (i : Nat) : (s.setLoop k .finished).acceptors i ≤ s.acceptors i := by
  have hset := acceptors_setLoop .finished h i
  simp only [Loop.sock, reduceCtorEq, if_false] at hset
  omega

theorem owned_iff {s : Server} {i : Nat} :
    s.owned i = true ↔ i ∈ s.m_socks ∨ s.acceptors i ≠ 0 := by
  simp [owned]

end Server

/-! ### What every run keeps -/

/-- The sockets of `m_socks` are open and different. -/
structure Kept (s : Server) : Prop where
  made : ∀ i, s.owned i = true → i < s.sockets.length
  listening : ∀ i ∈ s.m_socks, s.m_sock i ≠ none
  nodup : s.m_socks.Nodup

/-- Somebody has every open socket. -/
def Released (s : Server) : Prop := ∀ i, s.m_sock i ≠ none → s.owned i = true

/-- A stopped server accepts on no socket of `m_socks`, once the lambda of `stop` is gone. -/
def Unserved (s : Server) : Prop :=
  s.m_isStop = true → .close ∉ s.tasks → ∀ i ∈ s.m_socks, s.acceptors i = 0

section

variable {s t : Server}

theorem Kept.of_le (h : Kept s) (hsocks : t.m_socks = s.m_socks) (hsockets : t.sockets = s.sockets)
    (hle : ∀ i, t.acceptors i ≤ s.acceptors i) : Kept t := by
  refine ⟨fun i hi => ?_, fun i hi => ?_, ?_⟩
  · rw [hsockets]
    refine h.made i (Server.owned_iff.mpr ?_)
    rcases Server.owned_iff.mp hi with hi | hi
    · exact Or.inl (hsocks ▸ hi)
    · exact Or.inr fun h0 => hi (Nat.le_zero.mp (h0 ▸ hle i))
  · rw [hsocks] at hi
    rw [Server.m_sock, hsockets]
    exact h.listening i hi
  · rw [hsocks]
    exact h.nodup

theorem Released.of_eq (h : Released s) (hsocks : t.m_socks = s.m_socks)
    (hsockets : t.sockets = s.sockets) (heq : ∀ i, t.acceptors i = s.acceptors i) :
    Released t := by
  intro i hi
  rw [Server.m_sock, hsockets] at hi
  rw [Server.owned_iff, hsocks, heq i]
  exact Server.owned_iff.mp (h i hi)

theorem Unserved.of_le (h : Unserved s) (hsocks : t.m_socks = s.m_socks)
    (hle : ∀ i, t.acceptors i ≤ s.acceptors i) (hstop : t.m_isStop = true → s.m_isStop = true)
    (hclose : .close ∉ t.tasks → .close ∉ s.tasks) : Unserved t := by
  intro ht hnone i hi
  rw [hsocks] at hi
  have hzero := h (hstop ht) (hclose hnone) i hi
  exact Nat.le_zero.mp (hzero ▸ hle i)

/-- A destructor closes what nobody has. -/
theorem Kept.release (h : Kept s) : Kept s.release := by
  refine ⟨fun i hi => ?_, fun i hi => ?_, h.nodup⟩
  · rw [Server.release, List.length_mapIdx]
    exact h.made i hi
  · have howned : s.owned i = true := Server.owned_iff.mpr (Or.inl hi)
    rw [Server.m_sock_release, if_pos howned]
    exact h.listening i hi

theorem released_release (s : Server) : Released s.release := by
  intro i hi
  rw [Server.m_sock_release] at hi
  rw [Server.owned_release]
  by_contra hn
  rw [if_neg hn] at hi
  exact hi rfl

/-! ### `bind` -/

theorem Kept.foldl_bindAddr (h : Kept s) (results : List (Option Nat)) :
    Kept (results.foldl Server.bindAddr s) := by
  have hold : ∀ i ∈ s.m_socks, i < s.sockets.length :=
    fun i hi => h.made i (Server.owned_iff.mpr (Or.inl hi))
  have hacceptors := Server.acceptors_foldl_bindAddr s results
  have hsame := fun i hi => Server.m_sock_foldl_bindAddr (i := i) results (hold i hi)
  rw [Server.foldl_bindAddr] at hacceptors hsame ⊢
  refine ⟨fun i hi => ?_, fun i hi => ?_, ?_⟩
  · simp only [List.length_append, List.length_map]
    rcases Server.owned_iff.mp hi with hi | hi
    · rcases List.mem_append.mp hi with hi | hi
      · have := hold i hi
        omega
      · exact (List.mem_range'_1.mp hi).2
    · rw [hacceptors] at hi
      have := h.made i (Server.owned_iff.mpr (Or.inr hi))
      omega
  · rcases List.mem_append.mp hi with hi | hi
    · rw [hsame i hi]
      exact h.listening i hi
    · obtain ⟨hge, hlt⟩ := List.mem_range'_1.mp hi
      rw [Server.m_sock, List.getElem?_append_right hge, List.getElem?_map,
        List.getElem?_eq_getElem (by omega)]
      simp
  · refine List.nodup_append.mpr ⟨h.nodup, List.nodup_range', ?_⟩
    rintro i hi j hj rfl
    have := hold i hi
    have := (List.mem_range'_1.mp hj).1
    omega

theorem Released.foldl_bindAddr (h : Released s) (results : List (Option Nat)) :
    Released (results.foldl Server.bindAddr s) := by
  intro i hi
  rw [Server.owned_iff, Server.acceptors_foldl_bindAddr]
  have hlt := Server.lt_of_m_sock hi
  by_cases hold : i < s.sockets.length
  · rw [Server.m_sock_foldl_bindAddr results hold] at hi
    rw [Server.foldl_bindAddr]
    exact (Server.owned_iff.mp (h i hi)).imp (fun h => List.mem_append_left _ h) id
  · rw [Server.foldl_bindAddr] at hlt ⊢
    simp only [List.length_append, List.length_map] at hlt
    exact Or.inl (List.mem_append_right _ (List.mem_range'_1.mpr ⟨by omega, hlt⟩))

theorem Unserved.foldl_bindAddr (hkept : Kept s) (h : Unserved s) (results : List (Option Nat)) :
    Unserved (results.foldl Server.bindAddr s) := by
  intro hstop hclose i hi
  rw [Server.acceptors_foldl_bindAddr]
  rw [Server.foldl_bindAddr] at hstop hclose hi
  rcases List.mem_append.mp hi with hi | hi
  · exact h hstop hclose i hi
  · by_contra hn
    have := hkept.made i (Server.owned_iff.mpr (Or.inr hn))
    have := (List.mem_range'_1.mp hi).1
    omega

/-- What every run keeps. -/
structure Inv (s : Server) : Prop where
  kept : Kept s
  released : Released s
  unserved : Unserved s

theorem inv_init : Inv init := by
  refine ⟨⟨fun i hi => ?_, fun i hi => ?_, List.nodup_nil⟩, fun i hi => ?_, fun _ _ i hi => ?_⟩
  · rcases Server.owned_iff.mp hi with hi | hi
    · cases hi
    · exact absurd rfl hi
  · cases hi
  · exact absurd rfl hi
  · cases hi

theorem Inv.bind (h : Inv s) (fails : Nat) (results : List (Option Nat)) :
    Inv (s.bind fails results) := by
  have hkept := h.kept.foldl_bindAddr results
  rw [Server.bind]
  split
  · refine ⟨Kept.release ⟨fun i hi => ?_, fun i hi => ?_, List.nodup_nil⟩, released_release _,
      fun _ _ i hi => ?_⟩
    · refine hkept.made i (Server.owned_iff.mpr (Or.inr ?_))
      exact (Server.owned_iff.mp hi).resolve_left List.not_mem_nil
    · cases hi
    · cases hi
  · exact ⟨hkept, h.released.foldl_bindAddr results, h.unserved.foldl_bindAddr h.kept results⟩

theorem Inv.start (h : Inv s) : Inv s.start := by
  by_cases hstop : s.m_isStop = true
  swap
  · rw [Server.start, if_neg hstop]
    exact h
  have howned : ∀ i, s.start.owned i = true ↔ s.owned i = true := by
    intro i
    have hsocks : s.start.m_socks = s.m_socks := by rw [Server.start, if_pos hstop]
    rw [Server.owned_iff, Server.owned_iff, Server.acceptors_start hstop, hsocks]
    by_cases hi : i ∈ s.m_socks
    · simp [hi]
    · simp [List.count_eq_zero_of_not_mem hi]
  have hsockets : s.start.sockets = s.sockets := by rw [Server.start, if_pos hstop]
  have hsocks : s.start.m_socks = s.m_socks := by rw [Server.start, if_pos hstop]
  refine ⟨⟨fun i hi => ?_, fun i hi => ?_, ?_⟩, fun i hi => ?_, fun hstart => ?_⟩
  · rw [hsockets]
    exact h.kept.made i ((howned i).mp hi)
  · rw [Server.m_sock, hsockets]
    exact h.kept.listening i (hsocks ▸ hi)
  · rw [hsocks]
    exact h.kept.nodup
  · rw [Server.m_sock, hsockets] at hi
    exact (howned i).mpr (h.released i hi)
  · rw [Server.start, if_pos hstop] at hstart
    cases hstart

theorem Inv.stop (h : Inv s) : Inv s.stop := by
  have hle : ∀ i, s.stop.acceptors i ≤ s.acceptors i := fun i => (Server.acceptors_stop s i).le
  refine ⟨h.kept.of_le rfl rfl hle, h.released.of_eq rfl rfl (Server.acceptors_stop s), ?_⟩
  intro _ hclose
  exact absurd (List.mem_append_right _ (List.mem_singleton_self _)) hclose

/-- What a step that changes only tasks and runs keeps. -/
theorem Inv.of_eq (h : Inv s) (hsocks : t.m_socks = s.m_socks) (hsockets : t.sockets = s.sockets)
    (heq : ∀ i, t.acceptors i = s.acceptors i) (hstop : t.m_isStop = true → s.m_isStop = true)
    (hclose : .close ∉ t.tasks → .close ∉ s.tasks) : Inv t :=
  ⟨h.kept.of_le hsocks hsockets fun i => (heq i).le, h.released.of_eq hsocks hsockets heq,
    h.unserved.of_le hsocks (fun i => (heq i).le) hstop hclose⟩

theorem acceptors_taken {j sock : Nat} (h : s.tasks[j]? = some (.startAccept sock)) (i : Nat) :
    ((s.takeTask j).startAccept sock).acceptors i = s.acceptors i := by
  rw [Server.acceptors_startAccept, ← Server.acceptors_takeTask h i]
  simp

theorem Inv.taken {j sock : Nat} (hinv : Inv s) (h : s.tasks[j]? = some (.startAccept sock)) :
    Inv ((s.takeTask j).startAccept sock) := by
  refine hinv.of_eq rfl rfl (acceptors_taken h) id fun hclose hmem => hclose ?_
  obtain ⟨n, hn⟩ := List.getElem?_of_mem hmem
  refine List.mem_eraseIdx_iff_getElem?.mpr ⟨n, ?_, hn⟩
  rintro rfl
  rw [h] at hn
  cases hn

theorem Inv.close {j : Nat} (hinv : Inv s) (h : s.tasks[j]? = some .close) :
    Inv (s.takeTask j).close := by
  have hacceptors : ∀ i, (s.takeTask j).close.acceptors i = s.acceptors i :=
    fun i => Server.acceptors_takeTask h i
  have howned : ∀ i, (s.takeTask j).close.owned i = true → s.owned i = true := by
    intro i hi
    refine Server.owned_iff.mpr (Or.inr ?_)
    rw [← hacceptors i]
    exact (Server.owned_iff.mp hi).resolve_left List.not_mem_nil
  refine ⟨⟨fun i hi => ?_, fun i hi => ?_, List.nodup_nil⟩, fun i hi => ?_, fun _ _ i hi => ?_⟩
  · rw [Server.close, List.length_mapIdx]
    exact hinv.kept.made i (howned i hi)
  · cases hi
  · rw [Server.m_sock_close] at hi
    change (if i ∈ s.m_socks then none else s.m_sock i) ≠ none at hi
    have hnot : i ∉ s.m_socks := fun hmem => hi (if_pos hmem)
    rw [if_neg hnot] at hi
    refine Server.owned_iff.mpr (Or.inr ?_)
    rw [hacceptors i]
    exact (Server.owned_iff.mp (hinv.released i hi)).resolve_left hnot
  · cases hi

theorem Inv.setLoop {k : Nat} {loop new : Loop} (hinv : Inv s) (h : s.loops[k]? = some loop)
    (hnew : new.sock = loop.sock) : Inv (s.setLoop k new) :=
  hinv.of_eq rfl rfl (Server.acceptors_setLoop_eq new h hnew) id id

theorem Inv.finished {k : Nat} {loop : Loop} (hinv : Inv s) (h : s.loops[k]? = some loop) :
    Inv (s.setLoop k .finished).release := by
  have hle := Server.acceptors_finished_le h
  have hkept : Kept (s.setLoop k .finished) := hinv.kept.of_le rfl rfl hle
  have hunserved : Unserved (s.setLoop k .finished) := hinv.unserved.of_le rfl hle id id
  exact ⟨hkept.release, released_release _, hunserved⟩

theorem inv_step {a : Action} (hinv : Inv s) (h : step s a = some t) : Inv t := by
  cases a with
  | bind fails results =>
    rw [step] at h
    split at h
    · cases h
      exact hinv.bind fails results
    · cases h
  | start =>
    cases h
    exact hinv.start
  | stop =>
    cases h
    exact hinv.stop
  | take i =>
    rw [step] at h
    split at h
    next sock htask =>
      cases h
      exact hinv.taken htask
    next htask =>
      cases h
      exact hinv.close htask
    next => cases h
  | test k =>
    rw [step] at h
    split at h
    next sock hloop =>
      split at h
      · cases h
        exact hinv.finished hloop
      · cases h
        exact hinv.setLoop hloop rfl
    next => cases h
  | accept k client =>
    rw [step] at h
    split at h
    next sock m_sock hloop =>
      cases client with
      | some c =>
        simp only at h
        split at h
        · cases h
          have hclient : Inv { s with clients := s.clients ++ [c] } :=
            hinv.of_eq rfl rfl (fun _ => rfl) id id
          exact hclient.setLoop hloop rfl
        · cases h
      | none =>
        cases h
        exact hinv.setLoop hloop rfl
    next => cases h

theorem inv_of_exec {as : List Action} (h : exec step init as = some s) : Inv s :=
  exec_invariant (fun _ _ _ hs h => inv_step hs h) inv_init h

end

/-! ### `stop` -/

/-- The lambda of `stop` would close every open socket that somebody accepts on. -/
def Reached (s : Server) : Prop :=
  ∀ i, s.m_sock i ≠ none → s.acceptors i ≠ 0 → i ∈ s.m_socks

/-- A call of `bind` that fails finds no open socket that somebody accepts on. -/
def Action.safe (s : Server) : Action → Bool
  | .bind fails results =>
    fails + results.count none = 0
      || (List.range s.sockets.length).all fun i => s.m_sock i = none || s.acceptors i = 0
  | _ => true

section

variable {s t : Server}

theorem Reached.of_le (h : Reached s) (hsocks : t.m_socks = s.m_socks)
    (hsockets : t.sockets = s.sockets) (hle : ∀ i, t.acceptors i ≤ s.acceptors i) : Reached t := by
  intro i hopen hi
  rw [Server.m_sock, hsockets] at hopen
  rw [hsocks]
  exact h i hopen fun h0 => hi (Nat.le_zero.mp (h0 ▸ hle i))

theorem Reached.release (h : Reached s) : Reached s.release := by
  intro i hopen hi
  rw [Server.m_sock_release] at hopen
  split at hopen
  · exact h i hopen hi
  · exact absurd rfl hopen

theorem safe_iff {fails : Nat} {results : List (Option Nat)} :
    (Action.bind fails results).safe s = true
      ↔ fails + results.count none = 0 ∨ ∀ i, s.m_sock i ≠ none → s.acceptors i = 0 := by
  simp only [Action.safe, Bool.or_eq_true, decide_eq_true_eq, List.all_eq_true, List.mem_range]
  refine or_congr_right ⟨fun h i hi => ?_, fun h i _ => ?_⟩
  · exact (h i (Server.lt_of_m_sock hi)).resolve_left hi
  · exact or_iff_not_imp_left.mpr (h i)

theorem reached_bind_iff (hinv : Inv s) (hs : Reached s) (fails : Nat)
    (results : List (Option Nat)) :
    Reached (s.bind fails results) ↔ (Action.bind fails results).safe s = true := by
  have hmade : ∀ i, s.acceptors i ≠ 0 → i < s.sockets.length :=
    fun i hi => hinv.kept.made i (Server.owned_iff.mpr (Or.inr hi))
  rw [safe_iff, Server.bind]
  by_cases hfails : fails + results.count none = 0
  · simp only [hfails, ne_eq, not_true_eq_false, if_false, true_or, iff_true]
    intro i hopen hi
    rw [Server.acceptors_foldl_bindAddr] at hi
    rw [Server.m_sock_foldl_bindAddr results (hmade i hi)] at hopen
    rw [Server.foldl_bindAddr]
    exact List.mem_append_left _ (hs i hopen hi)
  · simp only [hfails, ne_eq, not_false_eq_true, if_true, false_or]
    have hacceptors := Server.acceptors_foldl_bindAddr s results
    constructor
    · intro h i hopen
      by_contra hi
      have hnew : Server.m_sock (Server.release
          { results.foldl Server.bindAddr s with m_socks := [] }) i = s.m_sock i := by
        have howned : Server.owned { results.foldl Server.bindAddr s with m_socks := [] } i
            = true := Server.owned_iff.mpr (Or.inr ((hacceptors i).symm ▸ hi))
        rw [Server.m_sock_release, if_pos howned]
        exact Server.m_sock_foldl_bindAddr results (hmade i hi)
      have hmem := h i (hnew.symm ▸ hopen) ((hacceptors i).symm ▸ hi)
      cases hmem
    · intro h i hopen hi
      have hacc : s.acceptors i ≠ 0 := hacceptors i ▸ hi
      rw [Server.m_sock_release] at hopen
      split at hopen
      · rw [← h i] at hacc
        · exact absurd rfl hacc
        · rw [← Server.m_sock_foldl_bindAddr results (hmade i hacc)]
          exact hopen
      · exact absurd rfl hopen

theorem reached_start (hs : Reached s) : Reached s.start := by
  by_cases hstop : s.m_isStop = true
  · intro i hopen hi
    rw [Server.acceptors_start hstop] at hi
    rw [Server.start, if_pos hstop] at hopen ⊢
    by_contra hmem
    rw [List.count_eq_zero_of_not_mem hmem] at hi
    exact hmem (hs i hopen hi)
  · rw [Server.start, if_neg hstop]
    exact hs

/-- Exactly the allowed steps keep `Reached`. -/
theorem reached_step_iff {a : Action} (hinv : Inv s) (hs : Reached s) (h : step s a = some t) :
    Reached t ↔ a.safe s = true := by
  cases a with
  | bind fails results =>
    rw [step] at h
    split at h
    · cases h
      exact reached_bind_iff hinv hs fails results
    · cases h
  | start =>
    cases h
    exact iff_of_true (reached_start hs) rfl
  | stop =>
    cases h
    exact iff_of_true (hs.of_le rfl rfl fun i => (Server.acceptors_stop s i).le) rfl
  | take i =>
    refine iff_of_true ?_ rfl
    rw [step] at h
    split at h
    next sock htask =>
      cases h
      exact hs.of_le rfl rfl fun i => (acceptors_taken htask i).le
    next htask =>
      cases h
      intro j hopen hj
      rw [Server.m_sock_close] at hopen
      change (if j ∈ s.m_socks then none else s.m_sock j) ≠ none at hopen
      have hnot : j ∉ s.m_socks := fun hmem => hopen (if_pos hmem)
      rw [if_neg hnot] at hopen
      have hacceptors : s.acceptors j = (s.takeTask i).acceptors j :=
        (Server.acceptors_takeTask htask j).symm
      exact absurd (hs j hopen (hacceptors ▸ hj)) hnot
    next => cases h
  | test k =>
    refine iff_of_true ?_ rfl
    rw [step] at h
    split at h
    next sock hloop =>
      split at h
      · cases h
        have hfinished : Reached (s.setLoop k .finished) :=
          hs.of_le rfl rfl (Server.acceptors_finished_le hloop)
        exact hfinished.release
      · cases h
        exact hs.of_le rfl rfl fun i =>
          (Server.acceptors_setLoop_eq (.accept sock (s.m_sock sock)) hloop rfl i).le
    next => cases h
  | accept k client =>
    refine iff_of_true ?_ rfl
    rw [step] at h
    split at h
    next sock m_sock hloop =>
      have hle : ∀ i, (s.setLoop k (.test sock)).acceptors i ≤ s.acceptors i :=
        fun i => (Server.acceptors_setLoop_eq (.test sock) hloop rfl i).le
      cases client with
      | some c =>
        simp only at h
        split at h
        · cases h
          exact hs.of_le rfl rfl hle
        · cases h
      | none =>
        cases h
        exact hs.of_le rfl rfl hle
    next => cases h

/-! ### After the lambda of `stop` -/

/-- No socket is open. -/
def Closed (s : Server) : Prop := ∀ i, s.m_sock i = none

def Action.isBind : Action → Bool
  | .bind _ _ => true
  | _ => false

theorem closed_release (h : Closed s) : Closed s.release := by
  intro i
  rw [Server.m_sock_release, h i]
  exact ite_self none

theorem mem_sockets_iff {fd : Nat} : some fd ∈ s.sockets ↔ ∃ i, s.m_sock i = some fd := by
  constructor
  · intro h
    obtain ⟨i, hi⟩ := List.getElem?_of_mem h
    exact ⟨i, by rw [Server.m_sock, hi]; rfl⟩
  · rintro ⟨i, hi⟩
    rw [Server.m_sock] at hi
    cases hget : s.sockets[i]? with
    | none => simp [hget] at hi
    | some m_sock =>
      rw [hget] at hi
      obtain rfl : m_sock = some fd := hi
      exact List.mem_of_getElem? hget

/-- Without an open socket nobody is accepted, and only `bind` opens one. -/
theorem closed_step {a : Action} (hs : Closed s) (ha : a.isBind = false)
    (h : step s a = some t) : Closed t ∧ t.clients = s.clients := by
  cases a with
  | bind fails results => cases ha
  | start =>
    cases h
    rw [Server.start]
    split <;> exact ⟨hs, rfl⟩
  | stop =>
    cases h
    exact ⟨hs, rfl⟩
  | take i =>
    rw [step] at h
    split at h
    next =>
      cases h
      exact ⟨hs, rfl⟩
    next =>
      cases h
      refine ⟨fun j => ?_, rfl⟩
      rw [Server.m_sock_close]
      split
      · rfl
      · exact hs j
    next => cases h
  | test k =>
    rw [step] at h
    split at h
    next sock hloop =>
      split at h
      · cases h
        have hfinished : Closed (s.setLoop k .finished) := hs
        exact ⟨closed_release hfinished, rfl⟩
      · cases h
        exact ⟨hs, rfl⟩
    next => cases h
  | accept k client =>
    rw [step] at h
    split at h
    next sock m_sock hloop =>
      cases client with
      | some c =>
        simp only at h
        split at h
        next haccept =>
          obtain ⟨hne, hmem⟩ := haccept
          cases m_sock with
          | none => exact absurd rfl hne
          | some fd =>
            obtain ⟨i, hi⟩ := mem_sockets_iff.mp hmem
            rw [hs i] at hi
            cases hi
        next => cases h
      | none =>
        cases h
        exact ⟨hs, rfl⟩
    next => cases h

theorem closed_of_reached (hinv : Inv s) (hs : Reached s) (j : Nat) :
    Closed (s.takeTask j).close := by
  intro i
  rw [Server.m_sock_close]
  change (if i ∈ s.m_socks then none else s.m_sock i) = none
  split
  · rfl
  · by_contra hopen
    have howned := (Server.owned_iff.mp (hinv.released i hopen)).resolve_left ‹_›
    exact ‹i ∉ s.m_socks› (hs i hopen howned)

end

/-- The server was started, stopped in `accept`, and the loop ends without a client. -/
def oneLoop : List Action :=
  [.bind 0 [some 5], .start, .take 0, .test 0, .accept 0 (some 9), .test 0, .stop]

section

variable {s t u : Server}

/-- The server runs, and the sockets that `s` has in `m_socks` have one `startAccept` each. -/
structure Serving (s t : Server) : Prop where
  running : t.m_isStop = false
  closing : .close ∉ t.tasks
  served : ∀ i ∈ s.m_socks, t.m_sock i ≠ none ∧ t.m_sock i = s.m_sock i ∧ t.acceptors i = 1

theorem serving_start (hinv : Inv s) (hstop : s.m_isStop = true) (hclose : .close ∉ s.tasks) :
    Serving s s.start := by
  have hstart : s.start = { s with
      m_isStop := false, tasks := s.tasks ++ s.m_socks.map .startAccept } := by
    rw [Server.start, if_pos hstop]
  refine ⟨?_, ?_, fun i hi => ⟨?_, ?_, ?_⟩⟩
  · rw [hstart]
  · rw [hstart]
    simpa using hclose
  · rw [hstart]
    exact hinv.kept.listening i hi
  · rw [hstart]
    rfl
  · rw [Server.acceptors_start hstop, hinv.unserved hstop hclose i hi,
      List.count_eq_one_of_mem hinv.kept.nodup hi]

theorem Serving.of_eq (h : Serving s t) (hstop : u.m_isStop = t.m_isStop)
    (hclose : .close ∈ u.tasks → .close ∈ t.tasks) (hsockets : u.sockets = t.sockets)
    (heq : ∀ i, u.acceptors i = t.acceptors i) : Serving s u := by
  refine ⟨hstop.trans h.running, fun hmem => h.closing (hclose hmem), fun i hi => ?_⟩
  rw [Server.m_sock, hsockets, heq]
  exact h.served i hi

theorem Serving.bind (h : Serving s t) (fails : Nat) (results : List (Option Nat)) :
    Serving s (t.bind fails results) := by
  have hopen : ∀ i ∈ s.m_socks,
      (results.foldl Server.bindAddr t).m_sock i = t.m_sock i :=
    fun i hi => Server.m_sock_foldl_bindAddr results (Server.lt_of_m_sock (h.served i hi).1)
  have hrest : (t.bind fails results).m_isStop = t.m_isStop
      ∧ (t.bind fails results).tasks = t.tasks := by
    rw [Server.bind, Server.foldl_bindAddr]
    split <;> exact ⟨rfl, rfl⟩
  refine ⟨hrest.1.trans h.running, fun hmem => h.closing (hrest.2 ▸ hmem), fun i hi => ?_⟩
  have hm_sock : (t.bind fails results).m_sock i = t.m_sock i := by
    rw [Server.bind]
    split
    · rw [Server.m_sock_release, if_pos]
      · exact hopen i hi
      · refine Server.owned_iff.mpr (Or.inr ?_)
        change (results.foldl Server.bindAddr t).acceptors i ≠ 0
        rw [Server.acceptors_foldl_bindAddr, (h.served i hi).2.2]
        exact Nat.one_ne_zero
    · exact hopen i hi
  rw [hm_sock, Server.acceptors_bind]
  exact h.served i hi

theorem serving_step {a : Action} (ht : Serving s t) (ha : a ≠ .stop) (h : step t a = some u) :
    Serving s u := by
  cases a with
  | bind fails results =>
    rw [step] at h
    split at h
    · cases h
      exact ht.bind fails results
    · cases h
  | start =>
    cases h
    rw [Server.start, if_neg (by simp [ht.running])]
    exact ht
  | stop => exact absurd rfl ha
  | take i =>
    rw [step] at h
    split at h
    next sock htask =>
      cases h
      exact ht.of_eq rfl List.mem_of_mem_eraseIdx rfl (acceptors_taken htask)
    next htask => exact absurd (List.mem_of_getElem? htask) ht.closing
    next => cases h
  | test k =>
    rw [step] at h
    split at h
    next sock hloop =>
      rw [if_neg (by simp [ht.running])] at h
      cases h
      exact ht.of_eq rfl id rfl
        (Server.acceptors_setLoop_eq (.accept sock (t.m_sock sock)) hloop rfl)
    next => cases h
  | accept k client =>
    rw [step] at h
    split at h
    next sock m_sock hloop =>
      have heq := Server.acceptors_setLoop_eq (.test sock) hloop rfl
      cases client with
      | some c =>
        simp only at h
        split at h
        · cases h
          exact ht.of_eq rfl id rfl heq
        · cases h
      | none =>
        cases h
        exact ht.of_eq rfl id rfl heq
    next => cases h

end

/-- **When `start` serves.** For every stopped server that a run leads to: after `start` all its
sockets stay open until `stop` is called, each with exactly one `startAccept`, if and only if no
lambda of an earlier `stop` is left, or there is no socket. -/
theorem start_serves_iff (as : List Action) {s : Server} (h : exec step init as = some s)
    (hstop : s.m_isStop = true) :
    (∀ (bs : List Action) (t : Server), .stop ∉ bs → exec step s.start bs = some t →
      ∀ i ∈ s.m_socks, t.m_sock i ≠ none ∧ t.m_sock i = s.m_sock i ∧ t.acceptors i = 1)
      ↔ .close ∉ s.tasks ∨ s.m_socks = [] := by
  constructor
  · intro hserves
    by_contra hn
    obtain ⟨hmem, hne⟩ := not_or.mp hn
    rw [not_not] at hmem
    obtain ⟨i, hi⟩ := List.exists_mem_of_ne_nil _ hne
    obtain ⟨j, hj⟩ := List.getElem?_of_mem hmem
    have htask : s.start.tasks[j]? = some .close := by
      rw [Server.start, if_pos hstop]
      exact (List.getElem?_append_left (List.getElem?_eq_some_iff.mp hj).1).trans hj
    have hrun : exec step s.start [.take j] = some (s.start.takeTask j).close := by
      rw [exec, step, htask]
      rfl
    have hsocks : i ∈ (s.start.takeTask j).m_socks := by
      rw [Server.start, if_pos hstop]
      exact hi
    refine (hserves [.take j] _ (by simp) hrun i hi).1 ?_
    rw [Server.m_sock_close, if_pos hsocks]
  · rintro (hclose | hnil) bs t hbs hrun i hi
    · have hne : ∀ a ∈ bs, a ≠ .stop := by
        rintro a ha rfl
        exact hbs ha
      have hserving : Serving s t := along_invariant (C := fun _ a => a ≠ .stop)
        (fun _ _ _ ht ha h => serving_step ht ha h) (serving_start (inv_of_exec h) hstop hclose)
        (Along.of_forall hne) hrun
      exact hserving.served i hi
    · rw [hnil] at hi
      cases hi

theorem start_serves_iff_oneLoop :
    ∃ s, exec step init [.bind 0 [some 5, some 6], .start, .stop, .take 0] = some s
      ∧ ¬ ∀ (bs : List Action) (t : Server), .stop ∉ bs → exec step s.start bs = some t →
        ∀ i ∈ s.m_socks, t.m_sock i ≠ none ∧ t.m_sock i = s.m_sock i ∧ t.acceptors i = 1 :=
  ⟨_, rfl, fun h => absurd ((start_serves_iff
    [.bind 0 [some 5, some 6], .start, .stop, .take 0] rfl rfl).mp h) (by decide)⟩

end TcpServer

end FiberServer
