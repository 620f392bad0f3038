import FiberServer.Http.HttpParser

/-!
# `HttpSession`

What `recvRequest` reads from a connection.  The buffer and the parser live as long as
one call, and a read is as large as the buffer.  Two facts carry the results:

* a read that begins with a complete request ends the loop of the head, whatever
  follows in the read (`recvHead_first`);
* what follows the body in the buffer is never looked at (`recvRequest_first`).

So of the requests of one read the first is returned and the others are gone
(`recvCalls_deliver`).
-/

namespace FiberServer

open HttpRequestParser

/-! ### Reading -/

/-- The connection of a session: `incoming` is what the coming calls of `recv` find, one
after the other.  When nothing is left, the peer has closed. -/
structure HttpSession where
  connected : Bool
  incoming : List Bytes

namespace HttpSession

def close (s : HttpSession) : HttpSession :=
  { s with connected := false }

/-- What has not been taken from the socket yet. -/
def pending (s : HttpSession) : Nat :=
  (s.incoming.map List.length).sum

/-- `SocketStream::read`; an empty result is one that is not positive. -/
def read (s : HttpSession) (length : Nat) : Bytes × HttpSession :=
  if s.connected then
    match s.incoming with
    | [] => ([], s)
    | found :: rest =>
      (found.take length,
        { s with incoming := if found.length ≤ length then rest else found.drop length :: rest })
  else ([], s)

/-- `Stream::readFixSize`; every round reads something, so that there are at most `length`
of them. -/
def readFixSize : Nat → HttpSession → Nat → Option Bytes × HttpSession
  | _, s, 0 => (some [], s)
  | 0, s, _ + 1 => (none, s)
  | rounds + 1, s, left + 1 =>
    let r := s.read (left + 1)
    if r.1 = [] then (none, r.2)
    else
      let more := readFixSize rounds r.2 (left + 1 - r.1.length)
      (more.1.map (r.1 ++ ·), more.2)

/-- The loop of `recvRequest`, with what lies in the buffer; `none` when it has closed.
Every round takes something from the socket, so that there are at most `pending + 1` of
them. -/
def recvHead (table : ParserTable) (buff_size : Nat) :
    Nat → HttpRequestParser → Bytes → HttpSession →
      Option (HttpRequestParser × Bytes) × HttpSession
  | 0, _, _, s => (none, s.close)
  | rounds + 1, parser, data, s =>
    let r := s.read (buff_size - data.length)
    if r.1 = [] then (none, r.2.close)
    else
      let e := parser.execute table (data ++ r.1)
      if e.1.hasError then (none, r.2.close)
      -- `offset == (int)buff_size`
      else if (e.2.length : Int) = TypeUtil.wrap 32 buff_size then (none, r.2.close)
      else if e.1.isFinished then (some e, r.2)
      else recvHead table buff_size rounds e.1 e.2 r.2

/-- What is left of the buffer behind the body is dropped with it. -/
def recvRequest (table : ParserTable) (buff_size : Nat) (s : HttpSession) :
    Option ParsedRequest × HttpSession :=
  match recvHead table buff_size (s.pending + 1) .new [] s with
  | (none, s) => (none, s)
  | (some (parser, data), s) =>
    let length := parser.getContentLength
    if 0 < length then
      let body := data.take length.toNat
      let missing := length.toNat - data.length
      match readFixSize missing s missing with
      | (none, s) => (none, s.close)
      | (some more, s) =>
        -- `readFixSize` returns the length as an `int`
        if 0 < missing ∧ TypeUtil.wrap 32 missing ≤ 0 then (none, s.close)
        else (some (parser.m_data.setBody (body ++ more)).init, s)
    else (some parser.m_data.init, s)

/-- The answers of `n` calls of `recvRequest`, each with the number of bytes that the call
has taken from the socket. -/
def recvCalls (table : ParserTable) (buff_size : Nat) :
    Nat → HttpSession → List (Option ParsedRequest × Nat)
  | 0, _ => []
  | n + 1, s =>
    let r := s.recvRequest table buff_size
    (r.1, s.pending - r.2.pending) :: recvCalls table buff_size n r.2

end HttpSession

/-! ### Requests on the wire -/

/-- A well-formed request: the parser takes the head to its last byte and without an error,
and the body is as long as the head says. -/
structure WireRequest (table : ParserTable) where
  head : Bytes
  body : Bytes
  stops : (Scanner.scan (byte table head) 0 head .new).halt = .stopped
  whole : (http_parser_execute table .new head).2 = head.length
  names : ∀ x ∈ Scanner.steps (byte table head) 0 head .new, NamesField table x
  correct : (http_parser_execute table .new head).1.hasError = false
  length : (http_parser_execute table .new head).1.getContentLength = body.length

namespace WireRequest

variable {table : ParserTable}

def bytes (r : WireRequest table) : Bytes := r.head ++ r.body

/-- What the parser has made of the head. -/
def parser (r : WireRequest table) : HttpRequestParser := (http_parser_execute table .new r.head).1

/-- The request that was sent. -/
def message (r : WireRequest table) : ParsedRequest :=
  (r.parser.m_data.setBody r.body).init

theorem head_ne_nil (r : WireRequest table) : r.head ≠ [] := by
  intro h
  have hstops := r.stops
  rw [h] at hstops
  exact nomatch hstops

/-- The parser takes the head and leaves what follows. -/
theorem execute_bytes (r : WireRequest table) (more : Bytes) :
    execute table .new (r.bytes ++ more) = (r.parser, r.body ++ more) := by
  have hexec : http_parser_execute table .new (r.head ++ (r.body ++ more))
      = http_parser_execute table .new r.head := execute_append r.stops r.names _
  rw [execute, bytes, List.append_assoc, hexec, r.whole, List.drop_left]
  rfl

theorem isFinished (r : WireRequest table) : r.parser.isFinished := by
  rw [parser, http_parser_execute, if_neg r.head_ne_nil]
  exact isFinished_of_stopped r.stops

/-- Without a body nothing has to be stored. -/
theorem message_of_body_eq_nil (r : WireRequest table) (h : r.body = []) :
    r.message = r.parser.m_data.init := by
  have hbody : r.parser.m_data.m_body = [] := execute_m_body table .new r.head
  rw [message, h, ParsedRequest.setBody, ← hbody]

end WireRequest

namespace HttpSession

variable {table : ParserTable} {buff_size : Nat}

/-! ### One call -/

theorem read_cons {found : Bytes} {rest : List Bytes} {length : Nat} (h : found.length ≤ length) :
    read ⟨true, found :: rest⟩ length = (found, ⟨true, rest⟩) := by
  rw [read, if_pos rfl]
  simp only [if_pos h, List.take_of_length_le h]

/-- A read that begins with a complete request ends the loop. -/
theorem recvHead_first (hsize : buff_size < 2 ^ 31) (r : WireRequest table) {more : Bytes}
    {rest : List Bytes} (hfit : (r.bytes ++ more).length ≤ buff_size) (rounds : Nat) :
    recvHead table buff_size (rounds + 1) .new [] ⟨true, (r.bytes ++ more) :: rest⟩
      = (some (r.parser, r.body ++ more), ⟨true, rest⟩) := by
  have hhead := List.length_pos_of_ne_nil r.head_ne_nil
  have hlength : (r.bytes ++ more).length = r.head.length + (r.body ++ more).length := by
    rw [WireRequest.bytes, List.append_assoc, List.length_append]
  have hne : r.bytes ++ more ≠ [] := by
    apply List.ne_nil_of_length_pos
    omega
  have hread : read ⟨true, (r.bytes ++ more) :: rest⟩ (buff_size - ([] : Bytes).length)
      = (r.bytes ++ more, ⟨true, rest⟩) := read_cons hfit
  -- the buffer is not full: the head has been taken from it
  have hoffset : ((r.body ++ more).length : Int) ≠ TypeUtil.wrap 32 buff_size := by
    rw [TypeUtil.wrap, Int.bmod_eq_of_le (by omega) (by omega)]
    omega
  have hcorrect : ¬ r.parser.hasError = true := by
    rw [WireRequest.parser, r.correct]
    exact Bool.false_ne_true
  rw [recvHead, hread]
  dsimp only
  rw [List.nil_append, r.execute_bytes, if_neg hne, if_neg hcorrect, if_neg hoffset,
    if_pos r.isFinished]

/-- **A call returns the first request of what it reads, and the rest is gone.** -/
theorem recvRequest_first (hsize : buff_size < 2 ^ 31) (r : WireRequest table) {more : Bytes}
    {rest : List Bytes} (hfit : (r.bytes ++ more).length ≤ buff_size) :
    recvRequest table buff_size ⟨true, (r.bytes ++ more) :: rest⟩
      = (some r.message, ⟨true, rest⟩) := by
  have hlength : r.parser.getContentLength = r.body.length := r.length
  rw [recvRequest, recvHead_first hsize r hfit]
  dsimp only
  rw [hlength]
  by_cases hbody : r.body = []
  · rw [r.message_of_body_eq_nil hbody, hbody, List.length_nil, if_neg (by decide)]
  · have hpos := List.length_pos_of_ne_nil hbody
    have hmissing : (r.body.length : Int).toNat - (r.body ++ more).length = 0 := by
      rw [Int.toNat_natCast, List.length_append]
      omega
    rw [if_pos (by omega), hmissing, readFixSize, Int.toNat_natCast, List.take_left]
    dsimp only
    rw [if_neg fun h => Nat.lt_irrefl 0 h.1, List.append_nil]
    rfl

/-- When the peer has closed, a call returns `nullptr`. -/
theorem recvRequest_nil (connected : Bool) :
    recvRequest table buff_size ⟨connected, []⟩ = (none, ⟨false, []⟩) := by
  cases connected <;> rfl

end HttpSession

/-! ### Requests one after the other -/

/-- What one read returns: one or more complete requests. -/
structure Delivery (table : ParserTable) where
  first : WireRequest table
  more : List (WireRequest table)

namespace Delivery

variable {table : ParserTable}

def requests (d : Delivery table) : List (WireRequest table) := d.first :: d.more

def bytes (d : Delivery table) : Bytes := d.requests.flatMap WireRequest.bytes

theorem bytes_eq (d : Delivery table) :
    d.bytes = d.first.bytes ++ d.more.flatMap WireRequest.bytes := by
  rw [bytes, requests, List.flatMap_cons]

theorem bytes_of_more_eq_nil {d : Delivery table} (h : d.more = []) : d.bytes = d.first.bytes := by
  rw [bytes_eq, h, List.flatMap_nil, List.append_nil]

/-- The requests of a connection in the order in which they were sent. -/
def sent (ds : List (Delivery table)) : List (WireRequest table) := ds.flatMap requests

/-- The connection on which they arrive. -/
def session (ds : List (Delivery table)) : HttpSession := ⟨true, ds.map bytes⟩

theorem length_le_length_sent (ds : List (Delivery table)) : ds.length ≤ (sent ds).length := by
  induction ds with
  | nil => exact Nat.le_refl 0
  | cons d ds ih =>
    rw [sent, List.flatMap_cons, List.length_append, ← sent, requests, List.length_cons,
      List.length_cons]
    omega

/-- There are more requests than reads as soon as one read returns two of them. -/
theorem length_lt_length_sent {ds : List (Delivery table)} {d : Delivery table} (hd : d ∈ ds)
    (hmore : d.more ≠ []) : ds.length < (sent ds).length := by
  obtain ⟨before, after, rfl⟩ := List.append_of_mem hd
  have hpos := List.length_pos_of_ne_nil hmore
  have hbefore := length_le_length_sent before
  have hafter := length_le_length_sent after
  rw [sent, List.flatMap_append, List.flatMap_cons, ← sent, ← sent, requests]
  simp only [List.length_append, List.length_cons]
  omega

theorem sent_of_single {ds : List (Delivery table)} (h : ∀ d ∈ ds, d.more = []) :
    sent ds = ds.map first := by
  induction ds with
  | nil => rfl
  | cons d ds ih =>
    rw [sent, List.flatMap_cons, ← sent, ih fun e he => h e (List.mem_cons_of_mem d he), requests,
      h d List.mem_cons_self, List.map_cons, List.singleton_append]

end Delivery

namespace HttpSession

variable {table : ParserTable} {buff_size : Nat}

theorem recvCalls_nil (connected : Bool) (n : Nat) :
    recvCalls table buff_size n ⟨connected, []⟩ = List.replicate n (none, 0) := by
  induction n generalizing connected with
  | zero => rfl
  | succ n ih =>
    rw [recvCalls, recvRequest_nil, List.replicate_succ]
    exact congrArg _ (ih false)

/-- Each call returns the first request of one read and takes all of the read; the calls
that are left over return `nullptr`. -/
theorem recvCalls_deliver (hsize : buff_size < 2 ^ 31) {ds : List (Delivery table)}
    (hfit : ∀ d ∈ ds, d.bytes.length ≤ buff_size) {n : Nat} (hn : ds.length ≤ n) :
    recvCalls table buff_size n (Delivery.session ds)
      = ds.map (fun d => (some d.first.message, d.bytes.length))
        ++ List.replicate (n - ds.length) (none, 0) := by
  induction ds generalizing n with
  | nil => exact recvCalls_nil true n
  | cons d ds ih =>
    obtain ⟨n, rfl⟩ : ∃ m, n = m + 1 := ⟨n - 1, by rw [List.length_cons] at hn; omega⟩
    have hd := hfit d List.mem_cons_self
    rw [Delivery.bytes_eq] at hd
    have hcall : recvRequest table buff_size (Delivery.session (d :: ds))
        = (some d.first.message, Delivery.session ds) := by
      rw [Delivery.session, List.map_cons, Delivery.bytes_eq]
      exact recvRequest_first hsize d.first hd
    have htaken : (Delivery.session (d :: ds)).pending - (Delivery.session ds).pending
        = d.bytes.length := by
      rw [pending, pending, Delivery.session, Delivery.session, List.map_cons, List.map_cons,
        List.sum_cons]
      exact Nat.add_sub_cancel_right _ _
    rw [recvCalls, hcall]
    dsimp only
    rw [htaken, ih (fun e he => hfit e (List.mem_cons_of_mem d he))
      (Nat.le_of_succ_le_succ hn), List.map_cons, List.cons_append, List.length_cons,
      Nat.add_sub_add_right]

/-- **Which requests a connection returns.**  Of every read the first request is returned
and the others are dropped, so that all of them come back, and every call takes the bytes
of its own request, exactly when each read returns one request. -/
theorem recvCalls_eq_sent_iff (hsize : buff_size < 2 ^ 31) (ds : List (Delivery table))
    (hfit : ∀ d ∈ ds, d.bytes.length ≤ buff_size) :
    recvCalls table buff_size (Delivery.sent ds).length (Delivery.session ds)
        = ds.map (fun d => (some d.first.message, d.bytes.length))
          ++ List.replicate ((Delivery.sent ds).length - ds.length) (none, 0)
      ∧ (recvCalls table buff_size (Delivery.sent ds).length (Delivery.session ds)
          = (Delivery.sent ds).map (fun r => (some r.message, r.bytes.length))
        ↔ ∀ d ∈ ds, d.more = []) := by
  have hcalls := recvCalls_deliver hsize hfit (Delivery.length_le_length_sent ds)
  refine ⟨hcalls, ?_⟩
  rw [hcalls]
  constructor
  · intro heq d hd
    by_contra hmore
    have hlt := Delivery.length_lt_length_sent hd hmore
    -- a call is left over, and it has returned nothing
    have hnone : ((none, 0) : Option ParsedRequest × Nat)
        ∈ (Delivery.sent ds).map (fun r => (some r.message, r.bytes.length)) := by
      rw [← heq]
      apply List.mem_append_right
      rw [List.mem_replicate]
      exact ⟨by omega, rfl⟩
    obtain ⟨r, _, hr⟩ := List.mem_map.mp hnone
    exact nomatch congrArg Prod.fst hr
  · intro hsingle
    rw [Delivery.sent_of_single hsingle, List.length_map, Nat.sub_self, List.replicate_zero,
      List.append_nil, List.map_map]
    apply List.map_congr_left
    intro d hd
    rw [Function.comp_apply, Delivery.bytes_of_more_eq_nil (hsingle d hd)]

/-! ### A request of `/` -/

/-- The way of the generated table along a `POST` of `/` with header fields; what leads
elsewhere is left out. -/
def postTable : ParserTable := fun cs b =>
  let c := Char.ofNat b.toNat
  let name := c.isAlphanum || c = '-'
  match cs with
  | 1 => if c.isUpper then some ⟨[.mark], 2⟩ else none
  | 2 => if c.isUpper then some ⟨[], 175⟩ else none
  | 175 => if c.isUpper then some ⟨[], 176⟩ else none
  | 176 => if c.isUpper then some ⟨[], 177⟩ else none
  | 177 => if c = ' ' then some ⟨[.request_method], 3⟩ else none
  | 3 => if c = '/' then some ⟨[.mark], 33⟩ else none
  | 33 => if c = ' ' then some ⟨[.request_path, .request_uri], 4⟩ else none
  | 4 => if c = 'H' then some ⟨[.mark], 5⟩ else none
  | 5 => if c = 'T' then some ⟨[], 6⟩ else none
  | 6 => if c = 'T' then some ⟨[], 7⟩ else none
  | 7 => if c = 'P' then some ⟨[], 8⟩ else none
  | 8 => if c = '/' then some ⟨[], 9⟩ else none
  | 9 => if c = '1' then some ⟨[], 10⟩ else none
  | 10 => if c = '.' then some ⟨[], 11⟩ else none
  | 11 => if c = '0' || c = '1' then some ⟨[], 12⟩ else none
  | 12 => if c = '\r' then some ⟨[.http_version], 17⟩ else none
  | 13 =>
    if c = '\r' then some ⟨[.start_field], 18⟩
    else if name then some ⟨[.start_field], 14⟩
    else none
  | 14 =>
    if c = ':' then some ⟨[.write_field], 15⟩
    else if name then some ⟨[], 14⟩
    else none
  | 15 =>
    if c = ' ' then some ⟨[.start_value], 15⟩
    else if b = 0 || b = 10 || b = 13 || b = 127 then none
    else some ⟨[.start_value], 16⟩
  | 16 =>
    if c = '\r' then some ⟨[.write_value], 17⟩
    else if b = 0 || b = 10 || b = 127 then none
    else some ⟨[], 16⟩
  | 17 => if c = '\n' then some ⟨[], 13⟩ else none
  | 18 => if c = '\n' then some ⟨[.done], 348⟩ else none
  | _ => none

def postHead : Bytes :=
  "POST / HTTP/1.1\r\ncontent-length: 1\r\n\r\n".toList.map fun c => UInt8.ofNat c.toNat

/-- A `POST` with one byte. -/
def post (b : UInt8) : WireRequest postTable where
  head := postHead
  body := [b]
  stops := by decide +kernel
  whole := by decide +kernel
  names := by decide +kernel
  correct := by decide +kernel
  length := by
    change _ = ((1 : Nat) : Int)
    decide +kernel

example : (post 65).message =
    { HttpRequest.mk ['/'] [] [("content-length".toList, ['1'])] [65] with
      m_method := .POST, m_version := 0x11, m_fragment := [], m_close := false } := by
  decide +kernel

/-- Two requests, each in a read of its own. -/
theorem recvCalls_eq_sent_two_reads :
    recvCalls postTable 4096 2 (Delivery.session [⟨post 65, []⟩, ⟨post 66, []⟩])
      = [(some (post 65).message, 39), (some (post 66).message, 39)] :=
  (recvCalls_eq_sent_iff (by decide) [⟨post 65, []⟩, ⟨post 66, []⟩] (by decide +kernel)).2.mpr
    (by simp)

/-- Two requests in one read: the second is lost. -/
theorem recvCalls_ne_sent_one_read :
    recvCalls postTable 4096 2 (Delivery.session [⟨post 65, [post 66]⟩])
        = [(some (post 65).message, 78), (none, 0)]
      ∧ recvCalls postTable 4096 2 (Delivery.session [⟨post 65, [post 66]⟩])
        ≠ [post 65, post 66].map (fun r => (some r.message, r.bytes.length)) := by
  decide +kernel

end HttpSession

end FiberServer
