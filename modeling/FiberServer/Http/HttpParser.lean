import FiberServer.Http.Request
import FiberServer.Library.Scanner

/-!
# `HttpRequestParser`

`http_parser_execute` runs a table that Ragel generates from `http11_parser.rl`, with
some 350 states.  The table is a parameter here; what the actions do with the buffer
and the callbacks of `http_parser.cpp` are not.

* `execute_append`: what follows a complete head does not matter to the parser.
* `execute_m_body`: the parser leaves the body alone.
-/

namespace FiberServer

open FileSystem (cstr)

/-- A part of the buffer as a `std::string`. -/
def ofBytes (bytes : Bytes) : Str := bytes.map fun b => Char.ofNat b.toNat

/-- `HTTP_METHOD_MAP`. -/
inductive HttpMethod
  | DELETE | GET | HEAD | POST | PUT | CONNECT | OPTIONS | TRACE | COPY | LOCK | MKCOL | MOVE
  | PROPFIND | PROPPATCH | SEARCH | UNLOCK | BIND | REBIND | UNBIND | ACL | REPORT | MKACTIVITY
  | CHECKOUT | MERGE | MSEARCH | NOTIFY | SUBSCRIBE | UNSUBSCRIBE | PATCH | PURGE | MKCALENDAR
  | LINK | UNLINK | SOURCE
  deriving DecidableEq, Repr

namespace HttpMethod

def names : List (HttpMethod × String) :=
  [(DELETE, "DELETE"), (GET, "GET"), (HEAD, "HEAD"), (POST, "POST"), (PUT, "PUT"),
    (CONNECT, "CONNECT"), (OPTIONS, "OPTIONS"), (TRACE, "TRACE"), (COPY, "COPY"), (LOCK, "LOCK"),
    (MKCOL, "MKCOL"), (MOVE, "MOVE"), (PROPFIND, "PROPFIND"), (PROPPATCH, "PROPPATCH"),
    (SEARCH, "SEARCH"), (UNLOCK, "UNLOCK"), (BIND, "BIND"), (REBIND, "REBIND"),
    (UNBIND, "UNBIND"), (ACL, "ACL"), (REPORT, "REPORT"), (MKACTIVITY, "MKACTIVITY"),
    (CHECKOUT, "CHECKOUT"), (MERGE, "MERGE"), (MSEARCH, "M-SEARCH"), (NOTIFY, "NOTIFY"),
    (SUBSCRIBE, "SUBSCRIBE"), (UNSUBSCRIBE, "UNSUBSCRIBE"), (PATCH, "PATCH"), (PURGE, "PURGE"),
    (MKCALENDAR, "MKCALENDAR"), (LINK, "LINK"), (UNLINK, "UNLINK"), (SOURCE, "SOURCE")]

end HttpMethod

/-- `none` is `INVALID_METHOD`.  `strncmp` reads on behind the method, but there is a
space, which no name contains. -/
def CharsToHttpMethod (m : Str) : Option HttpMethod :=
  (HttpMethod.names.find? fun p => p.2.toList.isPrefixOf m).map Prod.fst

/-- All of a request that the parser sets. -/
structure ParsedRequest extends HttpRequest where
  m_method : HttpMethod
  m_version : Nat
  m_fragment : Str
  m_close : Bool
  deriving DecidableEq, Repr

namespace ParsedRequest

/-- The constructor. -/
def new : ParsedRequest where
  m_path := ['/']
  m_query := []
  m_headers := []
  m_body := []
  m_method := .GET
  m_version := 0x11
  m_fragment := []
  m_close := true

def setHeader (r : ParsedRequest) (key val : Str) : ParsedRequest :=
  { r with m_headers := r.m_headers ++ [(key, val)] }

def setBody (r : ParsedRequest) (v : Bytes) : ParsedRequest :=
  { r with m_body := v }

def init (r : ParsedRequest) : ParsedRequest :=
  let conn := r.getHeader "connection".toList
  if conn ≠ [] then
    if strcaseeq conn "close".toList then { r with m_close := true }
    else if strcaseeq conn "keep-alive".toList then { r with m_close := false }
    else r
  else { r with m_close := decide (r.m_version ≤ 0x10) }

end ParsedRequest

/-- `boost::lexical_cast<uint64_t>`; `none` when it throws.  A minus is allowed. -/
def TypeUtil.lexicalCastUInt64 (s : Str) : Option Nat :=
  let neg := s.head? == some '-'
  let ds := if neg || s.head? == some '+' then s.tail else s
  let v := Nat.ofDigitChars 10 ds 0
  if ds ≠ [] ∧ ds.all Char.isDigit ∧ v < 2 ^ 64 then some (if neg then (2 ^ 64 - v) % 2 ^ 64 else v)
  else none

/-- The actions of `http11_parser.rl` that touch what is read afterwards; `done` only
calls `header_done`, which does nothing. -/
inductive ParserAction
  | mark
  | start_field
  | write_field
  | start_value
  | write_value
  | request_method
  | request_uri
  | fragment
  | start_query
  | query_string
  | http_version
  | request_path
  | done
  deriving DecidableEq, Repr

structure ParserMove where
  actions : List ParserAction
  target : Nat
  deriving DecidableEq, Repr

/-- The generated table; `none` is the way to the error state. -/
abbrev ParserTable := Nat → UInt8 → Option ParserMove

def http_parser_start : Nat := 1

def http_parser_first_final : Nat := 348

def http_parser_error : Nat := 0

/-- `HttpRequestParser` with its `http_parser`. -/
structure HttpRequestParser where
  cs : Nat
  mark : Nat
  field_start : Nat
  field_len : Nat
  query_start : Nat
  m_error : Nat
  m_data : ParsedRequest

namespace HttpRequestParser

/-- `http_parser_init` and the constructor. -/
def new : HttpRequestParser where
  cs := http_parser_start
  mark := 0
  field_start := 0
  field_len := 0
  query_start := 0
  m_error := 0
  m_data := .new

/-- `PTR_TO` and a length. -/
def text (buffer : Bytes) (start length : Nat) : Str := ofBytes ((buffer.drop start).take length)

def on_request_method (parser : HttpRequestParser) (at_ : Str) : HttpRequestParser :=
  match CharsToHttpMethod at_ with
  | none => { parser with m_error := 1000 }
  | some m => { parser with m_data := { parser.m_data with m_method := m } }

/-- `strncmp` with the length of `at_`. -/
def on_request_version (parser : HttpRequestParser) (at_ : Str) : HttpRequestParser :=
  let equals := fun v : Str => cstr at_ == cstr (v.take at_.length)
  if equals "HTTP/1.1".toList then { parser with m_data := { parser.m_data with m_version := 0x11 } }
  else if equals "HTTP/1.0".toList then
    { parser with m_data := { parser.m_data with m_version := 0x10 } }
  else { parser with m_error := 1001 }

def on_request_http_field (parser : HttpRequestParser) (field value : Str) : HttpRequestParser :=
  if field = [] then parser
  else { parser with m_data := parser.m_data.setHeader field value }

/-- An action at position `p`. -/
def act (buffer : Bytes) (p : Nat) (parser : HttpRequestParser) :
    ParserAction → HttpRequestParser
  | .mark => { parser with mark := p }
  | .start_field => { parser with field_start := p }
  | .write_field => { parser with field_len := p - parser.field_start }
  | .start_value => { parser with mark := p }
  | .write_value =>
    parser.on_request_http_field (text buffer parser.field_start parser.field_len)
      (text buffer parser.mark (p - parser.mark))
  | .request_method => parser.on_request_method (text buffer parser.mark (p - parser.mark))
  | .request_uri => parser
  | .fragment =>
    { parser with
      m_data := { parser.m_data with m_fragment := text buffer parser.mark (p - parser.mark) } }
  | .start_query => { parser with query_start := p }
  | .query_string =>
    { parser with
      m_data := { parser.m_data with
        m_query := text buffer parser.query_start (p - parser.query_start) } }
  | .http_version => parser.on_request_version (text buffer parser.mark (p - parser.mark))
  | .request_path =>
    { parser with
      m_data := { parser.m_data with m_path := text buffer parser.mark (p - parser.mark) } }
  | .done => parser

/-- One byte of the generated code.  The transitions into a final state are those with
`fbreak`. -/
def byte (table : ParserTable) (buffer : Bytes) (p : Nat) (b : UInt8) (parser : HttpRequestParser) :
    Scanner.Outcome HttpRequestParser :=
  match table parser.cs b with
  | none => .fail { parser with cs := http_parser_error }
  | some t =>
    let parser := { t.actions.foldl (act buffer p) parser with cs := t.target }
    if http_parser_first_final ≤ t.target then .stop parser else .go parser

/-- `http_parser_execute`: the parser and the number of bytes it has read. -/
def http_parser_execute (table : ParserTable) (parser : HttpRequestParser) (buffer : Bytes) :
    HttpRequestParser × Nat :=
  if buffer = [] then (parser, 0)
  else
    let r := Scanner.scan (byte table buffer) 0 buffer
      { parser with mark := 0, field_len := 0, field_start := 0 }
    (r.state, r.position)

/-- `execute`, with what is left in the buffer. -/
def execute (table : ParserTable) (parser : HttpRequestParser) (data : Bytes) :
    HttpRequestParser × Bytes :=
  let r := http_parser_execute table parser data
  (r.1, data.drop r.2)

/-- Also true in the error state. -/
def isFinished (parser : HttpRequestParser) : Bool :=
  parser.cs == http_parser_error || decide (http_parser_first_final ≤ parser.cs)

def hasError (parser : HttpRequestParser) : Bool :=
  parser.m_error != 0 || parser.cs == http_parser_error

/-- `getContentLength`, as the `int64_t` that `recvRequest` stores it in. -/
def getContentLength (parser : HttpRequestParser) : Int :=
  let find := parser.m_data.m_headers.reverse.find? fun h => strcaseeq h.1 "content-length".toList
  TypeUtil.wrap 64 ((find.bind fun h => TypeUtil.lexicalCastUInt64 h.2).getD 0 : Nat)

/-! ### What follows a head -/

/-- When the value of a field is written, the name of the field lies in front of it. -/
def NamesField (table : ParserTable) (x : Nat × UInt8 × HttpRequestParser) : Prop :=
  ∀ t ∈ table x.2.2.cs x.2.1, .write_value ∈ t.actions →
    .start_field ∉ t.actions ∧ .write_field ∉ t.actions
      ∧ x.2.2.field_start + x.2.2.field_len ≤ x.1

instance (table : ParserTable) (x : Nat × UInt8 × HttpRequestParser) :
    Decidable (NamesField table x) := by
  unfold NamesField
  infer_instance

theorem text_append {head more : Bytes} {start length p : Nat} (hp : p ≤ head.length)
    (h : start + length ≤ p ∨ length = 0) :
    text (head ++ more) start length = text head start length := by
  rcases h with h | rfl
  · rw [text, text, List.drop_append_of_le_length (by omega),
      List.take_append_of_le_length (by rw [List.length_drop]; omega)]
  · rw [text, text, List.take_zero, List.take_zero]

theorem act_append {head more : Bytes} {p : Nat} (hp : p ≤ head.length) (parser : HttpRequestParser)
    (a : ParserAction)
    (ha : a = .write_value → parser.field_start + parser.field_len ≤ p) :
    act (head ++ more) p parser a = act head p parser a := by
  have hmark : ∀ start, text (head ++ more) start (p - start) = text head start (p - start) :=
    fun start => text_append hp (by omega)
  cases a with
  | write_value =>
    rw [act, act, hmark, text_append hp (.inl (ha rfl))]
  | _ => simp only [act, hmark]

theorem foldl_act_append {head more : Bytes} {p : Nat} (hp : p ≤ head.length)
    {actions : List ParserAction} :
    ∀ {parser : HttpRequestParser},
      (.write_value ∈ actions → .start_field ∉ actions ∧ .write_field ∉ actions
        ∧ parser.field_start + parser.field_len ≤ p) →
      actions.foldl (act (head ++ more) p) parser = actions.foldl (act head p) parser := by
  induction actions with
  | nil => intro parser _; rfl
  | cons a actions ih =>
    intro parser h
    rw [List.foldl_cons, List.foldl_cons, act_append hp parser a]
    · refine ih fun hmem => ?_
      obtain ⟨hstart, hwrite, hle⟩ := h (List.mem_cons_of_mem a hmem)
      rw [List.mem_cons, not_or] at hstart hwrite
      refine ⟨hstart.2, hwrite.2, ?_⟩
      -- only the two actions that are excluded move the name of the field
      have hsame : (act head p parser a).field_start = parser.field_start
          ∧ (act head p parser a).field_len = parser.field_len := by
        cases a with
        | start_field => exact absurd rfl hstart.1
        | write_field => exact absurd rfl hwrite.1
        | write_value => rw [act, on_request_http_field]; split_ifs <;> exact ⟨rfl, rfl⟩
        | request_method => rw [act, on_request_method]; split <;> exact ⟨rfl, rfl⟩
        | http_version => simp only [act, on_request_version]; split_ifs <;> exact ⟨rfl, rfl⟩
        | _ => exact ⟨rfl, rfl⟩
      rw [hsame.1, hsame.2]
      exact hle
    · rintro rfl
      exact (h List.mem_cons_self).2.2

/-- **What follows a complete head does not matter to the parser.** -/
theorem execute_append {table : ParserTable} {parser : HttpRequestParser} {head : Bytes}
    (hstop : (Scanner.scan (byte table head) 0 head
      { parser with mark := 0, field_len := 0, field_start := 0 }).halt = .stopped)
    (hnames : ∀ x ∈ Scanner.steps (byte table head) 0 head
      { parser with mark := 0, field_len := 0, field_start := 0 }, NamesField table x)
    (more : Bytes) :
    http_parser_execute table parser (head ++ more) = http_parser_execute table parser head := by
  have hne : head ≠ [] := by
    rintro rfl
    exact nomatch hstop
  have hne' : head ++ more ≠ [] := by simp [hne]
  rw [http_parser_execute, http_parser_execute, if_neg hne, if_neg hne', Scanner.scan_append ?_ hstop]
  rintro ⟨p, b, s⟩ hx
  have hp := Scanner.position_of_mem_steps hx
  have hname := hnames _ hx
  rw [Nat.zero_add] at hp
  simp only [byte]
  cases ht : table s.cs b with
  | none => rfl
  | some t => simp only [foldl_act_append (Nat.le_of_lt hp) (hname t ht)]

/-! ### What the parser leaves -/

theorem foldl_act_m_body {buffer : Bytes} {p : Nat} {actions : List ParserAction} :
    ∀ {parser : HttpRequestParser},
      (actions.foldl (act buffer p) parser).m_data.m_body = parser.m_data.m_body := by
  induction actions with
  | nil => intro parser; rfl
  | cons a actions ih =>
    intro parser
    rw [List.foldl_cons, ih]
    cases a with
    | write_value => rw [act, on_request_http_field]; split_ifs <;> rfl
    | request_method => rw [act, on_request_method]; split <;> rfl
    | http_version => simp only [act, on_request_version]; split_ifs <;> rfl
    | _ => rfl

/-- The parser leaves the body alone. -/
theorem execute_m_body (table : ParserTable) (parser : HttpRequestParser) (buffer : Bytes) :
    (http_parser_execute table parser buffer).1.m_data.m_body = parser.m_data.m_body := by
  rw [http_parser_execute]
  split_ifs
  · rfl
  · refine Scanner.scan_state
      (P := fun s : HttpRequestParser => s.m_data.m_body = parser.m_data.m_body)
      (fun p b s hs => ?_) rfl
    rw [byte]
    cases table s.cs b with
    | none => exact hs
    | some t =>
      dsimp only
      split_ifs <;> exact foldl_act_m_body.trans hs

/-- The parser stops in its final states only. -/
theorem isFinished_of_stopped {table : ParserTable} {buffer : Bytes} {p : Nat} {bytes : Bytes}
    {s : HttpRequestParser} (h : (Scanner.scan (byte table buffer) p bytes s).halt = .stopped) :
    (Scanner.scan (byte table buffer) p bytes s).state.isFinished := by
  obtain ⟨q, b, s', hstop⟩ := Scanner.exists_stop h
  rw [byte] at hstop
  cases ht : table s'.cs b with
  | none =>
    rw [ht] at hstop
    exact nomatch hstop
  | some t =>
    rw [ht] at hstop
    dsimp only at hstop
    split_ifs at hstop with hfinal
    injection hstop with hstate
    rw [← hstate, isFinished, Bool.or_eq_true, decide_eq_true_iff]
    exact .inr hfinal

end HttpRequestParser

end FiberServer
