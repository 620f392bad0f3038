import FiberServer.Http.Request
import FiberServer.Library.Lines

/-!
# `HttpResponse`

What is sent: the status, a map of headers and a list of cookies, and the lines that `dump` writes.

* `HeaderMap`: a header has one entry, whatever the case of its letters.
* `dump_eq`: the text is the status line, the lines of the response and the body.
* `head_dump_iff`: they are read back if and only if no text has the end of a line.
* `dump_framed_iff`: the text frames its body if and only if the map has no `content-length` and no
  name that ends for `strcasecmp` behind `connection`.
-/

namespace FiberServer

open FileSystem (cstr)

/-- The order of `std::map` with `strcasecmp`. -/
def CaseInsensitiveLess (lhs rhs : Str) : Bool :=
  decide ((cstr lhs).map Char.toLower < (cstr rhs).map Char.toLower)

namespace http

/-! ### The map of the headers -/

/-- `std::map<std::string, std::string, CaseInsensitiveLess>`. -/
structure HeaderMap where
  entries : List (Str × Str)
  sorted : entries.Pairwise fun x y => CaseInsensitiveLess x.1 y.1 = true

namespace HeaderMap

/-- `m[key] = val` in the entries; an entry keeps its key. -/
def put (key val : Str) : List (Str × Str) → List (Str × Str)
  | [] => [(key, val)]
  | h :: hs =>
    if CaseInsensitiveLess h.1 key then h :: put key val hs
    else if CaseInsensitiveLess key h.1 then (key, val) :: h :: hs
    else (h.1, val) :: hs

theorem put_nil (key val : Str) : put key val [] = [(key, val)] := rfl

theorem put_behind {key val : Str} {h : Str × Str} {hs : List (Str × Str)}
    (hless : CaseInsensitiveLess h.1 key = true) : put key val (h :: hs) = h :: put key val hs := by
  rw [put, if_pos hless]

theorem put_before {key val : Str} {h : Str × Str} {hs : List (Str × Str)}
    (hless : CaseInsensitiveLess h.1 key = false) (hgreater : CaseInsensitiveLess key h.1 = true) :
    put key val (h :: hs) = (key, val) :: h :: hs := by
  rw [put, if_neg (Bool.eq_false_iff.mp hless), if_pos hgreater]

theorem less_trans {x y z : Str} (hxy : CaseInsensitiveLess x y = true)
    (hyz : CaseInsensitiveLess y z = true) : CaseInsensitiveLess x z = true := by
  simp only [CaseInsensitiveLess, decide_eq_true_eq] at *
  exact List.lt_trans hxy hyz

/-- A key is put behind what comes before it. -/
theorem mem_put {key val : Str} {hs : List (Str × Str)} {x : Str × Str} (hx : x ∈ put key val hs) :
    (∃ h ∈ hs, h.1 = x.1) ∨ x.1 = key := by
  induction hs with
  | nil =>
    rw [put, List.mem_singleton] at hx
    exact .inr (congrArg Prod.fst hx)
  | cons h hs ih =>
    rw [put] at hx
    split_ifs at hx
    · rcases List.mem_cons.mp hx with rfl | hx
      · exact .inl ⟨x, List.mem_cons_self, rfl⟩
      · exact (ih hx).imp (fun ⟨h', hmem, heq⟩ => ⟨h', List.mem_cons_of_mem h hmem, heq⟩) id
    · rcases List.mem_cons.mp hx with rfl | hx
      · exact .inr rfl
      · exact .inl ⟨x, hx, rfl⟩
    · rcases List.mem_cons.mp hx with rfl | hx
      · exact .inl ⟨h, List.mem_cons_self, rfl⟩
      · exact .inl ⟨x, List.mem_cons_of_mem h hx, rfl⟩

theorem sorted_put (key val : Str) {hs : List (Str × Str)}
    (hsorted : hs.Pairwise fun x y => CaseInsensitiveLess x.1 y.1 = true) :
    (put key val hs).Pairwise fun x y => CaseInsensitiveLess x.1 y.1 = true := by
  induction hs with
  | nil => exact List.pairwise_singleton _ _
  | cons h hs ih =>
    obtain ⟨hhead, htail⟩ := List.pairwise_cons.mp hsorted
    rw [put]
    split_ifs with hbefore hafter
    · refine List.pairwise_cons.mpr ⟨fun x hx => ?_, ih htail⟩
      rcases mem_put hx with ⟨h', hmem, heq⟩ | heq
      · exact heq ▸ hhead h' hmem
      · exact heq ▸ hbefore
    · refine List.pairwise_cons.mpr ⟨fun x hx => ?_, hsorted⟩
      rcases List.mem_cons.mp hx with rfl | hx
      · exact hafter
      · exact less_trans hafter (hhead x hx)
    · exact List.pairwise_cons.mpr ⟨hhead, htail⟩

/-- Keys of which neither comes before the other are the same but for case. -/
theorem not_less_iff {x y : Str} :
    CaseInsensitiveLess x y = false ∧ CaseInsensitiveLess y x = false ↔ strcaseeq x y = true := by
  simp only [CaseInsensitiveLess, decide_eq_false_iff_not, strcaseeq, beq_iff_eq]
  constructor
  · rintro ⟨hxy, hyx⟩
    exact List.le_antisymm hyx hxy
  · intro h
    rw [h]
    exact ⟨List.lt_irrefl _, List.lt_irrefl _⟩

/-- **A header has one entry**, whatever the case of its letters. -/
theorem unique (m : HeaderMap) {x y : Str × Str} (hx : x ∈ m.entries) (hy : y ∈ m.entries)
    (h : strcaseeq x.1 y.1 = true) : x = y := by
  have hne : ∀ {x y : Str × Str}, CaseInsensitiveLess x.1 y.1 = true →
      ¬ (strcaseeq x.1 y.1 = true ∨ strcaseeq y.1 x.1 = true) := by
    rintro x y hless (h | h)
    · exact nomatch hless.symm.trans (not_less_iff.mpr h).1
    · exact nomatch hless.symm.trans (not_less_iff.mpr h).2
  refine List.Pairwise.forall_of_forall_of_flip (R := fun x y => strcaseeq x.1 y.1 = true → x = y)
    (fun _ _ _ => rfl) ?_ ?_ hx hy h
  · exact m.sorted.imp fun hless h => absurd (.inl h) (hne hless)
  · exact m.sorted.imp fun hless h => absurd (.inr h) (hne hless)

def empty : HeaderMap := ⟨[], .nil⟩

def set (m : HeaderMap) (key val : Str) : HeaderMap :=
  ⟨put key val m.entries, sorted_put key val m.sorted⟩

/-- `erase` finds the key that is neither before nor behind. -/
def erase (m : HeaderMap) (key : Str) : HeaderMap :=
  ⟨m.entries.filter fun h => CaseInsensitiveLess h.1 key || CaseInsensitiveLess key h.1,
    m.sorted.sublist List.filter_sublist⟩

/-- What is erased is the header of that name. -/
theorem mem_erase {m : HeaderMap} {key : Str} {x : Str × Str} :
    x ∈ (m.erase key).entries ↔ x ∈ m.entries ∧ strcaseeq x.1 key = false := by
  rw [erase, List.mem_filter, ← Bool.not_eq_true (strcaseeq x.1 key), ← not_less_iff]
  cases CaseInsensitiveLess x.1 key <;> cases CaseInsensitiveLess key x.1 <;> simp

end HeaderMap

/-! ### Responses -/

/-- `HTTP_STATUS_MAP`. -/
def statusTexts : List (Nat × String) :=
  [(100, "Continue"), (101, "Switching Protocols"), (102, "Processing"), (200, "OK"),
    (201, "Created"), (202, "Accepted"), (203, "Non-Authoritative Information"),
    (204, "No Content"), (205, "Reset Content"), (206, "Partial Content"), (207, "Multi-Status"),
    (208, "Already Reported"), (226, "IM Used"), (300, "Multiple Choices"),
    (301, "Moved Permanently"), (302, "Found"), (303, "See Other"), (304, "Not Modified"),
    (305, "Use Proxy"), (307, "Temporary Redirect"), (308, "Permanent Redirect"),
    (400, "Bad Request"), (401, "Unauthorized"), (402, "Payment Required"), (403, "Forbidden"),
    (404, "Not Found"), (405, "Method Not Allowed"), (406, "Not Acceptable"),
    (407, "Proxy Authentication Required"), (408, "Request Timeout"), (409, "Conflict"),
    (410, "Gone"), (411, "Length Required"), (412, "Precondition Failed"),
    (413, "Payload Too Large"), (414, "URI Too Long"), (415, "Unsupported Media Type"),
    (416, "Range Not Satisfiable"), (417, "Expectation Failed"), (421, "Misdirected Request"),
    (422, "Unprocessable Entity"), (423, "Locked"), (424, "Failed Dependency"),
    (426, "Upgrade Required"), (428, "Precondition Required"), (429, "Too Many Requests"),
    (431, "Request Header Fields Too Large"), (451, "Unavailable For Legal Reasons"),
    (500, "Internal Server Error"), (501, "Not Implemented"), (502, "Bad Gateway"),
    (503, "Service Unavailable"), (504, "Gateway Timeout"), (505, "HTTP Version Not Supported"),
    (506, "Variant Also Negotiates"), (507, "Insufficient Storage"), (508, "Loop Detected"),
    (510, "Not Extended"), (511, "Network Authentication Required")]
def HttpStatusToString (s : Nat) : Str := ((statusTexts.lookup s).getD "<unknown>").toList

structure HttpResponse where
  m_status : Nat
  m_version : UInt8
  m_close : Bool
  m_websocket : Bool
  m_body : Str
  m_reason : Str
  m_headers : HeaderMap
  m_cookies : List Str

namespace HttpResponse

/-- The constructor. -/
def new (version : UInt8) (close : Bool) : HttpResponse where
  m_status := 200
  m_version := version
  m_close := close
  m_websocket := false
  m_body := []
  m_reason := []
  m_headers := .empty
  m_cookies := []

def setHeader (r : HttpResponse) (key val : Str) : HttpResponse :=
  { r with m_headers := r.m_headers.set key val }

theorem entries_setHeader (r : HttpResponse) (key val : Str) :
    (r.setHeader key val).m_headers.entries = HeaderMap.put key val r.m_headers.entries := rfl

theorem entries_new (version : UInt8) (close : Bool) :
    (new version close).m_headers.entries = [] := rfl

def delHeader (r : HttpResponse) (key : Str) : HttpResponse :=
  { r with m_headers := r.m_headers.erase key }

/-- `os << n`. -/
def digits (n : Nat) : Str := Nat.toDigits 10 n

def crlf : Str := ['\r', '\n']

def statusLine (r : HttpResponse) : Str :=
  "HTTP/".toList ++ digits (r.m_version >>> 4).toNat ++ ".".toList
    ++ digits (r.m_version &&& 0x0F).toNat ++ " ".toList ++ digits r.m_status ++ " ".toList
    ++ if r.m_reason = [] then HttpStatusToString r.m_status else r.m_reason

def headerLine (h : Str × Str) : Str := h.1 ++ ": ".toList ++ h.2

def cookieLine (c : Str) : Str := "Set-Cookie: ".toList ++ c

def connectionLine (r : HttpResponse) : Str :=
  "connection: ".toList ++ (if r.m_close then "close" else "keep-alive").toList

def lengthLine (r : HttpResponse) : Str := "content-length: ".toList ++ digits r.m_body.length

def dump (r : HttpResponse) : Str :=
  r.statusLine ++ crlf
    ++ (r.m_headers.entries.flatMap fun i =>
        if !r.m_websocket && strcaseeq i.1 "connection".toList then [] else headerLine i ++ crlf)
    ++ (r.m_cookies.flatMap fun i => cookieLine i ++ crlf)
    ++ (if !r.m_websocket then r.connectionLine ++ crlf else [])
    ++ r.lengthLine ++ crlf ++ crlf ++ r.m_body

/-! ### The lines -/

/-- The headers of the map that `dump` writes. -/
def written (r : HttpResponse) : List (Str × Str) :=
  r.m_headers.entries.filter fun h => !strcaseeq h.1 "connection".toList

/-- The lines behind the status line. -/
def fieldLines (r : HttpResponse) : List Str :=
  r.written.map headerLine ++ r.m_cookies.map cookieLine ++ [r.connectionLine, r.lengthLine]

theorem flatMap_skip {α β : Type} (p : α → Bool) (f : α → List β) (l : List α) :
    (l.flatMap fun a => if p a then [] else f a) = (l.filter fun a => !p a).flatMap f := by
  induction l with
  | nil => rfl
  | cons a l ih =>
    rw [List.flatMap_cons, ih, List.filter_cons]
    cases p a <;> simp

variable {r : HttpResponse}

/-- **The text is lines**: the status line, the fields, an empty line and the body. -/
theorem dump_eq (hw : r.m_websocket = false) :
    r.dump = Lines.join '\r' '\n' (r.statusLine :: r.fieldLines) ++ '\r' :: '\n' :: r.m_body := by
  have hheaders : (r.m_headers.entries.flatMap fun i =>
        if strcaseeq i.1 "connection".toList then [] else headerLine i ++ crlf)
      = Lines.join '\r' '\n' (r.written.map headerLine) := by
    rw [flatMap_skip, Lines.join, List.flatMap_map]
    rfl
  have hcookies : (r.m_cookies.flatMap fun i => cookieLine i ++ crlf)
      = Lines.join '\r' '\n' (r.m_cookies.map cookieLine) := by
    rw [Lines.join, List.flatMap_map]
    rfl
  rw [dump, fieldLines]
  simp only [hw, Bool.not_false, Bool.true_and, if_true]
  rw [hheaders, hcookies]
  simp [Lines.join, crlf]

/-! ### Framing -/

/-- Without an end of a line. -/
def IsText (s : Str) : Prop := '\r' ∉ s ∧ '\n' ∉ s

/-- The texts of the response are free of CR and LF, the names are names. -/
structure Clean (r : HttpResponse) : Prop where
  reason : IsText r.m_reason
  headers : ∀ h ∈ r.m_headers.entries, IsText h.1 ∧ IsText h.2 ∧ h.1 ≠ [] ∧ ':' ∉ h.1
  cookies : ∀ c ∈ r.m_cookies, IsText c

def lower (s : Str) : Str := s.map Char.toLower

/-- The name of a header line, in lower case. -/
def fieldName (l : Str) : Str := lower (l.takeWhile (· ≠ ':'))

/-- The headers that `dump` writes itself. -/
def reserved : List Str := ["content-length".toList, "connection".toList]

attribute [local instance] lawfulBEq_str

/-- A receiver reads one `content-length`, which is the length of the body, one `connection`, every
other header and cookie of the response once, and the body behind the empty line. -/
def Framed (r : HttpResponse) : Prop :=
  ∃ status fields, Lines.head '\r' '\n' r.dump = some (status :: fields, r.m_body)
    ∧ (fields.filter fun l => fieldName l = "content-length".toList) = [r.lengthLine]
    ∧ (∃ l, (fields.filter fun l => fieldName l = "connection".toList) = [l])
    ∧ (fields.filter fun l => fieldName l ∉ reserved).Perm
        ((r.m_headers.entries.filter fun h => lower h.1 ∉ reserved).map headerLine
          ++ r.m_cookies.map cookieLine)

theorem not_mem_digits {n : Nat} {c : Char} (hc : c.isDigit = false) : c ∉ digits n := by
  intro hmem
  have hdigit := Nat.isDigit_of_mem_toDigits (by decide) (by decide) hmem
  rw [hc] at hdigit
  exact nomatch hdigit

theorem isText_status (s : Nat) : '\n' ∉ HttpStatusToString s := by
  have htexts : ∀ p ∈ statusTexts, '\n' ∉ p.2.toList := by decide +kernel
  rw [HttpStatusToString]
  cases h : statusTexts.lookup s with
  | none => decide
  | some text =>
    obtain ⟨before, after, hlookup, -⟩ := List.lookup_eq_some_iff.mp h
    exact htexts (s, text) (hlookup ▸ by simp)

theorem mem_fieldLines {l : Str} : l ∈ r.fieldLines ↔ (∃ x ∈ r.written, headerLine x = l)
    ∨ (∃ c ∈ r.m_cookies, cookieLine c = l) ∨ l = r.connectionLine ∨ l = r.lengthLine := by
  rw [fieldLines, List.mem_append, List.mem_append, List.mem_map, List.mem_map, List.mem_pair,
    or_assoc]

theorem ne_nil_of_mem_lines : ∀ l ∈ r.statusLine :: r.fieldLines, l ≠ [] := by
  intro l hl
  rcases List.mem_cons.mp hl with rfl | hl
  · exact List.append_ne_nil_of_left_ne_nil (List.append_ne_nil_of_right_ne_nil _ (by decide)) _
  rcases mem_fieldLines.mp hl with ⟨x, -, rfl⟩ | ⟨c, -, rfl⟩ | rfl | rfl
  · exact List.append_ne_nil_of_left_ne_nil (List.append_ne_nil_of_right_ne_nil _ (by decide)) _
  · exact List.append_ne_nil_of_left_ne_nil (by decide) _
  · exact List.append_ne_nil_of_left_ne_nil (by decide) _
  · exact List.append_ne_nil_of_left_ne_nil (by decide) _

theorem not_mem_statusLine (h : '\n' ∉ r.m_reason) : '\n' ∉ r.statusLine := by
  have hreason : '\n' ∉ if r.m_reason = [] then HttpStatusToString r.m_status else r.m_reason := by
    split
    · exact isText_status _
    · exact h
  unfold statusLine
  simp only [List.mem_append, not_or]
  exact ⟨⟨⟨⟨⟨⟨⟨by decide, not_mem_digits (by decide)⟩, by decide⟩, not_mem_digits (by decide)⟩,
    by decide⟩, not_mem_digits (by decide)⟩, by decide⟩, hreason⟩

theorem mem_headerLine {x : Str × Str} : '\n' ∈ headerLine x ↔ '\n' ∈ x.1 ∨ '\n' ∈ x.2 := by
  have hcolon : '\n' ∉ ": ".toList := by decide
  unfold headerLine
  rw [List.mem_append, List.mem_append, or_iff_left hcolon]

theorem mem_cookieLine {c : Str} : '\n' ∈ cookieLine c ↔ '\n' ∈ c := by
  have hname : '\n' ∉ "Set-Cookie: ".toList := by decide
  unfold cookieLine
  rw [List.mem_append, or_iff_right hname]

theorem not_mem_connectionLine (r : HttpResponse) : '\n' ∉ r.connectionLine := by
  unfold connectionLine
  rw [List.mem_append, not_or]
  exact ⟨by decide, by cases r.m_close <;> decide⟩

theorem not_mem_lengthLine (r : HttpResponse) : '\n' ∉ r.lengthLine := by
  unfold lengthLine
  rw [List.mem_append, not_or]
  exact ⟨by decide, not_mem_digits (by decide)⟩

/-- **A receiver reads the lines and the body** that were written if and only if no text that is
written has the end of a line. -/
theorem head_dump_iff (hw : r.m_websocket = false) (hreason : '\n' ∉ r.m_reason) :
    Lines.head '\r' '\n' r.dump = some (r.statusLine :: r.fieldLines, r.m_body)
      ↔ (∀ x ∈ r.written, '\n' ∉ x.1 ∧ '\n' ∉ x.2) ∧ ∀ c ∈ r.m_cookies, '\n' ∉ c := by
  constructor
  · intro h
    have hlines := Lines.not_mem_of_head h
    refine ⟨fun x hx => ?_, fun c hc => ?_⟩
    · rw [← not_or, ← mem_headerLine]
      exact hlines _ (List.mem_cons_of_mem _ (mem_fieldLines.mpr (.inl ⟨x, hx, rfl⟩)))
    · rw [← mem_cookieLine]
      exact hlines _ (List.mem_cons_of_mem _ (mem_fieldLines.mpr (.inr (.inl ⟨c, hc, rfl⟩))))
  · rintro ⟨hheaders, hcookies⟩
    rw [dump_eq hw]
    refine Lines.head_lines (by decide) (fun l hl => ⟨ne_nil_of_mem_lines l hl, ?_⟩) _
    rcases List.mem_cons.mp hl with rfl | hl
    · exact not_mem_statusLine hreason
    rcases mem_fieldLines.mp hl with ⟨x, hx, rfl⟩ | ⟨c, hc, rfl⟩ | rfl | rfl
    · rw [mem_headerLine, not_or]
      exact hheaders x hx
    · rw [mem_cookieLine]
      exact hcookies c hc
    · exact not_mem_connectionLine r
    · exact not_mem_lengthLine r

theorem head_dump (hw : r.m_websocket = false) (h : Clean r) :
    Lines.head '\r' '\n' r.dump = some (r.statusLine :: r.fieldLines, r.m_body) := by
  refine (head_dump_iff hw h.reason.2).mpr ⟨fun x hx => ?_, fun c hc => (h.cookies c hc).2⟩
  obtain ⟨hname, hvalue, -⟩ := h.headers x (List.mem_of_mem_filter hx)
  exact ⟨hname.2, hvalue.2⟩

/-! ### The names of the lines -/

theorem fieldName_append {name rest : Str} (h : ':' ∉ name) :
    fieldName (name ++ ':' :: rest) = lower name := by
  have hname : ∀ c ∈ name, decide (c ≠ ':') = true := by
    intro c hc
    apply decide_eq_true
    rintro rfl
    exact h hc
  rw [fieldName, List.takeWhile_append_of_pos hname, List.takeWhile_cons_of_neg (by simp),
    List.append_nil]

theorem fieldName_headerLine {x : Str × Str} (h : ':' ∉ x.1) :
    fieldName (headerLine x) = lower x.1 := by
  have hline : headerLine x = x.1 ++ ':' :: (' ' :: x.2) := by
    unfold headerLine
    rw [List.append_assoc]
    rfl
  rw [hline, fieldName_append h]

theorem fieldName_cookieLine (c : Str) : fieldName (cookieLine c) = "set-cookie".toList := by
  have hline : cookieLine c = "Set-Cookie".toList ++ ':' :: (' ' :: c) := rfl
  rw [hline, fieldName_append (by decide)]
  decide

theorem fieldName_connectionLine (r : HttpResponse) :
    fieldName r.connectionLine = "connection".toList := by
  have hline : r.connectionLine
      = "connection".toList
        ++ ':' :: (' ' :: (if r.m_close then "close" else "keep-alive").toList) := rfl
  rw [hline, fieldName_append (by decide)]
  decide

theorem fieldName_lengthLine (r : HttpResponse) :
    fieldName r.lengthLine = "content-length".toList := by
  have hline : r.lengthLine = "content-length".toList ++ ':' :: (' ' :: digits r.m_body.length) :=
    rfl
  rw [hline, fieldName_append (by decide)]
  decide

/-- The lines of some names. -/
theorem filter_fieldLines (h : Clean r) (P : Str → Bool) :
    r.fieldLines.filter (fun l => P (fieldName l))
      = (r.written.filter fun x => P (lower x.1)).map headerLine
        ++ (if P "set-cookie".toList then r.m_cookies.map cookieLine else [])
        ++ (if P "connection".toList then [r.connectionLine] else [])
        ++ (if P "content-length".toList then [r.lengthLine] else []) := by
  have hwritten : (r.written.map headerLine).filter (fun l => P (fieldName l))
      = (r.written.filter fun x => P (lower x.1)).map headerLine := by
    rw [List.filter_map]
    refine congrArg _ (List.filter_congr fun x hx => ?_)
    rw [Function.comp_apply, fieldName_headerLine (h.headers x (List.mem_of_mem_filter hx)).2.2.2]
  have hcookies : (r.m_cookies.map cookieLine).filter (fun l => P (fieldName l))
      = if P "set-cookie".toList then r.m_cookies.map cookieLine else [] := by
    rw [List.filter_map]
    simp only [Function.comp_def, fieldName_cookieLine]
    cases P "set-cookie".toList <;> simp
  rw [fieldLines, List.filter_append, List.filter_append, hwritten, hcookies, List.filter_cons,
    List.filter_cons, fieldName_connectionLine, fieldName_lengthLine, List.filter_nil]
  generalize r.connectionLine = connection, r.lengthLine = length,
    (if P "set-cookie".toList then r.m_cookies.map cookieLine else []) = cookies
  cases P "connection".toList <;> cases P "content-length".toList <;> simp

/-! ### When the body is framed -/

theorem lower_cstr_of_lower {s name : Str} (hname : '\x00' ∉ name) (h : lower s = name) :
    cstr s = s := by
  refine FileSystem.cstr_eq_self fun hmem => hname ?_
  rw [← h]
  exact List.mem_map.mpr ⟨_, hmem, by decide⟩

theorem strcaseeq_connection (s : Str) :
    strcaseeq s "connection".toList = true ↔ lower (cstr s) = "connection".toList := by
  have hname : (cstr "connection".toList).map Char.toLower = "connection".toList := by decide
  rw [strcaseeq, hname, beq_iff_eq]
  rfl

theorem mem_reserved {name : Str} :
    name ∈ reserved ↔ name = "content-length".toList ∨ name = "connection".toList := by
  rw [reserved, List.mem_pair]

/-- No name of the map is `content-length`, and what `strcasecmp` takes for `connection` is that
name. -/
def Framable (r : HttpResponse) : Prop :=
  ∀ x ∈ r.m_headers.entries, lower x.1 ≠ "content-length".toList
    ∧ (lower (cstr x.1) = "connection".toList → lower x.1 = "connection".toList)

theorem written_of_contentLength {x : Str × Str} (hx : x ∈ r.m_headers.entries)
    (h : lower x.1 = "content-length".toList) : x ∈ r.written := by
  refine List.mem_filter.mpr ⟨hx, ?_⟩
  rw [Bool.not_eq_true', ← Bool.not_eq_true, strcaseeq_connection,
    lower_cstr_of_lower (by decide) h, h]
  decide

theorem not_written_of_connection {x : Str × Str} (h : lower x.1 = "connection".toList) :
    x ∉ r.written := by
  intro hx
  have hkept := (List.mem_filter.mp hx).2
  rw [Bool.not_eq_true', ← Bool.not_eq_true, strcaseeq_connection,
    lower_cstr_of_lower (by decide) h] at hkept
  exact hkept h

/-- The other headers are all written. -/
theorem perm_others_iff :
    ((r.written.filter fun x => lower x.1 ∉ reserved).map headerLine
        ++ r.m_cookies.map cookieLine).Perm
      ((r.m_headers.entries.filter fun x => lower x.1 ∉ reserved).map headerLine
        ++ r.m_cookies.map cookieLine)
      ↔ ∀ x ∈ r.m_headers.entries, lower x.1 ∉ reserved → x ∈ r.written := by
  have hsub : (r.written.filter fun x => lower x.1 ∉ reserved).Sublist
      (r.m_headers.entries.filter fun x => lower x.1 ∉ reserved) :=
    List.filter_sublist.filter _
  constructor
  · intro hperm x hx hother
    have hlength := hperm.length_eq
    simp only [List.length_append, List.length_map] at hlength
    have heq := hsub.eq_of_length (by omega)
    have hmem : x ∈ r.m_headers.entries.filter fun x => lower x.1 ∉ reserved :=
      List.mem_filter.mpr ⟨hx, by simpa using hother⟩
    rw [← heq] at hmem
    exact List.mem_of_mem_filter hmem
  · intro hall
    have heq : (r.written.filter fun x => lower x.1 ∉ reserved)
        = r.m_headers.entries.filter fun x => lower x.1 ∉ reserved := by
      rw [written, List.filter_filter]
      refine List.filter_congr fun x hx => ?_
      by_cases hother : lower x.1 ∈ reserved
      · simp only [hother, not_true_eq_false, decide_false, Bool.false_and]
      · have hkept := (List.mem_filter.mp (hall x hx hother)).2
        simp only [hother, not_false_eq_true, decide_true, Bool.true_and]
        exact hkept
    rw [heq]

theorem dump_framed_iff (hw : r.m_websocket = false) (h : Clean r) : Framed r ↔ Framable r := by
  have hlength : (r.fieldLines.filter fun l => fieldName l = "content-length".toList)
      = (r.written.filter fun x => lower x.1 = "content-length".toList).map headerLine
        ++ [r.lengthLine] := by
    have hcookie : decide ("set-cookie".toList = "content-length".toList) = false := by decide
    have hconnection : decide ("connection".toList = "content-length".toList) = false := by decide
    rw [filter_fieldLines h fun name => decide (name = "content-length".toList), hcookie,
      hconnection, decide_eq_true rfl]
    simp only [Bool.false_eq_true, if_false, if_true, List.append_nil]
  have hconnection : (r.fieldLines.filter fun l => fieldName l = "connection".toList)
      = [r.connectionLine] := by
    have hnone : (r.written.filter fun x => lower x.1 = "connection".toList) = [] := by
      refine List.filter_eq_nil_iff.mpr fun x hx hname => ?_
      exact not_written_of_connection (of_decide_eq_true hname) hx
    have hcookie : decide ("set-cookie".toList = "connection".toList) = false := by decide
    have hlength : decide ("content-length".toList = "connection".toList) = false := by decide
    rw [filter_fieldLines h fun name => decide (name = "connection".toList), hnone, hcookie,
      hlength, decide_eq_true rfl]
    simp only [Bool.false_eq_true, if_false, if_true, List.append_nil, List.map_nil,
      List.nil_append]
  have hothers : (r.fieldLines.filter fun l => fieldName l ∉ reserved)
      = (r.written.filter fun x => lower x.1 ∉ reserved).map headerLine
        ++ r.m_cookies.map cookieLine := by
    have hcookie : decide ("set-cookie".toList ∉ reserved) = true := by decide
    have hconnection : decide ("connection".toList ∉ reserved) = false := by decide
    have hlength : decide ("content-length".toList ∉ reserved) = false := by decide
    rw [filter_fieldLines h fun name => decide (name ∉ reserved), hcookie, hconnection, hlength]
    simp only [Bool.false_eq_true, if_false, if_true, List.append_nil]
  constructor
  · rintro ⟨status, fields, hhead, hone, -, hperm⟩ x hx
    rw [head_dump hw h] at hhead
    obtain ⟨hlines, -⟩ := Prod.mk.inj (Option.some.inj hhead)
    obtain ⟨rfl, rfl⟩ := List.cons.inj hlines
    rw [hlength] at hone
    rw [hothers, perm_others_iff] at hperm
    have hnone : (r.written.filter fun x => lower x.1 = "content-length".toList) = [] := by
      have hlen := congrArg List.length hone
      rw [List.length_append, List.length_map, List.length_singleton] at hlen
      exact List.length_eq_zero_iff.mp (by omega)
    have hname : lower x.1 ≠ "content-length".toList := by
      intro hname
      have hmem := List.filter_eq_nil_iff.mp hnone x (written_of_contentLength hx hname)
      exact hmem (decide_eq_true hname)
    refine ⟨hname, fun hcstr => ?_⟩
    by_contra hother
    have hreserved : lower x.1 ∉ reserved := fun hmem => (mem_reserved.mp hmem).elim hname hother
    have hkept := (List.mem_filter.mp (hperm x hx hreserved)).2
    rw [Bool.not_eq_true', ← Bool.not_eq_true, strcaseeq_connection] at hkept
    exact hkept hcstr
  · intro hok
    refine ⟨_, _, head_dump hw h, ?_, ⟨_, hconnection⟩, ?_⟩
    · have hnone : (r.written.filter fun x => lower x.1 = "content-length".toList) = [] := by
        refine List.filter_eq_nil_iff.mpr fun x hx hname => ?_
        exact (hok x (List.mem_of_mem_filter hx)).1 (of_decide_eq_true hname)
      rw [hlength, hnone]
      rfl
    · rw [hothers, perm_others_iff]
      intro x hx hother
      refine List.mem_filter.mpr ⟨hx, ?_⟩
      rw [Bool.not_eq_true', ← Bool.not_eq_true, strcaseeq_connection]
      intro hcstr
      exact hother (mem_reserved.mpr (.inr ((hok x hx).2 hcstr)))

/-- A response with one header and three bytes. -/
def sampleResponse (key val : String) : HttpResponse :=
  { (new 0x11 true).setHeader key.toList val.toList with m_body := "abc".toList }

theorem clean_sample {key val : String} (hkey : IsText key.toList) (hval : IsText val.toList)
    (hname : key.toList ≠ [] ∧ ':' ∉ key.toList) : Clean (sampleResponse key val) where
  reason := ⟨List.not_mem_nil, List.not_mem_nil⟩
  headers := by
    intro x hx
    obtain rfl : x = (key.toList, val.toList) := List.mem_singleton.mp hx
    exact ⟨hkey, hval, hname⟩
  cookies := fun _ hc => absurd hc List.not_mem_nil

theorem dump_framed_iff_server : Framed (sampleResponse "Server" "fiber") := by
  have hclean : Clean (sampleResponse "Server" "fiber") :=
    clean_sample ⟨by decide, by decide⟩ ⟨by decide, by decide⟩ ⟨by decide, by decide⟩
  refine (dump_framed_iff rfl hclean).mpr fun x hx => ?_
  obtain rfl : x = ("Server".toList, "fiber".toList) := List.mem_singleton.mp hx
  exact ⟨by decide, by decide⟩

/-- With a length in the map there are two of them. -/
theorem length_twice :
    ¬ ∀ r : HttpResponse, r.m_websocket = false → Clean r → Framed r := by
  intro h
  have hclean : Clean (sampleResponse "Content-Length" "5") :=
    clean_sample ⟨by decide, by decide⟩ ⟨by decide, by decide⟩ ⟨by decide, by decide⟩
  obtain ⟨status, fields, hhead, hone, -⟩ := h _ rfl hclean
  rw [head_dump rfl hclean] at hhead
  obtain ⟨hlines, -⟩ := Prod.mk.inj (Option.some.inj hhead)
  obtain ⟨rfl, rfl⟩ := List.cons.inj hlines
  have htwo : ((sampleResponse "Content-Length" "5").fieldLines.filter
      fun l => fieldName l = "content-length".toList).length = 2 := by decide +kernel
  rw [hone] at htwo
  exact absurd htwo (by decide)

end HttpResponse

end http

end FiberServer
