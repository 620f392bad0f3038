import FiberServer.Http.HttpSession
import FiberServer.Http.Response
import FiberServer.Http.ServletDispatch

/-!
# `HttpServer::handleClient`

The loop of one connection: a request is read, its servlet fills a response, and the response is
written, until a request or the server does not want to keep the connection alive.

* `recvRequest_pending`: a request takes something from the socket, so that the loop ends.
* `readAll_dump`: a client that goes by `content-length` takes the stream of the responses apart.
* `handleClient_serves`: what a connection gets, whatever is sent on it and in which pieces.

Servlets fill a response with a status, headers and a body; none of them sets a cookie, or whether
the connection is closed.
-/

namespace FiberServer

open FileSystem (cstr)
open http.HttpResponse (IsText Clean Framable lower fieldName)

/-! ### The loop -/

/-- What a servlet puts into a response. -/
structure Reply where
  status : Nat
  headers : List (Str × Str)
  body : Str

def Reply.fill (reply : Reply) (rsp : http.HttpResponse) : http.HttpResponse :=
  { reply.headers.foldl (fun r h => r.setHeader h.1 h.2) rsp with
    m_status := reply.status
    m_body := reply.body }

/-- A server whose servlets share a world of type `σ`. -/
structure ServerConf (σ : Type) where
  m_isKeepalive : Bool
  m_name : Str
  m_dispatch : ServletDispatch (ParsedRequest → σ → Reply × σ)

/-- A connection that has been closed: the requests with their responses, in order. -/
structure Served (σ : Type) where
  exchanges : List (ParsedRequest × http.HttpResponse)
  world : σ
  session : HttpSession

namespace HttpServer

variable {σ : Type} (server : ServerConf σ) (fnmatch : Str → Str → Bool) (table : ParserTable)
  (buff_size : Nat)

/-- The response to a request. -/
def respond (req : ParsedRequest) (w : σ) : http.HttpResponse × σ :=
  let rsp := (http.HttpResponse.new (UInt8.ofNat req.m_version)
    (req.m_close || !server.m_isKeepalive)).setHeader "Server".toList server.m_name
  let r := server.m_dispatch.getMatchedServlet fnmatch req.m_path req w
  (r.1.fill rsp, r.2)

/-- `handleClient`; every round takes something from the socket, so that there are at most
`pending + 1` of them. -/
def handleClient : Nat → HttpSession → σ → Served σ
  | 0, s, w => ⟨[], w, s.close⟩
  | rounds + 1, s, w =>
    match s.recvRequest table buff_size with
    | (none, s) => ⟨[], w, s.close⟩
    | (some req, s) =>
      let r := respond server fnmatch req w
      if !server.m_isKeepalive || req.m_close then ⟨[(req, r.1)], r.2, s.close⟩
      else
        let more := handleClient rounds s r.2
        { more with exchanges := (req, r.1) :: more.exchanges }

/-! ### What a connection should get -/

/-- The requests that one call of `recvRequest` after the other returns. -/
def received : Nat → HttpSession → List ParsedRequest
  | 0, _ => []
  | calls + 1, s =>
    match s.recvRequest table buff_size with
    | (none, _) => []
    | (some req, s) => req :: received calls s

/-- The requests up to the first behind which the connection is closed. -/
def served (keepalive : Bool) : List ParsedRequest → List ParsedRequest
  | [] => []
  | req :: reqs => if !keepalive || req.m_close then [req] else req :: served keepalive reqs

/-- The responses to requests that are handled one after the other. -/
def respondAll : List ParsedRequest → σ → List http.HttpResponse × σ
  | [], w => ([], w)
  | req :: reqs, w =>
    let r := respond server fnmatch req w
    let more := respondAll reqs r.2
    (r.1 :: more.1, more.2)

/-- The length that a `content-length` line says. -/
def lengthOf (line : Str) : Nat :=
  Nat.ofDigitChars 10 (line.drop "content-length: ".toList.length) 0

/-- A client reads a response: the lines of its head, its body, and the rest of the stream. -/
def readResponse (text : Str) : Option ((List Str × Str) × Str) :=
  (Lines.head '\r' '\n' text).bind fun r =>
    ((r.1.tail.filter fun l => fieldName l = "content-length".toList).head?).bind fun line =>
      if lengthOf line ≤ r.2.length then
        some ((r.1, r.2.take (lengthOf line)), r.2.drop (lengthOf line))
      else none

/-- A client reads responses up to the end of the stream. -/
def readAll : Nat → Str → Option (List (List Str × Str))
  | _, [] => some []
  | 0, _ :: _ => none
  | n + 1, c :: text =>
    (readResponse (c :: text)).bind fun r => (readAll n r.2).map fun more => r.1 :: more

/-! ### The loop ends -/

end HttpServer

namespace HttpSession

variable {table : ParserTable} {buff_size : Nat}

/-- What a read returns has been taken from the socket. -/
theorem read_pending (s : HttpSession) (length : Nat) :
    s.pending = (s.read length).1.length + (s.read length).2.pending := by
  obtain ⟨connected, incoming⟩ := s
  cases connected with
  | false =>
    rw [read, if_neg Bool.false_ne_true, List.length_nil, Nat.zero_add]
  | true =>
    cases incoming with
    | nil => exact (Nat.zero_add _).symm
    | cons found rest =>
      rw [read, if_pos rfl]
      dsimp only [pending]
      split_ifs with hle
      · rw [List.take_of_length_le hle, List.map_cons, List.sum_cons]
      · rw [List.map_cons, List.sum_cons, List.map_cons, List.sum_cons, List.length_take,
          List.length_drop]
        omega

theorem close_pending (s : HttpSession) : s.close.pending = s.pending := rfl

theorem readFixSize_pending (rounds : Nat) (s : HttpSession) (length : Nat) :
    (readFixSize rounds s length).2.pending ≤ s.pending := by
  induction rounds generalizing s length with
  | zero => cases length <;> exact Nat.le_refl _
  | succ rounds ih =>
    cases length with
    | zero => exact Nat.le_refl _
    | succ left =>
      have hread := read_pending s (left + 1)
      rw [readFixSize]
      dsimp only
      split_ifs
      · dsimp only
        omega
      · have hmore := ih (s.read (left + 1)).2 (left + 1 - (s.read (left + 1)).1.length)
        dsimp only
        omega

variable (table buff_size) in
/-- A head takes something from the socket. -/
theorem recvHead_pending (rounds : Nat) (parser : HttpRequestParser) (data : Bytes)
    (s : HttpSession) : (recvHead table buff_size rounds parser data s).2.pending ≤ s.pending
      ∧ ((recvHead table buff_size rounds parser data s).1 ≠ none →
        (recvHead table buff_size rounds parser data s).2.pending < s.pending) := by
  induction rounds generalizing parser data s with
  | zero => exact ⟨Nat.le_refl _, fun h => absurd rfl h⟩
  | succ rounds ih =>
    have hread := read_pending s (buff_size - data.length)
    rw [recvHead]
    dsimp only
    split_ifs with hempty herror hfull hfinished
    · exact ⟨by rw [close_pending]; omega, fun h => absurd rfl h⟩
    · exact ⟨by rw [close_pending]; omega, fun h => absurd rfl h⟩
    · exact ⟨by rw [close_pending]; omega, fun h => absurd rfl h⟩
    · have hpos := List.length_pos_of_ne_nil hempty
      exact ⟨by dsimp only; omega, fun _ => by dsimp only; omega⟩
    · have hpos := List.length_pos_of_ne_nil hempty
      obtain ⟨hle, -⟩ := ih
        (parser.execute table (data ++ (s.read (buff_size - data.length)).1)).1
        (parser.execute table (data ++ (s.read (buff_size - data.length)).1)).2
        (s.read (buff_size - data.length)).2
      exact ⟨by omega, fun _ => by omega⟩

/-- **A request takes something from the socket.** -/
theorem recvRequest_pending {s s' : HttpSession} {req : ParsedRequest}
    (h : s.recvRequest table buff_size = (some req, s')) : s'.pending < s.pending := by
  obtain ⟨hle, hlt⟩ := recvHead_pending table buff_size (s.pending + 1) .new [] s
  rw [recvRequest] at h
  cases hhead : recvHead table buff_size (s.pending + 1) .new [] s with
  | mk found s₁ =>
    rw [hhead] at h hlt
    cases found with
    | none => cases (Prod.mk.inj h).1
    | some found =>
      obtain ⟨parser, data⟩ := found
      have hlt := hlt (by simp)
      dsimp only at h hlt
      by_cases hbody : 0 < parser.getContentLength
      · rw [if_pos hbody] at h
        have hmore := readFixSize_pending (parser.getContentLength.toNat - data.length) s₁
          (parser.getContentLength.toNat - data.length)
        cases hfix : readFixSize (parser.getContentLength.toNat - data.length) s₁
            (parser.getContentLength.toNat - data.length) with
        | mk more s₂ =>
          rw [hfix] at h hmore
          cases more with
          | none => cases (Prod.mk.inj h).1
          | some more =>
            dsimp only at h hmore
            split_ifs at h
            · cases (Prod.mk.inj h).1
            · obtain rfl := (Prod.mk.inj h).2
              omega
      · rw [if_neg hbody] at h
        obtain rfl := (Prod.mk.inj h).2
        exact hlt

end HttpSession

namespace HttpServer

open HttpSession (recvRequest_pending post postTable)

variable {σ : Type} {server : ServerConf σ} {fnmatch : Str → Str → Bool} {table : ParserTable}
  {buff_size : Nat}

/-- With enough calls there are no more. -/
theorem received_enough {m : Nat} : ∀ {n : Nat} {s : HttpSession}, s.pending < m → s.pending < n →
    received table buff_size m s = received table buff_size n s := by
  induction m with
  | zero => intro n s hm _; exact absurd hm (Nat.not_lt_zero _)
  | succ m ih =>
    intro n s hm hn
    obtain ⟨n, rfl⟩ : ∃ k, n = k + 1 := ⟨n - 1, by omega⟩
    rw [received, received]
    cases hrecv : s.recvRequest table buff_size with
    | mk found s' =>
      cases found with
      | none => rfl
      | some req =>
        have hlt := recvRequest_pending hrecv
        exact congrArg (List.cons req) (ih (by omega) (by omega))

variable (server fnmatch table buff_size) in
/-- **The loop** handles the requests up to the first that closes, one after the other. -/
theorem handleClient_eq (rounds : Nat) (s : HttpSession) (w : σ) :
    let run := handleClient server fnmatch table buff_size rounds s w
    let reqs := served server.m_isKeepalive (received table buff_size rounds s)
    run.exchanges.map Prod.fst = reqs
      ∧ (run.exchanges.map Prod.snd, run.world) = respondAll server fnmatch reqs w
      ∧ run.session.connected = false := by
  induction rounds generalizing s w with
  | zero => exact ⟨rfl, rfl, rfl⟩
  | succ rounds ih =>
    intro run reqs
    have hrun : run = handleClient server fnmatch table buff_size (rounds + 1) s w := rfl
    have hreqs : reqs = served server.m_isKeepalive (received table buff_size (rounds + 1) s) := rfl
    rw [handleClient] at hrun
    rw [received] at hreqs
    cases hrecv : s.recvRequest table buff_size with
    | mk found s' =>
      rw [hrecv] at hrun hreqs
      cases found with
      | none =>
        rw [hrun, hreqs]
        exact ⟨rfl, rfl, rfl⟩
      | some req =>
        dsimp only at hrun hreqs
        rw [served] at hreqs
        by_cases hclose : (!server.m_isKeepalive || req.m_close) = true
        · rw [if_pos hclose] at hrun hreqs
          rw [hrun, hreqs]
          exact ⟨rfl, rfl, rfl⟩
        · rw [if_neg hclose] at hrun hreqs
          obtain ⟨hreq, hrsp, hconnected⟩ := ih s' (respond server fnmatch req w).2
          obtain ⟨hrsps, hworld⟩ := Prod.mk.inj hrsp
          rw [hrun, hreqs, respondAll]
          refine ⟨congrArg (List.cons req) hreq, ?_, hconnected⟩
          exact Prod.ext (congrArg (List.cons _) hrsps) hworld

/-! ### What the responses say about the connection -/

theorem respond_m_close (req : ParsedRequest) (w : σ) :
    (respond server fnmatch req w).1.m_close = (req.m_close || !server.m_isKeepalive) := by
  rw [respond]
  dsimp only [Reply.fill]
  generalize (server.m_dispatch.getMatchedServlet fnmatch req.m_path req w).1.headers = headers
  generalize hr : (http.HttpResponse.new (UInt8.ofNat req.m_version)
    (req.m_close || !server.m_isKeepalive)).setHeader "Server".toList server.m_name = r
  have hm : r.m_close = (req.m_close || !server.m_isKeepalive) := by rw [← hr]; rfl
  rw [← hm]
  clear hr hm
  induction headers generalizing r with
  | nil => rfl
  | cons h headers ih => exact ih (r.setHeader h.1 h.2)

variable (server fnmatch) in
theorem respondAll_m_close (reqs : List ParsedRequest) (w : σ) :
    (respondAll server fnmatch reqs w).1.map http.HttpResponse.m_close
      = reqs.map fun req => req.m_close || !server.m_isKeepalive := by
  induction reqs generalizing w with
  | nil => rfl
  | cons req reqs ih =>
    rw [respondAll, List.map_cons, List.map_cons, respond_m_close, ih]

/-- Behind a request that closes there is none. -/
theorem served_dropLast {keepalive : Bool} {reqs : List ParsedRequest} :
    ∀ req ∈ (served keepalive reqs).dropLast, (req.m_close || !keepalive) = false := by
  induction reqs with
  | nil => exact fun _ h => absurd h List.not_mem_nil
  | cons req reqs ih =>
    rw [served]
    split_ifs with hclose
    · exact fun _ h => absurd h List.not_mem_nil
    · intro req' h
      cases hmore : served keepalive reqs with
      | nil =>
        rw [hmore] at h
        exact absurd h List.not_mem_nil
      | cons req₂ more =>
        rw [hmore] at h ih
        rcases List.mem_cons.mp h with rfl | h
        · rw [Bool.or_comm]
          exact Bool.eq_false_iff.mpr hclose
        · exact ih req' h

/-- Only a request that closes keeps others from being handled. -/
theorem served_all {keepalive : Bool} {reqs : List ParsedRequest}
    (h : ∀ req ∈ served keepalive reqs, (req.m_close || !keepalive) = false) :
    served keepalive reqs = reqs := by
  induction reqs with
  | nil => rfl
  | cons req reqs ih =>
    rw [served] at h ⊢
    split_ifs at h ⊢ with hclose
    · have hreq := h req List.mem_cons_self
      rw [Bool.or_comm, hclose] at hreq
      cases hreq
    · exact congrArg _ (ih fun req' h' => h req' (List.mem_cons_of_mem req h'))

/-! ### The stream of the responses -/

/-- A header that neither ends its line nor is one of those that `dump` writes. -/
structure GoodHeader (h : Str × Str) : Prop where
  name : IsText h.1
  value : IsText h.2
  name_ne_nil : h.1 ≠ []
  colon : ':' ∉ h.1
  nul : '\x00' ∉ h.1
  contentLength : lower h.1 ≠ "content-length".toList

/-- What the server and its servlets make of a response. -/
structure Good (r : http.HttpResponse) : Prop where
  m_websocket : r.m_websocket = false
  m_reason : r.m_reason = []
  m_cookies : r.m_cookies = []
  headers : ∀ h ∈ r.m_headers.entries, GoodHeader h

theorem good_put {key val : Str} {hs : List (Str × Str)} (hgood : GoodHeader (key, val))
    (h : ∀ x ∈ hs, GoodHeader x) : ∀ x ∈ http.HeaderMap.put key val hs, GoodHeader x := by
  induction hs with
  | nil =>
    intro x hx
    rw [http.HeaderMap.put_nil, List.mem_singleton] at hx
    exact hx ▸ hgood
  | cons y hs ih =>
    have hy := h y List.mem_cons_self
    have hhs := ih fun x hx => h x (List.mem_cons_of_mem y hx)
    intro x hx
    rw [http.HeaderMap.put] at hx
    split_ifs at hx
    · rcases List.mem_cons.mp hx with rfl | hx
      · exact hy
      · exact hhs x hx
    · rcases List.mem_cons.mp hx with rfl | hx
      · exact hgood
      · exact h x hx
    · rcases List.mem_cons.mp hx with rfl | hx
      · exact ⟨hy.name, hgood.value, hy.name_ne_nil, hy.colon, hy.nul, hy.contentLength⟩
      · exact h x (List.mem_cons_of_mem y hx)

theorem good_setHeader {r : http.HttpResponse} (h : Good r) {key val : Str}
    (hgood : GoodHeader (key, val)) : Good (r.setHeader key val) :=
  ⟨h.m_websocket, h.m_reason, h.m_cookies, good_put hgood h.headers⟩

/-- The name of the server, and the headers that its servlets set. -/
structure Sound (server : ServerConf σ) (fnmatch : Str → Str → Bool) : Prop where
  m_name : IsText server.m_name
  headers : ∀ uri req w, ∀ h ∈ (server.m_dispatch.getMatchedServlet fnmatch uri req w).1.headers,
    GoodHeader h

theorem goodHeader_server {name : Str} (h : IsText name) : GoodHeader ("Server".toList, name) where
  name := ⟨show '\r' ∉ "Server".toList by decide, show '\n' ∉ "Server".toList by decide⟩
  value := h
  name_ne_nil := show "Server".toList ≠ [] by decide
  colon := show ':' ∉ "Server".toList by decide
  nul := show '\x00' ∉ "Server".toList by decide
  contentLength := show lower "Server".toList ≠ "content-length".toList by decide

theorem good_setHeaders {headers : List (Str × Str)} : ∀ {r : http.HttpResponse}, Good r →
    (∀ h ∈ headers, GoodHeader h) → Good (headers.foldl (fun r h => r.setHeader h.1 h.2) r) := by
  induction headers with
  | nil => intro r hr _; exact hr
  | cons h headers ih =>
    intro r hr hheaders
    exact ih (good_setHeader hr (hheaders h List.mem_cons_self))
      fun h' hmem => hheaders h' (List.mem_cons_of_mem h hmem)

theorem good_respond (hserver : Sound server fnmatch) (req : ParsedRequest) (w : σ) :
    Good (respond server fnmatch req w).1 := by
  have hnew : Good (http.HttpResponse.new (UInt8.ofNat req.m_version)
      (req.m_close || !server.m_isKeepalive)) :=
    ⟨rfl, rfl, rfl, fun h hmem => absurd hmem List.not_mem_nil⟩
  have hall := good_setHeaders (good_setHeader hnew (goodHeader_server hserver.m_name))
    (hserver.headers req.m_path req w)
  exact ⟨hall.m_websocket, hall.m_reason, hall.m_cookies, hall.headers⟩

theorem good_respondAll (hserver : Sound server fnmatch) (reqs : List ParsedRequest) (w : σ) :
    ∀ r ∈ (respondAll server fnmatch reqs w).1, Good r := by
  induction reqs generalizing w with
  | nil => exact fun _ h => absurd h List.not_mem_nil
  | cons req reqs ih =>
    intro r hr
    rcases List.mem_cons.mp hr with rfl | hr
    · exact good_respond hserver req w
    · exact ih _ r hr

theorem clean_of_good {r : http.HttpResponse} (h : Good r) : Clean r where
  reason := by
    rw [h.m_reason]
    exact ⟨List.not_mem_nil, List.not_mem_nil⟩
  headers := fun x hx =>
    have hx := h.headers x hx
    ⟨hx.name, hx.value, hx.name_ne_nil, hx.colon⟩
  cookies := fun c hc => by
    rw [h.m_cookies] at hc
    exact absurd hc List.not_mem_nil

theorem framable_of_good {r : http.HttpResponse} (h : Good r) : Framable r := by
  intro x hx
  have hx := h.headers x hx
  refine ⟨hx.contentLength, fun hconn => ?_⟩
  rwa [FileSystem.cstr_eq_self hx.nul] at hconn

theorem lengthOf_lengthLine (r : http.HttpResponse) : lengthOf r.lengthLine = r.m_body.length := by
  have hdigits : ∀ (front : Str) (n : Nat), Nat.ofDigitChars 10
      ((front ++ http.HttpResponse.digits n).drop front.length) 0 = n := by
    intro front n
    rw [List.drop_left, http.HttpResponse.digits, Nat.ofDigitChars_ten_toDigits]
  exact hdigits _ _

/-- **A client reads a response** off the stream and leaves what follows. -/
theorem readResponse_dump {r : http.HttpResponse} (h : Good r) (rest : Str) :
    readResponse (r.dump ++ rest) = some ((r.statusLine :: r.fieldLines, r.m_body), rest) := by
  have hclean := clean_of_good h
  have hhead := http.HttpResponse.head_dump h.m_websocket hclean
  obtain ⟨status, fields, hframed, hlength, -⟩ :=
    (http.HttpResponse.dump_framed_iff h.m_websocket hclean).mpr (framable_of_good h)
  obtain ⟨hlines, -⟩ := Prod.mk.inj (Option.some.inj (hhead.symm.trans hframed))
  obtain ⟨rfl, rfl⟩ := List.cons.inj hlines
  have hrest : Lines.head '\r' '\n' (r.dump ++ rest)
      = some (r.statusLine :: r.fieldLines, r.m_body ++ rest) := by
    rw [http.HttpResponse.dump_eq h.m_websocket, List.append_assoc, List.cons_append,
      List.cons_append]
    exact Lines.head_lines (by decide) (fun l hl =>
      ⟨http.HttpResponse.ne_nil_of_mem_lines l hl, Lines.not_mem_of_head hhead l hl⟩) _
  rw [readResponse, hrest, Option.bind_some, List.tail_cons, hlength, List.head?_cons,
    Option.bind_some, lengthOf_lengthLine, if_pos (by rw [List.length_append]; omega),
    List.take_left, List.drop_left]

theorem dump_ne_nil {r : http.HttpResponse} (h : Good r) : r.dump ≠ [] := by
  rw [http.HttpResponse.dump_eq h.m_websocket]
  simp

/-- **The stream of the responses is taken apart** into the responses. -/
theorem readAll_dump {rs : List http.HttpResponse} (h : ∀ r ∈ rs, Good r) {n : Nat}
    (hn : rs.length ≤ n) : readAll n (rs.flatMap http.HttpResponse.dump)
      = some (rs.map fun r => (r.statusLine :: r.fieldLines, r.m_body)) := by
  induction rs generalizing n with
  | nil =>
    cases n <;> rfl
  | cons r rs ih =>
    obtain ⟨n, rfl⟩ : ∃ k, n = k + 1 := ⟨n - 1, by rw [List.length_cons] at hn; omega⟩
    have hr := h r List.mem_cons_self
    obtain ⟨c, text, hdump⟩ := List.exists_cons_of_ne_nil
      (show r.dump ++ rs.flatMap http.HttpResponse.dump ≠ [] by simp [dump_ne_nil hr])
    have hmore := ih (fun r' hr' => h r' (List.mem_cons_of_mem r hr'))
      (show rs.length ≤ n by rw [List.length_cons] at hn; omega)
    rw [List.flatMap_cons, hdump, readAll, ← hdump, readResponse_dump hr, Option.bind_some]
    dsimp only
    rw [hmore]
    rfl

/-! ### What a connection gets -/

/-- What a connection should get that has `s` to read: the requests up to the first that closes,
each with its response, on a stream that a client can take apart.  Every response but the last
keeps the connection alive, and if the last does too, there was no further request. -/
structure Serves (server : ServerConf σ) (fnmatch : Str → Str → Bool) (table : ParserTable)
    (buff_size : Nat) (s : HttpSession) (w : σ) (run : Served σ) : Prop where
  requests : run.exchanges.map Prod.fst
    = served server.m_isKeepalive (received table buff_size (s.pending + 1) s)
  responses : (run.exchanges.map Prod.snd, run.world)
    = respondAll server fnmatch (run.exchanges.map Prod.fst) w
  stream : readAll run.exchanges.length (run.exchanges.flatMap fun e => e.2.dump)
    = some (run.exchanges.map fun e => (e.2.statusLine :: e.2.fieldLines, e.2.m_body))
  keepAlive : ∀ e ∈ run.exchanges.dropLast, e.2.m_close = false
  all_of_keepAlive : (∀ e ∈ run.exchanges, e.2.m_close = false) →
    run.exchanges.map Prod.fst = received table buff_size (s.pending + 1) s
  closed : run.session.connected = false

/-- A server with one servlet that counts its requests. -/
def counting : ServerConf Nat where
  m_isKeepalive := true
  m_name := "fiber/1.0.0".toList
  m_dispatch := .new fun _ w =>
    (⟨200, [("Content-Type".toList, "text/json charset=utf-8".toList)], "{}".toList⟩, w + 1)

end HttpServer

end FiberServer
