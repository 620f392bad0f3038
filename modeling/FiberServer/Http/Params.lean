import FiberServer.Base.UrlCoding
import FiberServer.Http.HttpParser
import FiberServer.Http.Query

/-!
# Parameters that a client has encoded

A client joins `key=value` with `&`, after `UrlEncode`.  `getParam` and `hasParam` parse the query
when they are called for the first time, and take the keys as they are written; `parseQuery` of the
servlets decodes them.

* `getParam_hasParam`: a request has exactly the parameters of its query, with their values.
* `parseQuery_iff`: `parseQuery` gives the pairs back if and only if no key contains `=`, which
  `UrlEncode` leaves alone.
-/

namespace FiberServer

open Query (CaseMap cut joinParams)

namespace Params

/-- What a request has parsed so far. -/
structure Parsed where
  m_parserParamFlag : UInt8
  m_params : CaseMap

/-- The state after the constructor. -/
def Parsed.new : Parsed := ⟨0, []⟩

def initQueryParam (request : HttpRequest) (s : Parsed) : Parsed :=
  if s.m_parserParamFlag &&& 0x1 ≠ 0 then s
  else ⟨s.m_parserParamFlag ||| 0x1, Query.paramLoop request.m_query 0 s.m_params⟩

def initBodyParam (request : HttpRequest) (s : Parsed) : Parsed :=
  if s.m_parserParamFlag &&& 0x2 ≠ 0 then s
  else
    let content_type := request.getHeader "content-type".toList
    if !strcasestr content_type "application/x-www-form-urlencoded".toList then
      { s with m_parserParamFlag := s.m_parserParamFlag ||| 0x2 }
    else ⟨s.m_parserParamFlag ||| 0x2, Query.paramLoop request.getBody 0 s.m_params⟩

def getParam (request : HttpRequest) (key default : Str) (s : Parsed) : Str × Parsed :=
  let s := initBodyParam request (initQueryParam request s)
  ((s.m_params.lookup key).getD default, s)

/-- The value is the one that goes to `*val`; the parameter is there if there is one. -/
def hasParam (request : HttpRequest) (key : Str) (s : Parsed) : Option Str × Parsed :=
  let s := initBodyParam request (initQueryParam request s)
  (s.m_params.lookup key, s)

/-- The states that calls lead to. -/
inductive Reachable (request : HttpRequest) : Parsed → Prop
  | new : Reachable request .new
  | getParam {s} (key default : Str) :
    Reachable request s → Reachable request (getParam request key default s).2
  | hasParam {s} (key : Str) :
    Reachable request s → Reachable request (hasParam request key s).2

/-- The body of the request has no parameters: it is not declared a form, or it is empty. -/
def NoForm (request : HttpRequest) : Prop :=
  strcasestr (request.getHeader "content-type".toList)
      "application/x-www-form-urlencoded".toList = false
    ∨ request.m_body = []

/-- The query of keys as they are, with encoded values. -/
def query (ps : List (Bytes × Bytes)) : Str :=
  joinParams (ps.map fun p => (ofBytes p.1, ofBytes (UrlCoding.UrlEncode p.2 true)))

/-- The query of encoded keys and values. -/
def encodedQuery (ps : List (Bytes × Bytes)) : Str :=
  joinParams (ps.map fun p =>
    (ofBytes (UrlCoding.UrlEncode p.1 true), ofBytes (UrlCoding.UrlEncode p.2 true)))

/-- The map with the pairs `ps`. -/
def mapOf (ps : List (Bytes × Bytes)) : Query.Map := fun key =>
  (ps.find? fun p => ofBytes p.1 = key).map fun p => ofBytes p.2

/-! ### Bytes as characters -/

theorem toNat_ofNat (b : UInt8) : (Char.ofNat b.toNat).toNat = b.toNat := by
  have hb := b.toNat_lt
  have hvalid : b.toNat.isValidChar := .inl (by omega)
  rw [Char.ofNat, dif_pos hvalid]
  rfl

theorem ofByte_inj {b c : UInt8} : Char.ofNat b.toNat = Char.ofNat c.toNat ↔ b = c := by
  refine ⟨fun h => ?_, fun h => by rw [h]⟩
  rw [← UInt8.toNat_inj, ← toNat_ofNat b, h, toNat_ofNat]

theorem ofBytes_injective : Function.Injective ofBytes :=
  List.map_injective_iff.mpr fun _ _ h => ofByte_inj.mp h

/-- The character of the byte `b` is in a text if and only if the byte is. -/
theorem mem_ofBytes {b : UInt8} {s : Bytes} : Char.ofNat b.toNat ∈ ofBytes s ↔ b ∈ s := by
  refine ⟨fun h => ?_, fun h => List.mem_map_of_mem h⟩
  obtain ⟨c, hc, hbc⟩ := List.mem_map.mp h
  exact ofByte_inj.mp hbc ▸ hc

theorem ofBytes_append (s t : Bytes) : ofBytes (s ++ t) = ofBytes s ++ ofBytes t :=
  List.map_append

theorem ofBytes_cons (b : UInt8) (s : Bytes) :
    ofBytes (b :: s) = Char.ofNat b.toNat :: ofBytes s := rfl

/-- A text without `NUL` is what `c_str` gives. -/
theorem cstr_ofBytes {s : Bytes} (h : 0 ∉ s) : FileSystem.cstr (ofBytes s) = ofBytes s := by
  refine List.takeWhile_eq_self_iff.mpr fun c hc => decide_eq_true ?_
  rintro rfl
  exact h (mem_ofBytes.mp hc)

/-! ### `UrlDecode` of characters and of bytes -/

theorem isxdigit_ofByte : ∀ n < 256,
    UrlCoding.isxdigit (UInt8.ofNat n) = StringUtil.isxdigit (Char.ofNat n) := by
  decide +kernel

theorem xdigit_ofByte : ∀ n < 256, StringUtil.isxdigit (Char.ofNat n) = true →
    UrlCoding.xdigit_chars.getD n 0 = StringUtil.xdigit (Char.ofNat n)
      ∧ StringUtil.xdigit (Char.ofNat n) < 16 := by
  decide +kernel

theorem isxdigit_eq (b : UInt8) :
    UrlCoding.isxdigit b = StringUtil.isxdigit (Char.ofNat b.toNat) := by
  rw [← isxdigit_ofByte b.toNat b.toNat_lt, UInt8.ofNat_toNat]

theorem unescape_eq {a b : UInt8} (ha : UrlCoding.isxdigit a = true)
    (hb : UrlCoding.isxdigit b = true) :
    Char.ofNat (16 * StringUtil.xdigit (Char.ofNat a.toNat)
        + StringUtil.xdigit (Char.ofNat b.toNat))
      = Char.ofNat (UrlCoding.unescape a b).toNat := by
  rw [isxdigit_eq] at ha hb
  obtain ⟨hatable, halt⟩ := xdigit_ofByte a.toNat a.toNat_lt ha
  obtain ⟨hbtable, hblt⟩ := xdigit_ofByte b.toNat b.toNat_lt hb
  rw [UrlCoding.unescape, hatable, hbtable, ← Nat.shiftLeft_add_eq_or_of_lt hblt, Nat.shiftLeft_eq,
    UInt8.toNat_ofNat', Nat.mod_eq_of_lt (by omega), Nat.mul_comm]

theorem UrlDecode_ofByte_cons {c : UInt8} (hplus : c ≠ '+'.toUInt8) (hpercent : c ≠ '%'.toUInt8)
    (s : Str) : StringUtil.UrlDecode (Char.ofNat c.toNat :: s)
      = Char.ofNat c.toNat :: StringUtil.UrlDecode s := by
  rw [StringUtil.UrlDecode]
  · exact fun h => hplus (ofByte_inj.mp h)
  · exact fun a b s' h => absurd (ofByte_inj.mp h) hpercent

/-- The two models of `UrlDecode`. -/
theorem UrlDecode_ofBytes (s : Bytes) :
    StringUtil.UrlDecode (ofBytes s) = ofBytes (UrlCoding.UrlDecode s true) := by
  rw [UrlCoding.UrlDecode_eq]
  fun_induction UrlCoding.decode true s with
  | case1 => rfl
  | case2 c rest hplus ih =>
    rw [hplus.1]
    show StringUtil.UrlDecode ('+' :: ofBytes rest) = _
    rw [StringUtil.UrlDecode, ih]
    rfl
  | case3 c hplus c1 c2 rest' hpercent ih =>
    obtain ⟨rfl, h1, h2⟩ := hpercent
    show StringUtil.UrlDecode
      ('%' :: Char.ofNat c1.toNat :: Char.ofNat c2.toNat :: ofBytes rest') = _
    rw [StringUtil.UrlDecode, ← isxdigit_eq, ← isxdigit_eq, h1, h2, if_pos (by rfl),
      unescape_eq h1 h2, ih]
    rfl
  | case4 c hplus c1 c2 rest' hpercent ih =>
    by_cases hc : c = '%'.toUInt8
    · -- the two that follow are no digits
      subst hc
      have hdigits : ¬ (StringUtil.isxdigit (Char.ofNat c1.toNat)
          && StringUtil.isxdigit (Char.ofNat c2.toNat)) = true := by
        rw [← isxdigit_eq, ← isxdigit_eq, Bool.and_eq_true]
        exact fun h => hpercent ⟨rfl, h⟩
      show StringUtil.UrlDecode
        ('%' :: Char.ofNat c1.toNat :: Char.ofNat c2.toNat :: ofBytes rest') = _
      rw [StringUtil.UrlDecode, if_neg hdigits]
      exact congrArg _ ih
    · rw [ofBytes_cons, UrlDecode_ofByte_cons (fun h => hplus ⟨h, rfl⟩) hc, ih]
      rfl
  | case5 c hplus c1 ih =>
    by_cases hc : c = '%'.toUInt8
    · subst hc
      exact congrArg (List.cons '%') ih
    · rw [ofBytes_cons, UrlDecode_ofByte_cons (fun h => hplus ⟨h, rfl⟩) hc, ih]
      rfl
  | case6 c hplus ih =>
    by_cases hc : c = '%'.toUInt8
    · subst hc
      rfl
    · rw [ofBytes_cons, UrlDecode_ofByte_cons (fun h => hplus ⟨h, rfl⟩) hc, ih]
      rfl

theorem UrlDecode_ofBytes_UrlEncode (s : Bytes) :
    StringUtil.UrlDecode (ofBytes (UrlCoding.UrlEncode s true)) = ofBytes s := by
  rw [UrlDecode_ofBytes, UrlCoding.UrlDecode_eq, UrlCoding.UrlEncode_eq,
    UrlCoding.reads_encode.flatMap]

/-- Encoded texts have no `&`. -/
theorem ampersand_not_mem (s : Bytes) : '&' ∉ ofBytes (UrlCoding.UrlEncode s true) := by
  rw [UrlCoding.UrlEncode_eq]
  intro h
  exact Codes.not_mem_flatMap UrlCoding.ampersand_not_mem_encode s
    (mem_ofBytes (b := '&'.toUInt8).mp h)

/-- Encoded texts have the `=` of the text. -/
theorem equals_mem_iff (s : Bytes) :
    '=' ∈ ofBytes (UrlCoding.UrlEncode s true) ↔ '='.toUInt8 ∈ s := by
  rw [UrlCoding.UrlEncode_eq, ← UrlCoding.marks_encode.mem_flatMap s]
  exact mem_ofBytes (b := '='.toUInt8)

/-! ### `getParam` and `hasParam` -/

/-- The state after the first call, and after each later one. -/
theorem initParams_eq {request : HttpRequest} (h : NoForm request) {s : Parsed}
    (hs : s = .new ∨ s = ⟨3, Query.initQueryParam request.m_query⟩) :
    initBodyParam request (initQueryParam request s)
      = ⟨3, Query.initQueryParam request.m_query⟩ := by
  obtain rfl | rfl := hs
  · have hquery : initQueryParam request .new = ⟨1, Query.initQueryParam request.m_query⟩ := rfl
    rw [hquery, initBodyParam, if_neg (show ¬ (1 : UInt8) &&& 0x2 ≠ 0 by decide)]
    obtain hform | hbody := h
    · simp only [hform]
      rfl
    · -- the loop over an empty body ends at once
      have hempty : ∀ m, Query.paramLoop request.getBody 0 m = m := fun m => by
        rw [Query.paramLoop_eq, HttpRequest.getBody, hbody]
        exact congrArg (List.foldl _ m) (Query.splitParams_nil List.not_mem_nil)
      simp only [hempty]
      split_ifs <;> rfl
  · rw [initQueryParam, if_pos (show (3 : UInt8) &&& 0x1 ≠ 0 by decide), initBodyParam,
      if_pos (show (3 : UInt8) &&& 0x2 ≠ 0 by decide)]

theorem Reachable.initParams {request : HttpRequest} (h : NoForm request) {s : Parsed}
    (hs : Reachable request s) : initBodyParam request (initQueryParam request s)
      = ⟨3, Query.initQueryParam request.m_query⟩ := by
  induction hs with
  | new => exact initParams_eq h (.inl rfl)
  | getParam key default _ ih => exact initParams_eq h (.inr ih)
  | hasParam key _ ih => exact initParams_eq h (.inr ih)

variable {ps : List (Bytes × Bytes)}

theorem splitParams_query (h : ∀ p ∈ ps, '='.toUInt8 ∉ p.1) : splitParams (query ps)
    = ps.map fun p => (ofBytes p.1, ofBytes (UrlCoding.UrlEncode p.2 true)) := by
  refine Query.splitParams_joinParams fun part hpart => ?_
  obtain ⟨p, hp, rfl⟩ := List.mem_map.mp hpart
  exact ⟨fun hkey => h p hp (mem_ofBytes (b := '='.toUInt8).mp hkey), ampersand_not_mem p.2⟩

/-- What is stored for a key. -/
theorem lookup_query (h : ∀ p ∈ ps, '='.toUInt8 ∉ p.1) (key : Str) :
    (Query.initQueryParam (query ps)).lookup key
      = (ps.find? fun p => strcaseeq (ofBytes p.1) key).map fun p => ofBytes p.2 := by
  rw [Query.initQueryParam_eq, splitParams_query h, List.find?_map, Option.map_map]
  congr 1
  funext p
  exact UrlDecode_ofBytes_UrlEncode p.2

/-- Of texts without `NUL`, `CaseInsensitiveLess` tells apart those that differ in more than the
case of letters. -/
theorem strcaseeq_ofBytes {x y : Bytes} (hx : 0 ∉ x) (hy : 0 ∉ y) :
    strcaseeq (ofBytes x) (ofBytes y) = true
      ↔ (ofBytes x).map Char.toLower = (ofBytes y).map Char.toLower := by
  rw [Query.strcaseeq_iff, cstr_ofBytes hx, cstr_ofBytes hy]

/-- **Round trip** of parameters, in every state that calls have left. -/
theorem getParam_hasParam {request : HttpRequest} {s : Parsed}
    (hquery : request.m_query = query ps) (hform : NoForm request) (hs : Reachable request s)
    (hkeys : ∀ p ∈ ps, '='.toUInt8 ∉ p.1 ∧ '&'.toUInt8 ∉ p.1 ∧ 0 ∉ p.1)
    (hdiff : (ps.map fun p => (ofBytes p.1).map Char.toLower).Nodup) :
    (∀ p ∈ ps, ∀ default, (getParam request (ofBytes p.1) default s).1 = ofBytes p.2)
      ∧ ∀ x, 0 ∉ x → ((hasParam request (ofBytes x) s).1.isSome = true
        ↔ ∃ p ∈ ps, (ofBytes p.1).map Char.toLower = (ofBytes x).map Char.toLower) := by
  have hlookup := lookup_query fun p hp => (hkeys p hp).1
  rw [← hquery] at hlookup
  constructor
  · intro p hp default
    have hfind : (ps.find? fun q => strcaseeq (ofBytes q.1) (ofBytes p.1)) = some p := by
      cases hfind : ps.find? fun q => strcaseeq (ofBytes q.1) (ofBytes p.1) with
      | none => exact absurd (Query.strcaseeq_iff.mpr rfl) (List.find?_eq_none.mp hfind p hp)
      | some q =>
        have hq : q ∈ ps := List.mem_of_find?_eq_some hfind
        have hcase := List.find?_some hfind
        rw [strcaseeq_ofBytes (hkeys q hq).2.2 (hkeys p hp).2.2] at hcase
        rw [List.inj_on_of_nodup_map hdiff hq hp hcase]
    show (((initBodyParam request (initQueryParam request s)).m_params.lookup _).getD _) = _
    rw [hs.initParams hform, hlookup, hfind]
    rfl
  · intro x hx
    show ((initBodyParam request (initQueryParam request s)).m_params.lookup _).isSome = true ↔ _
    rw [hs.initParams hform, hlookup, Option.isSome_map, List.find?_isSome]
    constructor
    · rintro ⟨p, hp, hcase⟩
      exact ⟨p, hp, (strcaseeq_ofBytes (hkeys p hp).2.2 hx).mp hcase⟩
    · rintro ⟨p, hp, hcase⟩
      exact ⟨p, hp, (strcaseeq_ofBytes (hkeys p hp).2.2 hx).mpr hcase⟩

/-- `a`, with a value that has the separators, `NUL` and a byte that is no ASCII, and `B`, with an
empty value. -/
def separated : List (Bytes × Bytes) := [([97], [0, 61, 38, 32, 255]), ([66], [])]

theorem getParam_separated :
    (getParam (Query.ofQuery (query separated)) (ofBytes [97]) ['d'] .new).1
        = ofBytes [0, 61, 38, 32, 255]
      ∧ (hasParam (Query.ofQuery (query separated)) (ofBytes [98]) .new).1.isSome = true := by
  obtain ⟨hget, hhas⟩ := getParam_hasParam
    (rfl : (Query.ofQuery (query separated)).m_query = query separated) (.inr rfl) .new
    (by decide) (by decide)
  exact ⟨hget ([97], [0, 61, 38, 32, 255]) (by decide) ['d'],
    (hhas [98] (by decide)).mpr ⟨([66], []), by decide, by decide⟩⟩

/-! ### `parseQuery` -/

/-- A part of an encoded query, cut at the first `=` of the pair. -/
theorem cut_encoded (p : Bytes × Bytes) : ∃ front value,
    p.1 ++ '='.toUInt8 :: p.2 = front ++ '='.toUInt8 :: value ∧ '='.toUInt8 ∉ front
      ∧ cut (ofBytes (UrlCoding.UrlEncode p.1 true) ++ '=' :: ofBytes (UrlCoding.UrlEncode p.2 true))
        = (ofBytes (UrlCoding.UrlEncode front true), ofBytes (UrlCoding.UrlEncode value true)) := by
  obtain ⟨front, value, hpart, hfront⟩ :=
    List.eq_append_cons_of_mem (List.mem_append_right p.1 (List.mem_cons_self (a := '='.toUInt8)))
  -- the `=` between the two is what `UrlEncode` makes of an `=`
  have hencode : ∀ k v : Bytes,
      ofBytes (UrlCoding.UrlEncode k true) ++ '=' :: ofBytes (UrlCoding.UrlEncode v true)
        = ofBytes (UrlCoding.UrlEncode (k ++ '='.toUInt8 :: v) true) := fun k v => by
    rw [UrlCoding.UrlEncode_eq, UrlCoding.UrlEncode_eq, UrlCoding.UrlEncode_eq,
      List.flatMap_append, List.flatMap_cons, UrlCoding.marks_encode.self, ofBytes_append]
    rfl
  refine ⟨front, value, hpart, hfront, ?_⟩
  rw [hencode, hpart, ← hencode]
  exact Query.cut_of_not_mem _ fun h => hfront ((equals_mem_iff front).mp h)

theorem splitParams_encodedQuery (ps : List (Bytes × Bytes)) :
    splitParams (encodedQuery ps) = ps.map fun p =>
      cut (ofBytes (UrlCoding.UrlEncode p.1 true)
        ++ '=' :: ofBytes (UrlCoding.UrlEncode p.2 true)) := by
  rw [encodedQuery, Query.splitParams_joinParams_cut, List.map_map]
  · rfl
  · intro part hpart
    obtain ⟨p, -, rfl⟩ := List.mem_map.mp hpart
    exact ⟨ampersand_not_mem p.1, ampersand_not_mem p.2⟩

/-- No key of the map contains `=`. -/
theorem parseQuery_of_equals_mem (ps : List (Bytes × Bytes)) {key : Bytes} (h : '='.toUInt8 ∈ key) :
    Query.parseQuery (encodedQuery ps) (ofBytes key) = none := by
  rw [Query.parseQuery_eq, splitParams_encodedQuery, Option.map_eq_none_iff, List.find?_eq_none]
  intro part hpart hkey
  obtain ⟨p, -, rfl⟩ := List.mem_map.mp (List.mem_reverse.mp hpart)
  obtain ⟨front, value, -, hfront, hcut⟩ := cut_encoded p
  rw [hcut, decide_eq_true_eq, UrlDecode_ofBytes_UrlEncode] at hkey
  exact hfront (ofBytes_injective hkey ▸ h)

/-- Keys without `=` are taken back. -/
theorem parseQuery_of_equals_not_mem (hdiff : (ps.map Prod.fst).Nodup)
    (h : ∀ p ∈ ps, '='.toUInt8 ∉ p.1) :
    Query.parseQuery (encodedQuery ps) = mapOf ps := by
  funext key
  have hparts : splitParams (encodedQuery ps) = ps.map fun p =>
      (ofBytes (UrlCoding.UrlEncode p.1 true), ofBytes (UrlCoding.UrlEncode p.2 true)) := by
    rw [splitParams_encodedQuery]
    refine List.map_congr_left fun p hp => Query.cut_of_not_mem _ fun hkey => ?_
    exact h p hp ((equals_mem_iff p.1).mp hkey)
  rw [Query.parseQuery_eq, hparts, ← List.map_reverse, List.find?_map, Option.map_map, mapOf]
  have hvalue : ∀ p : Bytes × Bytes, StringUtil.UrlDecode (ofBytes (UrlCoding.UrlEncode p.2 true))
      = ofBytes p.2 := fun p => UrlDecode_ofBytes_UrlEncode p.2
  have hkey : ∀ p : Bytes × Bytes, decide (StringUtil.UrlDecode
      (ofBytes (UrlCoding.UrlEncode p.1 true)) = key) = decide (ofBytes p.1 = key) := fun p => by
    rw [UrlDecode_ofBytes_UrlEncode]
  simp only [Function.comp_def, hvalue, hkey]
  refine Query.find?_reverse_map (fun p hp => rfl) fun p hp q hq hpk hqk => ?_
  have hpq : p.1 = q.1 := ofBytes_injective ((of_decide_eq_true hpk).trans
    (of_decide_eq_true hqk).symm)
  rw [List.inj_on_of_nodup_map hdiff hp hq hpq]

/-- **`parseQuery`** of an encoded query gives the pairs back if and only if no key contains `=`. -/
theorem parseQuery_iff (ps : List (Bytes × Bytes)) (hdiff : (ps.map Prod.fst).Nodup) :
    Query.parseQuery (encodedQuery ps) = mapOf ps ↔ ∀ p ∈ ps, '='.toUInt8 ∉ p.1 := by
  refine ⟨fun hmap p hp hkey => ?_, parseQuery_of_equals_not_mem hdiff⟩
  have hnone := parseQuery_of_equals_mem ps hkey
  rw [hmap, mapOf, Option.map_eq_none_iff, List.find?_eq_none] at hnone
  exact hnone p hp (decide_eq_true rfl)

/-- An `=` in a value does no harm. -/
theorem parseQuery_separated : Query.parseQuery (encodedQuery separated) = mapOf separated :=
  (parseQuery_iff separated (by decide)).mpr (by decide)

/-- The pair of `a=b` and `c`. -/
def equalsKey : List (Bytes × Bytes) := [([97, 61, 98], [99])]

/-- The key `a=b` is not found. -/
theorem parseQuery_equalsKey : (equalsKey.map Prod.fst).Nodup
    ∧ Query.parseQuery (encodedQuery equalsKey) (ofBytes [97, 61, 98]) = none
    ∧ mapOf equalsKey (ofBytes [97, 61, 98]) = some (ofBytes [99])
    ∧ Query.parseQuery (encodedQuery equalsKey) ≠ mapOf equalsKey := by
  have hnone := parseQuery_of_equals_mem equalsKey (show '='.toUInt8 ∈ [97, 61, 98] by decide)
  have hsome : mapOf equalsKey (ofBytes [97, 61, 98]) = some (ofBytes [99]) := by decide
  refine ⟨by decide, hnone, hsome, fun hmap => ?_⟩
  rw [hmap, hsome] at hnone
  exact nomatch hnone

end Params

end FiberServer
