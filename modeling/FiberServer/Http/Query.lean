import FiberServer.Http.Request
import Mathlib.Data.List.Find
import Mathlib.Logic.Function.Basic

/-!
# The two query parsers

`parseQuery` of the servlets and `HttpRequest::initQueryParam` scan a query string by hand.  Both
cut it into the same parts; they differ in what they make of the keys.  `parseQuery` decodes a key
and lets the last value stand, in a map that tells letter cases apart; `initQueryParam` takes the
key as it is written and lets the first value stand, in a map that does not.

* `parsers_agree`: what each parser has for a key, in terms of the parts, and when it is the same.
-/

namespace FiberServer

open FileSystem (cstr)

namespace Query

/-- `std::string::find` -/
def find (str : Str) (c : Char) (pos : Nat) : Option Nat :=
  let i := pos + ((str.drop pos).takeWhile (· ≠ c)).length
  if i < str.length then some i else none

/-- `std::string::substr` -/
def substr (str : Str) (pos n : Nat) : Str := (str.drop pos).take n

/-- What lies before the place that is found, and what begins there. -/
theorem find_eq_some {str : Str} {c : Char} {pos i : Nat} (h : find str c pos = some i) :
    i < str.length ∧ ∃ front rest, str.drop pos = front ++ c :: rest ∧ c ∉ front
      ∧ i = pos + front.length := by
  rw [find] at h
  split_ifs at h with hlt
  obtain rfl := Option.some.inj h
  have hsplit := List.takeWhile_append_dropWhile (p := fun x => decide (x ≠ c)) (l := str.drop pos)
  refine ⟨hlt, _, ((str.drop pos).dropWhile (· ≠ c)).tail, ?_, fun hmem => ?_, rfl⟩
  · cases hrest : (str.drop pos).dropWhile (· ≠ c) with
    | nil =>
      have hlength := congrArg List.length hsplit
      rw [hrest, List.append_nil, List.length_drop] at hlength
      omega
    | cons d rest =>
      have hhead := List.head?_dropWhile_not (fun x => decide (x ≠ c)) (str.drop pos)
      rw [hrest, List.head?_cons] at hhead
      have hd : d = c := by simpa using hhead
      rw [hrest, hd] at hsplit
      exact hsplit.symm
  · have hne := List.mem_takeWhile_imp hmem
    simp at hne

theorem find_eq_none {str : Str} {c : Char} {pos : Nat} (h : find str c pos = none) :
    c ∉ str.drop pos := by
  rw [find] at h
  split_ifs at h with hlt
  have hsplit := List.takeWhile_append_dropWhile (p := fun x => decide (x ≠ c)) (l := str.drop pos)
  have hlength := congrArg List.length hsplit
  rw [List.length_append, List.length_drop] at hlength
  have hnil : (str.drop pos).dropWhile (· ≠ c) = [] := List.length_eq_zero_iff.mp (by omega)
  rw [List.dropWhile_eq_nil_iff] at hnil
  intro hmem
  simpa using hnil c hmem

theorem find_bounds {str : Str} {c : Char} {pos i : Nat} (h : find str c pos = some i) :
    pos ≤ i ∧ i < str.length := by
  obtain ⟨hlt, front, rest, -, -, rfl⟩ := find_eq_some h
  exact ⟨Nat.le_add_right _ _, hlt⟩

/-- `std::map<std::string, std::string>` -/
abbrev Map := Str → Option Str

/-- The loop of `parseQuery`. -/
def parseLoop (query : Str) (pos : Nat) (m : Map) : Map :=
  if pos < query.length then
    match h : find query '=' pos with
    | none => m
    | some eq =>
      let amp := (find query '&' eq).getD query.length
      parseLoop query (amp + 1)
        (Function.update m (StringUtil.UrlDecode (substr query pos (eq - pos)))
          (some (StringUtil.UrlDecode (substr query (eq + 1) (amp - eq - 1)))))
  else m
termination_by query.length - pos
decreasing_by
  obtain ⟨hpos, heq⟩ := find_bounds h
  have hamp : eq ≤ (find query '&' eq).getD query.length := by
    cases hfind : find query '&' eq with
    | none => exact Nat.le_of_lt heq
    | some amp => exact (find_bounds hfind).1
  omega

/-- `parseQuery` of the servlets. -/
def parseQuery (query : Str) : Map := parseLoop query 0 fun _ => none

/-- `std::map<std::string, std::string, CaseInsensitiveLess>`, in the order of the insertions. -/
abbrev CaseMap := List (Str × Str)

namespace CaseMap

def lookup (m : CaseMap) (key : Str) : Option Str :=
  (m.find? fun p => strcaseeq p.1 key).map Prod.snd

/-- `insert` leaves a key alone that is there already. -/
def insert (m : CaseMap) (key value : Str) : CaseMap :=
  if (m.lookup key).isSome then m else m ++ [(key, value)]

end CaseMap

/-- The loop of `PARSE_PARAM`, without trimming. -/
def paramLoop (str : Str) (last : Nat) (m : CaseMap) : CaseMap :=
  match _hkey : find str '=' last with
  | none => m
  | some key =>
    match _hpos : find str '&' key with
    | none => m.insert (substr str last (key - last)) (StringUtil.UrlDecode (str.drop (key + 1)))
    | some pos =>
      paramLoop str (pos + 1)
        (m.insert (substr str last (key - last))
          (StringUtil.UrlDecode (substr str (key + 1) (pos - key - 1))))
termination_by str.length - last
decreasing_by
  have hkey := find_bounds _hkey
  have hpos := find_bounds _hpos
  omega

/-- `HttpRequest::initQueryParam` of a request without parameters so far. -/
def initQueryParam (m_query : Str) : CaseMap := paramLoop m_query 0 []

/-! ### The parts -/

theorem takeWhile_until {c : Char} {front : Str} (rest : Str) (h : c ∉ front) :
    (front ++ c :: rest).takeWhile (· ≠ c) = front
      ∧ (front ++ c :: rest).dropWhile (· ≠ c) = c :: rest := by
  have hfront : ∀ x ∈ front, decide (x ≠ c) = true := fun x hx =>
    decide_eq_true fun hxc => h (hxc ▸ hx)
  constructor
  · rw [List.takeWhile_append_of_pos hfront, List.takeWhile_cons_of_neg (by simp), List.append_nil]
  · rw [List.dropWhile_append_of_pos hfront, List.dropWhile_cons_of_neg (by simp)]

theorem takeWhile_all {c : Char} {str : Str} (h : c ∉ str) :
    str.takeWhile (· ≠ c) = str ∧ str.dropWhile (· ≠ c) = [] := by
  have hall : ∀ x ∈ str, decide (x ≠ c) = true := fun x hx => decide_eq_true fun hxc => h (hxc ▸ hx)
  exact ⟨List.takeWhile_eq_self_iff.mpr hall, List.dropWhile_eq_nil_iff.mpr hall⟩

/-- A character is found behind the text that it is not in. -/
theorem find_first {c : Char} {front : Str} (rest : Str) (h : c ∉ front) :
    find (front ++ c :: rest) c 0 = some front.length := by
  rw [find, List.drop_zero, (takeWhile_until rest h).1]
  simp

theorem find_absent {c : Char} {str : Str} {pos : Nat} (h : c ∉ str.drop pos) :
    find str c pos = none := by
  have hlength : (str.drop pos).length = str.length - pos := List.length_drop
  rw [find, (takeWhile_all h).1]
  simp only [ite_eq_right_iff]
  omega

theorem find_present {c : Char} {str : Str} {pos : Nat} (h : c ∈ str.drop pos) :
    ∃ i, find str c pos = some i := by
  cases hfind : find str c pos with
  | some i => exact ⟨i, rfl⟩
  | none => exact absurd h (find_eq_none hfind)

theorem splitParams_nil {str : Str} (h : '=' ∉ str) : splitParams str = [] := by
  rw [splitParams]
  split
  · rfl
  · rename_i hrest
    rw [(takeWhile_all h).2] at hrest
    cases hrest

theorem splitParams_cons {front rest : Str} (h : '=' ∉ front) :
    splitParams (front ++ '=' :: rest)
      = (front, rest.takeWhile (· ≠ '&')) :: splitParams (rest.dropWhile (· ≠ '&')).tail := by
  obtain ⟨htake, hdrop⟩ := takeWhile_until rest h
  rw [splitParams]
  split
  · rename_i hnil
    rw [hdrop] at hnil
    cases hnil
  · rename_i rest' hrest
    rw [hdrop] at hrest
    obtain ⟨-, rfl⟩ := List.cons.inj hrest
    rw [htake]

/-- What a loop finds is the next part, and where it goes on is the rest. -/
theorem splitParams_find {str : Str} {last key : Nat} (h : find str '=' last = some key) :
    (find str '&' key = none → splitParams (str.drop last)
      = [(substr str last (key - last), str.drop (key + 1))])
      ∧ ∀ pos, find str '&' key = some pos → splitParams (str.drop last)
        = (substr str last (key - last), substr str (key + 1) (pos - key - 1))
          :: splitParams (str.drop (pos + 1)) := by
  obtain ⟨-, front, rest, hdrop, hfront, rfl⟩ := find_eq_some h
  have hat : str.drop (last + front.length) = '=' :: rest := by
    rw [← List.drop_drop, hdrop, List.drop_left]
  have hbehind : str.drop (last + front.length + 1) = rest := by
    rw [← List.drop_drop, hat]
    rfl
  have hkey : substr str last (last + front.length - last) = front := by
    rw [substr, hdrop, Nat.add_sub_cancel_left, List.take_left]
  rw [hdrop, splitParams_cons hfront, hkey, hbehind]
  constructor
  · intro hnone
    have hamp : '&' ∉ rest := fun hmem => find_eq_none hnone (hat ▸ List.mem_cons_of_mem _ hmem)
    rw [(takeWhile_all hamp).1, (takeWhile_all hamp).2]
    exact congrArg _ (splitParams_nil List.not_mem_nil)
  · intro pos hpos
    obtain ⟨-, value, after, hrest, hvalue, rfl⟩ := find_eq_some hpos
    rw [hat] at hrest
    -- the `=` is the first of what comes before the `&`
    cases value with
    | nil => exact absurd (List.cons.inj hrest).1 (by decide)
    | cons c value =>
      rw [List.cons_append] at hrest
      obtain ⟨-, rfl⟩ := List.cons.inj hrest
      have hvalue' : '&' ∉ value := fun hmem => hvalue (List.mem_cons_of_mem c hmem)
      obtain ⟨htake, hdropWhile⟩ := takeWhile_until after hvalue'
      have hlength : last + front.length + (c :: value).length - (last + front.length) - 1
          = value.length := by
        rw [List.length_cons]
        omega
      have hnext : str.drop (last + front.length + (c :: value).length + 1) = after := by
        have hsum : last + front.length + (c :: value).length + 1
            = last + front.length + 1 + (value.length + 1) := by
          rw [List.length_cons]
          omega
        rw [hsum, ← List.drop_drop, hbehind, ← List.drop_drop, List.drop_left]
        rfl
      rw [htake, hdropWhile, List.tail_cons, hlength, hnext, substr, hbehind, List.take_left]

/-! ### A query of given parts -/

/-- The query of the parts `ps`, as a client writes it. -/
def joinParams : List (Str × Str) → Str
  | [] => []
  | [p] => p.1 ++ '=' :: p.2
  | p :: ps => p.1 ++ '=' :: (p.2 ++ '&' :: joinParams ps)

/-- **Round trip.** -/
theorem splitParams_joinParams {ps : List (Str × Str)} (h : ∀ p ∈ ps, '=' ∉ p.1 ∧ '&' ∉ p.2) :
    splitParams (joinParams ps) = ps := by
  induction ps with
  | nil => exact splitParams_nil List.not_mem_nil
  | cons p ps ih =>
    obtain ⟨hkey, hvalue⟩ := h p List.mem_cons_self
    have hrest := ih fun p' hp' => h p' (List.mem_cons_of_mem p hp')
    cases ps with
    | nil =>
      rw [joinParams, splitParams_cons hkey, (takeWhile_all hvalue).1, (takeWhile_all hvalue).2]
      exact congrArg _ hrest
    | cons p' ps =>
      obtain ⟨htake, hdrop⟩ := takeWhile_until (joinParams (p' :: ps)) hvalue
      rw [joinParams, splitParams_cons hkey, htake, hdrop, List.tail_cons, hrest]
      exact nofun

/-- A part is cut at its first `=`. -/
def cut (part : Str) : Str × Str :=
  (part.takeWhile (· ≠ '='), (part.dropWhile (· ≠ '=')).tail)

theorem cut_of_not_mem {key : Str} (value : Str) (h : '=' ∉ key) :
    cut (key ++ '=' :: value) = (key, value) := by
  obtain ⟨htake, hdrop⟩ := takeWhile_until value h
  rw [cut, htake, hdrop, List.tail_cons]

/-- A part at the end of the query, and one in front of others. -/
theorem splitParams_part {part : Str} (heq : '=' ∈ part) (hamp : '&' ∉ part) :
    splitParams part = [cut part]
      ∧ ∀ rest, splitParams (part ++ '&' :: rest) = cut part :: splitParams rest := by
  obtain ⟨front, value, rfl, hfront⟩ := List.eq_append_cons_of_mem heq
  have hvalue : '&' ∉ value := fun hmem =>
    hamp (List.mem_append_right _ (List.mem_cons_of_mem _ hmem))
  rw [cut_of_not_mem value hfront]
  constructor
  · rw [splitParams_cons hfront, (takeWhile_all hvalue).1, (takeWhile_all hvalue).2]
    exact congrArg _ (splitParams_nil List.not_mem_nil)
  · intro rest
    obtain ⟨htake, hdrop⟩ := takeWhile_until rest hvalue
    rw [List.append_assoc, List.cons_append, splitParams_cons hfront, htake, hdrop, List.tail_cons]

/-- What the parsers find in a query whose keys may contain `=`. -/
theorem splitParams_joinParams_cut {ps : List (Str × Str)} (h : ∀ p ∈ ps, '&' ∉ p.1 ∧ '&' ∉ p.2) :
    splitParams (joinParams ps) = ps.map fun p => cut (p.1 ++ '=' :: p.2) := by
  induction ps with
  | nil => exact splitParams_nil List.not_mem_nil
  | cons p ps ih =>
    obtain ⟨hkey, hvalue⟩ := h p List.mem_cons_self
    have hamp : '&' ∉ p.1 ++ '=' :: p.2 := by
      simp only [List.mem_append, List.mem_cons, not_or]
      exact ⟨hkey, by decide, hvalue⟩
    obtain ⟨hend, hfront⟩ :=
      splitParams_part (List.mem_append_right p.1 List.mem_cons_self) hamp
    cases ps with
    | nil => exact hend
    | cons p' ps =>
      have hjoin : joinParams (p :: p' :: ps)
          = (p.1 ++ '=' :: p.2) ++ '&' :: joinParams (p' :: ps) := by
        rw [joinParams, List.append_assoc, List.cons_append]
        exact nofun
      rw [hjoin, hfront, ih fun q hq => h q (List.mem_cons_of_mem p hq)]
      rfl

/-! ### The loops -/

/-- `parseQuery` over the parts. -/
theorem parseLoop_eq (query : Str) (pos : Nat) (m : Map) :
    parseLoop query pos m = (splitParams (query.drop pos)).foldl
      (fun m p => Function.update m (StringUtil.UrlDecode p.1)
        (some (StringUtil.UrlDecode p.2))) m := by
  fun_induction parseLoop query pos m with
  | case1 pos m hpos hnone =>
    rw [splitParams_nil (find_eq_none hnone)]
    rfl
  | case2 pos m hpos eq heq amp ih =>
    obtain ⟨hlast, hmore⟩ := splitParams_find heq
    rw [ih]
    cases hamp : find query '&' eq with
    | none =>
      have hend : amp = query.length := by
        show (find query '&' eq).getD query.length = _
        rw [hamp]
        rfl
      have hrest : splitParams (query.drop (amp + 1)) = [] := by
        rw [List.drop_of_length_le (by omega)]
        exact splitParams_nil List.not_mem_nil
      have hvalue : substr query (eq + 1) (amp - eq - 1) = query.drop (eq + 1) := by
        rw [substr, List.take_of_length_le (by rw [List.length_drop]; omega)]
      rw [hlast hamp, hrest, hvalue]
      rfl
    | some pos' =>
      have hend : amp = pos' := by
        show (find query '&' eq).getD query.length = _
        rw [hamp]
        rfl
      rw [hmore pos' hamp, hend]
      rfl
  | case3 pos m hpos =>
    rw [List.drop_of_length_le (Nat.le_of_not_lt hpos), splitParams_nil List.not_mem_nil]
    rfl

/-- `PARSE_PARAM` over the parts. -/
theorem paramLoop_eq (str : Str) (last : Nat) (m : CaseMap) :
    paramLoop str last m = (splitParams (str.drop last)).foldl
      (fun m p => m.insert p.1 (StringUtil.UrlDecode p.2)) m := by
  fun_induction paramLoop str last m with
  | case1 last m hnone =>
    rw [splitParams_nil (find_eq_none hnone)]
    rfl
  | case2 last m key hkey hnone =>
    rw [(splitParams_find hkey).1 hnone]
    rfl
  | case3 last m key hkey pos hpos ih =>
    rw [(splitParams_find hkey).2 pos hpos, ih]
    rfl

/-! ### What is stored for a key -/

theorem foldl_update_apply (ps : List (Str × Str)) (m : Map) (key : Str) :
    ps.foldl (fun m p => Function.update m (StringUtil.UrlDecode p.1)
        (some (StringUtil.UrlDecode p.2))) m key
      = ((ps.reverse.find? fun p => StringUtil.UrlDecode p.1 = key).map
          fun p => StringUtil.UrlDecode p.2).or (m key) := by
  induction ps generalizing m with
  | nil => rfl
  | cons p ps ih =>
    rw [List.foldl_cons, ih, List.reverse_cons, List.find?_append]
    cases hfind : ps.reverse.find? fun p => decide (StringUtil.UrlDecode p.1 = key) with
    | some p' => rfl
    | none =>
      rw [Option.none_or, List.find?_singleton]
      by_cases hp : StringUtil.UrlDecode p.1 = key
      · rw [if_pos (decide_eq_true hp), hp, Function.update_self]
        rfl
      · rw [if_neg (by simpa using hp), Function.update_of_ne (Ne.symm hp), Option.map_none,
          Option.none_or]

theorem strcaseeq_iff {lhs rhs : Str} :
    strcaseeq lhs rhs = true ↔ (cstr lhs).map Char.toLower = (cstr rhs).map Char.toLower :=
  beq_iff_eq

/-- A key that is there already keeps its value, in whatever case it is looked up. -/
theorem lookup_insert (m : CaseMap) (key value k : Str) :
    (m.insert key value).lookup k
      = (m.lookup k).or (if strcaseeq key k then some value else none) := by
  rw [CaseMap.insert]
  split_ifs with hthere hcase hcase
  · -- the key that is there is found under `k` too
    have hsame : (fun p : Str × Str => strcaseeq p.1 k) = fun p => strcaseeq p.1 key := by
      funext p
      rw [Bool.eq_iff_iff, strcaseeq_iff, strcaseeq_iff, strcaseeq_iff.mp hcase]
    have hlookup : m.lookup k = m.lookup key := by
      rw [CaseMap.lookup, CaseMap.lookup, hsame]
    rw [hlookup]
    obtain ⟨v, hv⟩ := Option.isSome_iff_exists.mp hthere
    rw [hv]
    rfl
  · rw [Option.or_none]
  · rw [CaseMap.lookup, List.find?_append, List.find?_singleton, if_pos hcase, Option.map_or]
    rfl
  · rw [CaseMap.lookup, List.find?_append, List.find?_singleton, if_neg hcase, Option.or_none,
      Option.or_none]
    rfl

theorem foldl_insert_lookup (ps : List (Str × Str)) (m : CaseMap) (key : Str) :
    CaseMap.lookup (ps.foldl (fun m p => m.insert p.1 (StringUtil.UrlDecode p.2)) m) key
      = (m.lookup key).or ((ps.find? fun p => strcaseeq p.1 key).map
          fun p => StringUtil.UrlDecode p.2) := by
  induction ps generalizing m with
  | nil => exact (Option.or_none).symm
  | cons p ps ih =>
    rw [List.foldl_cons, ih, lookup_insert, Option.or_assoc, List.find?_cons]
    cases strcaseeq p.1 key <;> rfl

/-- **`parseQuery`** has the value of the last part whose key is decoded to `key`. -/
theorem parseQuery_eq (query key : Str) :
    Query.parseQuery query key
      = ((splitParams query).reverse.find? fun p => StringUtil.UrlDecode p.1 = key).map
          fun p => StringUtil.UrlDecode p.2 := by
  rw [Query.parseQuery, parseLoop_eq, foldl_update_apply, List.drop_zero, Option.or_none]

/-- **`initQueryParam`** has the value of the first part whose key is `key` up to letter case. -/
theorem initQueryParam_eq (query key : Str) :
    (initQueryParam query).lookup key
      = ((splitParams query).find? fun p => strcaseeq p.1 key).map
          fun p => StringUtil.UrlDecode p.2 := by
  rw [initQueryParam, paramLoop_eq, foldl_insert_lookup, List.drop_zero]
  rfl

/-- The servlets' map, as the servlets' model has it. -/
theorem parseQuery_servlet (query : Str) :
    FiberServer.parseQuery query = Query.parseQuery query := by
  funext key
  rw [parseQuery_eq, FiberServer.parseQuery]
  simp only [← List.map_reverse, List.find?_map, Option.map_map]
  rfl

/-- `getParam` of a request whose body is no form. -/
theorem getParam_eq {request : HttpRequest} (key : Str)
    (hbody : strcasestr (request.getHeader "content-type".toList)
      "application/x-www-form-urlencoded".toList = false) :
    request.getParam key = ((initQueryParam request.m_query).lookup key).getD [] := by
  rw [initQueryParam_eq, HttpRequest.getParam, HttpRequest.m_params, hbody,
    if_neg Bool.false_ne_true, List.append_nil, parseParam, List.find?_map, Option.map_map]
  rfl

/-! ### When they agree -/

/-- The first element that satisfies one predicate and the last that satisfies another are alike if
the predicates are, and all elements that satisfy them. -/
theorem find?_reverse_map {α β : Type} {P Q : α → Bool} {f : α → β} {l : List α}
    (hPQ : ∀ a ∈ l, P a = Q a) (hf : ∀ a ∈ l, ∀ b ∈ l, P a = true → P b = true → f a = f b) :
    (l.reverse.find? P).map f = (l.find? Q).map f := by
  cases hP : l.reverse.find? P with
  | none =>
    have hQ : l.find? Q = none := by
      rw [List.find?_eq_none] at hP ⊢
      intro a ha
      rw [← hPQ a ha]
      exact hP a (List.mem_reverse.mpr ha)
    rw [hQ, Option.map_none]
  | some a =>
    have ha : a ∈ l := List.mem_reverse.mp (List.mem_of_find?_eq_some hP)
    have hPa : P a = true := List.find?_some hP
    cases hQ : l.find? Q with
    | none => exact absurd ((hPQ a ha).symm.trans hPa) (List.find?_eq_none.mp hQ a ha)
    | some b =>
      have hb : b ∈ l := List.mem_of_find?_eq_some hQ
      have hPb : P b = true := (hPQ b hb).trans (List.find?_some hQ)
      exact congrArg some (hf a ha b hb hPa hPb)

/-- If the keys are not encoded, it is the last part with the key. -/
theorem parseQuery_eq_last {query : Str}
    (hkeys : ∀ p ∈ splitParams query, StringUtil.UrlDecode p.1 = p.1) (key : Str) :
    Query.parseQuery query key = ((splitParams query).reverse.find? fun p => p.1 = key).map
      fun p => StringUtil.UrlDecode p.2 := by
  rw [parseQuery_eq]
  congr 1
  refine List.find?_congr fun p hp => ?_
  rw [hkeys p (List.mem_reverse.mp hp)]

/-- **The two parsers**, over a query whose keys are not encoded and in a request whose body is no
form.  `parseQuery` has the value of the last part of the key, the parameters of the request have
that of the first part of the key up to letter case; if all parts of the key up to letter case are
written like it and carry one value, the two are the same, and `getParam` gives it. -/
theorem parsers_agree {request : HttpRequest} (key : Str)
    (hbody : strcasestr (request.getHeader "content-type".toList)
      "application/x-www-form-urlencoded".toList = false)
    (hkeys : ∀ p ∈ splitParams request.m_query, StringUtil.UrlDecode p.1 = p.1) :
    Query.parseQuery request.m_query key
        = ((splitParams request.m_query).reverse.find? fun p => p.1 = key).map
            (fun p => StringUtil.UrlDecode p.2)
      ∧ (initQueryParam request.m_query).lookup key
        = ((splitParams request.m_query).find? fun p => strcaseeq p.1 key).map
            (fun p => StringUtil.UrlDecode p.2)
      ∧ ((∀ p ∈ splitParams request.m_query, strcaseeq p.1 key = true → p.1 = key) →
        (∀ p ∈ splitParams request.m_query, ∀ p' ∈ splitParams request.m_query,
          p.1 = key → p'.1 = key → StringUtil.UrlDecode p.2 = StringUtil.UrlDecode p'.2) →
        Query.parseQuery request.m_query key = (initQueryParam request.m_query).lookup key
          ∧ (Query.parseQuery request.m_query key).getD [] = request.getParam key) := by
  have hlast := parseQuery_eq_last hkeys key
  refine ⟨hlast, initQueryParam_eq _ _, fun hcase hvalue => ?_⟩
  have hagree : Query.parseQuery request.m_query key
      = (initQueryParam request.m_query).lookup key := by
    rw [hlast, initQueryParam_eq]
    refine find?_reverse_map (fun p hp => ?_) fun p hp p' hp' hpk hpk' =>
      hvalue p hp p' hp' (of_decide_eq_true hpk) (of_decide_eq_true hpk')
    rw [Bool.eq_iff_iff, decide_eq_true_eq]
    refine ⟨?_, hcase p hp⟩
    rintro rfl
    exact strcaseeq_iff.mpr rfl
  exact ⟨hagree, by rw [hagree, getParam_eq key hbody]⟩

/-- A request for the query `m_query`. -/
def ofQuery (m_query : Str) : HttpRequest :=
  { m_path := []
    m_query := m_query
    m_headers := []
    m_body := [] }

/-- `a=1&b=x+y` -/
def plainQuery : Str := ['a', '=', '1', '&', 'b', '=', 'x', '+', 'y']

theorem splitParams_plainQuery :
    splitParams plainQuery = [(['a'], ['1']), (['b'], ['x', '+', 'y'])] := by
  have hrest : splitParams (['b'] ++ '=' :: ['x', '+', 'y']) = [(['b'], ['x', '+', 'y'])] := by
    rw [splitParams_cons (by decide)]
    exact congrArg _ (splitParams_nil (by decide))
  show splitParams (['a'] ++ '=' :: ['1', '&', 'b', '=', 'x', '+', 'y']) = _
  rw [splitParams_cons (by decide)]
  exact congrArg _ hrest

theorem parsers_agree_plainQuery :
    Query.parseQuery plainQuery ['b'] = (initQueryParam plainQuery).lookup ['b'] := by
  have hkeys : ∀ p ∈ splitParams (ofQuery plainQuery).m_query, StringUtil.UrlDecode p.1 = p.1 := by
    show ∀ p ∈ splitParams plainQuery, _
    rw [splitParams_plainQuery]
    decide
  refine ((parsers_agree ['b'] (by decide) hkeys).2.2 ?_ ?_).1
  · show ∀ p ∈ splitParams plainQuery, _
    rw [splitParams_plainQuery]
    decide
  · show ∀ p ∈ splitParams plainQuery, ∀ p' ∈ splitParams plainQuery, _
    rw [splitParams_plainQuery]
    decide

/-- `a=1&a=2` -/
def twice : Str := ['a', '=', '1', '&', 'a', '=', '2']

/-- `A=1` -/
def upperCase : Str := ['A', '=', '1']

/-- Of two values `parseQuery` has the last and the request the first; the request finds a key in
another case, and `parseQuery` does not. -/
theorem parsers_differ :
    (Query.parseQuery twice ['a'] = some ['2'] ∧ (ofQuery twice).getParam ['a'] = ['1'])
      ∧ Query.parseQuery upperCase ['a'] = none ∧ (ofQuery upperCase).getParam ['a'] = ['1'] := by
  have hrest : splitParams (['a'] ++ '=' :: ['2']) = [(['a'], ['2'])] := by
    rw [splitParams_cons (by decide)]
    exact congrArg _ (splitParams_nil (by decide))
  have hparts : splitParams twice = [(['a'], ['1']), (['a'], ['2'])] := by
    show splitParams (['a'] ++ '=' :: ['1', '&', 'a', '=', '2']) = _
    rw [splitParams_cons (by decide)]
    exact congrArg _ hrest
  have hpart : splitParams upperCase = [(['A'], ['1'])] := by
    show splitParams (['A'] ++ '=' :: ['1']) = _
    rw [splitParams_cons (by decide)]
    exact congrArg _ (splitParams_nil (by decide))
  refine ⟨⟨?_, ?_⟩, ?_, ?_⟩
  · rw [parseQuery_eq, hparts]
    decide
  · rw [getParam_eq _ (by decide), initQueryParam_eq]
    show (((splitParams twice).find? _).map _).getD [] = _
    rw [hparts]
    decide
  · rw [parseQuery_eq, hpart]
    decide
  · rw [getParam_eq _ (by decide), initQueryParam_eq]
    show (((splitParams upperCase).find? _).map _).getD [] = _
    rw [hpart]
    decide

end Query

end FiberServer
