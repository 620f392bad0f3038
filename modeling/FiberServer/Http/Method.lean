import FiberServer.Http.HttpParser

/-!
# Method tokens

The grammar of a request line has `Method = ( upper | digit ){1,20}`, the names are in
`HTTP_METHOD_MAP`, and `CharsToHttpMethod` compares the names with what lies in the buffer, as far
as the name goes.

* `CharsToHttpMethod_eq_some_iff`: it finds the name that the buffer begins with; there is at most
  one.
* `method_recognised_iff`: a token is recognised exactly if and only if it does not go on behind a
  name, and a printed name is a token that gives its method, but for `M-SEARCH`.
-/

namespace FiberServer

open FileSystem (cstr)

def StringToHttpMethod (m : Str) : Option HttpMethod :=
  (HttpMethod.names.find? fun p => p.2.toList == cstr m).map Prod.fst

def HttpMethodToString (m : HttpMethod) : Str :=
  ((HttpMethod.names.lookup m).getD "<unknown>").toList

/-- `Method` of the grammar. -/
def IsMethod (t : Str) : Prop :=
  1 ≤ t.length ∧ t.length ≤ 20 ∧ ∀ c ∈ t, c.isUpper ∨ c.isDigit

instance (t : Str) : Decidable (IsMethod t) :=
  haveI : Decidable (∀ c ∈ t, c.isUpper ∨ c.isDigit) := List.decidableBAll _ t
  inferInstanceAs (Decidable (_ ∧ _ ∧ _))

/-- What the callback should make of the token `t`: the method of this name, or an error. -/
def HttpRequestParser.exactMethod (parser : HttpRequestParser) (t : Str) : HttpRequestParser :=
  match StringToHttpMethod t with
  | none => { parser with m_error := 1000 }
  | some m => { parser with m_data := { parser.m_data with m_method := m } }

namespace HttpMethod

/-! ### The table -/

theorem HttpMethodToString_of_mem {p : HttpMethod × String} (hp : p ∈ names) :
    HttpMethodToString p.1 = p.2.toList := by
  have h : ∀ p ∈ names, HttpMethodToString p.1 = p.2.toList := by decide +kernel
  exact h p hp

theorem exists_mem (m : HttpMethod) : ∃ s, (m, s) ∈ names := by
  have hm : m ∈ names.map Prod.fst := by cases m <;> decide
  obtain ⟨⟨_, s⟩, hs, rfl⟩ := List.mem_map.mp hm
  exact ⟨s, hs⟩

/-- No name continues another one. -/
theorem prefix_free {m m' : HttpMethod} (h : HttpMethodToString m <+: HttpMethodToString m') :
    m = m' := by
  have hfree : ∀ p ∈ names, ∀ q ∈ names, p.2.toList <+: q.2.toList → p.1 = q.1 := by decide +kernel
  obtain ⟨s, hs⟩ := exists_mem m
  obtain ⟨s', hs'⟩ := exists_mem m'
  rw [HttpMethodToString_of_mem hs, HttpMethodToString_of_mem hs'] at h
  exact hfree _ hs _ hs' h

theorem HttpMethodToString_injective : Function.Injective HttpMethodToString := by
  intro m m' h
  exact prefix_free (h ▸ List.prefix_rfl)

theorem not_mem_HttpMethodToString (m : HttpMethod) :
    ' ' ∉ HttpMethodToString m ∧ '\x00' ∉ HttpMethodToString m := by
  cases m <;> decide

theorem isMethod_iff (m : HttpMethod) : IsMethod (HttpMethodToString m) ↔ m ≠ MSEARCH := by
  cases m <;> decide

end HttpMethod

open HttpMethod

/-! ### Looking up a name -/

theorem find_name_eq_some_iff (test : Str → Bool) {m : HttpMethod}
    (hunique : ∀ m', test (HttpMethodToString m') → test (HttpMethodToString m) → m' = m) :
    (names.find? fun p => test p.2.toList).map Prod.fst = some m
      ↔ test (HttpMethodToString m) := by
  constructor
  · intro h
    obtain ⟨p, hp, rfl⟩ := Option.map_eq_some_iff.mp h
    rw [HttpMethodToString_of_mem (List.mem_of_find?_eq_some hp)]
    exact List.find?_some (p := fun p : HttpMethod × String => test p.2.toList) hp
  · intro h
    obtain ⟨s, hs⟩ := exists_mem m
    cases hfind : names.find? fun p => test p.2.toList with
    | none =>
      rw [HttpMethodToString_of_mem hs] at h
      exact absurd h (List.find?_eq_none.mp hfind _ hs)
    | some p =>
      have hp := List.find?_some (p := fun p : HttpMethod × String => test p.2.toList) hfind
      rw [← HttpMethodToString_of_mem (List.mem_of_find?_eq_some hfind)] at hp
      exact congrArg some (hunique p.1 hp h)

theorem CharsToHttpMethod_eq_some_iff {t : Str} {m : HttpMethod} :
    CharsToHttpMethod t = some m ↔ HttpMethodToString m <+: t := by
  rw [CharsToHttpMethod, find_name_eq_some_iff fun name => name.isPrefixOf t]
  · exact List.isPrefixOf_iff_prefix
  · intro m' hm' hm
    rw [List.isPrefixOf_iff_prefix] at hm' hm
    -- of two names in front of the buffer one continues the other
    rcases List.prefix_or_prefix_of_prefix hm' hm with h | h
    · exact prefix_free h
    · exact (prefix_free h).symm

theorem StringToHttpMethod_eq_some_iff {t : Str} {m : HttpMethod} (ht : '\x00' ∉ t) :
    StringToHttpMethod t = some m ↔ t = HttpMethodToString m := by
  rw [StringToHttpMethod, find_name_eq_some_iff fun name => name == cstr t]
  · rw [FileSystem.cstr_eq_self ht, beq_iff_eq, eq_comm]
  · intro m' hm' hm
    rw [beq_iff_eq] at hm' hm
    exact HttpMethodToString_injective (hm'.trans hm.symm)

/-! ### The callback -/

theorem prefix_append_cons {c : Char} {l t rest : Str} (hc : c ∉ l) :
    l <+: t ++ c :: rest ↔ l <+: t := by
  constructor
  · intro h
    rcases List.prefix_or_prefix_of_prefix h (List.prefix_append (t ++ [c]) rest |>.trans (by simp))
      with hl | hl
    · rcases List.prefix_concat_iff.mp hl with rfl | hl
      · exact absurd (by simp) hc
      · exact hl
    · exact absurd (hl.subset (by simp)) hc
  · exact fun h => h.trans (List.prefix_append t _)

/-- The comparison ends at the space behind the token. -/
theorem CharsToHttpMethod_append (t rest : Str) :
    CharsToHttpMethod (t ++ ' ' :: rest) = CharsToHttpMethod t := by
  apply Option.ext
  intro m
  rw [CharsToHttpMethod_eq_some_iff, CharsToHttpMethod_eq_some_iff,
    prefix_append_cons (not_mem_HttpMethodToString m).1]

theorem IsMethod.not_mem {t : Str} (ht : IsMethod t) : '\x00' ∉ t := by
  intro hmem
  have hchar := ht.2.2 _ hmem
  exact absurd hchar (by decide)

/-- The callback is exact for a token that no name is a proper prefix of. -/
theorem on_request_method_exact_iff {t : Str} (ht : IsMethod t) :
    (∀ (parser : HttpRequestParser) (rest : Str),
        parser.on_request_method (t ++ ' ' :: rest) = parser.exactMethod t)
      ↔ ∀ m, HttpMethodToString m <+: t → HttpMethodToString m = t := by
  constructor
  · intro h m hm
    have hnew := h .new []
    have hchars := CharsToHttpMethod_eq_some_iff.mpr hm
    rw [HttpRequestParser.on_request_method, CharsToHttpMethod_append, hchars,
      HttpRequestParser.exactMethod] at hnew
    cases hstring : StringToHttpMethod t with
    | none =>
      rw [hstring] at hnew
      have herror : (0 : Nat) = 1000 := congrArg HttpRequestParser.m_error hnew
      exact absurd herror (by decide)
    | some m' =>
      rw [StringToHttpMethod_eq_some_iff ht.not_mem] at hstring
      rw [hstring] at hm ⊢
      rw [prefix_free hm]
  · intro h parser rest
    have hsame : CharsToHttpMethod t = StringToHttpMethod t := by
      apply Option.ext
      intro m
      rw [CharsToHttpMethod_eq_some_iff, StringToHttpMethod_eq_some_iff ht.not_mem]
      constructor
      · exact fun hm => (h m hm).symm
      · rintro rfl
        exact List.prefix_rfl
    cases hm : StringToHttpMethod t <;>
      simp only [HttpRequestParser.on_request_method, CharsToHttpMethod_append, hsame,
        HttpRequestParser.exactMethod, hm]

theorem on_request_method_name (parser : HttpRequestParser) (m : HttpMethod) (rest : Str) :
    parser.on_request_method (HttpMethodToString m ++ ' ' :: rest)
      = { parser with m_data := { parser.m_data with m_method := m } } := by
  rw [HttpRequestParser.on_request_method, CharsToHttpMethod_append,
    CharsToHttpMethod_eq_some_iff.mpr List.prefix_rfl]

/-- **Every token, with any rest of the line, and every method.** -/
theorem method_recognised_iff {t : Str} (ht : IsMethod t) (m : HttpMethod) :
    ((∀ m, StringToHttpMethod t = some m ↔ t = HttpMethodToString m)
      ∧ ((∀ (parser : HttpRequestParser) (rest : Str),
          parser.on_request_method (t ++ ' ' :: rest) = parser.exactMethod t)
        ↔ ∀ m, HttpMethodToString m <+: t → HttpMethodToString m = t))
    ∧ ((IsMethod (HttpMethodToString m) ∧ ∀ (parser : HttpRequestParser) (rest : Str),
          parser.on_request_method (HttpMethodToString m ++ ' ' :: rest)
            = { parser with m_data := { parser.m_data with m_method := m } })
        ↔ m ≠ MSEARCH) := by
  refine ⟨⟨fun m => StringToHttpMethod_eq_some_iff ht.not_mem, on_request_method_exact_iff ht⟩, ?_⟩
  rw [isMethod_iff]
  exact and_iff_left fun parser rest => on_request_method_name parser m rest

/-- The token `GET` is recognised, and `POSTS` is not taken for an error. -/
theorem method_recognised_iff_get :
    (∀ (parser : HttpRequestParser) (rest : Str),
      parser.on_request_method ("GET".toList ++ ' ' :: rest) = parser.exactMethod "GET".toList)
    ∧ ¬ ∀ (parser : HttpRequestParser) (rest : Str),
      parser.on_request_method ("POSTS".toList ++ ' ' :: rest)
        = parser.exactMethod "POSTS".toList := by
  have hget : IsMethod "GET".toList := by decide
  have hposts : IsMethod "POSTS".toList := by decide
  refine ⟨?_, ?_⟩
  · refine (method_recognised_iff hget GET).1.2.mpr fun m hm => ?_
    revert hm
    cases m <;> decide
  · intro h
    have hprefix := (method_recognised_iff hposts POST).1.2.mp h POST (by decide)
    exact absurd hprefix (by decide)

/-- The token `GETX` is taken for `GET`, and `M-SEARCH` is no token. -/
theorem method_misread :
    ¬ ((∀ t, IsMethod t → ∀ (parser : HttpRequestParser) (rest : Str),
          parser.on_request_method (t ++ ' ' :: rest) = parser.exactMethod t)
        ∧ ∀ m, IsMethod (HttpMethodToString m)) := by
  rintro ⟨h, -⟩
  have hdata := h "GETX".toList (by decide) .new []
  exact absurd (congrArg HttpRequestParser.m_error hdata) (by decide)

end FiberServer
