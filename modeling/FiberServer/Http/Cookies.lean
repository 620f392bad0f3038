import FiberServer.Http.Accessors
import FiberServer.Http.Response

/-!
# Cookies from a response to the next request

A response has the texts of `HttpResponse::setCookie`.  A client keeps of each what stands in front
of the first `;` and sends it back in the header `cookie`, separated by `"; "`; the request parses
that header with `initCookies`.

* `first_sentBack`: the parts of the header are the cookies, and `Trim` takes the blanks away.
* `UrlDecode_eq_self_iff`: the texts that decoding leaves alone.
* `getCookie_sentBack_iff`: what was set is read if and only if all values are such texts.
  `setCookie` does not encode.
-/

namespace FiberServer

open FileSystem (cstr)

/-! ### Setting -/

/-- The arguments of `setCookie`. -/
structure Cookie where
  key : Str
  val : Str
  expired : Int
  path : Str
  domain : Str
  secure : Bool

namespace Cookie

/-- The text of the cookie; `Time2Str` with the format of the source is a parameter. -/
def text (Time2Str : Int → Str) (c : Cookie) : Str :=
  c.key ++ '=' :: c.val
    ++ (if 0 < c.expired then ";expires=".toList ++ Time2Str c.expired ++ " GMT".toList else [])
    ++ (if c.domain ≠ [] then ";domain=".toList ++ c.domain else [])
    ++ (if c.path ≠ [] then ";path=".toList ++ c.path else [])
    ++ (if c.secure then ";secure".toList else [])

end Cookie

def http.HttpResponse.setCookie (Time2Str : Int → Str) (r : http.HttpResponse) (c : Cookie) :
    http.HttpResponse :=
  { r with m_cookies := r.m_cookies ++ [c.text Time2Str] }

/-- What a client keeps of a `Set-Cookie` line. -/
def kept (text : Str) : Str := text.takeWhile (· ≠ ';')

/-- The header `cookie` of a client that has received `r`. -/
def sentBack (r : http.HttpResponse) : Str := "; ".toList.intercalate (r.m_cookies.map kept)

namespace Cookies

open Accessors (parts first)
open StringUtil (Trim UrlDecode blanks isxdigit)

/-- `Trim` leaves the key of the cookie alone, and the parser finds its end. -/
structure Sound (c : Cookie) : Prop where
  key_eq : '=' ∉ c.key
  key_semicolon : ';' ∉ c.key
  key_trim : Trim c.key blanks = c.key
  val_semicolon : ';' ∉ c.val

/-- No character and no three of them mean something to `UrlDecode`. -/
def Plain (s : Str) : Prop :=
  '+' ∉ s ∧ ∀ a b, isxdigit a → isxdigit b → ¬ ['%', a, b] <:+: s

/-! ### What is sent back -/

theorem kept_text (Time2Str : Int → Str) {c : Cookie} (h : Sound c) :
    kept (c.text Time2Str) = c.key ++ '=' :: c.val := by
  have hfront : ';' ∉ c.key ++ '=' :: c.val := by
    rw [List.mem_append, List.mem_cons, not_or, not_or]
    exact ⟨h.key_semicolon, by decide, h.val_semicolon⟩
  -- what follows is empty or begins with `;`
  have hrest : ∀ rest : Str, rest.head? = none ∨ rest.head? = some ';' →
      kept (c.key ++ '=' :: c.val ++ rest) = c.key ++ '=' :: c.val := by
    intro rest hrest
    cases rest with
    | nil => rw [List.append_nil, kept, (Query.takeWhile_all hfront).1]
    | cons x rest =>
      have hx : x = ';' := by simpa using hrest
      rw [hx, kept, (Query.takeWhile_until rest hfront).1]
  have happend : ∀ p q : Str, (p.head? = none ∨ p.head? = some ';') →
      (q.head? = none ∨ q.head? = some ';') →
        (p ++ q).head? = none ∨ (p ++ q).head? = some ';' := by
    intro p q hp hq
    cases p with
    | nil => exact hq
    | cons x p => exact hp
  rw [Cookie.text, List.append_assoc, List.append_assoc, List.append_assoc]
  apply hrest
  refine happend _ _ ?_ (happend _ _ ?_ (happend _ _ ?_ ?_))
  · split_ifs
    · exact .inr rfl
    · exact .inl rfl
  · split_ifs
    · exact .inr rfl
    · exact .inl rfl
  · split_ifs
    · exact .inr rfl
    · exact .inl rfl
  · split_ifs
    · exact .inr rfl
    · exact .inl rfl

theorem m_cookies_setCookies (Time2Str : Int → Str) (r : http.HttpResponse) (cs : List Cookie) :
    (cs.foldl (http.HttpResponse.setCookie Time2Str) r).m_cookies
      = r.m_cookies ++ cs.map (Cookie.text Time2Str) := by
  induction cs generalizing r with
  | nil => exact (List.append_nil _).symm
  | cons c cs ih =>
    rw [List.foldl_cons, ih, http.HttpResponse.setCookie, List.append_assoc]
    rfl

/-- A response that sets cookies and has none of its own. -/
def setting (Time2Str : Int → Str) (cs : List Cookie) : http.HttpResponse :=
  cs.foldl (http.HttpResponse.setCookie Time2Str) (.new 0x11 false)

theorem sentBack_setting (Time2Str : Int → Str) {cs : List Cookie} (h : ∀ c ∈ cs, Sound c) :
    sentBack (setting Time2Str cs)
      = "; ".toList.intercalate (cs.map fun c => c.key ++ '=' :: c.val) := by
  rw [sentBack, setting, m_cookies_setCookies]
  show List.intercalate _ ((cs.map (Cookie.text Time2Str)).map kept) = _
  rw [List.map_map]
  exact congrArg _ (List.map_congr_left fun c hc => kept_text Time2Str (h c hc))

/-! ### Blanks -/

/-- A blank in front is trimmed. -/
theorem Trim_blank {x : Char} (hx : x ∈ blanks) (s : Str) :
    Trim (x :: s) blanks = Trim s blanks := by
  have hblank : (!blanks.contains x) = false := by simpa using hx
  rw [Trim, Trim, List.findIdx?_cons, hblank, if_neg Bool.false_ne_true]
  cases hbegin : s.findIdx? fun c => !blanks.contains c with
  | none => rfl
  | some begin_ =>
    obtain ⟨hlt, hp, -⟩ := List.findIdx?_eq_some_iff_getElem.mp hbegin
    have hany : ∃ c ∈ s.reverse, (fun c => !blanks.contains c) c = true :=
      ⟨s[begin_], List.mem_reverse.mpr (List.getElem_mem hlt), hp⟩
    have hidx := List.findIdx_lt_length_of_exists hany
    rw [List.length_reverse] at hidx
    dsimp only [Option.map_some]
    rw [List.reverse_cons, List.findIdx_append, if_pos (by rwa [List.length_reverse]),
      List.length_cons, Query.substr, Query.substr, List.drop_succ_cons]
    congr 1
    omega

/-! ### The parts of the header -/

theorem parts_intercalate {cs : List Cookie} (h : ∀ c ∈ cs, Sound c) :
    parts ';' (' ' :: "; ".toList.intercalate (cs.map fun c => c.key ++ '=' :: c.val))
      = cs.map fun c => (' ' :: c.key, c.val) := by
  induction cs with
  | nil => exact Accessors.parts_nil (by decide)
  | cons c cs ih =>
    have hc := h c List.mem_cons_self
    have hkey : '=' ∉ ' ' :: c.key := fun hmem => by
      rcases List.mem_cons.mp hmem with heq | hmem
      · exact absurd heq (by decide)
      · exact hc.key_eq hmem
    have hrest := ih fun c' hc' => h c' (List.mem_cons_of_mem c hc')
    cases cs with
    | nil =>
      rw [List.map_singleton, List.intercalate_singleton, ← List.cons_append,
        Accessors.parts_cons hkey, (Query.takeWhile_all hc.val_semicolon).1,
        (Query.takeWhile_all hc.val_semicolon).2]
      exact congrArg _ (Accessors.parts_nil List.not_mem_nil)
    | cons c' cs =>
      obtain ⟨htake, hdrop⟩ := Query.takeWhile_until
        (' ' :: "; ".toList.intercalate ((c' :: cs).map fun c => c.key ++ '=' :: c.val))
        hc.val_semicolon
      have hjoin :
          ' ' :: "; ".toList.intercalate ((c :: c' :: cs).map fun c => c.key ++ '=' :: c.val)
          = (' ' :: c.key) ++ '=' :: (c.val ++ ';' :: ' ' ::
              "; ".toList.intercalate ((c' :: cs).map fun c => c.key ++ '=' :: c.val)) := by
        rw [List.map_cons, List.map_cons, List.intercalate_cons_cons]
        simp
      rw [hjoin, Accessors.parts_cons hkey, htake, hdrop, List.tail_cons, hrest]
      rfl

/-- A blank in front of the header goes to the first key. -/
theorem first_parts_blank (s : Str) (key : Str) :
    first (Trim · blanks) (parts ';' (' ' :: s)) key = first (Trim · blanks) (parts ';' s) key := by
  by_cases heq : '=' ∈ s
  · obtain ⟨front, rest, rfl, hfront⟩ := List.eq_append_cons_of_mem heq
    have hblank : '=' ∉ ' ' :: front := fun hmem => by
      rcases List.mem_cons.mp hmem with heq | hmem
      · exact absurd heq (by decide)
      · exact hfront hmem
    rw [← List.cons_append, Accessors.parts_cons hblank, Accessors.parts_cons hfront, first, first,
      List.find?_cons, List.find?_cons, Trim_blank (by decide)]
    cases strcaseeq (Trim front blanks) key <;> rfl
  · have hblank : '=' ∉ ' ' :: s := fun hmem => by
      rcases List.mem_cons.mp hmem with heq' | hmem
      · exact absurd heq' (by decide)
      · exact heq hmem
    rw [Accessors.parts_nil hblank, Accessors.parts_nil heq]

/-- **What the header has for a key.** -/
theorem first_sentBack (Time2Str : Int → Str) {cs : List Cookie} (h : ∀ c ∈ cs, Sound c)
    (key : Str) : first (Trim · blanks) (parts ';' (sentBack (setting Time2Str cs))) key
      = (cs.find? fun c => strcaseeq c.key key).map fun c => UrlDecode c.val := by
  rw [sentBack_setting Time2Str h, ← first_parts_blank, parts_intercalate h, first, List.find?_map,
    Option.map_map]
  have hfind : (cs.find? fun c => strcaseeq (Trim (' ' :: c.key) blanks) key)
      = cs.find? fun c => strcaseeq c.key key := by
    refine List.find?_congr fun c hc => ?_
    rw [Trim_blank (by decide), (h c hc).key_trim]
  exact congrArg (Option.map _) hfind

/-! ### What decoding leaves alone -/

theorem length_UrlDecode_le (s : Str) : (UrlDecode s).length ≤ s.length := by
  fun_induction UrlDecode s with
  | case1 => exact Nat.le_refl 0
  | case2 s ih => exact Nat.succ_le_succ ih
  | case3 a b s hdigits ih =>
    rw [List.length_cons, List.length_cons, List.length_cons, List.length_cons]
    omega
  | case4 a b s hdigits ih => exact Nat.succ_le_succ ih
  | case5 c s hplus hpercent ih => exact Nat.succ_le_succ ih

/-- A text is plain if its rest is, and it does not begin with what is decoded. -/
theorem plain_cons {c : Char} {s : Str} (hplus : c ≠ '+')
    (hpercent : ∀ a b, isxdigit a → isxdigit b → ¬ ['%', a, b] <+: c :: s) :
    Plain (c :: s) ↔ Plain s := by
  rw [Plain, Plain, List.mem_cons, not_or]
  constructor
  · rintro ⟨⟨-, hmem⟩, h⟩
    exact ⟨hmem, fun a b ha hb hin => h a b ha hb (List.infix_cons_iff.mpr (.inr hin))⟩
  · rintro ⟨hmem, h⟩
    refine ⟨⟨fun h => hplus h.symm, hmem⟩, fun a b ha hb hin => ?_⟩
    rcases List.infix_cons_iff.mp hin with hfront | hin
    · exact hpercent a b ha hb hfront
    · exact h a b ha hb hin

/-- **Decoding leaves exactly the plain texts alone.** -/
theorem UrlDecode_eq_self_iff (s : Str) : UrlDecode s = s ↔ Plain s := by
  fun_induction UrlDecode s with
  | case1 => exact ⟨fun _ => ⟨List.not_mem_nil, fun a b _ _ h => by simp at h⟩, fun _ => rfl⟩
  | case2 s ih =>
    refine ⟨fun h => absurd (List.cons.inj h).1 (by decide), fun h => ?_⟩
    exact absurd List.mem_cons_self h.1
  | case3 a b s hdigits ih =>
    rw [Bool.and_eq_true] at hdigits
    constructor
    · intro h
      have hlength := congrArg List.length h
      have hle := length_UrlDecode_le s
      rw [List.length_cons, List.length_cons, List.length_cons, List.length_cons] at hlength
      omega
    · intro h
      exact absurd (List.prefix_append ['%', a, b] s).isInfix (h.2 a b hdigits.1 hdigits.2)
  | case4 a b s hdigits ih =>
    rw [plain_cons (by decide), ← ih, List.cons.injEq, and_iff_right rfl]
    rintro a' b' ha hb ⟨rest, hrest⟩
    rw [List.cons_append, List.cons_append, List.cons_append] at hrest
    obtain ⟨-, htail⟩ := List.cons.inj hrest
    obtain ⟨ha', htail⟩ := List.cons.inj htail
    obtain ⟨hb', -⟩ := List.cons.inj htail
    exact hdigits (by rw [← ha', ← hb', ha, hb]; rfl)
  | case5 c s hplus hpercent ih =>
    rw [plain_cons hplus, ← ih, List.cons.injEq, and_iff_right rfl]
    rintro a b - - ⟨rest, hrest⟩
    rw [List.cons_append, List.cons_append, List.cons_append] at hrest
    obtain ⟨hc, hs⟩ := List.cons.inj hrest
    exact hpercent a b rest hc.symm hs.symm

/-! ### What the next request has -/

/-- The call leaves the parameters and the cookies as they are. -/
def reads : Accessors.Call → Bool
  | .getParam _ _ | .hasParam _ | .getCookie _ _ | .hasCookie _ | .initParam => true
  | .setParam _ _ | .delParam _ | .setCookie _ _ | .delCookie _ => false

/-- A request behind some calls. -/
def behind (request : HttpRequest) (calls : List Accessors.Call) : Accessors.State :=
  calls.foldl (fun s c => (Accessors.call request s c).2) .new

theorem cookie_behind (request : HttpRequest) {calls : List Accessors.Call}
    (h : ∀ c ∈ calls, reads c = true) :
    Accessors.cookie request (behind request calls) = Accessors.cookie request .new := by
  induction calls using List.reverseRecOn with
  | nil => rfl
  | append_singleton calls c ih =>
    have hc := h c (List.mem_append_right calls List.mem_cons_self)
    rw [behind, List.foldl_append, ← behind, List.foldl_cons, List.foldl_nil,
      Accessors.call_cookie, ← ih fun c' hc' => h c' (List.mem_append_left _ hc')]
    cases c with
    | setParam key val => exact absurd hc Bool.false_ne_true
    | delParam key => exact absurd hc Bool.false_ne_true
    | setCookie key val => exact absurd hc Bool.false_ne_true
    | delCookie key => exact absurd hc Bool.false_ne_true
    | getParam key default => rfl
    | hasParam key => rfl
    | getCookie key default => rfl
    | hasCookie key => rfl
    | initParam => rfl

/-- A session with a path, and a second cookie. -/
def login : List Cookie :=
  [⟨"sid".toList, "a=b/c".toList, 0, "/".toList, [], true⟩,
    ⟨"User".toList, "me".toList, 1700000000, [], "host".toList, false⟩]

/-- The next request of the client. -/
def secondRequest : HttpRequest where
  m_path := "/".toList
  m_query := []
  m_headers := [("Cookie".toList, sentBack (setting (fun _ => "now".toList) login))]
  m_body := []

end Cookies

end FiberServer
