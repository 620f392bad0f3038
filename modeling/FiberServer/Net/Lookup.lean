import FiberServer.Http.Query

/-!
# `Address::Lookup`

The text of a host is split into a node and a service by searches for brackets and colons; an empty
node means that it is not decided yet.

* `lookup_splits_iff`: the forms of a host that are split into their parts.
-/

namespace FiberServer

namespace HostLookup

open FileSystem (cstr)
open Query (find substr find_eq_some find_first find_absent find_present)

/-- The fields of the `hints` that are not null or zero by themselves. -/
structure Hints where
  ai_family : Int
  ai_socktype : Int
  ai_protocol : Int
  deriving DecidableEq, Repr

/-- What `getaddrinfo` is called with. -/
structure Request where
  node : Str
  service : Str
  hints : Hints
  deriving DecidableEq, Repr

/-- `if(!host.empty() && host[0] == '[')` -/
def bracketed (host : Str) : Str × Str :=
  if host.head? = some '[' then
    match find host ']' 0 with
    | some endipv6 => (substr host 1 (endipv6 - 1), host.drop (endipv6 + 1))
    | none => ([], [])
  else ([], [])

/-- `if(node.empty())`, for a single colon. -/
def withPort (host : Str) (parts : Str × Str) : Str × Str :=
  if parts.1.isEmpty then
    match find host ':' 0 with
    | some first_colon =>
      match find host ':' (first_colon + 1) with
      | none => (substr host 0 first_colon, host.drop (first_colon + 1))
      | some _ => parts
    | none => parts
  else parts

/-- `if(node.empty()) node = host;` -/
def wholeHost (host : Str) (parts : Str × Str) : Str × Str :=
  if parts.1.isEmpty then (host, parts.2) else parts

/-- `node` and `service` -/
def split (host : Str) : Str × Str := wholeHost host (withPort host (bracketed host))

def request (host : Str) (family type protocol : Int) : Request :=
  { node := cstr (split host).1
    service := cstr (split host).2
    hints :=
      { ai_family := family
        ai_socktype := type
        ai_protocol := protocol } }

/-- What a call has asked `getaddrinfo` for, and what it gives. -/
structure Answer (A : Type*) where
  asked : Request
  found : Bool
  result : List A

/-- `Address::Lookup`; `getaddrinfo` answers with an error or with a list of results, and `Create`
makes an address of each of them. -/
def Lookup {R A : Type*} (getaddrinfo : Request → Except Int (List R)) (Create : R → A)
    (result : List A) (host : Str) (family type protocol : Int) : Answer A :=
  let hints := request host family type protocol
  match getaddrinfo hints with
  | .error _ => ⟨hints, false, result⟩
  | .ok results =>
    let result := result ++ results.map Create
    ⟨hints, !result.isEmpty, result⟩

/-! ### The forms of a host -/

/-- A host name or an IPv4 text `h`, an IPv6 text `a` in brackets, each with or without a service
`p`, or an IPv6 text `x` as it is. -/
inductive Form
  | name (h : Str) : h ≠ [] → ':' ∉ h → '[' ∉ h → Form
  | namePort (h p : Str) : h ≠ [] → ':' ∉ h → '[' ∉ h → ':' ∉ p → Form
  | bracket (a : Str) : a ≠ [] → ']' ∉ a → Form
  | bracketPort (a p : Str) : a ≠ [] → ']' ∉ a → ':' ∉ p → Form
  | bare (x : Str) : 2 ≤ x.count ':' → x.head? ≠ some '[' → Form

namespace Form

def text : Form → Str
  | name h .. => h
  | namePort h p .. => h ++ ':' :: p
  | bracket a .. => '[' :: (a ++ [']'])
  | bracketPort a p .. => '[' :: (a ++ ']' :: ':' :: p)
  | bare x .. => x

def node : Form → Str
  | name h .. => h
  | namePort h .. => h
  | bracket a .. => a
  | bracketPort a .. => a
  | bare x .. => x

def service : Form → Str
  | namePort _ p .. => p
  | bracketPort _ p .. => p
  | _ => []

/-- The text is of the form `[a]:p`. -/
def IsBracketPort : Form → Prop
  | bracketPort .. => True
  | _ => False

end Form

/-! ### The searches -/

theorem bracketed_of_ne {host : Str} (h : host.head? ≠ some '[') : bracketed host = ([], []) :=
  if_neg h

theorem bracketed_bracket {a : Str} (rest : Str) (h : ']' ∉ a) :
    bracketed ('[' :: (a ++ ']' :: rest)) = (a, rest) := by
  have hfind : find (('[' :: a) ++ ']' :: rest) ']' 0 = some (a.length + 1) :=
    find_first rest (by simp [h])
  rw [bracketed, List.head?_cons, if_pos rfl, ← List.cons_append, hfind]
  simp [substr]

theorem head?_ne_of_not_mem {h : Str} (hmem : '[' ∉ h) : h.head? ≠ some '[' := fun heq =>
  hmem (List.mem_of_head? heq)

theorem withPort_undecided_port {h p : Str} (hh : ':' ∉ h) (hp : ':' ∉ p) :
    withPort (h ++ ':' :: p) ([], []) = (h, p) := by
  have hsecond : find (h ++ ':' :: p) ':' (h.length + 1) = none :=
    find_absent (by simpa using hp)
  simp only [withPort, List.isEmpty_nil, if_true, find_first p hh, hsecond]
  simp [substr]

theorem withPort_undecided_absent {h : Str} (hh : ':' ∉ h) :
    withPort h ([], []) = ([], []) := by
  have hfind : find h ':' 0 = none := find_absent hh
  simp only [withPort, List.isEmpty_nil, if_true, hfind]

/-- With two colons the node stays undecided. -/
theorem withPort_undecided_bare {x : Str} (h : 2 ≤ x.count ':') :
    withPort x ([], []) = ([], []) := by
  have hmem : ':' ∈ x.drop 0 := List.count_pos_iff.mp (by rw [List.drop_zero]; omega)
  obtain ⟨i, hi⟩ := find_present hmem
  obtain ⟨-, front, rest, hsplit, hfront, hlen⟩ := find_eq_some hi
  rw [List.drop_zero] at hsplit
  have hrest : ':' ∈ x.drop (i + 1) := by
    have hcount : front.count ':' = 0 := List.count_eq_zero.mpr hfront
    have hdrop : x.drop (i + 1) = rest := by
      rw [hsplit, hlen, show 0 + front.length + 1 = front.length + 1 by omega]
      simp
    rw [hsplit, List.count_append, hcount, List.count_cons_self] at h
    rw [hdrop]
    exact List.count_pos_iff.mp (by omega)
  obtain ⟨j, hj⟩ := find_present hrest
  simp only [withPort, List.isEmpty_nil, if_true, hi, hj]

theorem split_of_decided {host : Str} {parts : Str × Str} (h : bracketed host = parts)
    (hne : parts.1 ≠ []) : split host = parts := by
  have hempty : parts.1.isEmpty = false := by simpa using hne
  rw [split, h, withPort, if_neg (by simp [hempty]), wholeHost, if_neg (by simp [hempty])]

/-- What is read of each form; behind the brackets the colon is kept. -/
theorem split_text (f : Form) :
    (split f.text).1 = f.node
      ∧ (split f.text).2 = match f with
        | .bracketPort _ p .. => ':' :: p
        | f => f.service := by
  cases f with
  | name h hne hcolon hbracket =>
    rw [Form.text, split, bracketed_of_ne (head?_ne_of_not_mem hbracket),
      withPort_undecided_absent hcolon]
    exact ⟨rfl, rfl⟩
  | namePort h p hne hcolon hbracket hport =>
    have hhead : (h ++ ':' :: p).head? ≠ some '[' := by
      rw [List.head?_append_of_ne_nil _ hne]
      exact head?_ne_of_not_mem hbracket
    rw [Form.text, split, bracketed_of_ne hhead, withPort_undecided_port hcolon hport, wholeHost,
      if_neg (by simpa using hne)]
    exact ⟨rfl, rfl⟩
  | bracket a hne hbracket =>
    rw [Form.text, split_of_decided (bracketed_bracket [] hbracket) hne]
    exact ⟨rfl, rfl⟩
  | bracketPort a p hne hbracket hport =>
    rw [Form.text, split_of_decided (bracketed_bracket (':' :: p) hbracket) hne]
    exact ⟨rfl, rfl⟩
  | bare x hcolons hhead =>
    rw [Form.text, split, bracketed_of_ne hhead, withPort_undecided_bare hcolons]
    exact ⟨rfl, rfl⟩

section

variable {R A : Type*} (getaddrinfo : Request → Except Int (List R)) (Create : R → A)
  (result : List A)

/-- `getaddrinfo` is asked once, with the two parts of the text. -/
theorem asked_Lookup (host : Str) (family type protocol : Int) :
    (Lookup getaddrinfo Create result host family type protocol).asked
      = request host family type protocol := by
  rw [Lookup]
  split
  · rfl
  · rfl

/-- `getaddrinfo` gets the parts of the text for every form but `[a]:p`. -/
theorem lookup_splits_iff (f : Form) (family type protocol : Int) :
    (Lookup getaddrinfo Create result f.text family type protocol).asked
        = { node := cstr f.node
            service := cstr f.service
            hints :=
              { ai_family := family
                ai_socktype := type
                ai_protocol := protocol } }
      ↔ ¬ f.IsBracketPort := by
  obtain ⟨hnode, hservice⟩ := split_text f
  rw [asked_Lookup, request, hnode, hservice]
  cases f with
  | bracketPort a p hne hbracket hport =>
    -- the service that is passed is longer than the one in the text
    refine iff_of_false (fun heq => ?_) (fun hnot => hnot trivial)
    have hcolon : cstr (':' :: p) = cstr p := congrArg Request.service heq
    rw [cstr, List.takeWhile_cons_of_pos (by decide)] at hcolon
    exact List.cons_ne_self _ _ hcolon
  | name => exact iff_of_true rfl not_false
  | namePort => exact iff_of_true rfl not_false
  | bracket => exact iff_of_true rfl not_false
  | bare => exact iff_of_true rfl not_false

end

/-- The service of `[::1]:80` is passed as `:80`. -/
theorem lookup_not_splits :
    ¬ ∀ (f : Form) (family type protocol : Int),
      (Lookup (R := Str) (fun _ => .ok []) id [] f.text family type protocol).asked
        = { node := cstr f.node
            service := cstr f.service
            hints :=
              { ai_family := family
                ai_socktype := type
                ai_protocol := protocol } } := fun h =>
  absurd
    (h (.bracketPort [':', ':', '1'] ['8', '0'] (by decide) (by decide) (by decide)) 0 0 0)
    (by decide)

end HostLookup

end FiberServer
