import Mathlib.Data.List.Basic
import Mathlib.Tactic.SplitIfs

/-!
# YAML documents as trees

A document is read and built through its nodes.  The text of a document is no matter of this file.

* `Node.get`, `Node.items`, `Node.as`: reading.  A key that is not there gives no node; a scalar
  has no keys, and only a scalar is a string.
* `Node.set`, `Node.pushBack`: building, with one lemma for each way of reading behind them.
-/

namespace Yaml

inductive Node
  | null
  | scalar (s : List Char)
  | sequence (items : List Node)
  | map (entries : List (String × Node))

inductive Error
  /-- the text is no document -/
  | parser
  | badSubscript
  | badConversion
  deriving DecidableEq, Repr

namespace Node

/-- `node[key]`, unless it is not defined. -/
def get (key : String) : Node → Except Error (Option Node)
  | null | sequence _ => .ok none
  | scalar _ => .error .badSubscript
  | map entries => .ok (entries.lookup key)

/-- `node.as<std::string>()` -/
def as : Node → Except Error (List Char)
  | null => .ok "null".toList
  | scalar s => .ok s
  | sequence _ | map _ => .error .badConversion

/-- `node[x]` for every `x` below `node.size()`.  In a map a number is a key, and one that is not
there gives a node without keys. -/
def items : Node → List Node
  | null | scalar _ => []
  | sequence items => items
  | map entries =>
    (List.range entries.length).map fun x => (entries.lookup (toString x)).getD null

/-- `entries` with the value of `key` replaced, or added at the end. -/
def insert (key : String) (value : Node) : List (String × Node) → List (String × Node)
  | [] => [(key, value)]
  | entry :: entries =>
    if key = entry.1 then (key, value) :: entries else entry :: insert key value entries

/-- `node[key] = value`.  A node that is no map becomes one. -/
def set (node : Node) (key : String) (value : Node) : Node :=
  match node with
  | map entries => map (insert key value entries)
  | _ => map [(key, value)]

/-- `node[key] = s` -/
def setString (node : Node) (key : String) (s : List Char) : Node := node.set key (scalar s)

/-- `if(c) node[key] = s` -/
def setStringIf (c : Prop) [Decidable c] (node : Node) (key : String) (s : List Char) : Node :=
  if c then node.setString key s else node

/-- `node[key].push_back(item)`.  A value that is no sequence becomes one. -/
def pushBack (node : Node) (key : String) (item : Node) : Node :=
  match node.get key with
  | .ok (some (sequence items)) => node.set key (sequence (items ++ [item]))
  | _ => node.set key (sequence [item])

/-! ### Reading what was built -/

theorem lookup_cons_eq (key' key : String) (value : Node) (entries : List (String × Node)) :
    List.lookup key' ((key, value) :: entries)
      = if key' = key then some value else entries.lookup key' := by
  rw [List.lookup_cons]
  by_cases heq : key' = key
  · rw [if_pos heq, beq_iff_eq.mpr heq]
  · rw [if_neg heq, beq_false_of_ne heq]

theorem lookup_insert (key : String) (value : Node) (entries : List (String × Node))
    (key' : String) : (insert key value entries).lookup key'
      = if key' = key then some value else entries.lookup key' := by
  induction entries with
  | nil => exact lookup_cons_eq key' key value []
  | cons entry entries ih =>
    obtain ⟨found, old⟩ := entry
    rw [insert]
    by_cases hfound : key = found
    · subst hfound
      rw [if_pos rfl, lookup_cons_eq, lookup_cons_eq]
      split_ifs
      · rfl
      · rfl
    · rw [if_neg hfound, lookup_cons_eq, lookup_cons_eq, ih]
      by_cases heq : key' = key
      · subst heq
        rw [if_neg hfound, if_pos rfl, if_pos rfl]
      · rw [if_neg heq, if_neg heq]

/-- A node that has keys, or can get some. -/
def Open : Node → Prop
  | null | map _ => True
  | scalar _ | sequence _ => False

@[simp] theorem open_null : Open null := trivial

@[simp] theorem open_set (node : Node) (key : String) (value : Node) :
    (node.set key value).Open := by
  cases node <;> exact trivial

@[simp] theorem open_setString (node : Node) (key : String) (s : List Char) :
    (node.setString key s).Open := open_set ..

@[simp] theorem open_setStringIf {c : Prop} [Decidable c] {node : Node} (h : node.Open)
    (key : String) (s : List Char) : (node.setStringIf c key s).Open := by
  rw [setStringIf]
  split_ifs
  · exact open_setString ..
  · exact h

@[simp] theorem open_pushBack (node : Node) (key : String) (item : Node) :
    (node.pushBack key item).Open := by
  rw [pushBack]
  split
  · exact open_set ..
  · exact open_set ..

@[simp] theorem get_null (key : String) : null.get key = .ok none := rfl

theorem get_set {node : Node} (h : node.Open) (key key' : String) (value : Node) :
    (node.set key value).get key' = if key' = key then .ok (some value) else node.get key' := by
  cases node with
  | null =>
    show Except.ok ((insert key value []).lookup key') = _
    rw [lookup_insert]
    split_ifs
    · rfl
    · rfl
  | map entries =>
    show Except.ok ((insert key value entries).lookup key') = _
    rw [lookup_insert]
    split_ifs
    · rfl
    · rfl
  | scalar s => exact h.elim
  | sequence items => exact h.elim

@[simp] theorem get_setString {node : Node} (h : node.Open) (key key' : String) (s : List Char) :
    (node.setString key s).get key' = if key' = key then .ok (some (scalar s)) else node.get key' :=
  get_set h key key' _

theorem get_setStringIf {c : Prop} [Decidable c] {node : Node} (h : node.Open) (key key' : String)
    (s : List Char) : (node.setStringIf c key s).get key'
      = if c ∧ key' = key then .ok (some (scalar s)) else node.get key' := by
  rw [setStringIf]
  by_cases hc : c
  · rw [if_pos hc, get_setString h]
    simp only [hc, true_and]
  · rw [if_neg hc, if_neg (fun hboth => hc hboth.1)]

theorem get_pushBack_of_ne {node : Node} (h : node.Open) {key key' : String} (item : Node)
    (hne : key' ≠ key) : (node.pushBack key item).get key' = node.get key' := by
  rw [pushBack]
  split
  · rw [get_set h, if_neg hne]
  · rw [get_set h, if_neg hne]

/-- Items that are pushed one after the other. -/
theorem get_foldl_pushBack (key : String) (items : List Node) : ∀ {node : Node} {old : List Node},
    node.Open → node.get key = .ok (some (sequence old)) →
    (items.foldl (fun node item => node.pushBack key item) node).get key
      = .ok (some (sequence (old ++ items))) := by
  induction items with
  | nil =>
    intro node old _ hget
    rw [List.append_nil]
    exact hget
  | cons item items ih =>
    intro node old h hget
    have hpush : (node.pushBack key item).get key = .ok (some (sequence (old ++ [item]))) := by
      rw [pushBack, hget]
      show (node.set key _).get key = _
      rw [get_set h, if_pos rfl]
    have hrest := ih (open_pushBack node key item) hpush
    rw [List.append_assoc] at hrest
    exact hrest

/-- The same from a node without the key: no item, no value. -/
theorem get_foldl_pushBack_of_none {node : Node} {key : String} (h : node.Open)
    (hnone : node.get key = .ok none) (items : List Node) :
    (items.foldl (fun node item => node.pushBack key item) node).get key
      = .ok (if items = [] then none else some (sequence items)) := by
  cases items with
  | nil => exact hnone
  | cons item items =>
    have hpush : (node.pushBack key item).get key = .ok (some (sequence [item])) := by
      rw [pushBack, hnone]
      show (node.set key _).get key = _
      rw [get_set h, if_pos rfl]
    exact get_foldl_pushBack key items (open_pushBack node key item) hpush

theorem get_foldl_pushBack_of_ne {key key' : String} (hne : key' ≠ key) (items : List Node) :
    ∀ {node : Node}, node.Open →
    (items.foldl (fun node item => node.pushBack key item) node).get key' = node.get key' := by
  induction items with
  | nil => intro node _; rfl
  | cons item items ih =>
    intro node h
    rw [List.foldl_cons, ih (open_pushBack node key item), get_pushBack_of_ne h item hne]

end Node

end Yaml
