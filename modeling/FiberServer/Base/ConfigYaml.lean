import FiberServer.Chunk.FSUtil
import FiberServer.Library.Yaml
import Mathlib.Logic.Function.Basic

/-!
# `Config::Lookup` and `Config::LoadFromYaml`

`Lookup` registers a variable, and `LoadFromYaml` looks for the names of all nodes of a tree.  Both
check the names against a list of characters of their own; the second one does it before the
letters are made small.

* `filter_ListAllMember`: what a node of the tree is listed as.
* `loadable_iff`: the names and paths for which a variable is registered and read.
-/

namespace FiberServer

namespace Config

/-! ### The variables -/

/-- The characters of `find_first_not_of` in `Lookup`, and in `ListAllMember`. -/
def nameChars : Str := "abcdefghikjlmnopqrstuvwxyz._012345678".toList

/-- `find_first_not_of` finds nothing. -/
def validName (name : Str) : Bool := name.all nameChars.contains

/-- A `ConfigVar<T>`; `T` is the type of the value. -/
structure Var (Value : Type*) where
  m_name : Str
  m_description : Str
  m_val : Value

/-- `std::invalid_argument` -/
structure InvalidArgument where
  what : Str
  deriving DecidableEq, Repr

/-- `GetDatas()`; only `Lookup` adds to it. -/
structure Datas (Value : Type*) where
  vars : Str → Option (Var Value)
  valid : ∀ name, (vars name).isSome → validName name

def Datas.empty (Value : Type*) : Datas Value :=
  ⟨fun _ => none, fun _ h => absurd h (by simp)⟩

section

variable {Value : Type*}

/-- `ConfigVar(name, default_value, description)`; the name is in small letters. -/
def Var.make (name : Str) (default_value : Value) (description : Str) : Var Value :=
  { m_name := name.map Char.toLower
    m_description := description
    m_val := default_value }

def Datas.insert (datas : Datas Value) (name : Str) (v : Var Value)
    (h : validName name) : Datas Value where
  vars := Function.update datas.vars name (some v)
  valid key hkey := by
    by_cases heq : key = name
    · rw [heq]
      exact h
    · rw [Function.update_of_ne heq] at hkey
      exact datas.valid key hkey

/-- `Config::Lookup(name, default_value, description)`; `TypeToName` tells the types apart. -/
def Lookup (TypeToName : Value → String) (datas : Datas Value) (name : Str) (default_value : Value)
    (description : Str) : Except InvalidArgument (Datas Value × Option (Var Value)) :=
  match datas.vars name with
  | some tmp =>
    if TypeToName tmp.m_val = TypeToName default_value then .ok (datas, some tmp)
    else .ok (datas, none)
  | none =>
    if h : validName name then
      let v := Var.make name default_value description
      .ok (datas.insert name v h, some v)
    else .error ⟨name⟩

def LookupBase (datas : Datas Value) (name : Str) : Option (Var Value) := datas.vars name

end

/-! ### The tree -/

/-- An element of `output`: a node with its name, and where it is in the tree. -/
structure Member where
  key : Str
  place : List Nat
  node : Yaml.Node

/-- The same in the value of entry `i`. -/
def Member.below (i : Nat) (m : Member) : Member := { m with place := i :: m.place }

/-- `prefix.empty() ? it->first.Scalar() : prefix + "." + it->first.Scalar()` -/
def childName (pre key : Str) : Str := if pre.isEmpty then key else pre ++ '.' :: key

mutual

/-- The nodes from this one on, each before those below it. -/
def ListAllMember (pre : Str) (node : Yaml.Node) : List Member :=
  if validName pre then
    ⟨pre, [], node⟩ :: match node with
      | .map entries => listEntries pre 0 entries
      | _ => []
  else []
termination_by sizeOf node

/-- The loop over the entries of a map from number `i` on. -/
def listEntries (pre : Str) (i : Nat) (entries : List (String × Yaml.Node)) : List Member :=
  match entries with
  | [] => []
  | (key, child) :: rest =>
    (ListAllMember (childName pre key.toList) child).map (Member.below i)
      ++ listEntries pre (i + 1) rest
termination_by sizeOf entries

end

/-- `var->fromString(val)`, and the place of the node it is called for. -/
structure Call where
  place : List Nat
  name : Str
  val : Str
  deriving DecidableEq, Repr

/-- What `fromString` gets of a node. -/
def text (emit : Yaml.Node → Str) : Yaml.Node → Str
  | .scalar s => s
  | node => emit node

section

variable {Value : Type*} (emit : Yaml.Node → Str) (datas : Datas Value)

/-- One round of the loop of `LoadFromYaml`. -/
def load (i : Member) : Option Call :=
  if i.key.isEmpty then none
  else
    let key := i.key.map Char.toLower
    (LookupBase datas key).map fun _ => ⟨i.place, key, text emit i.node⟩

/-- The calls of `Config::LoadFromYaml`; `emit` is `<<` of a node. -/
def LoadFromYaml (root : Yaml.Node) : List Call := (ListAllMember [] root).filterMap (load emit datas)

end

/-! ### Paths -/

/-- The node at a place, and the keys on the way to it. -/
def nodeAt : Yaml.Node → List Nat → Option (List Str × Yaml.Node)
  | node, [] => some ([], node)
  | .map entries, i :: place =>
    match entries[i]? with
    | some (key, child) => (nodeAt child place).map fun (keys, node) => (key.toList :: keys, node)
    | none => none
  | _, _ :: _ => none

/-- The keys with dots between them. -/
def dotted (keys : List Str) : Str := ['.'].intercalate keys

/-- The name that `ListAllMember` makes of the keys. -/
def nameOf (pre : Str) (keys : List Str) : Str := keys.foldl childName pre

/-! ### What a node is listed as -/

theorem validName_iff (name : Str) : validName name ↔ ∀ c ∈ name, c ∈ nameChars := by
  simp [validName]

theorem validName_of_subset {name pre : Str} (h : pre ⊆ name) (hname : validName name) :
    validName pre := (validName_iff pre).mpr fun c hc => (validName_iff name).mp hname c (h hc)

theorem subset_childName (pre key : Str) : pre ⊆ childName pre key := by
  rw [childName]
  split_ifs with hempty
  · rw [List.isEmpty_iff.mp hempty]
    exact List.nil_subset key
  · exact List.subset_append_left pre _

theorem subset_nameOf (pre : Str) (keys : List Str) : pre ⊆ nameOf pre keys := by
  induction keys generalizing pre with
  | nil => exact List.Subset.refl pre
  | cons key keys ih => exact List.Subset.trans (subset_childName pre key) (ih (childName pre key))

theorem filter_map_below (i : Nat) (place : List Nat) (ms : List Member) :
    (ms.map (Member.below i)).filter (fun m => m.place = i :: place)
      = (ms.filter fun m => m.place = place).map (Member.below i) := by
  rw [List.filter_map]
  refine congrArg (List.map (Member.below i)) (List.filter_congr fun m _ => ?_)
  simp [Member.below]

theorem filter_map_below_ne {i j : Nat} (h : i ≠ j) (place : List Nat) (ms : List Member) :
    (ms.map (Member.below i)).filter (fun m => m.place = j :: place) = [] := by
  rw [List.filter_map, List.map_eq_nil_iff, List.filter_eq_nil_iff]
  intro m _
  simp [Member.below, h]

/-- The places of the entries begin with their numbers. -/
theorem exists_of_mem_listEntries {pre : Str} {entries : List (String × Yaml.Node)} :
    ∀ {i : Nat} {m : Member}, m ∈ listEntries pre i entries →
      ∃ j place, i ≤ j ∧ m.place = j :: place := by
  induction entries with
  | nil =>
    intro i m hm
    rw [listEntries] at hm
    exact absurd hm List.not_mem_nil
  | cons entry rest ih =>
    intro i m hm
    rw [listEntries, List.mem_append, List.mem_map] at hm
    rcases hm with ⟨m', -, rfl⟩ | hm
    · exact ⟨i, m'.place, Nat.le_refl i, rfl⟩
    · obtain ⟨j, place, hj, hplace⟩ := ih hm
      exact ⟨j, place, Nat.le_of_succ_le hj, hplace⟩

theorem filter_listEntries_lt (pre : Str) (place : List Nat) (entries : List (String × Yaml.Node))
    {i j : Nat} (h : j < i) :
    (listEntries pre i entries).filter (fun m => m.place = j :: place) = [] := by
  rw [List.filter_eq_nil_iff]
  intro m hm heq
  obtain ⟨j', place', hj', hplace⟩ := exists_of_mem_listEntries hm
  rw [decide_eq_true_eq, hplace] at heq
  have hjj' := (List.cons.inj heq).1
  omega

/-- The entries of a map are listed by their numbers. -/
theorem filter_listEntries (pre : Str) (place : List Nat) (entries : List (String × Yaml.Node)) :
    ∀ {i j : Nat} {key : String} {child : Yaml.Node}, entries[j]? = some (key, child) →
      (listEntries pre i entries).filter (fun m => m.place = (i + j) :: place)
        = ((ListAllMember (childName pre key.toList) child).filter fun m => m.place = place).map
          (Member.below (i + j)) := by
  induction entries with
  | nil =>
    intro i j key child hentry
    exact absurd hentry (by simp)
  | cons entry rest ih =>
    intro i j key child hentry
    rw [listEntries, List.filter_append]
    cases j with
    | zero =>
      obtain rfl : entry = (key, child) := by simpa using hentry
      rw [Nat.add_zero, filter_map_below, filter_listEntries_lt pre place rest (Nat.lt_succ_self i),
        List.append_nil]
    | succ j =>
      rw [List.getElem?_cons_succ] at hentry
      have hrest := ih (i := i + 1) hentry
      rw [Nat.add_right_comm, Nat.add_assoc] at hrest
      rw [filter_map_below_ne (by omega), List.nil_append, hrest]

/-- A node is listed under its name, once, if all characters of the name are allowed. -/
theorem filter_ListAllMember (place : List Nat) : ∀ {root node : Yaml.Node} {keys : List Str}
    (pre : Str), nodeAt root place = some (keys, node) →
      (ListAllMember pre root).filter (fun m => m.place = place)
        = if validName (nameOf pre keys) then [⟨nameOf pre keys, place, node⟩] else [] := by
  induction place with
  | nil =>
    intro root node keys pre hnode
    rw [nodeAt] at hnode
    obtain ⟨rfl, rfl⟩ := Prod.mk.inj (Option.some.inj hnode)
    rw [ListAllMember.eq_def, show nameOf pre [] = pre from rfl]
    split_ifs with hpre
    · -- the nodes below are at other places
      rw [List.filter_cons_of_pos (by simp)]
      refine congrArg (List.cons _) (List.filter_eq_nil_iff.mpr fun m hm heq => ?_)
      cases root with
      | map entries =>
        obtain ⟨j, place, -, hplace⟩ := exists_of_mem_listEntries hm
        rw [decide_eq_true_eq, hplace] at heq
        exact absurd heq (List.cons_ne_nil j place)
      | null => exact absurd hm List.not_mem_nil
      | scalar s => exact absurd hm List.not_mem_nil
      | sequence items => exact absurd hm List.not_mem_nil
    · rfl
  | cons i place ih =>
    intro root node keys pre hnode
    cases root with
    | map entries =>
      rw [nodeAt] at hnode
      cases hentry : entries[i]? with
      | none =>
        rw [hentry] at hnode
        exact absurd hnode (by simp)
      | some entry =>
        obtain ⟨key, child⟩ := entry
        rw [hentry] at hnode
        obtain ⟨⟨keys', node'⟩, hchild, heq⟩ := Option.map_eq_some_iff.mp hnode
        obtain ⟨rfl, rfl⟩ := Prod.mk.inj heq
        have hbelow := filter_listEntries pre place entries (i := 0) hentry
        rw [Nat.zero_add, ih _ hchild] at hbelow
        rw [ListAllMember, show nameOf pre (key.toList :: keys')
          = nameOf (childName pre key.toList) keys' from rfl]
        by_cases hpre : validName pre
        · rw [if_pos hpre, List.filter_cons_of_neg (by simp), hbelow]
          split_ifs
          · rfl
          · rfl
        · -- the name begins with what is not allowed
          have hsubset : pre ⊆ nameOf (childName pre key.toList) keys' :=
            List.Subset.trans (subset_childName pre key.toList) (subset_nameOf _ keys')
          rw [if_neg hpre, if_neg fun hname => hpre (validName_of_subset hsubset hname)]
          rfl
    | null => exact absurd hnode (by simp [nodeAt])
    | scalar s => exact absurd hnode (by simp [nodeAt])
    | sequence items => exact absurd hnode (by simp [nodeAt])

/-! ### Names -/

theorem dotted_cons {key : Str} {keys : List Str} (hne : keys ≠ []) :
    dotted (key :: keys) = key ++ '.' :: dotted keys := by
  rw [dotted, List.intercalate_cons_of_ne_nil hne]
  simp [dotted]

theorem dotted_singleton (key : Str) : dotted [key] = key := List.intercalate_singleton

/-- Behind a name that is not empty the keys are joined with dots. -/
theorem nameOf_eq_dotted {pre : Str} (hne : pre ≠ []) (keys : List Str) :
    nameOf pre keys = dotted (pre :: keys) := by
  induction keys generalizing pre with
  | nil => exact (dotted_singleton pre).symm
  | cons key keys ih =>
    have hchild : childName pre key = pre ++ '.' :: key := if_neg (by simpa using hne)
    have hne' : childName pre key ≠ [] := by
      rw [hchild]
      simp [hne]
    have hstep : nameOf pre (key :: keys) = nameOf (childName pre key) keys := rfl
    rw [hstep, ih hne', hchild, dotted_cons (List.cons_ne_nil key keys)]
    by_cases hkeys : keys = []
    · rw [hkeys, dotted_singleton, dotted_singleton]
    · rw [dotted_cons hkeys, dotted_cons hkeys, List.append_assoc, List.cons_append]

/-- An empty key at the beginning is lost. -/
theorem nameOf_cons (key : Str) (keys : List Str) :
    nameOf [] (key :: keys) = if key = [] then nameOf [] keys else dotted (key :: keys) := by
  have hstep : nameOf [] (key :: keys) = nameOf key keys := rfl
  rw [hstep]
  split_ifs with hkey
  · rw [hkey]
  · exact nameOf_eq_dotted hkey keys

theorem length_nameOf_le (keys : List Str) :
    (nameOf [] keys).length ≤ (dotted keys).length := by
  induction keys with
  | nil => exact Nat.le_refl _
  | cons key keys ih =>
    rw [nameOf_cons]
    split_ifs with hkey
    · by_cases hkeys : keys = []
      · rw [hkeys]
        exact Nat.zero_le _
      · rw [dotted_cons hkeys, List.length_append, List.length_cons]
        omega
    · exact Nat.le_refl _

/-- A name that is not empty and as long as the keys begins with a key that is not empty. -/
theorem exists_first_key {keys : List Str} (hne : nameOf [] keys ≠ [])
    (hlength : (nameOf [] keys).length = (dotted keys).length) :
    ∃ key rest, keys = key :: rest ∧ key ≠ [] := by
  cases keys with
  | nil => exact absurd rfl hne
  | cons key keys =>
    refine ⟨key, keys, rfl, fun hkey => ?_⟩
    rw [nameOf_cons, if_pos hkey] at hne hlength
    have hkeys : keys ≠ [] := by
      rintro rfl
      exact hne rfl
    have hle := length_nameOf_le keys
    rw [dotted_cons hkeys, List.length_append, List.length_cons] at hlength
    omega

theorem toLower_of_mem {c : Char} (h : c ∈ nameChars) : c.toLower = c := by
  have hall : (nameChars.all fun c => c.toLower = c) = true := by decide
  exact of_decide_eq_true (List.all_eq_true.mp hall c h)

theorem map_toLower {name : Str} (h : validName name) : name.map Char.toLower = name := by
  have hmap : name.map Char.toLower = name.map id :=
    List.map_congr_left fun c hc => toLower_of_mem ((validName_iff name).mp h c hc)
  rw [hmap, List.map_id]

/-- The characters of a name. -/
def NameChar (c : Char) : Prop := c.isLower ∨ c.isDigit ∨ c = '.' ∨ c = '_'

instance (c : Char) : Decidable (NameChar c) := inferInstanceAs (Decidable (_ ∨ _ ∨ _ ∨ _))

theorem nameChar_of_all {name : Str} (h : (name.all fun c => NameChar c) = true) :
    ∀ c ∈ name, NameChar c := fun c hc => of_decide_eq_true (List.all_eq_true.mp h c hc)

/-- Of these only the 9 is not in the list. -/
theorem mem_nameChars_iff {c : Char} (h : NameChar c) : c ∈ nameChars ↔ c ≠ '9' := by
  have hall : ∀ n < 128, NameChar (Char.ofNat n) →
      (Char.ofNat n ∈ nameChars ↔ Char.ofNat n ≠ '9') := by decide
  have hlt : c.toNat < 128 := by
    rcases h with hlower | hdigit | rfl | rfl
    · have hz := of_decide_eq_true (Bool.and_eq_true_iff.mp hlower).2
      have hle : c.toNat ≤ 'z'.toNat := UInt32.le_iff_toNat_le.mp hz
      exact Nat.lt_of_le_of_lt hle (by decide)
    · have h9 := of_decide_eq_true (Bool.and_eq_true_iff.mp hdigit).2
      have hle : c.toNat ≤ '9'.toNat := UInt32.le_iff_toNat_le.mp h9
      exact Nat.lt_of_le_of_lt hle (by decide)
    · decide
    · decide
  have hc := hall c.toNat hlt
  rw [Char.ofNat_toNat] at hc
  exact hc h

theorem validName_iff_not_mem {name : Str} (h : ∀ c ∈ name, NameChar c) :
    validName name ↔ '9' ∉ name := by
  rw [validName_iff]
  constructor
  · intro hall hmem
    exact absurd (hall '9' hmem) (by decide)
  · intro hnot c hc
    refine (mem_nameChars_iff (h c hc)).mpr ?_
    rintro rfl
    exact hnot hc

/-! ### Registered and read -/

section

variable {Value : Type*} (TypeToName : Value → String) (emit : Yaml.Node → Str)
  (datas : Datas Value)

/-- `Lookup` throws for the names with other characters, and registers all others. -/
theorem lookup_ok_iff (name : Str) (default_value : Value) (description : Str) :
    (∃ datas' v, Lookup TypeToName datas name default_value description = .ok (datas', v)
        ∧ (LookupBase datas' name).isSome)
      ↔ validName name := by
  constructor
  · rintro ⟨datas', v, -, hsome⟩
    exact datas'.valid name hsome
  · intro hvalid
    cases hfind : datas.vars name with
    | some tmp =>
      have hsome : (LookupBase datas name).isSome := by simp [LookupBase, hfind]
      by_cases htype : TypeToName tmp.m_val = TypeToName default_value
      · exact ⟨datas, some tmp, by simp only [Lookup, hfind, if_pos htype], hsome⟩
      · exact ⟨datas, none, by simp only [Lookup, hfind, if_neg htype], hsome⟩
    | none =>
      refine ⟨datas.insert name (Var.make name default_value description) hvalid, _,
        by simp only [Lookup, hfind, dif_pos hvalid]; rfl, ?_⟩
      simp [LookupBase, Datas.insert]

theorem place_of_load {m : Member} {call : Call} (h : load emit datas m = some call) :
    call.place = m.place := by
  rw [load] at h
  split_ifs at h
  obtain ⟨v, -, rfl⟩ := Option.map_eq_some_iff.mp h
  rfl

/-- The variable of a name in small letters is read. -/
theorem load_of_valid {key : Str} (h : validName key) (place : List Nat) (node : Yaml.Node) :
    load emit datas ⟨key, place, node⟩
      = if key ≠ [] ∧ (LookupBase datas key).isSome then some ⟨place, key, text emit node⟩
        else none := by
  rw [load]
  simp only [map_toLower h]
  by_cases hkey : key = []
  · rw [if_pos (List.isEmpty_iff.mpr hkey), if_neg fun hboth => hboth.1 hkey]
  · rw [if_neg (by simpa using hkey)]
    cases hfind : LookupBase datas key with
    | none => simp
    | some v => simp [hkey]

/-- What `LoadFromYaml` does with a node. -/
theorem filter_LoadFromYaml {root node : Yaml.Node} {place : List Nat} {keys : List Str}
    (hnode : nodeAt root place = some (keys, node)) :
    (LoadFromYaml emit datas root).filter (fun call => call.place = place)
      = if validName (nameOf [] keys) ∧ nameOf [] keys ≠ []
          ∧ (LookupBase datas (nameOf [] keys)).isSome then
          [⟨place, nameOf [] keys, text emit node⟩]
        else [] := by
  have hplace : ∀ m : Member,
      (load emit datas m).filter (fun call => call.place = place)
        = if m.place = place then load emit datas m else none := by
    intro m
    cases hload : load emit datas m with
    | none => simp
    | some call => simp [Option.filter_some, place_of_load emit datas hload]
  have hcomm : (LoadFromYaml emit datas root).filter (fun call => call.place = place)
      = ((ListAllMember [] root).filter fun m => m.place = place).filterMap (load emit datas) := by
    rw [LoadFromYaml, List.filter_filterMap, List.filterMap_filter]
    simp only [hplace, decide_eq_true_eq]
  rw [hcomm, filter_ListAllMember place [] hnode]
  by_cases hvalid : validName (nameOf [] keys)
  · rw [if_pos hvalid, List.filterMap_cons, load_of_valid emit datas hvalid]
    by_cases hread : nameOf [] keys ≠ [] ∧ (LookupBase datas (nameOf [] keys)).isSome
    · rw [if_pos hread, if_pos ⟨hvalid, hread⟩]
      rfl
    · rw [if_neg hread, if_neg fun hboth => hread hboth.2]
      rfl
  · rw [if_neg hvalid, if_neg fun hboth => hvalid hboth.1]
    rfl

/-- `Lookup` registers the variable without an exception, and `LoadFromYaml` then calls `fromString`
once for the node: that of this variable, with the text of the node. -/
def Loadable (name : Str) (default_value : Value) (description : Str) (root : Yaml.Node)
    (place : List Nat) (node : Yaml.Node) : Prop :=
  ∃ datas' v, Lookup TypeToName datas name default_value description = .ok (datas', v)
    ∧ (LookupBase datas' name).isSome
    ∧ (LoadFromYaml emit datas' root).filter (fun call => call.place = place)
      = [⟨place, name, text emit node⟩]

/-- A name without a 9 is loaded from a path that is written in small letters and does not begin
with an empty key. -/
theorem loadable_iff {name : Str} (hname : ∀ c ∈ name, NameChar c) (default_value : Value)
    (description : Str) {root node : Yaml.Node} {place : List Nat} {keys : List Str}
    (hnode : nodeAt root place = some (keys, node))
    (hkeys : (dotted keys).map Char.toLower = name) :
    Loadable TypeToName emit datas name default_value description root place node
      ↔ '9' ∉ name ∧ dotted keys = name ∧ ∃ key rest, keys = key :: rest ∧ key ≠ [] := by
  rw [← validName_iff_not_mem hname]
  constructor
  · rintro ⟨datas', v, hlookup, hsome, hcalls⟩
    rw [filter_LoadFromYaml emit datas' hnode] at hcalls
    split_ifs at hcalls with hread
    obtain ⟨hvalid, hne, -⟩ := hread
    have hnameOf : nameOf [] keys = name := congrArg Call.name (List.cons.inj hcalls).1
    have hlength : (nameOf [] keys).length = (dotted keys).length := by
      rw [hnameOf, ← hkeys, List.length_map]
    obtain ⟨key, rest, rfl, hkey⟩ := exists_first_key hne hlength
    refine ⟨(lookup_ok_iff TypeToName datas name default_value description).mp
      ⟨datas', v, hlookup, hsome⟩, ?_, key, rest, rfl, hkey⟩
    rw [← hnameOf, nameOf_cons, if_neg hkey]
  · rintro ⟨hvalid, hdotted, key, rest, rfl, hkey⟩
    obtain ⟨datas', v, hlookup, hsome⟩ :=
      (lookup_ok_iff TypeToName datas name default_value description).mpr hvalid
    have hnameOf : nameOf [] (key :: rest) = name := by
      rw [nameOf_cons, if_neg hkey, hdotted]
    have hne : name ≠ [] := by
      obtain ⟨c, hc⟩ := List.exists_mem_of_ne_nil key hkey
      exact List.ne_nil_of_mem (hnameOf ▸ subset_nameOf key rest hc)
    refine ⟨datas', v, hlookup, hsome, ?_⟩
    rw [filter_LoadFromYaml emit datas' hnode, hnameOf, if_pos ⟨hvalid, hne, hsome⟩]

end

/-- `tcp.timeout` of a document. -/
theorem loadable_timeout :
    Loadable (fun _ : Unit => "int") (fun _ => []) (.empty Unit) "tcp.timeout".toList () []
        (.map [("Other", .null), ("tcp", .map [("timeout", .scalar ['5'])])]) [1, 0] (.scalar ['5'])
      ↔ '9' ∉ "tcp.timeout".toList ∧ dotted ["tcp".toList, "timeout".toList] = "tcp.timeout".toList
        ∧ ∃ key rest, ["tcp".toList, "timeout".toList] = key :: rest ∧ key ≠ [] :=
  loadable_iff _ _ _ (nameChar_of_all (by decide)) () [] rfl (by decide)

/-- The name `9` is not registered. -/
theorem not_loadable :
    ¬ ∀ (name : Str) (root node : Yaml.Node) (place : List Nat) (keys : List Str),
      (∀ c ∈ name, NameChar c) → nodeAt root place = some (keys, node) →
      (dotted keys).map Char.toLower = name →
      Loadable (fun _ : Unit => "int") (fun _ => []) (.empty Unit) name () [] root place node := by
  intro h
  obtain ⟨datas', v, hlookup, -⟩ :=
    h ['9'] (.map [("9", .null)]) .null [0] [['9']] (nameChar_of_all (by decide)) rfl (by decide)
  have hthrows : Lookup (fun _ : Unit => "int") (.empty Unit) ['9'] () [] = .error ⟨['9']⟩ := by
    simp only [Lookup, Datas.empty]
    rw [dif_neg (by decide)]
  rw [hthrows] at hlookup
  exact absurd hlookup (by simp)

end Config

end FiberServer
