import FiberServer.Library.FileSystem

/-!
# Where paths lead

`resolve` processes the components of a path lexically.  Without symbolic links that
is where the system calls go (`locate_resolve`).

* `Route`: a relative path without detours, some directories up and then some names
  down; `reduce` is the route of a list of components.
* `resolve_below_iff`: a path that continues `root/` leads to `ns` below `root`
  exactly when its route goes down to `ns` behind the names of `root` that it left.
-/

namespace FileSystem

variable {α : Type*}

/-- Where a path leads lexically. -/
def resolve (cwd : Loc) (path : List Char) : Loc :=
  normal (start cwd (cstr path)) ((cstr path).splitOn '/')

/-- Strictly below. -/
def Below (root l : Loc) : Prop := ∃ ns, ns ≠ [] ∧ l = ns ++ root

theorem normal_append (l : Loc) (ns ms : List Name) :
    normal l (ns ++ ms) = normal (normal l ns) ms :=
  List.foldl_append

/-- System calls go where the path leads lexically. -/
theorem locate_resolve {fs : FS α} {cwd : Loc} {path : List Char} {r : Loc × Name}
    (h : locate fs cwd path = some r) : push r.1 r.2 = resolve cwd path := by
  rw [locate] at h
  split_ifs at h with hempty
  obtain ⟨l, hl, rfl⟩ := Option.map_eq_some_iff.mp h
  have hne : (cstr path).splitOn '/' ≠ [] := List.splitOn_ne_nil _ _
  have hsplit := List.dropLast_append_getLast hne
  rw [resolve, ← hsplit, normal_append, ← walk_eq_normal hl, hsplit,
    List.getLastD_eq_getLast?, List.getLast?_eq_some_getLast hne]
  rfl

/-! ### Routes -/

/-- Up and then down; the names are in the order of a location, the last one first. -/
structure Route where
  ups : Nat
  names : Loc
  deriving DecidableEq, Repr

namespace Route

/-- One more component. -/
def push (r : Route) (n : Name) : Route :=
  if n = [] ∨ n = ['.'] then r
  else if n = ['.', '.'] then
    match r.names with
    | [] => ⟨r.ups + 1, []⟩
    | _ :: ns => ⟨r.ups, ns⟩
  else ⟨r.ups, n :: r.names⟩

/-- Where the route leads from `l`. -/
def follow (r : Route) (l : Loc) : Loc := r.names ++ l.drop r.ups

theorem follow_push (r : Route) (n : Name) (l : Loc) :
    FileSystem.push (r.follow l) n = (r.push n).follow l := by
  obtain ⟨k, ns⟩ := r
  rw [FileSystem.push, push]
  split_ifs
  · rfl
  · cases ns with
    | nil => simp [follow, List.tail_drop]
    | cons m ns => rfl
  · rfl

/-- The names below `root` to which the route leads from there: behind the `..` come
the names of `root` that they left. -/
def inside (root : Loc) (r : Route) : Option Loc :=
  if root.take r.ups <:+ r.names then some (r.names.take (r.names.length - (root.take r.ups).length))
  else none

theorem inside_eq_some {root : Loc} {r : Route} {ns : Loc} :
    r.inside root = some ns ↔ r.names = ns ++ root.take r.ups := by
  rw [inside]
  constructor
  · intro h
    split_ifs at h with hsuffix
    obtain ⟨ms, hms⟩ := hsuffix
    rw [← hms] at h ⊢
    simpa using h
  · intro h
    rw [h, if_pos (List.suffix_append _ _)]
    simp

/-- Inside the root the route leads to these names. -/
theorem follow_eq_iff {root : Loc} {r : Route} {ns : Loc} :
    r.follow root = ns ++ root ↔ r.inside root = some ns := by
  rw [inside_eq_some, follow]
  conv_lhs => rhs; rw [← List.take_append_drop r.ups root, ← List.append_assoc]
  exact List.append_left_inj _

end Route

def reduce (ns : List Name) : Route := ns.foldl Route.push ⟨0, []⟩

theorem normal_eq_follow (l : Loc) (ns : List Name) : normal l ns = (reduce ns).follow l := by
  have key : ∀ (r : Route), normal (r.follow l) ns = (ns.foldl Route.push r).follow l := by
    induction ns with
    | nil => intro r; rfl
    | cons n ns ih =>
      intro r
      rw [List.foldl_cons, ← ih, ← Route.follow_push]
      rfl
  exact key ⟨0, []⟩

/-- A single component that is not `""`, `.` or `..`, and has no slash or NUL. -/
def Plain (n : Name) : Prop := special n = false ∧ '/' ∉ n ∧ '\x00' ∉ n

theorem Route.push_plain {r : Route} {n : Name} (h : special n = false) :
    r.push n = ⟨r.ups, n :: r.names⟩ := by
  simp only [special, Bool.or_eq_false_iff, beq_eq_false_iff_ne] at h
  rw [Route.push, if_neg (by tauto), if_neg h.2]

/-! ### Paths that continue a root -/

/-- The components of a path that is put behind a root and a slash. -/
def parts (path : List Char) : List Name := (cstr path).splitOn '/'

theorem start_slash (cwd : Loc) (root path : List Char) :
    start cwd (root ++ '/' :: path) = start cwd (root ++ ['/']) := by
  cases root with
  | nil => rfl
  | cons c root => rfl

theorem resolve_slash {cwd : Loc} {root path : List Char} (h0 : '\x00' ∉ root) :
    resolve cwd (root ++ '/' :: path) = normal (resolve cwd (root ++ ['/'])) (parts path) := by
  have hcstr : ∀ q, cstr (root ++ '/' :: q) = root ++ '/' :: cstr q := by
    intro q
    rw [cstr_append h0]
    rfl
  have hroot : resolve cwd (root ++ ['/']) = normal (start cwd (root ++ ['/'])) (root.splitOn '/') := by
    rw [resolve, hcstr [], List.splitOn_append_cons_self, normal_append]
    rfl
  rw [resolve, hcstr, start_slash, List.splitOn_append_cons_self, normal_append, hroot, parts]

/-- A path that continues `root/` leads to `ns` below `root`. -/
theorem resolve_below_iff {cwd : Loc} {root path : List Char} {ns : Loc} (h0 : '\x00' ∉ root) :
    resolve cwd (root ++ '/' :: path) = ns ++ resolve cwd (root ++ ['/'])
      ↔ (reduce (parts path)).inside (resolve cwd (root ++ ['/'])) = some ns := by
  rw [resolve_slash h0, normal_eq_follow, Route.follow_eq_iff]

/-- After a NUL in the root nothing counts. -/
theorem resolve_of_nul {cwd : Loc} {root path : List Char} (h0 : '\x00' ∈ root) :
    resolve cwd (root ++ path) = resolve cwd root := by
  rw [resolve, resolve, cstr_append_of_mem h0]

/-- A path with one plain component more. -/
theorem resolve_plain {cwd : Loc} {path : List Char} {n : Name} (hpath : path ≠ [])
    (h0 : '\x00' ∉ path) (hn : Plain n) :
    resolve cwd (path ++ '/' :: n) = n :: resolve cwd path := by
  have hcstr : cstr (path ++ '/' :: n) = path ++ '/' :: n := by
    rw [cstr_append h0]
    exact congrArg _ (congrArg _ (cstr_eq_self hn.2.2))
  have hstart : start cwd (path ++ '/' :: n) = start cwd path := by
    cases path with
    | nil => exact absurd rfl hpath
    | cons c path => rfl
  rw [resolve, resolve, hcstr, cstr_eq_self h0, hstart, List.splitOn_append_cons_self,
    normal_append, List.splitOn_eq_singleton hn.2.1]
  exact push_of_not_special hn.1

end FileSystem
