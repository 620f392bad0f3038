import FiberServer.Library.Paths
import Mathlib.Algebra.Order.Ring.Int
import Mathlib.Data.Finset.Lattice.Fold
import Mathlib.Order.Lattice.Nat

/-!
# A file system with symbolic links

The leaves of the file system are regular files and symbolic links, and the target of a link is a
path.  A path is resolved from component to component.  A link in front of the last component is
followed, at the last component only where a call asks for that, and the resolution fails after 40
links.

* `resolve_concat`: the parent of a path with one more component is the directory that the path
  opens.
* `Shrinks.resolve`: what is found after nodes have been removed was found before.
* `Keeps.resolve`: what is found stays where it is as long as directories and links stay.
-/

namespace Posix

open FileSystem (Loc Name Plain get isDir special push start cstr)

inductive Leaf (α : Type*)
  | file (content : α)
  | link (target : List Char)
  deriving DecidableEq, Repr

abbrev FS (α : Type*) := FileSystem.FS (Leaf α)

abbrev Node (α : Type*) := FileSystem.Node (Leaf α)

variable {α : Type*}

/-- A file system whose names are names. -/
structure Volume (α : Type*) where
  fs : FS α
  plain : ∀ n l, (get fs (n :: l)).isSome → Plain n

instance : DecidablePred Plain := fun n =>
  inferInstanceAs (Decidable (special n = false ∧ '/' ∉ n ∧ '\x00' ∉ n))

/-- The volume of some nodes. -/
def Volume.ofFS (fs : FS α) (h : ∀ k ∈ fs.keys, ∀ n ∈ k.head?, Plain n) : Volume α where
  fs := fs
  plain := fun n l hsome => h (n :: l) (AList.mem_keys.mp (AList.lookup_isSome.mp hsome)) n rfl

/-- No location is longer. -/
def depth (fs : FS α) : Nat := fs.keys.toFinset.sup List.length

theorem length_le_depth {fs : FS α} {l : Loc} (h : (get fs l).isSome) : l.length ≤ depth fs := by
  cases l with
  | nil => exact Nat.zero_le _
  | cons n l =>
    have hmem : n :: l ∈ fs.keys := AList.mem_keys.mp (AList.lookup_isSome.mp h)
    exact Finset.le_sup (f := List.length) (List.mem_toFinset.mpr hmem)

/-- The target of the link that a component names. -/
def linkAt (fs : FS α) (l : Loc) (n : Name) : Option (List Char) :=
  if special n then none
  else
    match get fs (n :: l) with
    | some (.file (.link target)) => some target
    | _ => none

/-- The parent directory of what the components lead to, and its name; `follow` goes on behind a
link. -/
def resolveWith (fs : FS α) (last : Bool) (follow : Loc → List Name → Option (Loc × Name)) :
    Loc → List Name → Option (Loc × Name)
  | _, [] => none
  | l, [n] =>
    match linkAt fs l n with
    | some target => if last then follow (start l target) (target.splitOn '/') else some (l, n)
    | none => some (l, n)
  | l, n :: m :: ns =>
    match linkAt fs l n with
    | some target => follow (start l target) (target.splitOn '/' ++ m :: ns)
    | none => if isDir fs (push l n) then resolveWith fs last follow (push l n) (m :: ns) else none

/-- Resolve with at most so many links. -/
def resolve (fs : FS α) (last : Bool) : Nat → Loc → List Name → Option (Loc × Name)
  | 0 => resolveWith fs last fun _ _ => none
  | links + 1 => resolveWith fs last (resolve fs last links)

/-- The directory that the components lead to. -/
def opens (fs : FS α) (links : Nat) (l : Loc) (ns : List Name) : Option Loc :=
  (resolve fs true links l ns).bind fun r =>
    if isDir fs (push r.1 r.2) then some (push r.1 r.2) else none

/-! ### System calls -/

def maxLinks : Nat := 40

/-- Where a path leads from the working directory `cwd`; the last component is followed if `last`
is set. -/
def locate (fs : FS α) (cwd : Loc) (last : Bool) (path : List Char) : Option (Loc × Name) :=
  if cstr path = [] then none
  else resolve fs last maxLinks (start cwd (cstr path)) ((cstr path).splitOn '/')

def lstat (fs : FS α) (cwd : Loc) (path : List Char) : Option (Node α) :=
  (locate fs cwd false path).bind fun r => get fs (push r.1 r.2)

/-- `access(F_OK)` looks for this. -/
def stat (fs : FS α) (cwd : Loc) (path : List Char) : Option (Node α) :=
  (locate fs cwd true path).bind fun r => get fs (push r.1 r.2)

def mkdir (fs : FS α) (cwd : Loc) (path : List Char) : Option (FS α) :=
  (locate fs cwd false path).bind fun r =>
    if special r.2 || (get fs (r.2 :: r.1)).isSome then none else some (fs.insert (r.2 :: r.1) .dir)

/-- `open(O_WRONLY | O_CREAT)`: where the file is. -/
def openWrite (fs : FS α) (cwd : Loc) (path : List Char) : Option Loc :=
  (locate fs cwd true path).bind fun r =>
    if special r.2 || isDir fs (r.2 :: r.1) then none else some (r.2 :: r.1)

def opendir (fs : FS α) (cwd : Loc) (path : List Char) : Option Loc :=
  if cstr path = [] then none
  else opens fs maxLinks (start cwd (cstr path)) ((cstr path).splitOn '/')

def unlink (fs : FS α) (cwd : Loc) (path : List Char) : Option (FS α) :=
  (locate fs cwd false path).bind fun r =>
    if special r.2 then none
    else
      match get fs (r.2 :: r.1) with
      | some (.file _) => some (fs.erase (r.2 :: r.1))
      | _ => none

/-- Only an empty directory can be removed. -/
def rmdir (fs : FS α) (cwd : Loc) (path : List Char) : Option (FS α) :=
  (locate fs cwd false path).bind fun r =>
    if special r.2 || !isDir fs (r.2 :: r.1) || !(FileSystem.readdir fs (r.2 :: r.1)).isEmpty then
      none
    else some (fs.erase (r.2 :: r.1))

/-- A node takes the place of another. -/
def replace (fs : FS α) (src dst : Loc) : Option (FS α) :=
  match get fs src, get fs dst with
  | none, _ => none
  | some (.file _), some .dir => none
  | some (.file x), _ => if src = dst then some fs else some ((fs.erase src).insert dst (.file x))
  | some .dir, some (.file _) => none
  | some .dir, _ =>
    if src = dst then some fs
    else if src.isSuffixOf dst || !(FileSystem.readdir fs dst).isEmpty then none
    else some (FileSystem.moveTree fs src dst)

def rename (fs : FS α) (cwd : Loc) (old new : List Char) : Option (FS α) :=
  (locate fs cwd false old).bind fun o => (locate fs cwd false new).bind fun d =>
    if special o.2 || special d.2 then none else replace fs (o.2 :: o.1) (d.2 :: d.1)

/-! ### One component more -/

theorem linkAt_of_isDir {fs : FS α} {l : Loc} {n : Name} (h : isDir fs (push l n)) :
    linkAt fs l n = none := by
  rw [linkAt]
  split_ifs with hn
  · rfl
  · rw [Bool.not_eq_true] at hn
    rw [FileSystem.push_of_not_special hn, FileSystem.isDir_iff] at h
    rw [h]

theorem linkAt_eq_some {fs : FS α} {l : Loc} {n : Name} {target : List Char}
    (h : linkAt fs l n = some target) :
    special n = false ∧ get fs (n :: l) = some (.file (.link target)) := by
  rw [linkAt] at h
  split_ifs at h with hn
  rw [Bool.not_eq_true] at hn
  refine ⟨hn, ?_⟩
  split at h
  · rename_i target' hget
    cases h
    exact hget
  · exact nomatch h

/-- The cases of one component; every resolution with another goes through `follow`. -/
theorem resolve_cons (fs : FS α) (last : Bool) (links : Nat) (l : Loc) (n m : Name)
    (ns : List Name) :
    resolve fs last links l (n :: m :: ns) =
      match linkAt fs l n with
      | some target =>
        match links with
        | 0 => none
        | k + 1 => resolve fs last k (start l target) (target.splitOn '/' ++ m :: ns)
      | none =>
        if isDir fs (push l n) then resolve fs last links (push l n) (m :: ns) else none := by
  cases links <;> rw [resolve, resolveWith]

theorem resolve_singleton (fs : FS α) (last : Bool) (links : Nat) (l : Loc) (n : Name) :
    resolve fs last links l [n] =
      match linkAt fs l n with
      | some target =>
        if last then
          match links with
          | 0 => none
          | k + 1 => resolve fs last k (start l target) (target.splitOn '/')
        else some (l, n)
      | none => some (l, n) := by
  cases links <;> rw [resolve, resolveWith]

theorem resolve_false_singleton (fs : FS α) (links : Nat) (l : Loc) (n : Name) :
    resolve fs false links l [n] = some (l, n) := by
  rw [resolve_singleton]
  cases linkAt fs l n <;> rfl

/-- What is left behind one component when others follow: so many links, where, and which
components. -/
def advance (fs : FS α) (links : Nat) (l : Loc) (n : Name) (rest : List Name) :
    Option (Nat × Loc × List Name) :=
  match linkAt fs l n with
  | some target =>
    match links with
    | 0 => none
    | k + 1 => some (k, start l target, target.splitOn '/' ++ rest)
  | none => if isDir fs (push l n) then some (links, push l n, rest) else none

theorem resolve_more (fs : FS α) (last : Bool) (links : Nat) (l : Loc) (n m : Name)
    (ns : List Name) : resolve fs last links l (n :: m :: ns)
      = (advance fs links l n (m :: ns)).bind fun c => resolve fs last c.1 c.2.1 c.2.2 := by
  rw [resolve_cons, advance]
  cases linkAt fs l n with
  | none =>
    simp only
    split_ifs <;> rfl
  | some target => cases links <;> rfl

theorem opens_more (fs : FS α) (links : Nat) (l : Loc) (n m : Name) (ns : List Name) :
    opens fs links l (n :: m :: ns)
      = (advance fs links l n (m :: ns)).bind fun c => opens fs c.1 c.2.1 c.2.2 := by
  rw [opens, resolve_more, Option.bind_assoc]
  rfl

theorem advance_append (fs : FS α) (links : Nat) (l : Loc) (n : Name) (ms ns : List Name) :
    advance fs links l n (ms ++ ns)
      = (advance fs links l n ms).map fun c => (c.1, c.2.1, c.2.2 ++ ns) := by
  rw [advance, advance]
  cases linkAt fs l n with
  | none =>
    simp only
    split_ifs <;> rfl
  | some target =>
    cases links with
    | zero => rfl
    | succ k => simp only [Option.map_some, List.append_assoc]

/-- **Induction** over a resolution: a component leads to what is left behind it, and a link at the
end leads on with one link less. -/
theorem resolve_induction (fs : FS α) {P : Nat → Loc → List Name → Prop}
    (one : ∀ links l n, (∀ k, links = k + 1 → ∀ l' ns, ns ≠ [] → P k l' ns) → P links l [n])
    (more : ∀ links l n m ns, (∀ c, advance fs links l n (m :: ns) = some c → P c.1 c.2.1 c.2.2) →
      P links l (n :: m :: ns)) :
    ∀ links l ns, ns ≠ [] → P links l ns := by
  have components : ∀ links, (∀ k, links = k + 1 → ∀ l ns, ns ≠ [] → P k l ns) →
      ∀ ns l, ns ≠ [] → P links l ns := by
    intro links hlinks ns
    induction ns with
    | nil => exact fun _ hns => absurd rfl hns
    | cons n ns ih =>
      intro l _
      cases ns with
      | nil => exact one links l n hlinks
      | cons m ns =>
        refine more links l n m ns fun c hc => ?_
        rw [advance] at hc
        cases hn : linkAt fs l n with
        | none =>
          simp only [hn] at hc
          split_ifs at hc
          obtain rfl := Option.some.inj hc
          exact ih _ (List.cons_ne_nil m ns)
        | some target =>
          simp only [hn] at hc
          cases links with
          | zero => exact nomatch hc
          | succ k =>
            obtain rfl := Option.some.inj hc
            exact hlinks k rfl _ _ (List.append_ne_nil_of_right_ne_nil _ (List.cons_ne_nil m ns))
  intro links
  induction links with
  | zero => exact fun l ns hns => components 0 (fun k hk => nomatch hk) ns l hns
  | succ links ih =>
    intro l ns hns
    refine components (links + 1) (fun k hk => ?_) ns l hns
    obtain rfl := Nat.succ.inj hk
    exact ih

theorem opens_singleton (fs : FS α) (links : Nat) (l : Loc) (n : Name) :
    opens fs links l [n] =
      match linkAt fs l n with
      | some target =>
        match links with
        | 0 => none
        | k + 1 => opens fs k (start l target) (target.splitOn '/')
      | none => if isDir fs (push l n) then some (push l n) else none := by
  rw [opens, resolve_singleton]
  cases linkAt fs l n <;> cases links <;> rfl

/-- The parent of one more component is the directory that the components open. -/
theorem resolve_concat (fs : FS α) (n : Name) {ns : List Name} (links : Nat) (l : Loc)
    (hns : ns ≠ []) :
    resolve fs false links l (ns ++ [n]) = (opens fs links l ns).map fun d => (d, n) := by
  refine resolve_induction fs (P := fun links l ns =>
    resolve fs false links l (ns ++ [n]) = (opens fs links l ns).map fun d => (d, n)) ?_ ?_ links l
    ns hns
  · intro links l m ih
    rw [List.singleton_append, resolve_cons, opens_singleton]
    cases linkAt fs l m with
    | none =>
      simp only
      split_ifs
      · exact resolve_false_singleton fs links _ n
      · rfl
    | some target =>
      cases links with
      | zero => rfl
      | succ k => exact ih k rfl _ _ (List.splitOn_ne_nil _ _)
  · intro links l m m' ns ih
    rw [List.cons_append, List.cons_append, resolve_more, ← List.cons_append, advance_append,
      opens_more, Option.bind_map, Option.map_bind]
    exact Option.bind_congr fun c hc => ih c hc

/-- A name in the directory that is no link. -/
theorem resolve_of_opens {fs : FS α} {n : Name} {ns : List Name} {last : Bool} {links : Nat}
    {l d : Loc} (hns : ns ≠ []) (hopens : opens fs links l ns = some d)
    (hlink : linkAt fs d n = none) : resolve fs last links l (ns ++ [n]) = some (d, n) := by
  refine resolve_induction fs (P := fun links l ns => opens fs links l ns = some d →
    resolve fs last links l (ns ++ [n]) = some (d, n)) ?_ ?_ links l ns hns hopens
  · intro links l m ih h
    rw [List.singleton_append, resolve_cons]
    rw [opens_singleton] at h
    cases hm : linkAt fs l m with
    | none =>
      simp only [hm] at h ⊢
      split_ifs at h ⊢ with hdir
      obtain rfl := Option.some.inj h
      rw [resolve_singleton, hlink]
    | some target =>
      simp only [hm] at h ⊢
      cases links with
      | zero => exact nomatch h
      | succ k => exact ih k rfl _ _ (List.splitOn_ne_nil _ _) h
  · intro links l m m' ns ih h
    rw [opens_more] at h
    obtain ⟨c, hc, hd⟩ := Option.bind_eq_some_iff.mp h
    rw [List.cons_append, List.cons_append, resolve_more, ← List.cons_append, advance_append, hc]
    exact ih c hc hd

/-- What is in front of a resolved component is a directory. -/
theorem opens_of_resolve {fs : FS α} {m : Name} {ns ms : List Name} {last : Bool} {links : Nat}
    {l : Loc} (hns : ns ≠ []) (h : (resolve fs last links l (ns ++ m :: ms)).isSome) :
    (opens fs links l ns).isSome := by
  refine resolve_induction fs (P := fun links l ns =>
    (resolve fs last links l (ns ++ m :: ms)).isSome → (opens fs links l ns).isSome) ?_ ?_ links l
    ns hns h
  · intro links l n ih h
    rw [List.singleton_append, resolve_cons] at h
    rw [opens_singleton]
    cases hn : linkAt fs l n with
    | none =>
      simp only [hn] at h ⊢
      split_ifs at h ⊢
      · rfl
      · exact nomatch h
    | some target =>
      simp only [hn] at h ⊢
      cases links with
      | zero => exact nomatch h
      | succ k => exact ih k rfl _ _ (List.splitOn_ne_nil _ _) h
  · intro links l n n' ns ih h
    rw [List.cons_append, List.cons_append, resolve_more, ← List.cons_append, advance_append] at h
    rw [opens_more]
    cases hc : advance fs links l n (n' :: ns) with
    | none =>
      rw [hc] at h
      exact nomatch h
    | some c =>
      rw [hc] at h
      exact ih c hc h

/-- A path whose last component is followed does not end at a link. -/
theorem linkAt_of_resolve {fs : FS α} {ns : List Name} {links : Nat} {l : Loc} {r : Loc × Name}
    (hns : ns ≠ []) (h : resolve fs true links l ns = some r) : linkAt fs r.1 r.2 = none := by
  refine resolve_induction fs (P := fun links l ns => resolve fs true links l ns = some r →
    linkAt fs r.1 r.2 = none) ?_ ?_ links l ns hns h
  · intro links l n ih h
    rw [resolve_singleton] at h
    cases hn : linkAt fs l n with
    | none =>
      simp only [hn] at h
      obtain rfl := Option.some.inj h
      exact hn
    | some target =>
      simp only [hn] at h
      cases links with
      | zero => exact nomatch h
      | succ k => exact ih k rfl _ _ (List.splitOn_ne_nil _ _) h
  · intro links l n n' ns ih h
    rw [resolve_more] at h
    obtain ⟨c, hc, hr⟩ := Option.bind_eq_some_iff.mp h
    exact ih c hc hr

/-- Where the last component is no link it makes no difference that it is followed. -/
theorem resolve_true {fs : FS α} {ns : List Name} {links : Nat} {l : Loc} {r : Loc × Name}
    (hns : ns ≠ []) (h : resolve fs false links l ns = some r) (hlink : linkAt fs r.1 r.2 = none) :
    resolve fs true links l ns = some r := by
  refine resolve_induction fs (P := fun links l ns => resolve fs false links l ns = some r →
    resolve fs true links l ns = some r) ?_ ?_ links l ns hns h
  · intro links l n _ h
    rw [resolve_false_singleton] at h
    obtain rfl := Option.some.inj h
    rw [resolve_singleton, hlink]
  · intro links l n n' ns ih h
    rw [resolve_more] at h ⊢
    obtain ⟨c, hc, hr⟩ := Option.bind_eq_some_iff.mp h
    rw [hc]
    exact ih c hc hr

/-- A directory that can be opened is there, or a link to it is. -/
theorem resolve_of_opens_isSome {fs : FS α} {ns : List Name} {links : Nat} {l : Loc} (hns : ns ≠ [])
    (h : (opens fs links l ns).isSome) :
    ∃ r, resolve fs false links l ns = some r ∧ (get fs (push r.1 r.2)).isSome := by
  refine resolve_induction fs (P := fun links l ns => (opens fs links l ns).isSome →
    ∃ r, resolve fs false links l ns = some r ∧ (get fs (push r.1 r.2)).isSome) ?_ ?_ links l ns
    hns h
  · intro links l n _ h
    rw [opens_singleton] at h
    rw [resolve_false_singleton]
    refine ⟨(l, n), rfl, ?_⟩
    cases hn : linkAt fs l n with
    | none =>
      simp only [hn] at h
      split_ifs at h with hdir
      · rw [FileSystem.isDir_iff.mp hdir]
        rfl
      · exact nomatch h
    | some target =>
      obtain ⟨hspecial, hget⟩ := linkAt_eq_some hn
      rw [FileSystem.push_of_not_special hspecial, hget]
      rfl
  · intro links l n n' ns ih h
    rw [opens_more] at h
    rw [resolve_more]
    cases hc : advance fs links l n (n' :: ns) with
    | none =>
      rw [hc] at h
      exact nomatch h
    | some c =>
      rw [hc] at h
      exact ih c hc h

/-! ### Nodes that go and nodes that stay -/

/-- A node that is found by its path. -/
theorem lstat_eq {fs : FS α} {cwd : Loc} {p : List Char} {r : Loc × Name}
    (h : locate fs cwd false p = some r) : lstat fs cwd p = get fs (push r.1 r.2) := by
  rw [lstat, h]
  rfl

/-- The path leads to a regular file at `l`. -/
def FileAt (fs : FS α) (cwd : Loc) (path : List Char) (l : Loc) : Prop :=
  ∃ p n x, l = n :: p ∧ locate fs cwd false path = some (p, n) ∧ special n = false
    ∧ get fs l = some (.file (.file x))

theorem FileAt.unique {fs : FS α} {cwd : Loc} {path : List Char} {l l' : Loc}
    (h : FileAt fs cwd path l) (h' : FileAt fs cwd path l') : l = l' := by
  obtain ⟨p, n, x, rfl, hr, -⟩ := h
  obtain ⟨p', n', x', rfl, hr', -⟩ := h'
  cases hr.symm.trans hr'
  rfl

/-- Nothing, or a regular file. -/
def NoneOrFile (x : Option (Node α)) : Prop := ∀ y ∈ x, ∃ c, y = .file (.file c)

instance (y : Node α) : Decidable (∃ c, y = .file (.file c)) :=
  match y with
  | .dir => .isFalse nofun
  | .file (.link _) => .isFalse nofun
  | .file (.file c) => .isTrue ⟨c, rfl⟩

instance (x : Option (Node α)) : Decidable (NoneOrFile x) :=
  inferInstanceAs (Decidable (∀ y ∈ x, ∃ c, y = .file (.file c)))

theorem fileAt_iff {fs : FS α} {cwd : Loc} {path : List Char} {l : Loc} :
    FileAt fs cwd path l ↔ ∃ r ∈ locate fs cwd false path, l = r.2 :: r.1 ∧ special r.2 = false
      ∧ ∃ x ∈ get fs l, ∃ c, x = .file (.file c) := by
  constructor
  · rintro ⟨p, n, c, hl, hr, hn, hget⟩
    exact ⟨(p, n), hr, hl, hn, _, hget, c, rfl⟩
  · rintro ⟨r, hr, hl, hn, x, hget, c, rfl⟩
    exact ⟨r.1, r.2, c, hl, hr, hn, hget⟩

instance (fs : FS α) (cwd : Loc) (path : List Char) (l : Loc) : Decidable (FileAt fs cwd path l) :=
  decidable_of_iff _ fileAt_iff.symm

/-- Nothing is new in `fs'`. -/
def Shrinks (fs fs' : FS α) : Prop := ∀ l x, get fs' l = some x → get fs l = some x

theorem Shrinks.refl (fs : FS α) : Shrinks fs fs := fun _ _ h => h

theorem Shrinks.trans {fs fs' fs'' : FS α} (h : Shrinks fs fs') (h' : Shrinks fs' fs'') :
    Shrinks fs fs'' :=
  fun l x hx => h l x (h' l x hx)

theorem shrinks_erase (fs : FS α) (l : Loc) : Shrinks fs (fs.erase l) :=
  fun _ _ => FileSystem.get_of_erase

theorem Shrinks.isDir {fs fs' : FS α} (h : Shrinks fs fs') {l : Loc} (hl : isDir fs' l) :
    isDir fs l :=
  FileSystem.isDir_iff.mpr (h l _ (FileSystem.isDir_iff.mp hl))

theorem Shrinks.linkAt {fs fs' : FS α} (h : Shrinks fs fs') {l : Loc} {n : Name}
    {target : List Char} (hl : linkAt fs' l n = some target) : linkAt fs l n = some target := by
  obtain ⟨hspecial, hget⟩ := linkAt_eq_some hl
  rw [Posix.linkAt, if_neg (by rw [hspecial]; exact Bool.false_ne_true), h _ _ hget]

theorem Shrinks.advance {fs fs' : FS α} (h : Shrinks fs fs') {links : Nat} {l : Loc} {n : Name}
    {ns : List Name} {c : Nat × Loc × List Name} (hc : advance fs' links l n ns = some c) :
    advance fs links l n ns = some c := by
  rw [Posix.advance] at hc ⊢
  cases hn : Posix.linkAt fs' l n with
  | none =>
    simp only [hn] at hc
    split_ifs at hc with hdir
    rw [linkAt_of_isDir (h.isDir hdir)]
    simp only
    rw [if_pos (h.isDir hdir)]
    exact hc
  | some target =>
    rw [h.linkAt hn]
    rwa [hn] at hc

/-- **What is found now was found before.** -/
theorem Shrinks.resolve {fs fs' : FS α} (h : Shrinks fs fs') {ns : List Name} {links : Nat}
    {l : Loc} {r : Loc × Name} (hns : ns ≠ []) (hr : resolve fs' false links l ns = some r) :
    resolve fs false links l ns = some r := by
  refine resolve_induction fs' (P := fun links l ns =>
    Posix.resolve fs' false links l ns = some r → Posix.resolve fs false links l ns = some r) ?_ ?_
    links l ns hns hr
  · intro links l n _ hr
    rwa [resolve_false_singleton] at hr ⊢
  · intro links l n n' ns ih hr
    rw [resolve_more] at hr ⊢
    obtain ⟨c, hc, hr⟩ := Option.bind_eq_some_iff.mp hr
    rw [h.advance hc]
    exact ih c hc hr

theorem Shrinks.opens {fs fs' : FS α} (h : Shrinks fs fs') {ns : List Name} {links : Nat}
    {l d : Loc} (hns : ns ≠ []) (hd : opens fs' links l ns = some d) :
    opens fs links l ns = some d := by
  have hchild := resolve_concat fs' [] links l hns
  rw [hd] at hchild
  have hbefore := h.resolve (List.append_ne_nil_of_left_ne_nil hns _) hchild
  rw [resolve_concat fs [] links l hns] at hbefore
  obtain ⟨d', hd', heq⟩ := Option.map_eq_some_iff.mp hbefore
  rw [hd']
  exact congrArg (some ∘ Prod.fst) heq

/-- Directories and links stay, and no link is new. -/
structure Keeps (fs fs' : FS α) : Prop where
  dirs : ∀ l, isDir fs l → isDir fs' l
  links : ∀ l n, linkAt fs' l n = linkAt fs l n

theorem Keeps.refl (fs : FS α) : Keeps fs fs := ⟨fun _ h => h, fun _ _ => rfl⟩

theorem Keeps.trans {fs fs' fs'' : FS α} (h : Keeps fs fs') (h' : Keeps fs' fs'') :
    Keeps fs fs'' :=
  ⟨fun l hl => h'.dirs l (h.dirs l hl), fun l n => (h'.links l n).trans (h.links l n)⟩

theorem keeps_erase {fs : FS α} {l : Loc} {x : α} (h : get fs l = some (.file (.file x))) :
    Keeps fs (fs.erase l) where
  dirs := by
    intro l' hl'
    exact FileSystem.isDir_erase h hl'
  links := by
    intro l' n
    rw [Posix.linkAt, Posix.linkAt]
    by_cases hl : n :: l' = l
    · rw [← hl, FileSystem.get_erase_self, hl, h]
    · rw [FileSystem.get_erase_ne fs hl]

/-- What is put in no place of a directory or a link, and is no link. -/
theorem keeps_insert {fs : FS α} {l : Loc} {x : Node α} (hfree : NoneOrFile (get fs l))
    (hx : ∀ target, x ≠ .file (.link target)) : Keeps fs (fs.insert l x) := by
  cases l with
  | nil =>
    obtain ⟨c, hc⟩ := hfree .dir rfl
    exact nomatch hc
  | cons m l =>
    refine ⟨fun l' hl' => ?_, fun l' n => ?_⟩
    · rw [FileSystem.isDir_iff] at hl' ⊢
      have hll : l' ≠ m :: l := by
        rintro rfl
        obtain ⟨c, hc⟩ := hfree _ hl'
        exact nomatch hc
      rwa [FileSystem.get_insert_ne fs _ hll]
    · rw [Posix.linkAt, Posix.linkAt]
      by_cases hll : n :: l' = m :: l
      · rw [hll, FileSystem.get_insert_self]
        have hbefore : (match get fs (m :: l) with
            | some (.file (.link target)) => some target
            | _ => none) = none := by
          cases hget : get fs (m :: l) with
          | none => rfl
          | some y =>
            obtain ⟨c, rfl⟩ := hfree y hget
            rfl
        rw [hbefore]
        match x with
        | .dir => rfl
        | .file (.file c) => rfl
        | .file (.link target) => exact absurd rfl (hx target)
      · rw [FileSystem.get_insert_ne fs _ hll]

theorem keeps_insert_file {fs : FS α} {l : Loc} (h : NoneOrFile (get fs l)) (c : α) :
    Keeps fs (fs.insert l (.file (.file c))) :=
  keeps_insert h fun _ => nofun

theorem keeps_insert_dir {fs : FS α} {l : Loc} (h : get fs l = none) :
    Keeps fs (fs.insert l .dir) := by
  refine keeps_insert ?_ fun _ => nofun
  rw [h]
  exact nofun

theorem Keeps.advance {fs fs' : FS α} (h : Keeps fs fs') {links : Nat} {l : Loc} {n : Name}
    {ns : List Name} {c : Nat × Loc × List Name} (hc : advance fs links l n ns = some c) :
    advance fs' links l n ns = some c := by
  rw [Posix.advance] at hc ⊢
  rw [h.links]
  cases hn : linkAt fs l n with
  | none =>
    simp only [hn] at hc ⊢
    split_ifs at hc with hdir
    rw [if_pos (h.dirs _ hdir)]
    exact hc
  | some target => rwa [hn] at hc

/-- **What is found stays where it is.** -/
theorem Keeps.resolve {fs fs' : FS α} (h : Keeps fs fs') {ns : List Name} {last : Bool}
    {links : Nat} {l : Loc} {r : Loc × Name} (hns : ns ≠ [])
    (hr : resolve fs last links l ns = some r) : resolve fs' last links l ns = some r := by
  refine resolve_induction fs (P := fun links l ns => Posix.resolve fs last links l ns = some r →
    Posix.resolve fs' last links l ns = some r) ?_ ?_ links l ns hns hr
  · intro links l n ih hr
    rw [resolve_singleton] at hr ⊢
    rw [h.links]
    cases hn : linkAt fs l n with
    | none => rwa [hn] at hr
    | some target =>
      simp only [hn] at hr ⊢
      split_ifs at hr ⊢
      · cases links with
        | zero => exact nomatch hr
        | succ k => exact ih k rfl _ _ (List.splitOn_ne_nil _ _) hr
      · exact hr
  · intro links l n n' ns ih hr
    rw [resolve_more] at hr ⊢
    obtain ⟨c, hc, hr⟩ := Option.bind_eq_some_iff.mp hr
    rw [h.advance hc]
    exact ih c hc hr

theorem Keeps.opens {fs fs' : FS α} (h : Keeps fs fs') {ns : List Name} {links : Nat} {l d : Loc}
    (hns : ns ≠ []) (hd : opens fs links l ns = some d) : opens fs' links l ns = some d := by
  rw [Posix.opens, Option.bind_eq_some_iff] at hd ⊢
  obtain ⟨r, hr, hdir⟩ := hd
  split_ifs at hdir with hr'
  refine ⟨r, h.resolve hns hr, ?_⟩
  rw [if_pos (h.dirs _ hr')]
  exact hdir

/-- The regular files and links of `fs` are those of `fs'`. -/
def SameLeaves (fs fs' : FS α) : Prop :=
  ∀ l x, get fs' l = some (.file x) ↔ get fs l = some (.file x)

theorem sameLeaves_erase {fs : FS α} {l : Loc} (h : isDir fs l) :
    SameLeaves fs (fs.erase l) := by
  intro l' x
  by_cases hl : l' = l
  · subst hl
    cases l' with
    | nil => exact Iff.rfl
    | cons n l =>
      rw [FileSystem.get_erase_self, FileSystem.isDir_iff.mp h]
      exact iff_of_false nofun nofun
  · rw [FileSystem.get_erase_ne fs hl]

theorem SameLeaves.trans {fs fs' fs'' : FS α} (h : SameLeaves fs fs')
    (h' : SameLeaves fs' fs'') : SameLeaves fs fs'' :=
  fun l x => (h' l x).trans (h l x)

/-! ### Paths -/

section

variable {fs fs' : FS α} {cwd : Loc} {p n : List Char}

theorem splitOn_ne_nil (p : List Char) : p.splitOn '/' ≠ [] := List.splitOn_ne_nil _ _

theorem cstr_child (h0 : '\x00' ∉ p) (hn0 : '\x00' ∉ n) : cstr (p ++ '/' :: n) = p ++ '/' :: n := by
  refine FileSystem.cstr_eq_self fun hmem => ?_
  rcases List.mem_append.mp hmem with hmem | hmem
  · exact h0 hmem
  · rcases List.mem_cons.mp hmem with hmem | hmem
    · exact absurd hmem (by decide)
    · exact hn0 hmem

theorem start_child (hp : p ≠ []) (q : List Char) : start cwd (p ++ q) = start cwd p := by
  cases p with
  | nil => exact absurd rfl hp
  | cons c p => rfl

/-- What a path with one more component is resolved from. -/
theorem locate_child_eq (hp : p ≠ []) (h0 : '\x00' ∉ p) (hn0 : '\x00' ∉ n) (hn : '/' ∉ n)
    (last : Bool) : locate fs cwd last (p ++ '/' :: n)
      = resolve fs last maxLinks (start cwd p) (p.splitOn '/' ++ [n]) := by
  have hne : p ++ '/' :: n ≠ [] := List.append_ne_nil_of_left_ne_nil hp _
  rw [locate, cstr_child h0 hn0, if_neg hne, List.splitOn_append_cons_self,
    List.splitOn_eq_singleton hn, start_child hp]

theorem opendir_eq (hp : p ≠ []) (h0 : '\x00' ∉ p) :
    opendir fs cwd p = opens fs maxLinks (start cwd p) (p.splitOn '/') := by
  rw [opendir, FileSystem.cstr_eq_self h0, if_neg hp]

/-- **The parent of a path with one more component** is the directory that the path opens. -/
theorem locate_child (hp : p ≠ []) (h0 : '\x00' ∉ p) (hn0 : '\x00' ∉ n) (hn : '/' ∉ n) :
    locate fs cwd false (p ++ '/' :: n) = (opendir fs cwd p).map fun d => (d, n) := by
  rw [locate_child_eq hp h0 hn0 hn, opendir_eq hp h0]
  exact resolve_concat fs n maxLinks _ (splitOn_ne_nil p)

theorem locate_child_of_opendir {d : Loc} (hp : p ≠ []) (h0 : '\x00' ∉ p) (hn0 : '\x00' ∉ n)
    (hn : '/' ∉ n) (hd : opendir fs cwd p = some d) (hlink : linkAt fs d n = none) (last : Bool) :
    locate fs cwd last (p ++ '/' :: n) = some (d, n) := by
  rw [locate_child_eq hp h0 hn0 hn]
  rw [opendir_eq hp h0] at hd
  exact resolve_of_opens (splitOn_ne_nil p) hd hlink

theorem opendir_of_locate {r : Loc × Name} (hr : locate fs cwd false p = some r)
    (hdir : isDir fs (push r.1 r.2)) : opendir fs cwd p = some (push r.1 r.2) := by
  rw [locate] at hr
  split_ifs at hr with hp
  rw [opendir, if_neg hp, opens, resolve_true (splitOn_ne_nil _) hr (linkAt_of_isDir hdir),
    Option.bind_some, if_pos hdir]

/-- A system call gets the path as a C string. -/
theorem opendir_cstr (fs : FS α) (cwd : Loc) (p : List Char) :
    opendir fs cwd (cstr p) = opendir fs cwd p := by
  rw [opendir, opendir, FileSystem.cstr_eq_self (FileSystem.not_mem_cstr p)]

/-- A path that continues behind a NUL leads where it leads without that. -/
theorem locate_congr {q : List Char} (h : cstr p = cstr q) (last : Bool) :
    locate fs cwd last p = locate fs cwd last q := by
  rw [locate, locate, h]

/-- A directory that can be opened is there, or a link to it is. -/
theorem lstat_of_opendir {d : Loc} (h : opendir fs cwd p = some d) : (lstat fs cwd p).isSome := by
  rw [opendir] at h
  split_ifs at h with hp
  obtain ⟨r, hr, hsome⟩ := resolve_of_opens_isSome (splitOn_ne_nil (cstr p))
    (Option.isSome_of_eq_some h)
  rw [lstat, locate, if_neg hp, hr]
  exact hsome

theorem stat_of_opendir {d : Loc} (h : opendir fs cwd p = some d) : stat fs cwd p = some .dir := by
  rw [opendir] at h
  split_ifs at h with hp
  rw [opens, Option.bind_eq_some_iff] at h
  obtain ⟨r, hr, h⟩ := h
  split_ifs at h with hdir
  rw [stat, locate, if_neg hp, hr, Option.bind_some]
  exact FileSystem.isDir_iff.mp hdir

theorem lstat_ne_file_of_opendir {d : Loc} {c : α} (h : opendir fs cwd p = some d) :
    lstat fs cwd p ≠ some (.file (.file c)) := by
  intro hfile
  obtain ⟨r, hr, hget⟩ := Option.bind_eq_some_iff.mp hfile
  have hlink : linkAt fs r.1 r.2 = none := by
    rw [linkAt]
    split_ifs with hspecial
    · rfl
    · rw [Bool.not_eq_true] at hspecial
      rw [FileSystem.push_of_not_special hspecial] at hget
      rw [hget]
  have hdir : isDir fs (push r.1 r.2) = false := by
    rw [isDir, hget]
  rw [locate] at hr
  split_ifs at hr with hp
  rw [opendir, if_neg hp, opens, resolve_true (splitOn_ne_nil _) hr hlink, Option.bind_some,
    hdir] at h
  cases h

theorem linkAt_of_locate {r : Loc × Name} (hr : locate fs cwd true p = some r) :
    linkAt fs r.1 r.2 = none := by
  rw [locate] at hr
  split_ifs at hr
  exact linkAt_of_resolve (splitOn_ne_nil _) hr

theorem Shrinks.locate (h : Shrinks fs fs') {r : Loc × Name}
    (hr : locate fs' cwd false p = some r) : locate fs cwd false p = some r := by
  rw [Posix.locate] at hr ⊢
  split_ifs at hr ⊢
  exact h.resolve (splitOn_ne_nil _) hr

theorem Shrinks.lstat (h : Shrinks fs fs') {x : Node α} (hx : lstat fs' cwd p = some x) :
    lstat fs cwd p = some x := by
  rw [Posix.lstat, Option.bind_eq_some_iff] at hx ⊢
  obtain ⟨r, hr, hget⟩ := hx
  exact ⟨r, h.locate hr, h _ _ hget⟩

theorem Shrinks.opendir (h : Shrinks fs fs') {d : Loc} (hd : opendir fs' cwd p = some d) :
    opendir fs cwd p = some d := by
  rw [Posix.opendir] at hd ⊢
  split_ifs at hd ⊢
  exact h.opens (splitOn_ne_nil _) hd

theorem Keeps.locate (h : Keeps fs fs') {last : Bool} {r : Loc × Name}
    (hr : locate fs cwd last p = some r) : locate fs' cwd last p = some r := by
  rw [Posix.locate] at hr ⊢
  split_ifs at hr ⊢
  exact h.resolve (splitOn_ne_nil _) hr

theorem Keeps.opendir (h : Keeps fs fs') {d : Loc} (hd : opendir fs cwd p = some d) :
    opendir fs' cwd p = some d := by
  rw [Posix.opendir] at hd ⊢
  split_ifs at hd ⊢
  exact h.opens (splitOn_ne_nil _) hd

end

/-! ### What the calls do -/

section

variable {fs fs' : FS α} {cwd : Loc} {p : List Char}

theorem unlink_eq_some (h : unlink fs cwd p = some fs') :
    ∃ l n x, locate fs cwd false p = some (l, n) ∧ special n = false
      ∧ get fs (n :: l) = some (.file x) ∧ fs' = fs.erase (n :: l) := by
  rw [unlink, Option.bind_eq_some_iff] at h
  obtain ⟨⟨l, n⟩, hr, h⟩ := h
  split_ifs at h with hn
  rw [Bool.not_eq_true] at hn
  split at h
  · rename_i x hget
    exact ⟨l, n, x, hr, hn, hget, (Option.some.inj h).symm⟩
  · exact nomatch h

theorem rmdir_eq_some (h : rmdir fs cwd p = some fs') :
    ∃ l n, locate fs cwd false p = some (l, n) ∧ special n = false ∧ isDir fs (n :: l)
      ∧ (∀ m, get fs (m :: n :: l) = none) ∧ fs' = fs.erase (n :: l) := by
  rw [rmdir, Option.bind_eq_some_iff] at h
  obtain ⟨⟨l, n⟩, hr, h⟩ := h
  split_ifs at h with hc
  simp only [Bool.or_eq_true, not_or, Bool.not_eq_true, Bool.not_eq_eq_eq_not, Bool.not_true,
    Bool.not_eq_false, List.isEmpty_iff] at hc
  obtain ⟨⟨hn, hdir⟩, hempty⟩ := hc
  refine ⟨l, n, hr, hn, hdir, fun m => ?_, (Option.some.inj h).symm⟩
  rw [Option.eq_none_iff_forall_ne_some]
  intro x hx
  have hmem := FileSystem.mem_readdir.mpr hx
  rw [hempty] at hmem
  exact List.not_mem_nil hmem

theorem mkdir_eq_some (h : mkdir fs cwd p = some fs') :
    ∃ l n, locate fs cwd false p = some (l, n) ∧ special n = false ∧ get fs (n :: l) = none
      ∧ fs' = fs.insert (n :: l) .dir := by
  rw [mkdir, Option.bind_eq_some_iff] at h
  obtain ⟨⟨l, n⟩, hr, h⟩ := h
  split_ifs at h with hc
  simp only [Bool.or_eq_true, not_or, Bool.not_eq_true, Option.isSome_eq_false_iff,
    Option.isNone_iff_eq_none] at hc
  exact ⟨l, n, hr, hc.1, hc.2, (Option.some.inj h).symm⟩

theorem openWrite_eq_some {l : Loc} (h : openWrite fs cwd p = some l) :
    ∃ d n, l = n :: d ∧ locate fs cwd true p = some (d, n) ∧ special n = false
      ∧ NoneOrFile (get fs l) := by
  rw [openWrite, Option.bind_eq_some_iff] at h
  obtain ⟨⟨d, n⟩, hr, h⟩ := h
  split_ifs at h with hc
  simp only [Bool.or_eq_true, not_or, Bool.not_eq_true] at hc
  obtain ⟨hn, hdir⟩ := hc
  obtain rfl := Option.some.inj h
  refine ⟨d, n, rfl, hr, hn, fun y hy => ?_⟩
  match y with
  | .dir => exact nomatch hdir.symm.trans (FileSystem.isDir_iff.mpr hy)
  | .file (.file c) => exact ⟨c, rfl⟩
  | .file (.link target) =>
    have hlink := linkAt_of_locate hr
    rw [linkAt, if_neg (by rw [hn]; exact Bool.false_ne_true), Option.mem_def.mp hy] at hlink
    exact nomatch hlink

theorem rename_eq_some {old new : List Char} (h : rename fs cwd old new = some fs') :
    ∃ l n, locate fs cwd false new = some (l, n) ∧ special n = false := by
  obtain ⟨o, -, h⟩ := Option.bind_eq_some_iff.mp h
  obtain ⟨⟨l, n⟩, hnew, h⟩ := Option.bind_eq_some_iff.mp h
  split_ifs at h with hc
  simp only [Bool.or_eq_true, not_or, Bool.not_eq_true] at hc
  exact ⟨l, n, hnew, hc.2⟩

/-- A regular file is renamed to a path where no directory and no link is. -/
theorem rename_file {old new : List Char} {src l : Loc} {n : Name} (hold : FileAt fs cwd old src)
    (hnew : locate fs cwd false new = some (l, n)) (hn : special n = false)
    (hfree : NoneOrFile (get fs (n :: l))) :
    ∃ c, get fs src = some (.file (.file c)) ∧ rename fs cwd old new = some
      (if src = n :: l then fs else (fs.erase src).insert (n :: l) (.file (.file c))) := by
  obtain ⟨d, m, c, rfl, hr, hm, hget⟩ := hold
  refine ⟨c, hget, ?_⟩
  rw [rename, hr, hnew, Option.bind_some, Option.bind_some,
    if_neg (by rw [hm, hn]; exact Bool.false_ne_true), replace]
  cases hdst : get fs (n :: l) with
  | none =>
    simp only [hget]
    split_ifs <;> rfl
  | some y =>
    obtain ⟨c', rfl⟩ := hfree y hdst
    simp only [hget]
    split_ifs <;> rfl

end

end Posix
