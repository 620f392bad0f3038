import Mathlib.Data.List.AList
import Mathlib.Data.List.Infix

/-!
# A file system without symbolic links

A file system maps locations to directories and files with a content in `α`.  A
location is the list of the names from a node up to the root, so the parent of
`n :: l` is `l`.  System calls take path strings; a component that is empty or
`.` stays, `..` goes to the parent, and every component before the last must be a
directory.  System calls fail only for the reasons given here.

* `walk_eq_normal`: with no symbolic links a path that can be walked leads to the
  location it names lexically.
* `mem_readdir`: what `readdir` lists.
* `get_rename`: what is left in place by `rename`; `rename_file`: what it does with a
  regular file.
-/

namespace FileSystem

abbrev Name := List Char

abbrev Loc := List Name

inductive Node (α : Type*)
  | dir
  | file (content : α)
  deriving DecidableEq, Repr

/-- The nodes below the root. -/
abbrev FS (α : Type*) := AList fun _ : Loc => Node α

variable {α : Type*}

/-- The node at a location; the root is always a directory. -/
def get (fs : FS α) : Loc → Option (Node α)
  | [] => some .dir
  | n :: l => fs.lookup (n :: l)

def isDir (fs : FS α) (l : Loc) : Bool :=
  match get fs l with
  | some .dir => true
  | _ => false

theorem get_cons (fs : FS α) (n : Name) (l : Loc) : get fs (n :: l) = fs.lookup (n :: l) := rfl

theorem get_insert_self (fs : FS α) (n : Name) (l : Loc) (x : Node α) :
    get (fs.insert (n :: l) x) (n :: l) = some x :=
  AList.lookup_insert fs

theorem get_insert_ne (fs : FS α) {l l' : Loc} (x : Node α) (h : l ≠ l') :
    get (fs.insert l' x) l = get fs l := by
  cases l with
  | nil => rfl
  | cons n l => exact AList.lookup_insert_ne h

theorem get_erase_self (fs : FS α) (n : Name) (l : Loc) : get (fs.erase (n :: l)) (n :: l) = none :=
  AList.lookup_erase _ fs

theorem get_erase_ne (fs : FS α) {l l' : Loc} (h : l ≠ l') : get (fs.erase l') l = get fs l := by
  cases l with
  | nil => rfl
  | cons n l => exact AList.lookup_erase_ne h

theorem get_of_erase {fs : FS α} {l l' : Loc} {x : Node α} (h : get (fs.erase l') l = some x) :
    get fs l = some x := by
  by_cases hl : l = l'
  · subst hl
    cases l with
    | nil => exact h
    | cons n l => rw [get_erase_self] at h; exact nomatch h
  · rwa [get_erase_ne _ hl] at h

theorem isDir_iff {fs : FS α} {l : Loc} : isDir fs l ↔ get fs l = some .dir := by
  rw [isDir]
  split <;> simp_all

/-! ### Paths -/

/-- What a system call sees of a string that may contain NUL. -/
def cstr (path : List Char) : List Char := path.takeWhile (· ≠ '\x00')

/-- A last component that names no new entry: `""` (a trailing slash), `.` or `..`. -/
def special (n : Name) : Bool := n == [] || n == ['.'] || n == ['.', '.']

def push (l : Loc) (n : Name) : Loc :=
  if n = [] ∨ n = ['.'] then l else if n = ['.', '.'] then l.tail else n :: l

/-- Where the components lead lexically. -/
def normal (l : Loc) (ns : List Name) : Loc := ns.foldl push l

/-- Go through the components, each of which must lead to a directory. -/
def walk (fs : FS α) : Loc → List Name → Option Loc
  | l, [] => some l
  | l, n :: ns => if isDir fs (push l n) then walk fs (push l n) ns else none

def start (cwd : Loc) (path : List Char) : Loc := if path.head? = some '/' then [] else cwd

/-- The parent directory of a path and its last component. -/
def locate (fs : FS α) (cwd : Loc) (path : List Char) : Option (Loc × Name) :=
  let p := cstr path
  if p = [] then none
  else
    let ns := p.splitOn '/'
    (walk fs (start cwd p) ns.dropLast).map fun l => (l, ns.getLastD [])

theorem walk_eq_normal {fs : FS α} {ns : List Name} :
    ∀ {l l' : Loc}, walk fs l ns = some l' → l' = normal l ns := by
  induction ns with
  | nil => intro l l' h; exact (Option.some.inj h).symm
  | cons n ns ih =>
    intro l l' h
    rw [walk] at h
    split_ifs at h
    exact ih h

theorem walk_append {fs : FS α} {ns ms : List Name} :
    ∀ {l : Loc}, walk fs l (ns ++ ms) = (walk fs l ns).bind fun l' => walk fs l' ms := by
  induction ns with
  | nil => intro l; rfl
  | cons n ns ih =>
    intro l
    rw [List.cons_append, walk, walk]
    split_ifs
    · exact ih
    · rfl

/-- The locations that a walk goes through. -/
def visited : Loc → List Name → List Loc
  | _, [] => []
  | l, n :: ns => push l n :: visited (push l n) ns

/-- A walk goes through when the directories on its way are there. -/
theorem walk_of_visited {fs fs' : FS α} {ns : List Name} :
    ∀ {l l' : Loc}, (∀ m ∈ visited l ns, isDir fs m → isDir fs' m) →
      walk fs l ns = some l' → walk fs' l ns = some l' := by
  induction ns with
  | nil => intro l l' _ hw; exact hw
  | cons n ns ih =>
    intro l l' h hw
    rw [walk] at hw ⊢
    split_ifs at hw with hd
    rw [if_pos (h _ List.mem_cons_self hd)]
    exact ih (fun m hm => h m (List.mem_cons_of_mem _ hm)) hw

/-- Directories that stay let a walk go through as before. -/
theorem walk_mono {fs fs' : FS α} (h : ∀ l, isDir fs l → isDir fs' l) {ns : List Name} {l l' : Loc}
    (hw : walk fs l ns = some l') : walk fs' l ns = some l' :=
  walk_of_visited (fun m _ => h m) hw

theorem push_of_not_special {l : Loc} {n : Name} (h : special n = false) : push l n = n :: l := by
  simp only [special, Bool.or_eq_false_iff, beq_eq_false_iff_ne] at h
  rw [push, if_neg (by tauto), if_neg h.2]

theorem cstr_append {p q : List Char} (h : '\x00' ∉ p) : cstr (p ++ q) = p ++ cstr q := by
  rw [cstr, List.takeWhile_append_of_pos]
  · rfl
  · intro c hc
    simpa using ne_of_mem_of_not_mem hc h

theorem cstr_eq_self {p : List Char} (h : '\x00' ∉ p) : cstr p = p := by
  have happ : cstr (p ++ []) = p ++ [] := cstr_append h
  rwa [List.append_nil] at happ

theorem not_mem_cstr (p : List Char) : '\x00' ∉ cstr p := by
  intro h
  have hc := List.all_eq_true.mp List.all_takeWhile _ h
  simp at hc

/-- After a NUL nothing counts. -/
theorem cstr_append_of_mem {p q : List Char} (h : '\x00' ∈ p) : cstr (p ++ q) = cstr p := by
  induction p with
  | nil => exact absurd h List.not_mem_nil
  | cons c p ih =>
    rw [List.cons_append, cstr, cstr, List.takeWhile_cons, List.takeWhile_cons]
    split_ifs with hc
    · rcases List.mem_cons.mp h with rfl | h
      · simp at hc
      · exact congrArg _ (ih h)
    · rfl

/-- The parent directory of a path with one more component. -/
theorem locate_append {fs : FS α} {cwd : Loc} {p : List Char} {n : Name} (hp : p ≠ [])
    (h0 : '\x00' ∉ p) (hn0 : '\x00' ∉ n) (hn : '/' ∉ n) :
    locate fs cwd (p ++ '/' :: n)
      = (walk fs (start cwd p) (p.splitOn '/')).map fun l => (l, n) := by
  have hc : cstr (p ++ '/' :: n) = p ++ '/' :: n := by
    refine cstr_eq_self fun hmem => ?_
    rcases List.mem_append.mp hmem with hmem | hmem
    · exact h0 hmem
    · rcases List.mem_cons.mp hmem with hmem | hmem
      · exact absurd hmem (by decide)
      · exact hn0 hmem
  have hstart : start cwd (p ++ '/' :: n) = start cwd p := by
    cases p with
    | nil => exact absurd rfl hp
    | cons c p => rfl
  rw [locate, hc]
  simp only [List.append_eq_nil_iff, hp, false_and, if_false]
  rw [List.splitOn_append_cons_self, List.splitOn_eq_singleton hn, List.dropLast_concat,
    List.getLastD_concat, hstart]

/-! ### System calls -/

/-- `lstat`, `access(F_OK)`. -/
def stat (fs : FS α) (cwd : Loc) (path : List Char) : Option (Node α) :=
  (locate fs cwd path).bind fun r => get fs (push r.1 r.2)

def mkdir (fs : FS α) (cwd : Loc) (path : List Char) : Option (FS α) :=
  (locate fs cwd path).bind fun r =>
    if special r.2 || (get fs (r.2 :: r.1)).isSome then none else some (fs.insert (r.2 :: r.1) .dir)

/-- `open(O_WRONLY | O_CREAT)`: where the file is. -/
def openWrite (fs : FS α) (cwd : Loc) (path : List Char) : Option Loc :=
  (locate fs cwd path).bind fun r =>
    if special r.2 || isDir fs (r.2 :: r.1) then none else some (r.2 :: r.1)

/-- `opendir`. -/
def opendir (fs : FS α) (cwd : Loc) (path : List Char) : Option Loc :=
  (locate fs cwd path).bind fun r => if isDir fs (push r.1 r.2) then some (push r.1 r.2) else none

/-- `opendir` goes through all components. -/
theorem opendir_eq_walk {fs : FS α} {cwd : Loc} {p : List Char} (hp : cstr p ≠ []) :
    opendir fs cwd p = walk fs (start cwd (cstr p)) ((cstr p).splitOn '/') := by
  have hne : (cstr p).splitOn '/' ≠ [] := List.splitOn_ne_nil _ _
  have hsplit := List.dropLast_append_getLast hne
  rw [opendir, locate]
  simp only [hp, if_false]
  rw [Option.bind_map]
  conv_rhs => rw [← hsplit, walk_append]
  congr 1
  funext l
  rw [List.getLastD_eq_getLast?, List.getLast?_eq_some_getLast hne]
  rfl

/-- A path that names a directory cannot be opened for writing. -/
theorem openWrite_of_opendir {fs : FS α} {cwd l : Loc} {p q : List Char} (hpq : cstr p = cstr q)
    (h : opendir fs cwd p = some l) : openWrite fs cwd q = none := by
  rw [opendir, locate, hpq, Option.bind_eq_some_iff] at h
  obtain ⟨r, hr, h⟩ := h
  split_ifs at h with hdir
  rw [openWrite, locate, hr, Option.bind_some]
  cases hsp : special r.2 with
  | true => rfl
  | false =>
    rw [push_of_not_special hsp] at hdir
    rw [hdir]
    rfl

/-- Writing the file that a path opens leaves every directory in place. -/
theorem isDir_insert {fs : FS α} {cwd l l' : Loc} {p : List Char} {x : Node α}
    (h : openWrite fs cwd p = some l) (hdir : isDir fs l') : isDir (fs.insert l x) l' := by
  rw [openWrite, Option.bind_eq_some_iff] at h
  obtain ⟨r, -, h⟩ := h
  split_ifs at h with hr
  cases h
  rw [isDir_iff] at hdir ⊢
  by_cases hl : l' = r.2 :: r.1
  · subst hl
    rw [isDir_iff.mpr hdir, Bool.or_true] at hr
    exact absurd rfl hr
  · rwa [get_insert_ne _ _ hl]

theorem locate_mono {fs fs' : FS α} (h : ∀ l, isDir fs l → isDir fs' l) {cwd : Loc}
    {p : List Char} {r : Loc × Name} (hr : locate fs cwd p = some r) : locate fs' cwd p = some r := by
  rw [locate] at hr ⊢
  split_ifs at hr ⊢
  obtain ⟨l, hl, hlr⟩ := Option.map_eq_some_iff.mp hr
  exact Option.map_eq_some_iff.mpr ⟨l, walk_mono h hl, hlr⟩

/-- The file that a path opens is found under that path. -/
theorem stat_insert {fs : FS α} {cwd l : Loc} {p : List Char} {x : Node α}
    (h : openWrite fs cwd p = some l) : stat (fs.insert l x) cwd p = some x := by
  have hmono : ∀ l', isDir fs l' → isDir (fs.insert l x) l' := fun _ => isDir_insert h
  rw [openWrite, Option.bind_eq_some_iff] at h
  obtain ⟨r, hr, h⟩ := h
  split_ifs at h with hsp
  cases h
  rw [Bool.or_eq_true, not_or, Bool.not_eq_true] at hsp
  rw [stat, locate_mono hmono hr, Option.bind_some, push_of_not_special hsp.1, get_insert_self]

theorem isDir_erase {fs : FS α} {l l' : Loc} {c : α} (hget : get fs l = some (.file c))
    (hdir : isDir fs l') : isDir (fs.erase l) l' := by
  rw [isDir_iff] at hdir ⊢
  have hne : l' ≠ l := by
    rintro rfl
    rw [hdir] at hget
    exact nomatch hget
  exact (get_erase_ne _ hne).trans hdir

/-- What can be opened, can be opened without another file. -/
theorem openWrite_erase {fs : FS α} {cwd l l' : Loc} {p : List Char} {c : α}
    (hget : get fs l = some (.file c)) (h : openWrite fs cwd p = some l') :
    openWrite (fs.erase l) cwd p = some l' := by
  rw [openWrite, Option.bind_eq_some_iff] at h
  obtain ⟨r, hr, h⟩ := h
  split_ifs at h with hspecial
  rw [Bool.or_eq_true, not_or, Bool.not_eq_true, Bool.not_eq_true] at hspecial
  have hdir : isDir (fs.erase l) (r.2 :: r.1) = false := by
    rw [Bool.eq_false_iff]
    intro hd
    rw [isDir_iff] at hd
    rw [isDir_iff.mpr (get_of_erase hd)] at hspecial
    exact nomatch hspecial.2
  rw [openWrite, locate_mono (fun _ => isDir_erase hget) hr, Option.bind_some, hspecial.1, hdir]
  exact h

/-- The entries of a directory, without `.` and `..`. -/
def readdir (fs : FS α) (l : Loc) : List (Name × Node α) :=
  fs.entries.filterMap fun e =>
    match e.1 with
    | n :: p => if p = l then some (n, e.2) else none
    | [] => none

/-- Move everything at and below `src` to `dst`. -/
def moveTree (fs : FS α) (src dst : Loc) : FS α :=
  let moved := fs.entries.filter fun e => src.isSuffixOf e.1
  moved.foldl (fun fs e => fs.insert (e.1.take (e.1.length - src.length) ++ dst) e.2)
    (moved.foldl (fun fs e => fs.erase e.1) fs)

def rename (fs : FS α) (cwd : Loc) (old new : List Char) : Option (FS α) :=
  (locate fs cwd old).bind fun o => (locate fs cwd new).bind fun d =>
    if special o.2 || special d.2 then none
    else
      let src := o.2 :: o.1
      let dst := d.2 :: d.1
      match get fs src, get fs dst with
      | none, _ => none
      | some (.file _), some .dir => none
      | some (.file c), _ => if src = dst then some fs else some ((fs.erase src).insert dst (.file c))
      | some .dir, some (.file _) => none
      | some .dir, _ =>
        if src = dst then some fs
        else if src.isSuffixOf dst || !(readdir fs dst).isEmpty then none
        else some (moveTree fs src dst)

/-! ### What the calls do to other nodes -/

theorem mem_readdir {fs : FS α} {l : Loc} {n : Name} {x : Node α} :
    (n, x) ∈ readdir fs l ↔ get fs (n :: l) = some x := by
  rw [get_cons, readdir, List.mem_filterMap]
  constructor
  · rintro ⟨⟨l', x'⟩, hmem, h⟩
    cases l' with
    | nil => exact nomatch h
    | cons m p =>
      simp only at h
      split_ifs at h with hp
      cases h
      subst hp
      exact AList.mem_lookup_iff.mpr hmem
  · intro h
    exact ⟨⟨n :: l, x⟩, AList.mem_lookup_iff.mp h, by simp⟩

/-- `readdir` lists a name once. -/
theorem nodup_readdir (fs : FS α) (l : Loc) : ((readdir fs l).map Prod.fst).Nodup := by
  have hkeys : (readdir fs l).map Prod.fst = fs.keys.filterMap fun
      | n :: p => if p = l then some n else none
      | [] => none := by
    rw [readdir, List.map_filterMap, AList.keys, List.keys, List.filterMap_map]
    congr 1
    funext ⟨l', x⟩
    cases l' with
    | nil => rfl
    | cons n p => simp only [Function.comp_apply]; split_ifs <;> rfl
  rw [hkeys]
  refine fs.keys_nodup.filterMap fun a b n ha hb => ?_
  cases a with
  | nil => exact nomatch ha
  | cons m p =>
    cases b with
    | nil => exact nomatch hb
    | cons m' p' =>
      simp only [Option.mem_def] at ha hb
      split_ifs at ha with hp
      split_ifs at hb with hp'
      cases ha
      cases hb
      rw [hp, hp']

theorem mkdir_get {fs fs' : FS α} {cwd : Loc} {path : List Char} (h : mkdir fs cwd path = some fs')
    (l : Loc) : get fs' l = get fs l ∨ get fs l = none ∧ get fs' l = some .dir := by
  rw [mkdir, Option.bind_eq_some_iff] at h
  obtain ⟨r, -, h⟩ := h
  split_ifs at h with hr
  cases h
  by_cases hl : l = r.2 :: r.1
  · subst hl
    simp only [Bool.or_eq_true, not_or, Bool.not_eq_true, Option.isSome_eq_false_iff,
      Option.isNone_iff_eq_none] at hr
    exact .inr ⟨hr.2, get_insert_self _ _ _ _⟩
  · exact .inl (get_insert_ne _ _ hl)

theorem get_foldl_erase {l : Loc} {x : Node α} :
    ∀ {es : List (Sigma fun _ : Loc => Node α)} {fs : FS α},
      get (es.foldl (fun fs e => fs.erase e.1) fs) l = some x → get fs l = some x := by
  intro es
  induction es with
  | nil => intro fs h; exact h
  | cons e es ih =>
    intro fs h
    exact get_of_erase (ih h)

theorem get_foldl_insert {l : Loc} {x : Node α} {f : (Sigma fun _ : Loc => Node α) → Loc} :
    ∀ {es : List (Sigma fun _ : Loc => Node α)} {fs : FS α},
      get (es.foldl (fun fs e => fs.insert (f e) e.2) fs) l = some x →
        (∃ e ∈ es, f e = l ∧ e.2 = x) ∨ get fs l = some x := by
  intro es
  induction es with
  | nil => intro fs h; exact .inr h
  | cons e es ih =>
    intro fs h
    rcases ih h with ⟨e', he', hf⟩ | h'
    · exact .inl ⟨e', List.mem_cons_of_mem e he', hf⟩
    · change get (fs.insert (f e) e.2) l = some x at h'
      by_cases hl : l = f e
      · cases hfe : f e with
        | nil => rw [hl, hfe] at h' ⊢; exact .inr h'
        | cons n p =>
          rw [hl, hfe, get_insert_self] at h'
          exact .inl ⟨e, List.mem_cons_self, hl.symm, Option.some.inj h'⟩
      · rw [get_insert_ne _ _ hl] at h'
        exact .inr h'

/-- What is in a tree after a move was below the old root or was there before. -/
theorem get_moveTree {fs : FS α} {src dst l : Loc} {x : Node α}
    (h : get (moveTree fs src dst) l = some x) :
    (∃ m, l = m ++ dst ∧ fs.lookup (m ++ src) = some x) ∨ get fs l = some x := by
  rw [moveTree] at h
  rcases get_foldl_insert h with ⟨e, he, hf, hx⟩ | h
  · rw [List.mem_filter, List.isSuffixOf_iff_suffix] at he
    obtain ⟨hmem, m, hm⟩ := he
    refine .inl ⟨m, ?_, ?_⟩
    · rw [← hf, ← hm]
      simp
    · rw [hm, ← hx]
      exact AList.mem_lookup_iff.mpr hmem
  · exact .inr (get_foldl_erase h)

/-- **What `rename` leaves in place**: nothing appears outside the new name, and a
file at the new name is the file that was at the old one. -/
theorem get_rename {fs fs' : FS α} {cwd : Loc} {old new : List Char}
    (h : rename fs cwd old new = some fs') :
    ∃ r, locate fs cwd new = some r ∧ special r.2 = false
      ∧ (∀ l x, ¬ (r.2 :: r.1) <:+ l → get fs' l = some x → get fs l = some x)
      ∧ ∀ c, get fs' (r.2 :: r.1) = some (.file c) → stat fs cwd old = some (.file c) := by
  rw [rename, Option.bind_eq_some_iff] at h
  obtain ⟨o, ho, h⟩ := h
  rw [Option.bind_eq_some_iff] at h
  obtain ⟨d, hd, h⟩ := h
  split_ifs at h with hsp
  rw [Bool.or_eq_true, not_or, Bool.not_eq_true, Bool.not_eq_true] at hsp
  refine ⟨d, hd, hsp.2, ?_⟩
  have hstat : stat fs cwd old = get fs (o.2 :: o.1) := by
    rw [stat, ho, Option.bind_some, push_of_not_special hsp.1]
  rw [hstat]
  simp only at h
  split at h
  · exact nomatch h
  · exact nomatch h
  · rename_i c hsrc _
    split_ifs at h with heq
    · cases h
      exact ⟨fun _ _ _ hx => hx, fun c hc => by rw [heq]; exact hc⟩
    · cases h
      refine ⟨fun l x hl hx => ?_, fun c' hc' => ?_⟩
      · have hne : l ≠ d.2 :: d.1 := by
          rintro rfl
          exact hl (List.suffix_refl _)
        rw [get_insert_ne _ _ hne] at hx
        by_cases hls : l = o.2 :: o.1
        · rw [hls, get_erase_self] at hx
          exact nomatch hx
        · rwa [get_erase_ne _ hls] at hx
      · rw [get_insert_self] at hc'
        rw [hsrc, hc']
  · exact nomatch h
  · rename_i hsrc hdst
    split_ifs at h with heq hsub
    · cases h
      exact ⟨fun _ _ _ hx => hx, fun c hc => by rw [heq]; exact hc⟩
    · cases h
      refine ⟨fun l x hl hx => ?_, fun c hc => ?_⟩
      · rcases get_moveTree hx with ⟨m, hm, -⟩ | hx
        · exact absurd ⟨m, hm.symm⟩ hl
        · exact hx
      · rcases get_moveTree hc with ⟨m, hm, hmem⟩ | hc
        · obtain rfl : m = [] := by simpa using hm
          exact hmem
        · exact absurd hc (hdst c)

/-- `rename` of a regular file. -/
theorem rename_file {fs : FS α} {cwd src : Loc} {old new : List Char} {c : α}
    (hold : openWrite fs cwd old = some src) (hsrc : get fs src = some (.file c)) :
    rename fs cwd old new = (openWrite fs cwd new).map fun dst =>
      if src = dst then fs else (fs.erase src).insert dst (.file c) := by
  rw [openWrite, Option.bind_eq_some_iff] at hold
  obtain ⟨o, ho, hold⟩ := hold
  split_ifs at hold with hspecial
  cases hold
  rw [Bool.or_eq_true, not_or, Bool.not_eq_true] at hspecial
  rw [rename, ho, Option.bind_some, openWrite]
  cases locate fs cwd new with
  | none => rfl
  | some d =>
    simp only [Option.bind_some, hspecial.1, Bool.false_or, hsrc]
    cases hd : special d.2 with
    | true => rfl
    | false =>
      simp only [Bool.false_or, Bool.false_eq_true, if_false]
      cases hdst : get fs (d.2 :: d.1) with
      | none =>
        have hdir : isDir fs (d.2 :: d.1) = false := by rw [isDir, hdst]
        simp only [hdir, Bool.false_eq_true, if_false, Option.map_some]
        split_ifs <;> rfl
      | some x =>
        cases x with
        | dir =>
          rw [isDir_iff.mpr hdst]
          rfl
        | file c' =>
          have hdir : isDir fs (d.2 :: d.1) = false := by rw [isDir, hdst]
          simp only [hdir, Bool.false_eq_true, if_false, Option.map_some]
          split_ifs <;> rfl

end FileSystem
