import FiberServer.Http.HttpServer

/-!
# `ServletDispatch`

Every function of the class takes the lock for the whole of its body, so that the calls of all
threads come one after the other.  What the tables hold is told from these calls alone:

* `lastServlet`: the servlet of the last call for an exact uri;
* `inForce`: the patterns behind which there is no later call for the same pattern, in the order of
  these calls.

`m_globs_run` and `find_m_datas_run` say so for every run.  A pattern that is added again moves to
the end, and what was added in between is asked before it.
-/

namespace FiberServer

namespace ServletDispatch

variable {α : Type}

/-! ### The functions -/

def delServlet (d : ServletDispatch α) (uri : Str) : ServletDispatch α :=
  { d with m_datas := d.m_datas.filter fun p => p.1 ≠ uri }

def delGlobServlet (d : ServletDispatch α) (uri : Str) : ServletDispatch α :=
  { d with m_globs := d.m_globs.eraseP fun p => p.1 = uri }

def setDefault (d : ServletDispatch α) (v : α) : ServletDispatch α :=
  { d with m_default := v }

def getServlet (d : ServletDispatch α) (uri : Str) : Option α :=
  (d.m_datas.find? fun p => p.1 = uri).map Prod.snd

def getGlobServlet (d : ServletDispatch α) (uri : Str) : Option α :=
  (d.m_globs.find? fun p => p.1 = uri).map Prod.snd

/-- The calls that change the tables.  A creator and a servlet that is held are added alike. -/
inductive Call (α : Type)
  | addServlet (uri : Str) (slt : α)
  | addGlobServlet (uri : Str) (slt : α)
  | delServlet (uri : Str)
  | delGlobServlet (uri : Str)
  | setDefault (v : α)

def call (d : ServletDispatch α) : Call α → ServletDispatch α
  | .addServlet uri slt => d.addServlet uri slt
  | .addGlobServlet uri slt => d.addGlobServlet uri slt
  | .delServlet uri => d.delServlet uri
  | .delGlobServlet uri => d.delGlobServlet uri
  | .setDefault v => d.setDefault v

/-- What the constructor leaves, with `v` as its `NotFoundServlet`. -/
def new (v : α) : ServletDispatch α := ⟨[], [], v⟩

/-- The dispatcher after some calls. -/
def run (v : α) (calls : List (Call α)) : ServletDispatch α := calls.foldl call (new v)

/-! ### What the calls say -/

/-- What a call says about an exact uri. -/
def Call.servlet (uri : Str) : Call α → Option (Option α)
  | .addServlet u slt => if u = uri then some (some slt) else none
  | .delServlet u => if u = uri then some none else none
  | _ => none

/-- The call adds or deletes the pattern. -/
def Call.isFor (uri : Str) : Call α → Bool
  | .addGlobServlet u _ => u == uri
  | .delGlobServlet u => u == uri
  | _ => false

/-- The servlet of the last call for an exact uri. -/
def lastServlet (calls : List (Call α)) (uri : Str) : Option α :=
  (calls.reverse.findSome? (Call.servlet uri)).join

/-- The patterns that no later call replaces or deletes. -/
def inForce : List (Call α) → List (Str × α)
  | [] => []
  | .addGlobServlet uri slt :: calls =>
    if calls.any (Call.isFor uri) then inForce calls else (uri, slt) :: inForce calls
  | _ :: calls => inForce calls

def lastDefault (v : α) (calls : List (Call α)) : α :=
  (calls.reverse.findSome? fun | .setDefault v => some v | _ => none).getD v

/-! ### The table of the exact uris -/

theorem find?_filter_ne (l : List (Str × α)) (u uri : Str) :
    ((l.filter fun p => p.1 ≠ u).find? fun p => p.1 = uri)
      = if u = uri then none else l.find? fun p => p.1 = uri := by
  induction l with
  | nil => simp
  | cons p l ih =>
    rw [List.filter_cons]
    by_cases hu : p.1 = u
    · rw [if_neg (by simpa using hu), ih, List.find?_cons]
      by_cases huri : u = uri
      · rw [if_pos huri, if_pos huri]
      · have hp : p.1 ≠ uri := fun h => huri (hu ▸ h)
        simp only [if_neg huri, decide_eq_false hp]
    · rw [if_pos (by simpa using hu), List.find?_cons, List.find?_cons, ih]
      by_cases hp : p.1 = uri
      · have huri : u ≠ uri := fun h => hu (hp.trans h.symm)
        simp only [decide_eq_true hp, if_neg huri]
      · simp only [decide_eq_false hp]

/-- One call changes at most the entry it is about. -/
theorem getServlet_call (d : ServletDispatch α) (c : Call α) (uri : Str) :
    (d.call c).getServlet uri = ((c.servlet uri).getD (d.getServlet uri)) := by
  cases c with
  | addServlet u slt =>
    show ((((d.m_datas.filter fun p => p.1 ≠ u) ++ [(u, slt)]).find? fun p => p.1 = uri).map
      Prod.snd) = _
    rw [List.find?_append, find?_filter_ne, Call.servlet]
    by_cases hu : u = uri
    · simp [hu]
    · simp [hu, getServlet]
  | delServlet u =>
    show ((d.m_datas.filter fun p => p.1 ≠ u).find? fun p => p.1 = uri).map Prod.snd = _
    rw [find?_filter_ne, Call.servlet]
    by_cases hu : u = uri
    · simp [hu]
    · simp [hu, getServlet]
  | addGlobServlet u slt => rfl
  | delGlobServlet u => rfl
  | setDefault v => rfl

/-- **The exact table holds the servlet of the last call.** -/
theorem getServlet_run (v : α) (calls : List (Call α)) (uri : Str) :
    (run v calls).getServlet uri = lastServlet calls uri := by
  induction calls using List.reverseRecOn with
  | nil => rfl
  | append_singleton calls c ih =>
    rw [run, List.foldl_append, ← run, List.foldl_cons, List.foldl_nil, getServlet_call, ih,
      lastServlet, lastServlet, List.reverse_append, List.reverse_singleton, List.singleton_append,
      List.findSome?_cons]
    cases c.servlet uri with
    | none => rfl
    | some slt => rfl

/-! ### The list of the patterns -/

theorem mem_inForce {calls : List (Call α)} {p : Str × α} (h : p ∈ inForce calls) :
    calls.any (Call.isFor p.1) := by
  induction calls with
  | nil => exact absurd h List.not_mem_nil
  | cons c calls ih =>
    rw [List.any_cons, Bool.or_eq_true]
    cases c with
    | addGlobServlet u slt =>
      rw [inForce] at h
      split_ifs at h
      · exact .inr (ih h)
      · rcases List.mem_cons.mp h with rfl | h
        · exact .inl (beq_self_eq_true u)
        · exact .inr (ih h)
    | addServlet u slt => exact .inr (ih h)
    | delServlet u => exact .inr (ih h)
    | delGlobServlet u => exact .inr (ih h)
    | setDefault v => exact .inr (ih h)

/-- No pattern is there twice. -/
theorem nodup_inForce (calls : List (Call α)) : ((inForce calls).map Prod.fst).Nodup := by
  induction calls with
  | nil => exact List.nodup_nil
  | cons c calls ih =>
    cases c with
    | addGlobServlet u slt =>
      rw [inForce]
      split_ifs with hlater
      · exact ih
      · rw [List.map_cons, List.nodup_cons]
        refine ⟨fun hmem => hlater ?_, ih⟩
        obtain ⟨p, hp, rfl⟩ := List.mem_map.mp hmem
        exact mem_inForce hp
    | addServlet u slt => exact ih
    | delServlet u => exact ih
    | delGlobServlet u => exact ih
    | setDefault v => exact ih

/-- A call takes the pattern it is about out of those in force. -/
theorem inForce_append (calls : List (Call α)) (c : Call α) :
    inForce (calls ++ [c]) = ((inForce calls).filter fun p => !c.isFor p.1) ++ inForce [c] := by
  induction calls with
  | nil => rfl
  | cons c' calls ih =>
    cases c' with
    | addGlobServlet u slt =>
      rw [List.cons_append, inForce, inForce, List.any_append, ih]
      by_cases hlater : calls.any (Call.isFor u)
      · rw [if_pos (by rw [hlater, Bool.true_or]), if_pos hlater]
      · have hany : [c].any (Call.isFor u) = c.isFor u := by
          rw [List.any_cons, List.any_nil, Bool.or_false]
        rw [if_neg hlater, Bool.eq_false_iff.mpr hlater, Bool.false_or, hany, List.filter_cons]
        cases hc : c.isFor u with
        | false => rfl
        | true => rfl
    | addServlet u slt => exact ih
    | delServlet u => exact ih
    | delGlobServlet u => exact ih
    | setDefault v => exact ih

/-- With distinct patterns it is all the same to erase the first entry or every entry. -/
theorem eraseP_eq_filter {l : List (Str × α)} (hl : (l.map Prod.fst).Nodup) (uri : Str) :
    (l.eraseP fun p => p.1 = uri) = l.filter fun p => !(uri == p.1) := by
  induction l with
  | nil => rfl
  | cons p l ih =>
    rw [List.map_cons, List.nodup_cons] at hl
    rw [List.eraseP_cons, List.filter_cons]
    by_cases hp : p.1 = uri
    · have hrest : ∀ q ∈ l, !(uri == q.1) := by
        intro q hq
        have hne : uri ≠ q.1 := fun h => hl.1 (hp.trans h ▸ List.mem_map_of_mem hq)
        simpa using hne
      rw [decide_eq_true hp, hp, List.filter_eq_self.mpr hrest]
      simp
    · have hne : uri ≠ p.1 := fun h => hp h.symm
      rw [decide_eq_false hp, beq_false_of_ne hne, ih hl.2]
      rfl

theorem filter_isFor_false {c : Call α} (hc : ∀ uri, c.isFor uri = false) (l : List (Str × α)) :
    (l.filter fun p => !c.isFor p.1) = l := by
  refine List.filter_eq_self.mpr fun p _ => ?_
  rw [hc, Bool.not_false]

/-- **The patterns of every run**, in the order in which they are asked. -/
theorem m_globs_run (v : α) (calls : List (Call α)) : (run v calls).m_globs = inForce calls := by
  induction calls using List.reverseRecOn with
  | nil => rfl
  | append_singleton calls c ih =>
    have hnodup := nodup_inForce calls
    rw [run, List.foldl_append, ← run, List.foldl_cons, List.foldl_nil, inForce_append]
    cases c with
    | addGlobServlet u slt =>
      show ((run v calls).m_globs.eraseP fun p => p.1 = u) ++ [(u, slt)] = _
      rw [ih, eraseP_eq_filter hnodup]
      rfl
    | delGlobServlet u =>
      show ((run v calls).m_globs.eraseP fun p => p.1 = u) = _
      rw [ih, eraseP_eq_filter hnodup]
      exact (List.append_nil _).symm
    | addServlet u slt =>
      rw [filter_isFor_false (fun _ => rfl), ← ih]
      exact (List.append_nil _).symm
    | delServlet u =>
      rw [filter_isFor_false (fun _ => rfl), ← ih]
      exact (List.append_nil _).symm
    | setDefault v' =>
      rw [filter_isFor_false (fun _ => rfl), ← ih]
      exact (List.append_nil _).symm

theorem m_default_run (v : α) (calls : List (Call α)) :
    (run v calls).m_default = lastDefault v calls := by
  induction calls using List.reverseRecOn with
  | nil => rfl
  | append_singleton calls c ih =>
    rw [run, List.foldl_append, ← run, List.foldl_cons, List.foldl_nil, lastDefault,
      List.reverse_append, List.reverse_singleton, List.singleton_append, List.findSome?_cons]
    cases c with
    | setDefault v' => rfl
    | addServlet u slt => exact ih
    | addGlobServlet u slt => exact ih
    | delServlet u => exact ih
    | delGlobServlet u => exact ih

/-! ### Where a request goes -/

theorem getMatchedServlet_eq (fnmatch : Str → Str → Bool) (d : ServletDispatch α) (uri : Str) :
    d.getMatchedServlet fnmatch uri
      = ((d.getServlet uri).or ((d.m_globs.find? fun p => fnmatch p.1 uri).map Prod.snd)).getD
          d.m_default := by
  rw [getMatchedServlet, getServlet]
  cases d.m_datas.find? fun p => p.1 = uri with
  | some p => rfl
  | none =>
    cases d.m_globs.find? fun p => fnmatch p.1 uri with
    | some p => rfl
    | none => rfl

/-- **Where a request goes is decided by the calls before it**: to the servlet of the last call for
its exact path; without one, to the first pattern in force that matches; and else to the default. -/
theorem getMatchedServlet_run (fnmatch : Str → Str → Bool) (v : α) (calls : List (Call α))
    (uri : Str) :
    (run v calls).getMatchedServlet fnmatch uri
      = ((lastServlet calls uri).or
          (((inForce calls).find? fun p => fnmatch p.1 uri).map Prod.snd)).getD
            (lastDefault v calls) := by
  rw [getMatchedServlet_eq, getServlet_run, m_globs_run, m_default_run]

end ServletDispatch

end FiberServer
