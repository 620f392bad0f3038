import FiberServer.Base.Log
import FiberServer.Library.Yaml

/-!
# Log definitions as YAML

The two `LexicalCast`s between a `LogDefine` and its text.  What a text is as a tree, and a tree as
a text, is the matter of the YAML library.

* `readAppender_node`, `fromString_toString`: what comes back of an appender and of a definition.
* `survives_iff`: when this is the definition.
-/

namespace FiberServer

namespace Log

open Yaml.Node (get_setStringIf)

/-! ### Levels -/

namespace Level

def ToString : Level → Str
  | DEBUG => "DEBUG".toList
  | INFO => "INFO".toList
  | WARN => "WARN".toList
  | ERROR => "ERROR".toList
  | FATAL => "FATAL".toList
  | UNKNOW => "UNKNOW".toList

def FromString (str : Str) : Level :=
  if str = "debug".toList then DEBUG
  else if str = "info".toList then INFO
  else if str = "warn".toList then WARN
  else if str = "error".toList then ERROR
  else if str = "fatal".toList then FATAL
  else if str = "DEBUG".toList then DEBUG
  else if str = "INFO".toList then INFO
  else if str = "WARN".toList then WARN
  else if str = "ERROR".toList then ERROR
  else if str = "FATAL".toList then FATAL
  else UNKNOW

theorem FromString_ToString (level : Level) : FromString level.ToString = level := by
  cases level <;> decide

end Level

/-! ### Reading -/

/-- `YAML::Load`, and `<<` of a node. -/
structure YamlText where
  Load : Str → Except Yaml.Error Yaml.Node
  emit : Yaml.Node → Str

inductive ReadError
  | logic_error (what : String)
  | yaml (e : Yaml.Error)
  deriving DecidableEq, Repr

instance : MonadLift (Except Yaml.Error) (Except ReadError) := ⟨Except.mapError .yaml⟩

theorem liftM_ok {α : Type} (x : α) :
    (liftM (Except.ok x : Except Yaml.Error α) : Except ReadError α) = .ok x := rfl

/-- The string under the key, if it is defined. -/
def readString (node : Yaml.Node) (key : String) (missing : Str) : Except Yaml.Error Str := do
  match ← node.get key with
  | none => return missing
  | some value => value.as

/-- One round of the loop over `node["appenders"]`: a definition, or the line that is printed.  (The
node is printed behind it.) -/
def readAppender (a : Yaml.Node) : Except Yaml.Error (Except String LogAppenderDefine) := do
  match ← a.get "type" with
  | none => return .error "log config error: appender type is null, "
  | some type =>
    let type ← type.as
    if type = "FileLogAppender".toList then
      match ← a.get "file" with
      | none => return .error "log config error: fileappender file is null, "
      | some file =>
        let file ← file.as
        let formatter ← readString a "formatter" []
        return .ok { type := 1, level := .UNKNOW, formatter := formatter, file := file }
    else if type = "StdoutLogAppender".toList then
      let formatter ← readString a "formatter" []
      return .ok { type := 2, level := .UNKNOW, formatter := formatter, file := [] }
    else return .error "log config error: appender type is invalid, "

/-- The appenders, and the lines that are printed. -/
def readAppenders : List Yaml.Node → Except Yaml.Error (List LogAppenderDefine × List String)
  | [] => return ([], [])
  | a :: rest => do
    let lad ← readAppender a
    let (appenders, lines) ← readAppenders rest
    match lad with
    | .ok lad => return (lad :: appenders, lines)
    | .error line => return (appenders, line :: lines)

/-- `LexicalCast<std::string, LogDefine>` -/
def fromString (yaml : YamlText) (v : Str) : Except ReadError (LogDefine × List String) := do
  let node ← yaml.Load v
  match ← node.get "name" with
  | none => throw (.logic_error "log config name is null")
  | some name =>
    let name ← name.as
    let level ← readString node "level" "UNKNOW".toList
    let formatter ← readString node "formatter" []
    let (appenders, lines) ← match ← node.get "appenders" with
      | none => pure ([], [])
      | some appenders => readAppenders appenders.items
    let ld : LogDefine :=
      { name := name
        level := .FromString level
        formatter := formatter
        appenders := appenders }
    return (ld, lines)

/-! ### Writing -/

def LogAppenderDefine.node (a : LogAppenderDefine) : Yaml.Node :=
  let na :=
    if a.type = 1 then
      (Yaml.Node.null.setString "type" "FileLogAppender".toList).setString "file" a.file
    else if a.type = 2 then Yaml.Node.null.setString "type" "StdoutLogAppender".toList
    else .null
  let na := na.setStringIf (a.level ≠ .UNKNOW) "level" a.level.ToString
  na.setStringIf (a.formatter ≠ []) "formatter" a.formatter

/-- What is set before the appenders. -/
def LogDefine.head (i : LogDefine) : Yaml.Node :=
  let n := Yaml.Node.null.setString "name" i.name
  let n := n.setStringIf (i.level ≠ .UNKNOW) "level" i.level.ToString
  n.setStringIf (i.formatter ≠ []) "formatter" i.formatter

def LogDefine.node (i : LogDefine) : Yaml.Node :=
  (i.appenders.map LogAppenderDefine.node).foldl (fun n na => n.pushBack "appenders" na) i.head

/-- `LexicalCast<LogDefine, std::string>` -/
def toString (yaml : YamlText) (i : LogDefine) : Str := yaml.emit i.node

/-- The text of the definition is read as the definition. -/
def Survives (yaml : YamlText) (d : LogDefine) : Prop :=
  ∃ lines, fromString yaml (toString yaml d) = .ok (d, lines)

/-! ### What comes back -/

/-- An appender without what its text does not have or the reader does not look for. -/
def LogAppenderDefine.kept (a : LogAppenderDefine) : LogAppenderDefine :=
  { a with level := .UNKNOW, file := if a.type = 1 then a.file else [] }

theorem readString_setStringIf {c : Prop} [Decidable c] {node : Yaml.Node} (h : node.Open)
    {key : String} (hnone : node.get key = .ok none) (s missing : Str) :
    readString (node.setStringIf c key s) key missing = .ok (if c then s else missing) := by
  rw [readString, get_setStringIf h]
  by_cases hc : c
  · rw [if_pos ⟨hc, rfl⟩, if_pos hc]
    rfl
  · rw [if_neg (fun hboth => hc hboth.1), if_neg hc, hnone]
    rfl

theorem ite_ne_nil (s : Str) : (if s ≠ [] then s else []) = s := by
  split_ifs with h
  · rfl
  · exact (not_not.mp h).symm

theorem readAppender_node {a : LogAppenderDefine} (h : a.type = 1 ∨ a.type = 2) :
    readAppender a.node = .ok (.ok a.kept) := by
  obtain ⟨type, level, formatter, file⟩ := a
  rcases h with rfl | rfl
  · have htype : (LogAppenderDefine.node ⟨1, level, formatter, file⟩).get "type"
        = .ok (some (.scalar "FileLogAppender".toList)) := by
      simp [LogAppenderDefine.node, get_setStringIf]
    have hfile : (LogAppenderDefine.node ⟨1, level, formatter, file⟩).get "file"
        = .ok (some (.scalar file)) := by
      simp [LogAppenderDefine.node, get_setStringIf]
    have hformatter : readString (LogAppenderDefine.node ⟨1, level, formatter, file⟩) "formatter" []
        = .ok formatter := by
      rw [LogAppenderDefine.node, readString_setStringIf (by simp) (by simp [get_setStringIf]),
        ite_ne_nil]
    rw [readAppender, htype]
    simp only [bind, Except.bind, Yaml.Node.as, if_true, hfile, hformatter]
    rfl
  · have htype : (LogAppenderDefine.node ⟨2, level, formatter, file⟩).get "type"
        = .ok (some (.scalar "StdoutLogAppender".toList)) := by
      simp [LogAppenderDefine.node, get_setStringIf]
    have hformatter : readString (LogAppenderDefine.node ⟨2, level, formatter, file⟩) "formatter" []
        = .ok formatter := by
      rw [LogAppenderDefine.node, readString_setStringIf (by simp) (by simp [get_setStringIf]),
        ite_ne_nil]
    have hother : ¬ "StdoutLogAppender".toList = "FileLogAppender".toList := by decide
    rw [readAppender, htype]
    simp only [bind, Except.bind, Yaml.Node.as, if_neg hother, if_true, hformatter]
    rfl

theorem readAppenders_node : ∀ {as : List LogAppenderDefine}, (∀ a ∈ as, a.type = 1 ∨ a.type = 2) →
    readAppenders (as.map LogAppenderDefine.node) = .ok (as.map LogAppenderDefine.kept, []) := by
  intro as
  induction as with
  | nil => intro _; rfl
  | cons a as ih =>
    intro h
    rw [List.forall_mem_cons] at h
    rw [List.map_cons, readAppenders, readAppender_node h.1, ih h.2]
    rfl

namespace LogDefine

variable (d : LogDefine)

theorem head_open : d.head.Open := by simp [head]

theorem head_appenders : d.head.get "appenders" = .ok none := by simp [head, get_setStringIf]

theorem node_get {key : String} (hne : key ≠ "appenders") : d.node.get key = d.head.get key :=
  Yaml.Node.get_foldl_pushBack_of_ne hne _ d.head_open

theorem node_appenders : d.node.get "appenders"
    = .ok (if d.appenders.map LogAppenderDefine.node = [] then none
      else some (.sequence (d.appenders.map LogAppenderDefine.node))) :=
  Yaml.Node.get_foldl_pushBack_of_none d.head_open d.head_appenders _

theorem readString_node {key : String} (hne : key ≠ "appenders") (missing : Str) :
    readString d.node key missing = readString d.head key missing := by
  rw [readString, readString, d.node_get hne]

theorem node_name : d.node.get "name" = .ok (some (.scalar d.name)) := by
  rw [d.node_get (by decide)]
  simp [head, get_setStringIf]

theorem node_formatter : readString d.node "formatter" [] = .ok d.formatter := by
  rw [d.readString_node (by decide), head, readString_setStringIf (by simp)
    (by simp [get_setStringIf]), ite_ne_nil]

theorem node_level : ∃ level, readString d.node "level" "UNKNOW".toList = .ok level
    ∧ Level.FromString level = d.level := by
  have hhead : d.head.get "level"
      = (Yaml.Node.null.setStringIf (d.level ≠ .UNKNOW) "level" d.level.ToString).get "level" := by
    simp [head, get_setStringIf]
  refine ⟨if d.level ≠ .UNKNOW then d.level.ToString else "UNKNOW".toList, ?_, ?_⟩
  · rw [d.readString_node (by decide), readString, hhead]
    exact readString_setStringIf Yaml.Node.open_null rfl _ _
  · split_ifs with hunknow
    · exact Level.FromString_ToString d.level
    · rw [not_not.mp hunknow]
      decide

end LogDefine

/-- **What comes back** of a definition: all of it but the levels of its appenders, and the file
names of those that write to no file. -/
theorem fromString_toString {yaml : YamlText} {d : LogDefine}
    (hyaml : yaml.Load (yaml.emit d.node) = .ok d.node)
    (htype : ∀ a ∈ d.appenders, a.type = 1 ∨ a.type = 2) :
    fromString yaml (toString yaml d)
      = .ok ({ d with appenders := d.appenders.map LogAppenderDefine.kept }, []) := by
  obtain ⟨level, hlevel, hfrom⟩ := d.node_level
  have hread := readAppenders_node htype
  rw [fromString, toString, hyaml]
  simp only [bind, Except.bind, liftM_ok, d.node_name, Yaml.Node.as, hlevel, hfrom,
    d.node_formatter, d.node_appenders]
  by_cases hnone : d.appenders.map LogAppenderDefine.node = []
  · have hnil : d.appenders = [] := List.map_eq_nil_iff.mp hnone
    rw [if_pos hnone, hnil]
    rfl
  · rw [if_neg hnone]
    simp only [Yaml.Node.items, hread, liftM_ok]
    rfl

theorem kept_eq_iff {a : LogAppenderDefine} (h : a.type = 1 ∨ a.type = 2) :
    a.kept = a ↔ a.level = .UNKNOW ∧ (a.type = 2 → a.file = []) := by
  obtain ⟨type, level, formatter, file⟩ := a
  rcases h with rfl | rfl
  · constructor
    · intro hkept
      exact ⟨(congrArg LogAppenderDefine.level hkept).symm,
        fun htwo => absurd htwo (show ¬ (1 : Int) = 2 by decide)⟩
    · rintro ⟨rfl, -⟩
      rfl
  · constructor
    · intro hkept
      exact ⟨(congrArg LogAppenderDefine.level hkept).symm,
        fun _ => (congrArg LogAppenderDefine.file hkept).symm⟩
    · rintro ⟨rfl, hfile⟩
      obtain rfl : file = [] := hfile rfl
      rfl

/-- **A definition comes back** from its text if and only if no appender has a level, and none that
writes to no file has the name of one. -/
theorem survives_iff {yaml : YamlText} {d : LogDefine}
    (hyaml : yaml.Load (yaml.emit d.node) = .ok d.node)
    (htype : ∀ a ∈ d.appenders, a.type = 1 ∧ a.file ≠ [] ∨ a.type = 2) :
    Survives yaml d ↔ ∀ a ∈ d.appenders, a.level = .UNKNOW ∧ (a.type = 2 → a.file = []) := by
  have htype' : ∀ a ∈ d.appenders, a.type = 1 ∨ a.type = 2 :=
    fun a ha => (htype a ha).imp_left And.left
  have hsame : Survives yaml d ↔ d.appenders.map LogAppenderDefine.kept = d.appenders.map id := by
    rw [Survives, fromString_toString hyaml htype', List.map_id]
    constructor
    · rintro ⟨lines, heq⟩
      exact congrArg (fun read => read.1.appenders) (Except.ok.inj heq)
    · intro heq
      rw [heq]
      exact ⟨[], rfl⟩
  rw [hsame, List.map_inj_left]
  exact forall₂_congr fun a ha => kept_eq_iff (htype' a ha)

/-- A library that writes and reads one document. -/
def YamlText.of (text : String) (node : Yaml.Node) : YamlText where
  Load v := if v = text.toList then .ok node else .error .parser
  emit _ := text.toList

/-- The root, with a file. -/
theorem survives_root : Survives
    (.of "name: root\nlevel: INFO\nappenders:\n  - type: FileLogAppender\n    file: log.txt"
      (LogDefine.node ⟨"root".toList, .INFO, [], [⟨1, .UNKNOW, [], "log.txt".toList⟩]⟩))
    ⟨"root".toList, .INFO, [], [⟨1, .UNKNOW, [], "log.txt".toList⟩]⟩ :=
  (survives_iff rfl (by simp)).mpr (by simp)

/-- An appender of errors comes back as one of everything. -/
theorem not_survives :
    let d : LogDefine := ⟨"root".toList, .UNKNOW, [], [⟨2, .ERROR, [], []⟩]⟩
    let yaml : YamlText :=
      .of "name: root\nappenders:\n  - type: StdoutLogAppender\n    level: ERROR" d.node
    yaml.Load (yaml.emit d.node) = .ok d.node
      ∧ fromString yaml (toString yaml d)
        = .ok (⟨"root".toList, .UNKNOW, [], [⟨2, .UNKNOW, [], []⟩]⟩, [])
      ∧ ¬ Survives yaml d := by
  intro d yaml
  have hread : fromString yaml (toString yaml d)
      = .ok (⟨"root".toList, .UNKNOW, [], [⟨2, .UNKNOW, [], []⟩]⟩, []) := rfl
  refine ⟨rfl, hread, ?_⟩
  rintro ⟨lines, heq⟩
  rw [hread] at heq
  obtain ⟨hfirst, -⟩ := Prod.mk.inj (Except.ok.inj heq)
  exact absurd hfirst (by decide)

end Log

end FiberServer
