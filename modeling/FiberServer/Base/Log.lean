import FiberServer.Chunk.FSUtil
import FiberServer.Library.OrderedSet
import FiberServer.Library.Transition
import Mathlib.Data.Char
import Mathlib.Data.List.Lex
import Mathlib.Data.List.Nodup
import Mathlib.Logic.Function.Basic
import Mathlib.Tactic.SplitIfs

/-!
# The configuration of the loggers

`g_log_defines` is a set of `LogDefine`s.  Its listener compares the new set with the old one,
definition by definition, and sets up the loggers of those that differ; `ConfigVar::setValue` does
not call it when the sets are equal.  Both comparisons rest on `LogDefine::operator==`, which
compares the appenders of a definition with themselves.

* `configured_iff`: after each call of `setValue` the loggers are as the sets say, in exactly the
  runs in which a definition that agrees with the stored one of its name in level and formatter
  asks for the same appenders.
-/

namespace FiberServer

namespace Log

open Transition

inductive Level
  | UNKNOW
  | DEBUG
  | INFO
  | WARN
  | ERROR
  | FATAL
  deriving DecidableEq, Repr

/-! ### Formatters -/

/-- A piece of a pattern, and whether it is a text (0) or a key with its parameter (1). -/
abbrev Piece := Str × Str × Nat

/-- The text so far, as a piece of its own. -/
def flush (normalstr : Str) : List Piece :=
  if normalstr.isEmpty then [] else [(normalstr, [], 0)]

/-- The loop of `LogFormatter::init` over the rest of the pattern: the pieces, and whether there
was an error. -/
def scan (normalstr : Str) (m_pattern : Str) : List Piece × Bool :=
  match m_pattern with
  | [] => (flush normalstr, false)
  | '%' :: '%' :: rest => scan (normalstr ++ ['%']) rest
  -- nothing behind the `%`
  | ['%'] => (flush normalstr ++ [(['%'], [], 0)], false)
  | '%' :: key :: rest =>
    if !key.isAlpha then
      let (vec, m_error) := scan ['%', key] rest
      (flush normalstr ++ vec, m_error)
    else
      match rest with
      | '{' :: rest =>
        let param := rest.takeWhile (· ≠ '}')
        if rest.contains '}' then
          let (vec, m_error) := scan [] (rest.drop (param.length + 1))
          (flush normalstr ++ ([key], param, 1) :: vec, m_error)
        else
          -- the segment is skipped
          let (vec, _) := scan [] rest
          (flush normalstr ++ ("<<error>>".toList, [], 0) :: vec, true)
      | rest =>
        let (vec, m_error) := scan [] rest
        (flush normalstr ++ ([key], [], 1) :: vec, m_error)
  | c :: rest => scan (normalstr ++ [c]) rest
  termination_by m_pattern.length
  decreasing_by all_goals simp only [List.length_cons, List.length_drop]; omega

/-- The keys of `s_format_items`. -/
def formatItems : List Char := ['m', 'p', 'r', 'c', 't', 'n', 'd', 'f', 'l', 'T', 'F', 'N']

structure LogFormatter where
  m_pattern : Str
  m_error : Bool
  deriving DecidableEq, Repr

/-- `LogFormatter(const std::string& pattern)` with its `init`. -/
def LogFormatter.make (m_pattern : Str) : LogFormatter :=
  let (vec, m_error) := scan [] m_pattern
  { m_pattern := m_pattern
    m_error := m_error
      || vec.any fun (key, _, kind) => kind = 1 && !formatItems.any fun c => key = [c] }

example : (LogFormatter.make ['%', 'x']).m_error = true := by
  simp [LogFormatter.make, scan, formatItems]

/-! ### Appenders and loggers -/

inductive AppenderType
  | STDOUT
  | FILE
  deriving DecidableEq, Repr

structure LogAppender where
  type : AppenderType
  /-- of a file -/
  m_filename : Str
  m_level : Level
  m_formatter : Option LogFormatter
  m_hasFormatter : Bool
  deriving DecidableEq, Repr

/-- `StdoutLogAppender()`, `FileLogAppender(filename)` -/
def LogAppender.make (type : AppenderType) (m_filename : Str) : LogAppender :=
  { type := type
    m_filename := m_filename
    m_level := .DEBUG
    m_formatter := none
    m_hasFormatter := false }

def LogAppender.setFormatter (ap : LogAppender) (formatter : LogFormatter) : LogAppender :=
  { ap with m_formatter := some formatter, m_hasFormatter := true }

structure Logger where
  m_level : Level
  m_formatter : LogFormatter
  m_appenders : List LogAppender
  deriving DecidableEq, Repr

def defaultPattern : Str :=
  "%d{%Y-%m-%d %H:%M:%S}%T%t%T%N%T%F%T[%p]%T[%c]%T%f:%l%T%m%n".toList

/-- `Logger(const std::string& name)` -/
def Logger.make : Logger :=
  { m_level := .DEBUG
    m_formatter := .make defaultPattern
    m_appenders := [] }

namespace Logger

def setLevel (logger : Logger) (level : Level) : Logger := { logger with m_level := level }

/-- A formatter with an error is set all the same. -/
def setFormatter (logger : Logger) (val : Str) : Logger :=
  let formatter := LogFormatter.make val
  { logger with
    m_formatter := formatter
    m_appenders := logger.m_appenders.map fun i =>
      if i.m_hasFormatter then i else i.setFormatter formatter }

def clearAppenders (logger : Logger) : Logger := { logger with m_appenders := [] }

/-- An appender without a formatter of its own gets that of the logger. -/
def addAppender (logger : Logger) (appender : LogAppender) : Logger :=
  let appender := if appender.m_hasFormatter then appender
    else { appender with m_formatter := some logger.m_formatter }
  { logger with m_appenders := logger.m_appenders ++ [appender] }

end Logger

/-- `m_loggers` of the `LoggerManage`. -/
abbrev Loggers := Str → Option Logger

/-- `LoggerManage()` -/
def Loggers.make : Loggers := fun name =>
  if name = "root".toList then some (Logger.make.addAppender (.make .STDOUT [])) else none

/-- `getLogger(name)`; the caller puts the logger back under its name. -/
def Loggers.getLogger (m_loggers : Loggers) (name : Str) : Logger := (m_loggers name).getD .make

/-! ### The configuration -/

structure LogAppenderDefine where
  /-- 1 File, 2 Stdout -/
  type : Int
  level : Level
  formatter : Str
  file : Str
  deriving DecidableEq, Repr

structure LogDefine where
  name : Str
  level : Level
  formatter : Str
  appenders : List LogAppenderDefine
  deriving DecidableEq, Repr

/-- `LogDefine::operator<` -/
def LogDefine.less (i o : LogDefine) : Bool := i.name < o.name

/-- `LogDefine::operator==` of `i` and `oth`; the appenders are those of `i` on both sides. -/
def LogDefine.equal (i oth : LogDefine) : Bool :=
  i.name = oth.name && i.level = oth.level && i.formatter = oth.formatter
    && i.appenders = i.appenders

/-- `std::set<LogDefine>` -/
structure LogDefines where
  defines : List LogDefine
  sorted : OrderedSet.Sorted LogDefine.less defines

def LogDefines.empty : LogDefines := ⟨[], List.Pairwise.nil⟩

def LogDefines.find (s : LogDefines) (i : LogDefine) : Option LogDefine :=
  (OrderedSet.find LogDefine.less i s.defines).bind fun it => s.defines[it]?

/-- `operator==` of two sets. -/
def LogDefines.equal (s v : LogDefines) : Bool := s.defines.isEqv v.defines LogDefine.equal

/-- The appender of a definition; with any other type a null pointer is used. -/
def LogAppenderDefine.appender (a : LogAppenderDefine) : Option LogAppender :=
  let ap := if a.type = 1 then some (LogAppender.make .FILE a.file)
    else if a.type = 2 then some (LogAppender.make .STDOUT [])
    else none
  ap.map fun ap =>
    let ap := { ap with m_level := a.level }
    if a.formatter.isEmpty then ap
    else
      let fmt := LogFormatter.make a.formatter
      if fmt.m_error then ap else ap.setFormatter fmt

/-- What the listener does with the logger of a definition that is new or has changed. -/
def configure (logger : Logger) (i : LogDefine) : Option Logger :=
  let logger := logger.setLevel i.level
  let logger := if i.formatter.isEmpty then logger else logger.setFormatter i.formatter
  (i.appenders.mapM LogAppenderDefine.appender).map fun aps =>
    aps.foldl Logger.addAppender logger.clearAppenders

/-- What it does with the logger of a definition that is gone. -/
def retire (logger : Logger) : Logger := (logger.setLevel .UNKNOW).clearAppenders

/-- The definition is in the old set and equal there. -/
def same (old_value : LogDefines) (i : LogDefine) : Bool :=
  (old_value.find i).any fun it => i.equal it

/-- The first loop of the listener. -/
def configureAll (old_value : LogDefines) : List LogDefine → Loggers → Option Loggers
  | [], m_loggers => some m_loggers
  | i :: rest, m_loggers =>
    if same old_value i then configureAll old_value rest m_loggers
    else
      (configure (m_loggers.getLogger i.name) i).bind fun logger =>
        configureAll old_value rest (Function.update m_loggers i.name (some logger))

/-- The second loop. -/
def retireAll (new_value : LogDefines) : List LogDefine → Loggers → Loggers
  | [], m_loggers => m_loggers
  | i :: rest, m_loggers =>
    if (new_value.find i).isNone then
      retireAll new_value rest
        (Function.update m_loggers i.name (some (retire (m_loggers.getLogger i.name))))
    else retireAll new_value rest m_loggers

/-- The listener that `LogIniter` adds. -/
def onChange (old_value new_value : LogDefines) (m_loggers : Loggers) : Option Loggers :=
  (configureAll old_value new_value.defines m_loggers).map (retireAll new_value old_value.defines)

structure State where
  m_val : LogDefines
  m_loggers : Loggers
  /-- the last set given to `setValue`, and the one before it -/
  current : LogDefines
  previous : LogDefines

def init : State :=
  { m_val := .empty
    m_loggers := .make
    current := .empty
    previous := .empty }

/-- `g_log_defines->setValue(v)` -/
def step (s : State) (v : LogDefines) : Option State :=
  if v.equal s.m_val then some { s with current := v, previous := s.current }
  else
    (onChange s.m_val v s.m_loggers).map fun m_loggers =>
      { m_val := v, m_loggers := m_loggers, current := v, previous := s.current }

/-! ### What is asked for -/

/-- An appender as a definition describes it. -/
structure AppenderSpec where
  type : Int
  level : Level
  file : Option Str
  /-- a formatter of its own -/
  formatter : Option Str
  deriving DecidableEq, Repr

def LogAppenderDefine.spec (a : LogAppenderDefine) : AppenderSpec :=
  { type := a.type
    level := a.level
    file := if a.type = 1 then some a.file else none
    formatter := if a.formatter.isEmpty || (LogFormatter.make a.formatter).m_error then none
      else some a.formatter }

def LogAppender.spec (ap : LogAppender) : AppenderSpec :=
  { type := match ap.type with
      | .FILE => 1
      | .STDOUT => 2
    level := ap.m_level
    file := match ap.type with
      | .FILE => some ap.m_filename
      | .STDOUT => none
    formatter := if ap.m_hasFormatter then ap.m_formatter.map LogFormatter.m_pattern else none }

/-- The logger is as its definition says. -/
def Follows (logger : Logger) (d : LogDefine) : Prop :=
  logger.m_level = d.level
    ∧ logger.m_appenders.map LogAppender.spec = d.appenders.map LogAppenderDefine.spec

def Retired (logger : Logger) : Prop := logger.m_level = .UNKNOW ∧ logger.m_appenders = []

/-- After a call of `setValue`. -/
structure Configured (s : State) : Prop where
  current : ∀ d ∈ s.current.defines, ∃ logger, s.m_loggers d.name = some logger ∧ Follows logger d
  gone : ∀ d ∈ s.previous.defines, (∀ d' ∈ s.current.defines, d'.name ≠ d.name) →
    ∃ logger, s.m_loggers d.name = some logger ∧ Retired logger

/-- A definition differs in its name, level or formatter from that in `m_val`, or asks for the same
appenders. -/
def Notices (s : State) (v : LogDefines) : Prop :=
  ∀ d ∈ v.defines, ∀ o ∈ s.m_val.defines, o.name = d.name → o.level = d.level →
    o.formatter = d.formatter →
    o.appenders.map LogAppenderDefine.spec = d.appenders.map LogAppenderDefine.spec

/-! ### Sets of definitions -/

theorem less_irrefl (d : LogDefine) : d.less d = false := decide_eq_false (lt_irrefl d.name)

theorem less_eq {d o : LogDefine} : d.less o = false ∧ o.less d = false ↔ d.name = o.name := by
  rw [LogDefine.less, LogDefine.less, decide_eq_false_iff_not, decide_eq_false_iff_not, not_lt,
    not_lt]
  exact ⟨fun ⟨hle, hge⟩ => le_antisymm hge hle, fun h => ⟨h.ge, h.le⟩⟩

theorem LogDefines.ne_name {s : LogDefines} : s.defines.Pairwise fun d o => d.name ≠ o.name := by
  refine List.Pairwise.imp ?_ s.sorted
  intro d o hless heq
  rw [(less_eq.mpr heq).1] at hless
  exact nomatch hless

/-- **`find`** goes by the name. -/
theorem LogDefines.find_eq_some {s : LogDefines} {d o : LogDefine} :
    s.find d = some o ↔ o ∈ s.defines ∧ o.name = d.name := by
  constructor
  · intro h
    obtain ⟨it, hit, ho⟩ := Option.bind_eq_some_iff.mp h
    obtain ⟨y, hy, hless⟩ := OrderedSet.of_find hit
    obtain rfl : y = o := Option.some.inj (hy.symm.trans ho)
    exact ⟨List.mem_of_getElem? ho, (less_eq.mp hless).symm⟩
  · rintro ⟨ho, hname⟩
    have hcongr : OrderedSet.find LogDefine.less d s.defines
        = OrderedSet.find LogDefine.less o s.defines := by
      simp only [OrderedSet.find, OrderedSet.lowerBound, LogDefine.less, hname]
      rfl
    obtain ⟨hfind, hget⟩ := OrderedSet.find_of_mem less_irrefl s.sorted ho
    rw [LogDefines.find, hcongr, hfind]
    exact hget

theorem LogDefines.find_eq_none {s : LogDefines} {d : LogDefine} :
    s.find d = none ↔ ∀ o ∈ s.defines, o.name ≠ d.name := by
  rw [Option.eq_none_iff_forall_ne_some]
  constructor
  · exact fun h o ho hname => h o (LogDefines.find_eq_some.mpr ⟨ho, hname⟩)
  · exact fun h o ho => h o (LogDefines.find_eq_some.mp ho).1 (LogDefines.find_eq_some.mp ho).2

/-- The comparison of two definitions leaves the appenders out. -/
theorem equal_iff {d o : LogDefine} :
    d.equal o = true ↔ d.name = o.name ∧ d.level = o.level ∧ d.formatter = o.formatter := by
  rw [LogDefine.equal]
  simp only [Bool.and_eq_true, decide_eq_true_eq, and_true, and_assoc]

/-- A definition that the listener passes over, and what it is equal to. -/
theorem same_iff {s : LogDefines} {d : LogDefine} : same s d = true ↔
    ∃ o ∈ s.defines, o.name = d.name ∧ o.level = d.level ∧ o.formatter = d.formatter := by
  rw [same, Option.any_eq_true]
  constructor
  · rintro ⟨o, hfind, hequal⟩
    obtain ⟨ho, hname⟩ := LogDefines.find_eq_some.mp hfind
    obtain ⟨-, hlevel, hformatter⟩ := equal_iff.mp hequal
    exact ⟨o, ho, hname, hlevel.symm, hformatter.symm⟩
  · rintro ⟨o, ho, hname, hlevel, hformatter⟩
    exact ⟨o, LogDefines.find_eq_some.mpr ⟨ho, hname⟩,
      equal_iff.mpr ⟨hname.symm, hlevel.symm, hformatter.symm⟩⟩

theorem exists_of_isEqv {α : Type} {r : α → α → Bool} :
    ∀ {xs ys : List α}, xs.isEqv ys r = true →
      (∀ x ∈ xs, ∃ y ∈ ys, r x y = true) ∧ ∀ y ∈ ys, ∃ x ∈ xs, r x y = true := by
  intro xs
  induction xs with
  | nil =>
    intro ys h
    cases ys with
    | nil => exact ⟨fun x hx => absurd hx List.not_mem_nil, fun y hy => absurd hy List.not_mem_nil⟩
    | cons y ys => exact nomatch h
  | cons x xs ih =>
    intro ys h
    cases ys with
    | nil => exact nomatch h
    | cons y ys =>
      rw [List.isEqv_cons_cons, Bool.and_eq_true] at h
      obtain ⟨hxy, hrest⟩ := h
      obtain ⟨hxs, hys⟩ := ih hrest
      constructor
      · intro z hz
        rcases List.mem_cons.mp hz with rfl | hz
        · exact ⟨y, List.mem_cons_self, hxy⟩
        · obtain ⟨w, hw, hzw⟩ := hxs z hz
          exact ⟨w, List.mem_cons_of_mem y hw, hzw⟩
      · intro z hz
        rcases List.mem_cons.mp hz with rfl | hz
        · exact ⟨x, List.mem_cons_self, hxy⟩
        · obtain ⟨w, hw, hzw⟩ := hys z hz
          exact ⟨w, List.mem_cons_of_mem x hw, hzw⟩

/-- Of equal sets, each definition has an equal one in the other set. -/
theorem LogDefines.of_equal {v s : LogDefines} (h : v.equal s = true) :
    (∀ d ∈ v.defines, same s d = true) ∧ ∀ o ∈ s.defines, ∃ d ∈ v.defines, d.name = o.name := by
  obtain ⟨hv, hs⟩ := exists_of_isEqv h
  constructor
  · intro d hd
    obtain ⟨o, ho, hequal⟩ := hv d hd
    obtain ⟨hname, hlevel, hformatter⟩ := equal_iff.mp hequal
    exact same_iff.mpr ⟨o, ho, hname.symm, hlevel.symm, hformatter.symm⟩
  · intro o ho
    obtain ⟨d, hd, hequal⟩ := hs o ho
    exact ⟨d, hd, (equal_iff.mp hequal).1⟩

/-! ### The loops of the listener -/

/-- **An appender is as its definition says.** -/
theorem spec_appender {a : LogAppenderDefine} {ap : LogAppender} (h : a.appender = some ap) :
    ap.spec = a.spec := by
  rw [LogAppenderDefine.appender] at h
  obtain ⟨ap', hap', rfl⟩ := Option.map_eq_some_iff.mp h
  have hmade : (a.type = 1 ∧ ap' = .make .FILE a.file) ∨ (a.type = 2 ∧ ap' = .make .STDOUT []) := by
    split_ifs at hap' with hone htwo
    · exact .inl ⟨hone, (Option.some.inj hap').symm⟩
    · exact .inr ⟨htwo, (Option.some.inj hap').symm⟩
  have hpattern : (LogFormatter.make a.formatter).m_pattern = a.formatter := rfl
  rw [LogAppenderDefine.spec]
  generalize LogFormatter.make a.formatter = fmt at hpattern ⊢
  cases hempty : a.formatter.isEmpty <;> cases herror : fmt.m_error <;>
    rcases hmade with ⟨htype, rfl⟩ | ⟨htype, rfl⟩ <;>
    simp [LogAppender.spec, LogAppender.make, LogAppender.setFormatter, hpattern, herror, htype]

theorem addAppender_spec (logger : Logger) (ap : LogAppender) :
    (logger.addAppender ap).m_level = logger.m_level
      ∧ (logger.addAppender ap).m_appenders.map LogAppender.spec
        = logger.m_appenders.map LogAppender.spec ++ [ap.spec] := by
  refine ⟨rfl, ?_⟩
  rw [Logger.addAppender, List.map_append, List.map_singleton]
  congr 2
  by_cases hown : ap.m_hasFormatter = true
  · rw [if_pos hown]
  · simp only [hown, LogAppender.spec, Bool.false_eq_true, if_false]

theorem foldl_addAppender (aps : List LogAppender) (logger : Logger) :
    (aps.foldl Logger.addAppender logger).m_level = logger.m_level
      ∧ (aps.foldl Logger.addAppender logger).m_appenders.map LogAppender.spec
        = logger.m_appenders.map LogAppender.spec ++ aps.map LogAppender.spec := by
  induction aps generalizing logger with
  | nil => exact ⟨rfl, (List.append_nil _).symm⟩
  | cons ap aps ih =>
    obtain ⟨hlevel, happenders⟩ := addAppender_spec logger ap
    obtain ⟨hlevel', happenders'⟩ := ih (logger.addAppender ap)
    refine ⟨hlevel'.trans hlevel, ?_⟩
    rw [List.foldl_cons, happenders', happenders, List.map_cons, List.append_assoc]
    rfl

theorem mapM_appender {as : List LogAppenderDefine} {aps : List LogAppender}
    (h : as.mapM LogAppenderDefine.appender = some aps) :
    aps.map LogAppender.spec = as.map LogAppenderDefine.spec := by
  induction as generalizing aps with
  | nil =>
    cases h
    rfl
  | cons a as ih =>
    rw [List.mapM_cons] at h
    obtain ⟨ap, hap, h⟩ := Option.bind_eq_some_iff.mp h
    obtain ⟨rest, hrest, h⟩ := Option.bind_eq_some_iff.mp h
    cases h
    rw [List.map_cons, List.map_cons, spec_appender hap, ih hrest]

/-- **A logger that is set up follows its definition.** -/
theorem follows_configure {logger logger' : Logger} {d : LogDefine}
    (h : configure logger d = some logger') : Follows logger' d := by
  rw [configure] at h
  obtain ⟨aps, haps, rfl⟩ := Option.map_eq_some_iff.mp h
  obtain ⟨hlevel, happenders⟩ := foldl_addAppender aps
    (if d.formatter.isEmpty then logger.setLevel d.level
      else (logger.setLevel d.level).setFormatter d.formatter).clearAppenders
  refine ⟨hlevel.trans ?_, happenders.trans ?_⟩
  · show (ite _ _ _ : Logger).m_level = d.level
    split_ifs <;> rfl
  · rw [mapM_appender haps]
    rfl

/-- **The first loop**: a definition that is equal in the old set is passed over, any other one is
followed, and no other logger changes. -/
theorem configureAll_spec (old_value : LogDefines) :
    ∀ (ds : List LogDefine) (m_loggers m_loggers' : Loggers),
      (ds.Pairwise fun d o => d.name ≠ o.name) →
      configureAll old_value ds m_loggers = some m_loggers' →
      (∀ name, (∀ d ∈ ds, d.name ≠ name) → m_loggers' name = m_loggers name)
        ∧ ∀ d ∈ ds, (same old_value d = true → m_loggers' d.name = m_loggers d.name)
          ∧ (same old_value d = false →
            ∃ logger, m_loggers' d.name = some logger ∧ Follows logger d) := by
  intro ds
  induction ds with
  | nil =>
    intro m_loggers m_loggers' _ h
    cases h
    exact ⟨fun _ _ => rfl, fun d hd => absurd hd List.not_mem_nil⟩
  | cons i rest ih =>
    intro m_loggers m_loggers' hnames h
    obtain ⟨hi, hrest⟩ := List.pairwise_cons.mp hnames
    rw [configureAll] at h
    -- the loggers after the first definition, and what has become of its own
    obtain ⟨middle, hmiddle, hothers, hself⟩ : ∃ middle : Loggers,
        configureAll old_value rest middle = some m_loggers'
          ∧ (∀ name, i.name ≠ name → middle name = m_loggers name)
          ∧ (same old_value i = true → middle i.name = m_loggers i.name)
          ∧ (same old_value i = false →
            ∃ logger, middle i.name = some logger ∧ Follows logger i) := by
      split_ifs at h with hsame
      · exact ⟨m_loggers, h, fun _ _ => rfl, fun _ => rfl,
          fun hne => absurd hsame (by rw [hne]; decide)⟩
      · obtain ⟨logger, hlogger, h⟩ := Option.bind_eq_some_iff.mp h
        refine ⟨_, h, fun name hname => Function.update_of_ne hname.symm _ _,
          fun hs => absurd hs hsame, fun _ => ⟨logger, Function.update_self _ _ _, ?_⟩⟩
        exact follows_configure hlogger
    obtain ⟨hkept, hdone⟩ := ih middle m_loggers' hrest hmiddle
    have hstays : m_loggers' i.name = middle i.name := hkept i.name fun d hd => (hi d hd).symm
    constructor
    · intro name hname
      rw [hkept name fun d hd => hname d (List.mem_cons_of_mem i hd),
        hothers name (hname i List.mem_cons_self)]
    · intro d hd
      rcases List.mem_cons.mp hd with rfl | hd
      · rw [hstays]
        exact hself
      · rw [← hothers d.name (hi d hd)]
        exact hdone d hd

/-- **The second loop** retires the loggers whose names are gone. -/
theorem retireAll_spec (new_value : LogDefines) :
    ∀ (ds : List LogDefine) (m_loggers : Loggers),
      (∀ d ∈ new_value.defines, retireAll new_value ds m_loggers d.name = m_loggers d.name)
        ∧ (∀ name logger, m_loggers name = some logger → Retired logger →
          ∃ logger', retireAll new_value ds m_loggers name = some logger' ∧ Retired logger')
        ∧ ∀ i ∈ ds, (∀ d ∈ new_value.defines, d.name ≠ i.name) →
          ∃ logger, retireAll new_value ds m_loggers i.name = some logger ∧ Retired logger := by
  intro ds
  induction ds with
  | nil =>
    exact fun m_loggers => ⟨fun _ _ => rfl, fun name logger h hr => ⟨logger, h, hr⟩,
      fun i hi => absurd hi List.not_mem_nil⟩
  | cons i rest ih =>
    intro m_loggers
    rw [retireAll]
    split_ifs with hgone
    · rw [Option.isNone_iff_eq_none, LogDefines.find_eq_none] at hgone
      obtain ⟨hkept, hretired, hdone⟩ :=
        ih (Function.update m_loggers i.name (some (retire (m_loggers.getLogger i.name))))
      refine ⟨fun d hd => ?_, fun name logger hlogger hr => ?_, fun j hj hnone => ?_⟩
      · rw [hkept d hd, Function.update_of_ne (hgone d hd)]
      · by_cases hname : name = i.name
        · refine hretired name (retire (m_loggers.getLogger i.name)) ?_ ⟨rfl, rfl⟩
          rw [hname, Function.update_self]
        · refine hretired name logger ?_ hr
          rw [Function.update_of_ne hname, hlogger]
      · rcases List.mem_cons.mp hj with rfl | hj
        · exact hretired j.name (retire (m_loggers.getLogger j.name)) (Function.update_self _ _ _)
            ⟨rfl, rfl⟩
        · exact hdone j hj hnone
    · obtain ⟨hkept, hretired, hdone⟩ := ih m_loggers
      refine ⟨hkept, hretired, fun j hj hnone => ?_⟩
      rcases List.mem_cons.mp hj with rfl | hj
      · rw [Option.isNone_iff_eq_none, LogDefines.find_eq_none] at hgone
        exact absurd hnone hgone
      · exact hdone j hj hnone

/-! ### Runs -/

/-- The loggers follow `m_val`, which has the names of the last set. -/
structure Inv (s : State) : Prop where
  follows : ∀ o ∈ s.m_val.defines, ∃ logger, s.m_loggers o.name = some logger ∧ Follows logger o
  stored : ∀ o ∈ s.m_val.defines, ∃ d ∈ s.current.defines, d.name = o.name
  named : ∀ d ∈ s.current.defines, ∃ o ∈ s.m_val.defines, o.name = d.name

theorem inv_init : Inv init :=
  ⟨fun _ ho => absurd ho List.not_mem_nil, fun _ ho => absurd ho List.not_mem_nil,
    fun _ hd => absurd hd List.not_mem_nil⟩

theorem configured_init : Configured init :=
  ⟨fun _ hd => absurd hd List.not_mem_nil, fun _ hd => absurd hd List.not_mem_nil⟩

/-- **A call of `setValue`**: the loggers of the definitions that are passed over stay, those of the
others follow them, and those whose names are gone are retired. -/
structure Called (s : State) (v : LogDefines) (t : State) : Prop where
  current : t.current = v
  previous : t.previous = s.current
  passed : ∀ d ∈ v.defines, same s.m_val d = true → t.m_loggers d.name = s.m_loggers d.name
  changed : ∀ d ∈ v.defines, same s.m_val d = false →
    ∃ logger, t.m_loggers d.name = some logger ∧ Follows logger d
  gone : ∀ o ∈ s.m_val.defines, (∀ d ∈ v.defines, d.name ≠ o.name) →
    ∃ logger, t.m_loggers o.name = some logger ∧ Retired logger
  /-- without a difference nothing is stored -/
  stored : t.m_val = v ∨ t.m_val = s.m_val ∧ t.m_loggers = s.m_loggers
    ∧ (∀ d ∈ v.defines, same s.m_val d = true)
    ∧ ∀ o ∈ s.m_val.defines, ∃ d ∈ v.defines, d.name = o.name

theorem step_called {s t : State} {v : LogDefines} (h : step s v = some t) : Called s v t := by
  rw [step] at h
  split_ifs at h with hequal
  · obtain ⟨hsame, hnames⟩ := LogDefines.of_equal hequal
    cases h
    refine ⟨rfl, rfl, fun _ _ _ => rfl, fun d hd hdiffer => ?_, fun o ho hnone => ?_,
      .inr ⟨rfl, rfl, hsame, hnames⟩⟩
    · rw [hsame d hd] at hdiffer
      exact nomatch hdiffer
    · obtain ⟨d, hd, hname⟩ := hnames o ho
      exact absurd hname (hnone d hd)
  · obtain ⟨m_loggers, hchange, ht⟩ := Option.map_eq_some_iff.mp h
    cases ht
    obtain ⟨middle, hmiddle, rfl⟩ := Option.map_eq_some_iff.mp hchange
    obtain ⟨-, hdone⟩ := configureAll_spec s.m_val v.defines s.m_loggers middle v.ne_name hmiddle
    obtain ⟨hkept, -, hgone⟩ := retireAll_spec v s.m_val.defines middle
    refine ⟨rfl, rfl, fun d hd hsame => ?_, fun d hd hdiffer => ?_, hgone, .inl rfl⟩
    · exact (hkept d hd).trans ((hdone d hd).1 hsame)
    · show ∃ logger, retireAll v s.m_val.defines middle d.name = some logger ∧ _
      rw [hkept d hd]
      exact (hdone d hd).2 hdiffer

/-- A definition that was passed over is followed exactly if it asks for the appenders of the
stored one. -/
theorem follows_passed {s : State} (hs : Inv s) {d o : LogDefine} (ho : o ∈ s.m_val.defines)
    (hname : o.name = d.name) (hlevel : o.level = d.level) :
    (∃ logger, s.m_loggers d.name = some logger ∧ Follows logger d)
      ↔ o.appenders.map LogAppenderDefine.spec = d.appenders.map LogAppenderDefine.spec := by
  obtain ⟨logger, hlogger, hfollows⟩ := hs.follows o ho
  rw [hname] at hlogger
  constructor
  · rintro ⟨logger', hlogger', hfollows'⟩
    obtain rfl : logger = logger' := Option.some.inj (hlogger.symm.trans hlogger')
    exact hfollows.2.symm.trans hfollows'.2
  · exact fun happenders =>
      ⟨logger, hlogger, hfollows.1.trans hlevel, hfollows.2.trans happenders⟩

theorem configured_step {s t : State} {v : LogDefines} (hs : Inv s) (hstep : step s v = some t) :
    Configured t ↔ Notices s v := by
  have hcalled := step_called hstep
  constructor
  · intro ht d hd o ho hname hlevel hformatter
    have hsame : same s.m_val d = true := same_iff.mpr ⟨o, ho, hname, hlevel, hformatter⟩
    rw [← follows_passed hs ho hname hlevel, ← hcalled.passed d hd hsame]
    exact ht.current d (by rw [hcalled.current]; exact hd)
  · intro hnotices
    constructor
    · rw [hcalled.current]
      intro d hd
      cases hsame : same s.m_val d with
      | false => exact hcalled.changed d hd hsame
      | true =>
        obtain ⟨o, ho, hname, hlevel, hformatter⟩ := same_iff.mp hsame
        rw [hcalled.passed d hd hsame, follows_passed hs ho hname hlevel]
        exact hnotices d hd o ho hname hlevel hformatter
    · rw [hcalled.current, hcalled.previous]
      intro d hd hnone
      obtain ⟨o, ho, hname⟩ := hs.named d hd
      rw [← hname] at hnone ⊢
      exact hcalled.gone o ho hnone

theorem inv_step {s t : State} {v : LogDefines} (hs : Inv s) (hnotices : Notices s v)
    (hstep : step s v = some t) : Inv t := by
  have hcalled := step_called hstep
  rcases hcalled.stored with hval | ⟨hval, hloggers, hsame, hnames⟩
  · constructor
    · rw [hval, ← hcalled.current]
      exact ((configured_step hs hstep).mpr hnotices).current
    · rw [hval, hcalled.current]
      exact fun o ho => ⟨o, ho, rfl⟩
    · rw [hval, hcalled.current]
      exact fun d hd => ⟨d, hd, rfl⟩
  · constructor
    · rw [hval, hloggers]
      exact hs.follows
    · rw [hval, hcalled.current]
      exact hnames
    · rw [hval, hcalled.current]
      intro d hd
      obtain ⟨o, ho, hname, -⟩ := same_iff.mp (hsame d hd)
      exact ⟨o, ho, hname⟩

/-- **The loggers follow the configuration.**  In a run of calls `g_log_defines->setValue(v)`, after
each call every logger that the set names has the level and the appenders of its definition, and
every logger that only the set before names is retired, exactly if in each call every definition
that agrees with the one in `m_val` in name, level and formatter asks for the same appenders. -/
theorem configured_iff {vs : List LogDefines} {u : State} (h : exec step init vs = some u) :
    Throughout step Configured init vs ↔ Along step Notices init vs :=
  throughout_iff_along_of_kept (A := fun _ _ => True)
    (fun _ _ _ hs _ _ hnotices hstep => inv_step hs hnotices hstep)
    (fun _ _ _ hs _ _ hstep => configured_step hs hstep) inv_init configured_init along_true h

/-- A set of one definition. -/
def LogDefines.single (d : LogDefine) : LogDefines := ⟨[d], List.pairwise_singleton _ d⟩

def stdoutAppender : LogAppenderDefine :=
  { type := 2, level := .INFO, formatter := [], file := [] }

/-- A logger that writes to the terminal, one that writes nowhere, and no logger. -/
def reloads : List LogDefines :=
  [.single { name := ['a'], level := .INFO, formatter := [], appenders := [stdoutAppender] },
    .single { name := ['b'], level := .INFO, formatter := [], appenders := [] }, .empty]

theorem configured_iff_reloads : (exec step init reloads).isSome = true
    ∧ (Throughout step Configured init reloads ↔ Along step Notices init reloads) := by
  have hrun : (exec step init reloads).isSome = true := by decide
  exact ⟨hrun, configured_iff (Option.some_get hrun).symm⟩

/-- The logger `a`, with an appender and without it. -/
def dropsAppender : List LogDefines :=
  [.single { name := ['a'], level := .INFO, formatter := [], appenders := [stdoutAppender] },
    .single { name := ['a'], level := .INFO, formatter := [], appenders := [] }]

/-- The logger keeps its appender. -/
theorem dropsAppender_not_configured : ¬ Throughout step Configured init dropsAppender := by
  intro hall
  cases hrun : exec step init dropsAppender with
  | none => exact absurd hrun (by decide)
  | some u =>
    have hconfigured : Configured u := hall.last hrun
    let d : LogDefine := { name := ['a'], level := .INFO, formatter := [], appenders := [] }
    have hlast : (exec step init dropsAppender).map (fun u => u.current.defines) = some [d] := by
      decide
    have hlength : (exec step init dropsAppender).map
        (fun u => (u.m_loggers ['a']).map fun logger => logger.m_appenders.length)
        = some (some 1) := by
      decide
    rw [hrun, Option.map_some, Option.some.injEq] at hlast hlength
    obtain ⟨logger, hlogger, -, happenders⟩ := hconfigured.current d (by rw [hlast]; decide)
    rw [hlogger, Option.map_some, Option.some.injEq] at hlength
    have hempty := congrArg List.length happenders
    rw [List.length_map, hlength] at hempty
    exact absurd hempty (by decide)

end Log

end FiberServer
