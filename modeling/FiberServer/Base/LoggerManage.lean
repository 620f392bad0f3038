import FiberServer.Base.Log

/-!
# Where a logger writes

A logger without appenders hands its events to `m_root`, which `getLogger` sets in every logger
it makes.  The root itself is made by the constructor of `LoggerManage`, and its `m_root` is null.

The appenders are shared pointers, so a logger has their addresses here; `Log.lean` has the
definitions of the configuration and what the listener makes of them.

* `sinks_iff`: every `log` of every logger ends and finds an appender, in exactly the runs in
  which no call takes the last appender of the root and no reload sets the root up without
  appenders or leaves its definition out.
-/

namespace FiberServer

namespace LoggerManage

open Transition
open Log (Level LogAppender LogFormatter LogAppenderDefine LogDefine LogDefines AppenderType same)

def rootName : Str := "root".toList

structure Logger where
  m_level : Level
  m_formatter : LogFormatter
  /-- addresses -/
  m_appenders : List Nat
  /-- a logger goes by its name, under which `m_loggers` keeps it for ever -/
  m_root : Option Str
  deriving DecidableEq, Repr

/-- `Logger(const std::string& name)` -/
def Logger.make : Logger :=
  { m_level := .DEBUG
    m_formatter := .make Log.defaultPattern
    m_appenders := []
    m_root := none }

structure State where
  m_loggers : Str → Option Logger
  /-- the appenders by their addresses; those from `made` on are not made yet -/
  appenders : Nat → LogAppender
  made : Nat
  /-- of `g_log_defines` -/
  m_val : LogDefines

namespace State

def modify (s : State) (name : Str) (f : Logger → Logger) : State :=
  { s with m_loggers := Function.update s.m_loggers name ((s.m_loggers name).map f) }

def setAppender (s : State) (appender : Nat) (ap : LogAppender) : State :=
  { s with appenders := Function.update s.appenders appender ap }

/-- A new appender lies at `made`. -/
def newAppender (s : State) (ap : LogAppender) : State :=
  { s.setAppender s.made ap with made := s.made + 1 }

def getLogger (s : State) (name : Str) : State :=
  if (s.m_loggers name).isSome then s
  else
    { s with
      m_loggers := Function.update s.m_loggers name
        (some { Logger.make with m_root := some rootName }) }

def setLevel (s : State) (name : Str) (level : Level) : State :=
  s.modify name fun logger => { logger with m_level := level }

/-- The body of the loop of `setFormatter`. -/
def passFormatter (formatter : LogFormatter) (s : State) (i : Nat) : State :=
  if (s.appenders i).m_hasFormatter then s
  else s.setAppender i ((s.appenders i).setFormatter formatter)

def setFormatter (s : State) (name : Str) (val : Str) : State :=
  match s.m_loggers name with
  | none => s
  | some logger =>
    let formatter := LogFormatter.make val
    let s := s.modify name fun logger => { logger with m_formatter := formatter }
    logger.m_appenders.foldl (passFormatter formatter) s

def addAppender (s : State) (name : Str) (appender : Nat) : State :=
  match s.m_loggers name with
  | none => s
  | some logger =>
    let ap := s.appenders appender
    let s := if ap.m_hasFormatter then s
      else s.setAppender appender { ap with m_formatter := some logger.m_formatter }
    s.modify name fun logger => { logger with m_appenders := logger.m_appenders ++ [appender] }

/-- `addAppender(LogAppender::Type type, const std::string& filename)` -/
def addAppenderOf (s : State) (name : Str) (type : AppenderType) (filename : Str) : State :=
  (s.newAppender (.make type filename)).addAppender name s.made

/-- All pointers to the appender go. -/
def delAppender (s : State) (name : Str) (appender : Nat) : State :=
  s.modify name fun logger =>
    { logger with m_appenders := logger.m_appenders.filter (· ≠ appender) }

def clearAppenders (s : State) (name : Str) : State :=
  s.modify name fun logger => { logger with m_appenders := [] }

end State

/-! ### `log` -/

/-- `level >= m_level` goes by these. -/
def value : Level → Nat
  | .UNKNOW => 0
  | .DEBUG => 1
  | .INFO => 2
  | .WARN => 3
  | .ERROR => 4
  | .FATAL => 5

/-- How a call of `log` ends. -/
inductive Logged
  /-- by these appenders, which may be none when the level is too low -/
  | written (appenders : List Nat)
  /-- `log` of a null pointer was called -/
  | nullRoot
  deriving DecidableEq, Repr

/-- `logger->log(level, event)`; `none` when `fuel` calls have not been enough. -/
def log (s : State) : Nat → Option Str → Level → Option Logged
  | 0, _, _ => none
  | _ + 1, none, _ => some .nullRoot
  | fuel + 1, some name, level =>
    (s.m_loggers name).bind fun logger =>
      if value level ≥ value logger.m_level then
        if logger.m_appenders.isEmpty then log s fuel logger.m_root level
        else
          some (.written (logger.m_appenders.filter fun i =>
            value level ≥ value (s.appenders i).m_level))
      else some (.written [])

/-- `FIBER_LOG_INFO(FIBER_LOG_ROOT())`, which does not come back from a null pointer; the root
and its `m_root` are all that is called. -/
def logInfo (s : State) : Bool :=
  match s.m_loggers rootName with
  | none => false
  | some root =>
    if value root.m_level ≤ value .INFO then
      match log s 2 (some rootName) .INFO with
      | some (.written _) => true
      | _ => false
    else true

/-! ### The listener of the configuration -/

/-- One appender of a definition; with a type other than 1 and 2 a null pointer is used. -/
def configureAppender (name : Str) (s : State) (a : LogAppenderDefine) : Option State :=
  a.appender.map fun ap => (s.newAppender ap).addAppender name s.made

/-- A definition that is new or has changed. -/
def configure (s : State) (i : LogDefine) : Option State :=
  let s := s.getLogger i.name
  let s := s.setLevel i.name i.level
  let s := if i.formatter.isEmpty then s else s.setFormatter i.name i.formatter
  i.appenders.foldlM (configureAppender i.name) (s.clearAppenders i.name)

def configureAll (old_value : LogDefines) : List LogDefine → State → Option State
  | [], s => some s
  | i :: rest, s =>
    if same old_value i then configureAll old_value rest s
    else (configure s i).bind (configureAll old_value rest)

/-- A definition that is gone. -/
def retire (s : State) (i : LogDefine) : State :=
  let s := s.getLogger i.name
  let s := s.setLevel i.name .UNKNOW
  s.clearAppenders i.name

def retireAll (new_value : LogDefines) : List LogDefine → State → State
  | [], s => s
  | i :: rest, s =>
    if (new_value.find i).isNone then retireAll new_value rest (retire s i)
    else retireAll new_value rest s

/-- The listener that `LogIniter` adds. -/
def onChange (s : State) (old_value new_value : LogDefines) : Option State :=
  if logInfo s then
    (configureAll old_value new_value.defines s).map (retireAll new_value old_value.defines)
  else none

/-- `g_log_defines->setValue(v)` -/
def setValue (s : State) (v : LogDefines) : Option State :=
  if v.equal s.m_val then some s
  else (onChange s s.m_val v).map fun s => { s with m_val := v }

/-! ### Runs -/

/-- `LoggerManage()` -/
def init : State :=
  let s : State :=
    { m_loggers := fun name => if name = rootName then some .make else none
      appenders := fun _ => .make .STDOUT []
      made := 0
      m_val := .empty }
  s.addAppenderOf rootName .STDOUT []

inductive Action
  | getLogger (name : Str)
  | setLevel (name : Str) (level : Level)
  | setFormatter (name : Str) (val : Str)
  /-- somebody makes an appender -/
  | make (ap : LogAppender)
  | addAppender (name : Str) (appender : Nat)
  | addAppenderOf (name : Str) (type : AppenderType) (filename : Str)
  | delAppender (name : Str) (appender : Nat)
  | clearAppenders (name : Str)
  /-- a reload -/
  | setValue (v : LogDefines)

/-- A function of a logger is called through a pointer that `getLogger` has returned, and an
appender is made before it is added. -/
def step (s : State) : Action → Option State
  | .getLogger name => some (s.getLogger name)
  | .setLevel name level => if (s.m_loggers name).isSome then some (s.setLevel name level) else none
  | .setFormatter name val =>
    if (s.m_loggers name).isSome then some (s.setFormatter name val) else none
  | .make ap => some (s.newAppender ap)
  | .addAppender name appender =>
    if (s.m_loggers name).isSome ∧ appender < s.made then some (s.addAppender name appender)
    else none
  | .addAppenderOf name type filename =>
    if (s.m_loggers name).isSome then some (s.addAppenderOf name type filename) else none
  | .delAppender name appender =>
    if (s.m_loggers name).isSome then some (s.delAppender name appender) else none
  | .clearAppenders name => if (s.m_loggers name).isSome then some (s.clearAppenders name) else none
  | .setValue v => setValue s v

/-- Whatever logger there is and whatever the level, `log` ends, and not at a null pointer. -/
def Sinks (s : State) : Prop :=
  ∀ name, (s.m_loggers name).isSome = true → ∀ level,
    ∃ fuel appenders, log s fuel (some name) level = some (.written appenders)

/-- The root keeps an appender: another one is left, and a reload that sets the root up gives it
one and does not leave a definition of it out. -/
def KeepsRoot (s : State) : Action → Prop
  | .delAppender name appender => name = rootName →
    ∃ root, s.m_loggers rootName = some root ∧ ∃ i ∈ root.m_appenders, i ≠ appender
  | .clearAppenders name => name ≠ rootName
  | .setValue v =>
    (∀ d ∈ v.defines, d.name = rootName → same s.m_val d = false → d.appenders ≠ [])
      ∧ ∀ o ∈ s.m_val.defines, o.name = rootName → ∃ d ∈ v.defines, d.name = rootName
  | _ => True

/-! ### What the operations leave of the loggers -/

/-- `m_root` and the number of appenders of each logger. -/
abbrev Shape := Str → Option (Option Str × Nat)

def State.shape (s : State) : Shape := fun name =>
  (s.m_loggers name).map fun logger => (logger.m_root, logger.m_appenders.length)

/-- The logger `name` has `n` appenders. -/
def Shape.resize (x : Shape) (name : Str) (n : Nat) : Shape :=
  Function.update x name ((x name).map fun y => (y.1, n))

/-- The logger `name` is there. -/
def Shape.obtain (x : Shape) (name : Str) : Shape :=
  if (x name).isSome then x else Function.update x name (some (some rootName, 0))

namespace Shape

variable {x : Shape} {name name' : Str} {n : Nat}

theorem resize_self (h : name' = name) :
    x.resize name n name' = (x name).map fun y => (y.1, n) := by
  rw [h, resize, Function.update_self]

theorem resize_of_ne (h : name' ≠ name) : x.resize name n name' = x name' :=
  Function.update_of_ne h _ _

theorem resize_resize (m : Nat) : (x.resize name n).resize name m = x.resize name m := by
  rw [resize, resize_self rfl, resize, resize, Function.update_idem, Option.map_map]
  rfl

/-- Nothing changes that a logger is measured by. -/
theorem resize_eq {y : Option Str × Nat} (h : x name = some y) : x.resize name y.2 = x := by
  rw [resize, h]
  exact Function.update_eq_self_iff.mpr h.symm

theorem resize_none (h : x name = none) : x.resize name n = x := by
  rw [resize, h]
  exact Function.update_eq_self_iff.mpr h.symm

theorem obtain_of_ne (h : name' ≠ name) : x.obtain name name' = x name' := by
  unfold Shape.obtain
  split_ifs
  · rfl
  · exact Function.update_of_ne h _ _

/-- How many appenders there are. -/
def size (x : Shape) (name : Str) : Nat := ((x name).map Prod.snd).getD 0

theorem size_resize_self (h : (x name).isSome = true) : (x.resize name n).size name = n := by
  obtain ⟨y, hy⟩ := Option.isSome_iff_exists.mp h
  rw [size, resize_self rfl, hy]
  rfl

theorem size_resize_of_ne (h : name' ≠ name) : (x.resize name n).size name' = x.size name' := by
  rw [size, resize_of_ne h, size]

theorem size_obtain : (x.obtain name).size name' = x.size name' := by
  by_cases h : name' = name
  · subst h
    unfold Shape.obtain
    split_ifs with hsome
    · rfl
    · rw [Option.not_isSome_iff_eq_none] at hsome
      rw [size, Function.update_self, size, hsome]
      rfl
  · rw [size, obtain_of_ne h, size]

theorem isSome_obtain : (x.obtain name name).isSome = true := by
  unfold Shape.obtain
  split_ifs with hsome
  · exact hsome
  · rw [Function.update_self]
    rfl

/-- The root is there without a root of its own, and every other logger has it. -/
structure Linked (x : Shape) : Prop where
  root : ∃ n, x rootName = some (none, n)
  others : ∀ name ≠ rootName, ∀ y, x name = some y → y.1 = some rootName

theorem Linked.resize (h : x.Linked) (name : Str) (n : Nat) : (x.resize name n).Linked := by
  constructor
  · obtain ⟨m, hm⟩ := h.root
    by_cases hname : rootName = name
    · refine ⟨n, ?_⟩
      rw [resize_self hname, ← hname, hm]
      rfl
    · exact ⟨m, by rw [resize_of_ne hname, hm]⟩
  · intro name' hroot y hy
    by_cases hname : name' = name
    · rw [resize_self hname, ← hname] at hy
      obtain ⟨y', hy', rfl⟩ := Option.map_eq_some_iff.mp hy
      exact h.others name' hroot y' hy'
    · rw [resize_of_ne hname] at hy
      exact h.others name' hroot y hy

theorem Linked.obtain (h : x.Linked) (name : Str) : (x.obtain name).Linked := by
  unfold Shape.obtain
  split_ifs with hsome
  · exact h
  · obtain ⟨m, hm⟩ := h.root
    have hne : rootName ≠ name := by
      rintro rfl
      rw [hm] at hsome
      exact hsome rfl
    refine ⟨⟨m, by rw [Function.update_of_ne hne, hm]⟩, fun name' hroot y hy => ?_⟩
    by_cases hname : name' = name
    · subst hname
      rw [Function.update_self] at hy
      rw [← Option.some.inj hy]
    · rw [Function.update_of_ne hname] at hy
      exact h.others name' hroot y hy

/-! A logger that is there and has `n` appenders. -/

theorem Linked.setUp (h : x.Linked) (name : Str) (n : Nat) :
    ((x.obtain name).resize name n).Linked :=
  (h.obtain name).resize name n

theorem size_setUp : ((x.obtain name).resize name n).size name'
    = if name' = name then n else x.size name' := by
  split_ifs with h
  · subst h
    exact size_resize_self isSome_obtain
  · rw [size_resize_of_ne h, size_obtain]

end Shape

/-! ### The operations -/

namespace State

variable {s t : State} {name : Str}

theorem shape_isSome : (s.shape name).isSome = (s.m_loggers name).isSome := Option.isSome_map

theorem shape_modify {f : Logger → Logger} {n : Nat}
    (hroot : ∀ logger, (f logger).m_root = logger.m_root)
    (hlength : ∀ logger, s.m_loggers name = some logger → (f logger).m_appenders.length = n) :
    (s.modify name f).shape = s.shape.resize name n := by
  funext name'
  by_cases hname : name' = name
  · subst hname
    rw [Shape.resize_self rfl]
    change (Function.update s.m_loggers name' _ name').map _ = ((s.m_loggers name').map _).map _
    rw [Function.update_self]
    cases hlogger : s.m_loggers name' with
    | none => rfl
    | some logger =>
      rw [Option.map_some, Option.map_some, Option.map_some, Option.map_some, hroot,
        hlength logger hlogger]
  · rw [Shape.resize_of_ne hname]
    change (Function.update s.m_loggers name _ name').map _ = _
    rw [Function.update_of_ne hname]
    rfl

/-- A change that a logger is not measured by. -/
theorem shape_modify_same {f : Logger → Logger}
    (hroot : ∀ logger, (f logger).m_root = logger.m_root)
    (happenders : ∀ logger, (f logger).m_appenders = logger.m_appenders) :
    (s.modify name f).shape = s.shape := by
  cases hlogger : s.m_loggers name with
  | none =>
    rw [shape_modify (n := 0) hroot fun logger h => nomatch hlogger.symm.trans h]
    exact Shape.resize_none (by rw [shape, hlogger]; rfl)
  | some logger =>
    have hshape : s.shape name = some (logger.m_root, logger.m_appenders.length) := by
      rw [shape, hlogger]
      rfl
    rw [shape_modify (n := logger.m_appenders.length) hroot fun logger' h => ?_]
    · exact Shape.resize_eq hshape
    · obtain rfl := Option.some.inj (hlogger.symm.trans h)
      rw [happenders]

theorem shape_getLogger (name : Str) : (s.getLogger name).shape = s.shape.obtain name := by
  unfold State.getLogger Shape.obtain
  rw [shape_isSome]
  split_ifs
  · rfl
  · funext name'
    change (Function.update s.m_loggers name _ name').map _ = _
    by_cases hname : name' = name
    · rw [hname, Function.update_self, Function.update_self]
      rfl
    · rw [Function.update_of_ne hname, Function.update_of_ne hname]
      rfl

theorem shape_setLevel (name : Str) (level : Level) : (s.setLevel name level).shape = s.shape :=
  shape_modify_same (fun _ => rfl) fun _ => rfl

theorem shape_newAppender (ap : LogAppender) : (s.newAppender ap).shape = s.shape := rfl

theorem shape_passFormatter (formatter : LogFormatter) (is : List Nat) (s : State) :
    (is.foldl (passFormatter formatter) s).shape = s.shape := by
  induction is generalizing s with
  | nil => rfl
  | cons i is ih =>
    rw [List.foldl_cons, ih, passFormatter]
    split_ifs <;> rfl

theorem shape_setFormatter (name val : Str) : (s.setFormatter name val).shape = s.shape := by
  unfold State.setFormatter
  cases s.m_loggers name with
  | none => rfl
  | some logger =>
    exact (shape_passFormatter _ _ _).trans (shape_modify_same (fun _ => rfl) fun _ => rfl)

theorem shape_clearAppenders (name : Str) :
    (s.clearAppenders name).shape = s.shape.resize name 0 :=
  shape_modify (fun _ => rfl) fun _ _ => rfl

/-- An added appender is one more. -/
theorem shape_addAppender {y : Option Str × Nat} (hy : s.shape name = some y) (appender : Nat) :
    (s.addAppender name appender).shape = s.shape.resize name (y.2 + 1) := by
  obtain ⟨logger, hlogger, rfl⟩ := Option.map_eq_some_iff.mp hy
  unfold State.addAppender
  simp only [hlogger]
  generalize ht : (if (s.appenders appender).m_hasFormatter = true then s
    else s.setAppender appender
      { s.appenders appender with m_formatter := some logger.m_formatter }) = t
  have hloggers : t.m_loggers = s.m_loggers := by
    rw [← ht]
    split_ifs <;> rfl
  have hshape : t.shape = s.shape := by
    unfold State.shape
    rw [hloggers]
  rw [← hshape]
  refine shape_modify (fun _ => rfl) fun logger' hlogger' => ?_
  rw [hloggers, hlogger] at hlogger'
  obtain rfl := Option.some.inj hlogger'
  rw [List.length_append]
  rfl

theorem shape_addAppenderOf {y : Option Str × Nat} (hy : s.shape name = some y)
    (type : AppenderType) (filename : Str) :
    (s.addAppenderOf name type filename).shape = s.shape.resize name (y.2 + 1) :=
  shape_addAppender (s := s.newAppender (.make type filename)) hy s.made

/-- A deleted appender is not in the list any more, however often it was. -/
theorem shape_delAppender {logger : Logger} (hlogger : s.m_loggers name = some logger)
    (appender : Nat) : (s.delAppender name appender).shape
      = s.shape.resize name (logger.m_appenders.filter (· ≠ appender)).length := by
  refine shape_modify (fun _ => rfl) fun logger' hlogger' => ?_
  rw [Option.some.inj (hlogger.symm.trans hlogger')]

end State

open State

/-! ### The listener -/

theorem shape_configureAppenders (name : Str) :
    ∀ (as : List LogAppenderDefine) {s t : State} {y : Option Str × Nat}, s.shape name = some y →
      as.foldlM (configureAppender name) s = some t →
      t.shape = s.shape.resize name (y.2 + as.length) := by
  intro as
  induction as with
  | nil =>
    intro s t y hy h
    obtain rfl := Option.some.inj h
    exact (Shape.resize_eq hy).symm
  | cons a as ih =>
    intro s t y hy h
    rw [List.foldlM_cons] at h
    obtain ⟨middle, hmiddle, h⟩ := Option.bind_eq_some_iff.mp h
    obtain ⟨ap, -, rfl⟩ := Option.map_eq_some_iff.mp hmiddle
    have hshape := shape_addAppender (s := s.newAppender ap) hy s.made
    rw [shape_newAppender] at hshape
    have hself : (((s.newAppender ap).addAppender name s.made).shape) name
        = some (y.1, y.2 + 1) := by
      rw [hshape, Shape.resize_self rfl, hy]
      rfl
    rw [ih hself h, hshape, Shape.resize_resize, List.length_cons, Nat.add_assoc,
      Nat.add_comm 1]

/-- **A logger that is set up** has as many appenders as its definition. -/
theorem shape_configure {s t : State} {i : LogDefine} (h : configure s i = some t) :
    t.shape = (s.shape.obtain i.name).resize i.name i.appenders.length := by
  rw [configure] at h
  generalize hu : (if i.formatter.isEmpty then (s.getLogger i.name).setLevel i.name i.level
    else ((s.getLogger i.name).setLevel i.name i.level).setFormatter i.name i.formatter) = u at h
  have hshape : u.shape = s.shape.obtain i.name := by
    rw [← hu]
    split_ifs
    · rw [shape_setLevel, shape_getLogger]
    · rw [shape_setFormatter, shape_setLevel, shape_getLogger]
  have hsome : (s.shape.obtain i.name i.name).isSome = true := Shape.isSome_obtain
  obtain ⟨y, hy⟩ := Option.isSome_iff_exists.mp hsome
  have hself : (u.clearAppenders i.name).shape i.name = some (y.1, 0) := by
    rw [shape_clearAppenders, hshape, Shape.resize_self rfl, hy]
    rfl
  rw [shape_configureAppenders i.name i.appenders hself h, shape_clearAppenders, hshape,
    Shape.resize_resize, Nat.zero_add]

theorem shape_retire (s : State) (i : LogDefine) :
    (retire s i).shape = (s.shape.obtain i.name).resize i.name 0 := by
  rw [retire, shape_clearAppenders, shape_setLevel, shape_getLogger]

/-- **The first loop**: the appenders of the root are those of its definition if that is new or
has changed. -/
theorem configureAll_root (old_value : LogDefines) :
    ∀ (ds : List LogDefine) {s t : State}, (ds.Pairwise fun d o => d.name ≠ o.name) →
      configureAll old_value ds s = some t → s.shape.Linked →
      t.shape.Linked
        ∧ ((∀ d ∈ ds, d.name = rootName → same old_value d = true) →
          t.shape.size rootName = s.shape.size rootName)
        ∧ ∀ d ∈ ds, d.name = rootName → same old_value d = false →
          t.shape.size rootName = d.appenders.length := by
  intro ds
  induction ds with
  | nil =>
    intro s t _ h hs
    obtain rfl := Option.some.inj h
    exact ⟨hs, fun _ => rfl, fun d hd => absurd hd List.not_mem_nil⟩
  | cons i rest ih =>
    intro s t hnames h hs
    obtain ⟨hi, hrest⟩ := List.pairwise_cons.mp hnames
    rw [configureAll] at h
    split_ifs at h with hsame
    · obtain ⟨ht, hkept, hdone⟩ := ih hrest h hs
      refine ⟨ht, fun hall => hkept fun d hd => hall d (List.mem_cons_of_mem i hd), ?_⟩
      intro d hd hname hdiffer
      rcases List.mem_cons.mp hd with rfl | hd
      · rw [hsame] at hdiffer
        exact nomatch hdiffer
      · exact hdone d hd hname hdiffer
    · obtain ⟨middle, hmiddle, h⟩ := Option.bind_eq_some_iff.mp h
      have hshape := shape_configure hmiddle
      have hlinked : middle.shape.Linked := hshape ▸ hs.setUp i.name _
      obtain ⟨ht, hkept, hdone⟩ := ih hrest h hlinked
      by_cases hroot : i.name = rootName
      · -- no other definition has the name of the root
        have hothers : ∀ d ∈ rest, d.name ≠ rootName := fun d hd hname =>
          hi d hd (hroot.trans hname.symm)
        have hsize : t.shape.size rootName = i.appenders.length := by
          rw [hkept fun d hd hname => absurd hname (hothers d hd), hshape, Shape.size_setUp,
            if_pos hroot.symm]
        refine ⟨ht, fun hall => absurd (hall i List.mem_cons_self hroot) hsame, ?_⟩
        intro d hd hname hdiffer
        rcases List.mem_cons.mp hd with rfl | hd
        · exact hsize
        · exact absurd hname (hothers d hd)
      · have hsize : middle.shape.size rootName = s.shape.size rootName := by
          rw [hshape, Shape.size_setUp, if_neg (Ne.symm hroot)]
        refine ⟨ht, fun hall => ?_, fun d hd hname hdiffer => ?_⟩
        · rw [hkept fun d hd => hall d (List.mem_cons_of_mem i hd), hsize]
        · rcases List.mem_cons.mp hd with rfl | hd
          · exact absurd hname hroot
          · exact hdone d hd hname hdiffer

/-- **The second loop**: the appenders of the root go exactly if its definition is gone. -/
theorem retireAll_root (new_value : LogDefines) :
    ∀ (ds : List LogDefine) {s : State}, s.shape.Linked →
      (retireAll new_value ds s).shape.Linked
        ∧ (s.shape.size rootName = 0 → (retireAll new_value ds s).shape.size rootName = 0)
        ∧ ((∀ i ∈ ds, i.name = rootName → ∃ d ∈ new_value.defines, d.name = rootName) →
          (retireAll new_value ds s).shape.size rootName = s.shape.size rootName)
        ∧ ∀ i ∈ ds, i.name = rootName → (∀ d ∈ new_value.defines, d.name ≠ rootName) →
          (retireAll new_value ds s).shape.size rootName = 0 := by
  intro ds
  induction ds with
  | nil =>
    intro s hs
    exact ⟨hs, fun h => h, fun _ => rfl, fun i hi => absurd hi List.not_mem_nil⟩
  | cons i rest ih =>
    intro s hs
    rw [retireAll]
    split_ifs with hgone
    · rw [Option.isNone_iff_eq_none, Log.LogDefines.find_eq_none] at hgone
      have hlinked : (retire s i).shape.Linked := shape_retire s i ▸ hs.setUp i.name 0
      obtain ⟨ht, hzero, hkept, hdone⟩ := ih hlinked
      by_cases hroot : i.name = rootName
      · have hsize : (retire s i).shape.size rootName = 0 := by
          rw [shape_retire, Shape.size_setUp, if_pos hroot.symm]
        refine ⟨ht, fun _ => hzero hsize, fun hall => ?_, fun _ _ _ _ => hzero hsize⟩
        obtain ⟨d, hd, hname⟩ := hall i List.mem_cons_self hroot
        exact absurd (hname.trans hroot.symm) (hgone d hd)
      · have hsize : (retire s i).shape.size rootName = s.shape.size rootName := by
          rw [shape_retire, Shape.size_setUp, if_neg (Ne.symm hroot)]
        rw [hsize] at hzero hkept
        refine ⟨ht, hzero, fun hall => hkept fun j hj => hall j (List.mem_cons_of_mem i hj), ?_⟩
        intro j hj hname hnone
        rcases List.mem_cons.mp hj with rfl | hj
        · exact absurd hname hroot
        · exact hdone j hj hname hnone
    · obtain ⟨ht, hzero, hkept, hdone⟩ := ih hs
      refine ⟨ht, hzero, fun hall => hkept fun j hj => hall j (List.mem_cons_of_mem i hj), ?_⟩
      intro j hj hname hnone
      rcases List.mem_cons.mp hj with rfl | hj
      · refine absurd ?_ hgone
        rw [Option.isNone_iff_eq_none, Log.LogDefines.find_eq_none, hname]
        exact hnone
      · exact hdone j hj hname hnone

/-- **A reload**: the root has appenders afterwards exactly if it is neither set up without any nor
retired. -/
theorem size_setValue {s t : State} {v : LogDefines} (hs : s.shape.Linked)
    (hsize : s.shape.size rootName ≠ 0) (h : setValue s v = some t) :
    t.shape.Linked ∧ (t.shape.size rootName ≠ 0 ↔ KeepsRoot s (.setValue v)) := by
  rw [setValue] at h
  split_ifs at h with hequal
  · obtain rfl := Option.some.inj h
    obtain ⟨hsame, hnames⟩ := Log.LogDefines.of_equal hequal
    refine ⟨hs, iff_of_true hsize ⟨fun d hd _ hdiffer => ?_, fun o ho hname => ?_⟩⟩
    · rw [hsame d hd] at hdiffer
      exact nomatch hdiffer
    · obtain ⟨d, hd, hname'⟩ := hnames o ho
      exact ⟨d, hd, hname'.trans hname⟩
  · obtain ⟨u, hu, rfl⟩ := Option.map_eq_some_iff.mp h
    rw [onChange] at hu
    split_ifs at hu
    obtain ⟨middle, hmiddle, rfl⟩ := Option.map_eq_some_iff.mp hu
    obtain ⟨hlinked, hkept, hdone⟩ := configureAll_root s.m_val v.defines v.ne_name hmiddle hs
    obtain ⟨hlinked', -, hkept', hdone'⟩ := retireAll_root v s.m_val.defines hlinked
    refine ⟨hlinked', ?_⟩
    change (retireAll v s.m_val.defines middle).shape.size rootName ≠ 0 ↔ _
    constructor
    · intro hne
      have hstays : ∀ o ∈ s.m_val.defines, o.name = rootName →
          ∃ d ∈ v.defines, d.name = rootName := by
        intro o ho hname
        by_contra hnone
        exact hne (hdone' o ho hname fun d hd hd' => hnone ⟨d, hd, hd'⟩)
      refine ⟨fun d hd hname hdiffer hempty => hne ?_, hstays⟩
      rw [hkept' hstays, hdone d hd hname hdiffer, hempty]
      rfl
    · rintro ⟨hsetUp, hstays⟩
      rw [hkept' hstays]
      by_cases hall : ∀ d ∈ v.defines, d.name = rootName → same s.m_val d = true
      · rw [hkept hall]
        exact hsize
      · push Not at hall
        obtain ⟨d, hd, hname, hdiffer⟩ := hall
        have hdiffer' := Bool.eq_false_of_not_eq_true hdiffer
        rw [hdone d hd hname hdiffer']
        exact fun hlength => hsetUp d hd hname hdiffer' (List.length_eq_zero_iff.mp hlength)

/-! ### Runs -/

/-- Without appenders the root comes to its own `m_root`. -/
theorem not_sinks {s : State} {root : Logger} (hroot : s.m_loggers rootName = some root)
    (hnull : root.m_root = none) (hempty : root.m_appenders = []) : ¬ Sinks s := by
  intro h
  -- the last level is not too low for any logger
  obtain ⟨fuel, appenders, hlog⟩ := h rootName (by rw [hroot]; rfl) .FATAL
  have hlevel : value .FATAL ≥ value root.m_level := by cases root.m_level <;> decide
  cases fuel with
  | zero => exact nomatch hlog
  | succ fuel =>
    rw [log, hroot, Option.bind_some, if_pos hlevel, hempty, if_pos List.isEmpty_nil, hnull] at hlog
    cases fuel with
    | zero => exact nomatch hlog
    | succ fuel => exact nomatch hlog

/-- **Where a logger writes** depends on the root alone. -/
theorem sinks_iff_size {s : State} (hs : s.shape.Linked) :
    Sinks s ↔ s.shape.size rootName ≠ 0 := by
  obtain ⟨n, hn⟩ := hs.root
  obtain ⟨root, hroot, heq⟩ := Option.map_eq_some_iff.mp hn
  obtain ⟨hnull, hlength⟩ := Prod.mk.inj heq
  have hsize : s.shape.size rootName = root.m_appenders.length := by
    rw [Shape.size, hn, hlength]
    rfl
  rw [hsize]
  constructor
  · intro h hzero
    exact not_sinks hroot hnull (List.length_eq_zero_iff.mp hzero) h
  · intro hne name hname level
    obtain ⟨logger, hlogger⟩ := Option.isSome_iff_exists.mp hname
    have hfull : ¬ root.m_appenders.isEmpty = true := fun hempty =>
      hne (List.length_eq_zero_iff.mpr (List.isEmpty_iff.mp hempty))
    have hwritten : ∀ fuel, ∃ appenders,
        log s (fuel + 1) (some rootName) level = some (.written appenders) := by
      intro fuel
      rw [log, hroot, Option.bind_some, if_neg hfull]
      split_ifs
      · exact ⟨_, rfl⟩
      · exact ⟨_, rfl⟩
    by_cases hname' : name = rootName
    · obtain ⟨appenders, hlog⟩ := hwritten 0
      exact ⟨1, appenders, hname' ▸ hlog⟩
    · have hlink : logger.m_root = some rootName :=
        hs.others name hname' (logger.m_root, logger.m_appenders.length) (by
          rw [shape, hlogger]
          rfl)
      obtain ⟨appenders, hlog⟩ := hwritten 0
      refine ⟨2, ?_⟩
      rw [log, hlogger, Option.bind_some, hlink, hlog]
      split_ifs
      · exact ⟨appenders, rfl⟩
      · exact ⟨_, rfl⟩
      · exact ⟨_, rfl⟩

/-- A change of the number of appenders of one logger. -/
theorem size_of_resize {s t : State} (hs : s.shape.Linked) (hsize : s.shape.size rootName ≠ 0)
    {name : Str} {n : Nat} (ht : t.shape = s.shape.resize name n) :
    t.shape.Linked ∧ (t.shape.size rootName ≠ 0 ↔ (name = rootName → n ≠ 0)) := by
  rw [ht]
  refine ⟨hs.resize name n, ?_⟩
  by_cases hname : name = rootName
  · obtain ⟨m, hm⟩ := hs.root
    subst hname
    rw [Shape.size_resize_self (by rw [hm]; rfl)]
    exact ⟨fun h _ => h, fun h => h rfl⟩
  · rw [Shape.size_resize_of_ne (Ne.symm hname)]
    exact iff_of_true hsize fun heq => absurd heq hname

/-- **What one step does to the root.** -/
theorem size_step {s t : State} {a : Action} (hs : s.shape.Linked)
    (hsize : s.shape.size rootName ≠ 0) (hstep : step s a = some t) :
    t.shape.Linked ∧ (t.shape.size rootName ≠ 0 ↔ KeepsRoot s a) := by
  cases a with
  | getLogger name =>
    obtain rfl := Option.some.inj hstep
    rw [shape_getLogger, Shape.size_obtain]
    exact ⟨hs.obtain name, iff_of_true hsize trivial⟩
  | setLevel name level =>
    rw [step] at hstep
    split_ifs at hstep
    obtain rfl := Option.some.inj hstep
    rw [shape_setLevel]
    exact ⟨hs, iff_of_true hsize trivial⟩
  | setFormatter name val =>
    rw [step] at hstep
    split_ifs at hstep
    obtain rfl := Option.some.inj hstep
    rw [shape_setFormatter]
    exact ⟨hs, iff_of_true hsize trivial⟩
  | make ap =>
    obtain rfl := Option.some.inj hstep
    rw [shape_newAppender]
    exact ⟨hs, iff_of_true hsize trivial⟩
  | addAppender name appender =>
    rw [step] at hstep
    split_ifs at hstep with hguard
    obtain rfl := Option.some.inj hstep
    rw [← shape_isSome] at hguard
    obtain ⟨y, hy⟩ := Option.isSome_iff_exists.mp hguard.1
    obtain ⟨hlinked, hiff⟩ := size_of_resize hs hsize (shape_addAppender hy appender)
    exact ⟨hlinked, iff_of_true (hiff.mpr fun _ => Nat.succ_ne_zero _) trivial⟩
  | addAppenderOf name type filename =>
    rw [step] at hstep
    split_ifs at hstep with hname
    obtain rfl := Option.some.inj hstep
    rw [← shape_isSome] at hname
    obtain ⟨y, hy⟩ := Option.isSome_iff_exists.mp hname
    obtain ⟨hlinked, hiff⟩ := size_of_resize hs hsize (shape_addAppenderOf hy type filename)
    exact ⟨hlinked, iff_of_true (hiff.mpr fun _ => Nat.succ_ne_zero _) trivial⟩
  | delAppender name appender =>
    rw [step] at hstep
    split_ifs at hstep with hname
    obtain rfl := Option.some.inj hstep
    obtain ⟨logger, hlogger⟩ := Option.isSome_iff_exists.mp hname
    obtain ⟨hlinked, hiff⟩ := size_of_resize hs hsize (shape_delAppender hlogger appender)
    refine ⟨hlinked, hiff.trans ⟨fun h hroot => ?_, fun h hroot => ?_⟩⟩
    · obtain ⟨i, hi⟩ := List.exists_mem_of_length_pos (Nat.pos_of_ne_zero (h hroot))
      obtain ⟨hi, hne⟩ := List.mem_filter.mp hi
      exact ⟨logger, hroot ▸ hlogger, i, hi, of_decide_eq_true hne⟩
    · obtain ⟨root, hlogger', i, hi, hne⟩ := h hroot
      rw [hroot, hlogger'] at hlogger
      obtain rfl := Option.some.inj hlogger
      exact List.length_pos_iff_exists_mem.mpr
        ⟨i, List.mem_filter.mpr ⟨hi, decide_eq_true hne⟩⟩ |>.ne'
  | clearAppenders name =>
    rw [step] at hstep
    split_ifs at hstep
    obtain rfl := Option.some.inj hstep
    obtain ⟨hlinked, hiff⟩ := size_of_resize hs hsize (shape_clearAppenders name)
    exact ⟨hlinked, hiff.trans ⟨fun h hroot => h hroot rfl, fun h hroot => absurd hroot h⟩⟩
  | setValue v => exact size_setValue hs hsize hstep

theorem linked_init : init.shape.Linked := by
  refine ⟨⟨1, rfl⟩, fun name hname y hy => ?_⟩
  have hnone : init.m_loggers name = none := (Function.update_of_ne hname _ _).trans (if_neg hname)
  rw [shape, hnone] at hy
  exact nomatch hy

/-- **Logging has a sink.**  In a run of calls on the loggers and their appenders and of reloads,
every `log` of every logger ends, and not at the null `m_root` of the root, in every state, if and
only if every step keeps an appender of the root: `delAppender` leaves it one, `clearAppenders` is
not called for it, and a reload neither sets it up without appenders nor drops its definition. -/
theorem sinks_iff {as : List Action} {u : State} (h : exec step init as = some u) :
    Throughout step Sinks init as ↔ Along step KeepsRoot init as := by
  have hkeeps : ∀ s a t, s.shape.Linked → Sinks s → True → step s a = some t →
      t.shape.Linked ∧ (Sinks t ↔ KeepsRoot s a) := by
    intro s a t hs hsinks _ hstep
    obtain ⟨ht, hiff⟩ := size_step hs ((sinks_iff_size hs).mp hsinks) hstep
    exact ⟨ht, (sinks_iff_size ht).trans hiff⟩
  exact throughout_iff_along_of_kept (A := fun _ _ => True)
    (fun s a t hs hsinks _ _ hstep => (hkeeps s a t hs hsinks trivial hstep).1)
    (fun s a t hs hsinks hA hstep => (hkeeps s a t hs hsinks hA hstep).2) linked_init
    ((sinks_iff_size linked_init).mpr (by decide)) along_true h

/-- The root with an appender of its own, and a logger without one. -/
def configuredRoot : List Action :=
  [.getLogger ['a'], .setValue (.single
    { name := rootName, level := .INFO, formatter := [], appenders := [Log.stdoutAppender] })]

theorem sinks_configuredRoot : (exec step init configuredRoot).isSome = true
    ∧ (Throughout step Sinks init configuredRoot ↔ Along step KeepsRoot init configuredRoot) := by
  have hrun : (exec step init configuredRoot).isSome = true := by decide
  exact ⟨hrun, sinks_iff (Option.some_get hrun).symm⟩

/-- The definition of the root is left out of the next reload. -/
def dropsRoot : List Action := configuredRoot ++ [.setValue .empty]

/-- The next event of a logger without appenders comes to a null pointer. -/
theorem dropsRoot_not_sinks : ¬ Throughout step Sinks init dropsRoot
    ∧ (exec step init dropsRoot).map (fun u => log u 5 (some ['a']) .ERROR)
      = some (some .nullRoot) := by
  refine ⟨fun hall => ?_, by decide⟩
  have hlast : (exec step init dropsRoot).map
      (fun u => (u.m_loggers rootName).map fun root => (root.m_root, root.m_appenders))
      = some (some (none, [])) := by decide
  obtain ⟨u, hrun, hu⟩ := Option.map_eq_some_iff.mp hlast
  obtain ⟨root, hroot, heq⟩ := Option.map_eq_some_iff.mp hu
  obtain ⟨hnull, hempty⟩ := Prod.mk.inj heq
  exact not_sinks hroot hnull hempty (hall.last hrun)

end LoggerManage

end FiberServer
