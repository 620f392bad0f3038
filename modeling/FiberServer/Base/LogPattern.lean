import FiberServer.Base.Log
import FiberServer.Http.Query
import Mathlib.Data.List.Chain

/-!
# Patterns of the logs

`LogFormatter::init` cuts a pattern into pieces with one index that it moves by hand, and makes an
item of each piece.  `Log.scan` is the same loop by what is left of the pattern.

* `initLoop_eq_scan`: the loop over the index is the one over the rest of the pattern.
* `init_print`: the items of a printed list are its items.
-/

namespace FiberServer

namespace LogPattern

open Log (Piece flush scan formatItems LogFormatter)
open Query (find substr find_bounds find_eq_some find_eq_none takeWhile_until)

/-! ### The formatter -/

/-- `m_pattern[i]`; a null character behind the end. -/
def charAt (m_pattern : Str) (i : Nat) : Char := m_pattern.getD i '\x00'

/-- The loop of `init` over the index, with the pieces and the error flag so far; the text that is
left over is a piece of its own. -/
def initLoop (m_pattern : Str) (i : Nat) (normalstr : Str) (vec : List Piece) (m_error : Bool) :
    List Piece × Bool :=
  if _hi : i < m_pattern.length then
    if charAt m_pattern i ≠ '%' then
      initLoop m_pattern (i + 1) (normalstr ++ [charAt m_pattern i]) vec m_error
    else if i + 1 < m_pattern.length ∧ charAt m_pattern (i + 1) = '%' then
      initLoop m_pattern (i + 1 + 1) (normalstr ++ ['%']) vec m_error
    else
      let vec := vec ++ flush normalstr
      let n := i + 1
      if n ≥ m_pattern.length then
        initLoop m_pattern (n + 1) [] (vec ++ [(['%'], [], 0)]) m_error
      else if !(charAt m_pattern n).isAlpha then
        initLoop m_pattern (n + 1) ['%', charAt m_pattern n] vec m_error
      else
        let key := [charAt m_pattern n]
        let n := n + 1
        if n < m_pattern.length ∧ charAt m_pattern n = '{' then
          match _hk : find m_pattern '}' n with
          | none => initLoop m_pattern (n + 1) [] (vec ++ [("<<error>>".toList, [], 0)]) true
          | some k =>
            let param := substr m_pattern (n + 1) (k - n - 1)
            let n := k + 1
            initLoop m_pattern (n - 1 + 1) [] (vec ++ [(key, param, 1)]) m_error
        else initLoop m_pattern (n - 1 + 1) [] (vec ++ [(key, [], 1)]) m_error
  else (vec ++ flush normalstr, m_error)
termination_by m_pattern.length - i
decreasing_by
  all_goals first
    | omega
    | have := find_bounds _hk
      omega

/-- The classes of `LogFormatter::FormatItem`, with the members that are read. -/
inductive FormatItem
  | FilenameFormatItem
  | LineFormatItem
  | NewLineFormatItem
  | StringFormatItem (m_string : Str)
  | MessageFormatItem
  | LevelFormatItem
  | ElapseFormatItem
  | NameFormatItem
  | ThreadIdFormatItem
  | FiberIdFormatItem
  | ThreadNameFormatItem
  | TabFormatItem
  | DateTimeFormatItem (m_format : Str)
  deriving DecidableEq, Repr

/-- `DateTimeFormatItem(format)` -/
def FormatItem.dateTime (format : Str) : FormatItem :=
  .DateTimeFormatItem (if format.isEmpty then "%Y-%m-%d %H:%M:%S".toList else format)

def s_format_items : List (Str × (Str → FormatItem)) :=
  [(['m'], fun _ => .MessageFormatItem),
    (['p'], fun _ => .LevelFormatItem),
    (['r'], fun _ => .ElapseFormatItem),
    (['c'], fun _ => .NameFormatItem),
    (['t'], fun _ => .ThreadIdFormatItem),
    (['n'], fun _ => .NewLineFormatItem),
    (['d'], fun fmt => .dateTime fmt),
    (['f'], fun _ => .FilenameFormatItem),
    (['l'], fun _ => .LineFormatItem),
    (['T'], fun _ => .TabFormatItem),
    (['F'], fun _ => .FiberIdFormatItem),
    (['N'], fun _ => .ThreadNameFormatItem)]

structure Formatter where
  m_pattern : Str
  m_items : List FormatItem
  m_error : Bool
  deriving DecidableEq, Repr

/-- One step of the last loop of `init`. -/
def emplace (fmt : Formatter) (i : Piece) : Formatter :=
  if i.2.2 = 0 then { fmt with m_items := fmt.m_items ++ [.StringFormatItem i.1] }
  else if i.2.2 = 1 then
    match s_format_items.lookup i.1 with
    | none =>
      { fmt with
        m_items := fmt.m_items
          ++ [.StringFormatItem ("<<error_format %".toList ++ i.1 ++ ">>".toList)]
        m_error := true }
    | some f => { fmt with m_items := fmt.m_items ++ [f i.2.1] }
  else fmt

/-- `LogFormatter::init` -/
def init (fmt : Formatter) : Formatter :=
  let (vec, m_error) := initLoop fmt.m_pattern 0 [] [] fmt.m_error
  vec.foldl emplace { fmt with m_error := m_error }

/-- `LogFormatter(const std::string& pattern)` -/
def make (pattern : Str) : Formatter :=
  init
    { m_pattern := if pattern.isEmpty then "%Y-%m-%d{%H:%M:%S}".toList else pattern
      m_items := []
      m_error := false }

/-! ### One step of the scanner -/

section

variable (normalstr : Str) {key : Char} {rest : Str}

theorem scan_plain {c : Char} (h : c ≠ '%') (rest : Str) :
    scan normalstr (c :: rest) = scan (normalstr ++ [c]) rest := by
  rw [scan]
  · exact fun _ heq => absurd heq h
  · exact fun heq => absurd heq h
  · exact fun _ _ heq => absurd heq h

theorem scan_escape (rest : Str) :
    scan normalstr ('%' :: '%' :: rest) = scan (normalstr ++ ['%']) rest := by
  rw [scan]

theorem scan_end : scan normalstr ['%'] = (flush normalstr ++ [(['%'], [], 0)], false) := by
  rw [scan]

/-- Any other character behind a `%` is a text with it. -/
theorem scan_other (hkey : key ≠ '%') (halpha : key.isAlpha = false) (rest : Str) :
    scan normalstr ('%' :: key :: rest)
      = (flush normalstr ++ (scan ['%', key] rest).1, (scan ['%', key] rest).2) := by
  by_cases hrest : ∃ behind, rest = '{' :: behind
  · obtain ⟨behind, rfl⟩ := hrest
    rw [scan]
    · simp [halpha]
    · exact hkey
  · rw [scan]
    · simp [halpha]
    · exact hkey
    · exact fun behind heq => hrest ⟨behind, heq⟩

theorem ne_of_isAlpha (halpha : key.isAlpha = true) : key ≠ '%' := by
  rintro rfl
  exact absurd halpha (by decide)

/-- A directive without a parameter. -/
theorem scan_key (halpha : key.isAlpha = true) (hrest : rest.head? ≠ some '{') :
    scan normalstr ('%' :: key :: rest)
      = (flush normalstr ++ ([key], [], 1) :: (scan [] rest).1, (scan [] rest).2) := by
  rw [scan]
  · simp [halpha]
  · exact ne_of_isAlpha halpha
  · exact fun behind heq => hrest (heq ▸ rfl)

theorem scan_param (halpha : key.isAlpha = true) {param : Str} (hparam : '}' ∉ param)
    (rest : Str) :
    scan normalstr ('%' :: key :: '{' :: (param ++ '}' :: rest))
      = (flush normalstr ++ ([key], param, 1) :: (scan [] rest).1, (scan [] rest).2) := by
  rw [scan]
  · simp only [halpha, Bool.not_true, (takeWhile_until rest hparam).1]
    simp
  · exact ne_of_isAlpha halpha

theorem scan_missing (halpha : key.isAlpha = true) (hrest : '}' ∉ rest) :
    scan normalstr ('%' :: key :: '{' :: rest)
      = (flush normalstr ++ ("<<error>>".toList, [], 0) :: (scan [] rest).1, true) := by
  rw [scan]
  · simp [halpha, hrest]
  · exact ne_of_isAlpha halpha

end

/-! ### The loop over the index -/

theorem drop_charAt {m_pattern : Str} {i : Nat} (hi : i < m_pattern.length) :
    m_pattern.drop i = charAt m_pattern i :: m_pattern.drop (i + 1) := by
  rw [List.drop_eq_getElem_cons hi, charAt, List.getD_eq_getElem?_getD,
    List.getElem?_eq_getElem hi, Option.getD_some]

/-- What lies between the braces. -/
theorem found_param {m_pattern : Str} {n k : Nat} (hn : n < m_pattern.length)
    (hopen : charAt m_pattern n = '{') (hk : find m_pattern '}' n = some k) :
    '}' ∉ substr m_pattern (n + 1) (k - n - 1)
      ∧ m_pattern.drop (n + 1)
        = substr m_pattern (n + 1) (k - n - 1) ++ '}' :: m_pattern.drop (k + 1) := by
  obtain ⟨-, front, rest, hsplit, hfront, rfl⟩ := find_eq_some hk
  have hcons := drop_charAt hn
  rw [hsplit, hopen] at hcons
  cases front with
  | nil => exact absurd (List.cons.inj hcons).1 (by decide)
  | cons c param =>
    obtain ⟨-, htail⟩ := List.cons.inj hcons
    have hrest : m_pattern.drop (n + (c :: param).length + 1) = rest := by
      have hadd : n + (c :: param).length + 1 = n + 1 + (param.length + 1) := by
        rw [List.length_cons]
        omega
      rw [hadd, ← List.drop_drop, ← htail]
      simp
    have hparam : substr m_pattern (n + 1) (n + (c :: param).length - n - 1) = param := by
      rw [substr, ← htail, Nat.add_sub_cancel_left, List.length_cons, Nat.add_sub_cancel]
      simp
    rw [hparam, hrest]
    exact ⟨fun hmem => hfront (List.mem_cons_of_mem _ hmem), htail.symm⟩

/-- The loop adds what the scanner reads of the rest. -/
theorem initLoop_eq_scan (m_pattern : Str) (i : Nat) (normalstr : Str) (vec : List Piece)
    (m_error : Bool) :
    initLoop m_pattern i normalstr vec m_error
      = (vec ++ (scan normalstr (m_pattern.drop i)).1,
        m_error || (scan normalstr (m_pattern.drop i)).2) := by
  fun_induction initLoop m_pattern i normalstr vec m_error with
  | case1 i normalstr vec m_error hi hplain ih =>
    rw [ih, drop_charAt hi, scan_plain _ hplain]
  | case2 i normalstr vec m_error hi hpercent hescape ih =>
    rw [ih, drop_charAt hi, not_not.mp hpercent, drop_charAt hescape.1, hescape.2, scan_escape]
  | case3 i normalstr vec m_error hi hpercent hescape vec' n hend ih =>
    -- the `%` is the last character
    have hlast : m_pattern.drop (i + 1) = [] := List.drop_eq_nil_of_le hend
    have hbehind : m_pattern.drop (n + 1) = [] := List.drop_eq_nil_of_le (Nat.le_succ_of_le hend)
    rw [ih, drop_charAt hi, not_not.mp hpercent, hlast, hbehind, scan_end]
    simp [scan, flush, vec']
  | case4 i normalstr vec m_error hi hpercent hescape vec' n hend halpha ih =>
    have hn : i + 1 < m_pattern.length := not_le.mp hend
    have hkey : charAt m_pattern (i + 1) ≠ '%' := fun heq => hescape ⟨hn, heq⟩
    rw [ih, drop_charAt hi, not_not.mp hpercent, drop_charAt hn,
      scan_other _ hkey (by simpa using halpha), List.append_assoc]
  | case5 i normalstr vec m_error hi hpercent hescape vec' n hend halpha n' hbrace hk ih =>
    have hn : i + 1 < m_pattern.length := not_le.mp hend
    have hmissing : '}' ∉ m_pattern.drop (n' + 1) := fun hmem => find_eq_none hk <| by
      rw [drop_charAt hbrace.1]
      exact List.mem_cons_of_mem _ hmem
    rw [ih, drop_charAt hi, not_not.mp hpercent, drop_charAt hn, drop_charAt hbrace.1, hbrace.2,
      scan_missing _ (by simpa using halpha) hmissing]
    simp [vec']
  | case6 i normalstr vec m_error hi hpercent hescape vec' n hend halpha key n' hbrace k hk param
      n'' ih =>
    have hn : i + 1 < m_pattern.length := not_le.mp hend
    obtain ⟨hparam, hsplit⟩ := found_param hbrace.1 hbrace.2 hk
    rw [ih, drop_charAt hi, not_not.mp hpercent, drop_charAt hn, drop_charAt hbrace.1, hbrace.2,
      hsplit, scan_param _ (by simpa using halpha) hparam]
    simp [vec', key, param, n, n'']
  | case7 i normalstr vec m_error hi hpercent hescape vec' n hend halpha key n' hbrace ih =>
    have hn : i + 1 < m_pattern.length := not_le.mp hend
    have hhead : (m_pattern.drop (i + 1 + 1)).head? ≠ some '{' := by
      intro heq
      by_cases hn' : i + 1 + 1 < m_pattern.length
      · rw [drop_charAt hn', List.head?_cons] at heq
        exact hbrace ⟨hn', Option.some.inj heq⟩
      · rw [List.drop_eq_nil_of_le (not_lt.mp hn')] at heq
        exact absurd heq (by simp)
    rw [ih, drop_charAt hi, not_not.mp hpercent, drop_charAt hn,
      scan_key _ (by simpa using halpha) hhead]
    simp [vec', key, n', n]
  | case8 i normalstr vec m_error hi =>
    rw [List.drop_eq_nil_of_le (not_lt.mp hi)]
    simp [scan]

/-! ### The error flag -/

/-- The keys that make an item are those of the directives. -/
theorem lookup_isNone (key : Str) :
    (s_format_items.lookup key).isNone = !formatItems.any fun c => key = [c] := by
  have hkeys : formatItems.map (fun c => [c]) = s_format_items.map Prod.fst := rfl
  rw [Bool.eq_iff_iff, Option.isNone_iff_eq_none, List.lookup_eq_none_iff]
  simp only [Bool.not_eq_true', List.any_eq_false, decide_eq_true_eq, bne_iff_ne]
  constructor
  · intro h c hc heq
    obtain ⟨entry, hentry, hfst⟩ := List.mem_map.mp (hkeys ▸ List.mem_map_of_mem hc)
    exact h entry hentry (heq.trans hfst.symm)
  · intro h entry hentry heq
    obtain ⟨c, hc, hfst⟩ := List.mem_map.mp (hkeys.symm ▸ List.mem_map_of_mem hentry)
    exact h c hc (heq.trans hfst.symm)

theorem emplace_error (fmt : Formatter) (i : Piece) :
    (emplace fmt i).m_error
      = (fmt.m_error || (decide (i.2.2 = 1) && !formatItems.any fun c => i.1 = [c])) := by
  rw [← lookup_isNone, emplace]
  split_ifs with htext hkey
  · simp [htext]
  · cases s_format_items.lookup i.1 <;> simp [hkey]
  · simp [hkey]

theorem foldl_emplace_error (vec : List Piece) (fmt : Formatter) :
    (vec.foldl emplace fmt).m_error
      = (fmt.m_error || vec.any fun i =>
          decide (i.2.2 = 1) && !formatItems.any fun c => i.1 = [c]) := by
  induction vec generalizing fmt with
  | nil => simp
  | cons i vec ih => rw [List.foldl_cons, ih, emplace_error, List.any_cons, Bool.or_assoc]

/-- The flag of a new formatter is that of the scanner. -/
theorem make_error {pattern : Str} (h : pattern ≠ []) :
    (make pattern).m_error = (LogFormatter.make pattern).m_error := by
  have hempty : pattern.isEmpty = false := by simpa using h
  rw [make, hempty, init, LogFormatter.make]
  simp only [initLoop_eq_scan, foldl_emplace_error, List.drop_zero, List.nil_append,
    Bool.false_or, Bool.false_eq_true, if_false]

/-! ### Printed patterns -/

/-- A text, or a directive with or without a parameter. -/
inductive Item
  | literal (text : Str) : text ≠ [] → Item
  | directive (key : Char) (param : Option Str) : key ∈ formatItems → (∀ s ∈ param, '}' ∉ s) → Item

namespace Item

/-- A text with its `%` doubled. -/
def escape (text : Str) : Str := text.flatMap fun c => if c = '%' then ['%', '%'] else [c]

def print : Item → Str
  | literal text _ => escape text
  | directive key none .. => ['%', key]
  | directive key (some param) .. => '%' :: key :: '{' :: (param ++ ['}'])

/-- The item can stand behind the other one. -/
def Before : Item → Item → Prop
  | literal .., literal .. => False
  | directive _ none .., literal text _ => text.head? ≠ some '{'
  | _, _ => True

def piece : Item → Piece
  | literal text _ => (text, [], 0)
  | directive key param .. => ([key], param.getD [], 1)

/-- The directives; a time without a parameter has a format of its own. -/
def formatItem : Item → FormatItem
  | literal text _ => .StringFormatItem text
  | directive 'm' _ .. => .MessageFormatItem
  | directive 'p' _ .. => .LevelFormatItem
  | directive 'r' _ .. => .ElapseFormatItem
  | directive 'c' _ .. => .NameFormatItem
  | directive 't' _ .. => .ThreadIdFormatItem
  | directive 'n' _ .. => .NewLineFormatItem
  | directive 'd' param .. =>
    .DateTimeFormatItem (if param.getD [] = [] then "%Y-%m-%d %H:%M:%S".toList else param.getD [])
  | directive 'f' _ .. => .FilenameFormatItem
  | directive 'l' _ .. => .LineFormatItem
  | directive 'T' _ .. => .TabFormatItem
  | directive 'F' _ .. => .FiberIdFormatItem
  | directive _ _ .. => .ThreadNameFormatItem

end Item

/-- A list of items that can be printed. -/
structure Pattern where
  items : List Item
  chain : items.IsChain Item.Before

def Pattern.print (p : Pattern) : Str := p.items.flatMap Item.print

theorem scan_escaped (text normalstr rest : Str) :
    scan normalstr (Item.escape text ++ rest) = scan (normalstr ++ text) rest := by
  induction text generalizing normalstr with
  | nil => rw [Item.escape, List.flatMap_nil, List.nil_append, List.append_nil]
  | cons c text ih =>
    rw [Item.escape, List.flatMap_cons, List.append_assoc, ← Item.escape]
    split_ifs with hc
    · rw [hc, List.cons_append, List.cons_append, List.nil_append, scan_escape, ih,
        List.append_assoc, List.singleton_append]
    · rw [List.singleton_append, scan_plain _ hc, ih, List.append_assoc, List.singleton_append]

theorem isAlpha_of_mem {key : Char} (h : key ∈ formatItems) : key.isAlpha = true := by
  have hall : formatItems.all Char.isAlpha = true := by decide
  exact List.all_eq_true.mp hall key h

/-- Only a literal that begins with a brace is printed with one in front. -/
theorem head?_escape {text : Str} (h : text.head? ≠ some '{') (hne : text ≠ []) (rest : Str) :
    (Item.escape text ++ rest).head? ≠ some '{' := by
  cases text with
  | nil => exact absurd rfl hne
  | cons c text =>
    rw [Item.escape, List.flatMap_cons]
    split_ifs with hc
    · simp
    · simpa using h

theorem head?_print {key : Char} {hkey : key ∈ formatItems} {hparam : ∀ s ∈ none, '}' ∉ s}
    {items : List Item}
    (h : ∀ item ∈ items.head?, Item.Before (.directive key none hkey hparam) item) :
    (items.flatMap Item.print).head? ≠ some '{' := by
  cases items with
  | nil => simp
  | cons item items =>
    have hbefore := h item rfl
    rw [List.flatMap_cons]
    cases item with
    | literal text hne => exact head?_escape hbefore hne _
    | directive key param => cases param <;> simp [Item.print]

/-- The text so far becomes a piece of its own, unless the next item is a text. -/
theorem scan_print (items : List Item) (h : items.IsChain Item.Before) (normalstr : Str)
    (hlit : normalstr ≠ [] → ∀ text hne, items.head? ≠ some (.literal text hne)) :
    scan normalstr (items.flatMap Item.print)
      = (flush normalstr ++ items.map Item.piece, false) := by
  induction items generalizing normalstr with
  | nil => simp [scan]
  | cons item items ih =>
    obtain ⟨hbefore, hchain⟩ := List.isChain_cons.mp h
    rw [List.flatMap_cons, List.map_cons]
    cases item with
    | literal text hne =>
      have hnil : normalstr = [] := by
        by_contra hnormal
        exact hlit hnormal text hne rfl
      have hnext : ∀ text' hne', items.head? ≠ some (.literal text' hne') := fun text' hne' heq =>
        hbefore _ heq
      rw [Item.print, scan_escaped, hnil, List.nil_append, ih hchain text fun _ => hnext]
      simp [flush, hne, Item.piece]
    | directive key param hkey hparam =>
      have halpha := isAlpha_of_mem hkey
      have hrest := ih hchain [] fun hnil => absurd rfl hnil
      cases param with
      | none =>
        have hhead := head?_print hbefore
        rw [Item.print, List.cons_append, List.singleton_append, scan_key _ halpha hhead, hrest]
        simp [flush, Item.piece]
      | some param =>
        have hfree : '}' ∉ param := hparam param rfl
        rw [Item.print, List.cons_append, List.cons_append, List.cons_append, List.append_assoc,
          List.singleton_append, scan_param _ halpha hfree, hrest]
        simp [flush, Item.piece]

theorem dateTime_eq (format : Str) :
    FormatItem.dateTime format
      = .DateTimeFormatItem (if format = [] then "%Y-%m-%d %H:%M:%S".toList else format) := by
  cases format with
  | nil => rfl
  | cons => rfl

/-- The item that is made of a piece. -/
theorem emplace_piece (fmt : Formatter) (item : Item) :
    emplace fmt item.piece = { fmt with m_items := fmt.m_items ++ [item.formatItem] } := by
  cases item with
  | literal text hne => rfl
  | directive key param hkey hparam =>
    simp only [formatItems, List.mem_cons, List.not_mem_nil, or_false] at hkey
    rcases hkey with rfl | rfl | rfl | rfl | rfl | rfl | rfl | rfl | rfl | rfl | rfl | rfl
    case inr.inr.inr.inr.inr.inr.inl =>
      exact congrArg (fun item => { fmt with m_items := fmt.m_items ++ [item] })
        (dateTime_eq (param.getD []))
    all_goals rfl

theorem foldl_emplace (fmt : Formatter) (items : List Item) :
    (items.map Item.piece).foldl emplace fmt
      = { fmt with m_items := fmt.m_items ++ items.map Item.formatItem } := by
  induction items generalizing fmt with
  | nil => simp
  | cons item items ih =>
    rw [List.map_cons, List.foldl_cons, emplace_piece, ih, List.map_cons, List.append_assoc,
      List.singleton_append]

/-- A printed pattern is cut into its items, and makes them, without an error. -/
theorem init_print (p : Pattern) :
    initLoop p.print 0 [] [] false = (p.items.map Item.piece, false)
      ∧ init { m_pattern := p.print, m_items := [], m_error := false }
        = { m_pattern := p.print
            m_items := p.items.map Item.formatItem
            m_error := false } := by
  have hloop : initLoop p.print 0 [] [] false = (p.items.map Item.piece, false) := by
    rw [initLoop_eq_scan, List.drop_zero, Pattern.print,
      scan_print p.items p.chain [] fun hnil => absurd rfl hnil]
    simp [flush]
  refine ⟨hloop, ?_⟩
  simp only [init, hloop]
  rw [foldl_emplace, List.nil_append]

end LogPattern

end FiberServer
