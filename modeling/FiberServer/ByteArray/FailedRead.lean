import FiberServer.ByteArray.Buffers
import FiberServer.ByteArray.RoundTrip

/-!
# Typed reads that fail

`read` checks the length before it moves the cursor.  A number of variable length and a string are
more than one `read`, so an exception can come after the cursor has moved.

* `Layout`: how a number is laid out, with `decode` and with `Torn`, the bytes that end inside it.
* `Reads.unchanged_iff`, `Reads.readString_unchanged_iff`: when the exception of a number and of a
  string leaves the state as it was.
* `failedRead_iff`: the same for every typed read in every state.
-/

namespace FiberServer

open Words Blocks

namespace ByteArray

/-- The bytes that nobody has written are what `memory` happens to hold. -/
def settle (s : ByteArray) (memory : Nat → Nat → UInt8) : ByteArray :=
  { s with nodes := s.nodes.mapIdx fun i node =>
      { node with ptr := node.ptr.mapIdx fun j b => some (b.getD (memory i j)) } }

/-- The bytes from the cursor to the end. -/
def ahead (s : ByteArray) : List UInt8 := (s.contents.drop s.m_position).reduceOption

/-- If the call throws, nothing has changed.  (`resize` throws another exception for a length that
no string can have, in the state in which `read` would.) -/
def Unchanged {α : Type} (c : Call α) (s : Ordered) : Prop :=
  ∀ t, c.run s = .error (.error .out_of_range) t → t = s

/-- A number of `n` bytes, or one of `w` bits in groups of seven. -/
inductive Layout
  | fixed (n : Nat)
  | groups (w : Nat)
  deriving DecidableEq, Repr

namespace Layout

/-- The number at the front, and what is behind it. -/
def decode (e : Endian) : Layout → List UInt8 → Option (Nat × List UInt8)
  | fixed n, ahead =>
    if n ≤ ahead.length then some ((ofMemory e n (ahead.take n)).toNat, ahead.drop n) else none
  | groups w, ahead => (ungroup ((w + 6) / 7) ahead).map fun (m, rest) => (m % 2 ^ w, rest)

/-- The bytes end behind a group that is not the last. -/
def Torn : Layout → List UInt8 → Prop
  | fixed _, _ => False
  | groups w, ahead => ahead ≠ [] ∧ ahead.length < (w + 6) / 7 ∧ ∀ b ∈ ahead, 0x80 ≤ b

end Layout

def NumType.layout : NumType → Layout
  | Fint8 | Fuint8 => .fixed 1
  | Fint16 | Fuint16 => .fixed 2
  | Fint32 | Fuint32 => .fixed 4
  | Fint64 | Fuint64 => .fixed 8
  | Int32 | Uint32 => .groups 32
  | Int64 | Uint64 => .groups 64

/-- The layout of the length. -/
def StrKind.layout : StrKind → Layout
  | F16 => .fixed 2
  | F32 => .fixed 4
  | F64 => .fixed 8
  | Vint => .groups 64

inductive TypedRead
  | num (type : NumType)
  | str (kind : StrKind)
  deriving DecidableEq, Repr

namespace TypedRead

def Unchanged (FIBER_BYTE_ORDER : Endian) (s : Ordered) : TypedRead → Prop
  | num type => ByteArray.Unchanged (type.read FIBER_BYTE_ORDER) s
  | str kind => ByteArray.Unchanged (kind.read FIBER_BYTE_ORDER) s

/-- The bytes end inside the number behind its first group; or they end inside the length of the
string likewise, or the length is more than what is behind it. -/
def Torn (e : Endian) : TypedRead → List UInt8 → Prop
  | num type, ahead => type.layout.Torn ahead
  | str kind, ahead => kind.layout.Torn ahead
    ∨ ∃ len rest, kind.layout.decode e ahead = some (len, rest) ∧ rest.length < len

end TypedRead

/-! ### One `read` -/

section

variable (FIBER_BYTE_ORDER : Endian) {e : Endian} {s : Ordered} {cap pos n w : Nat}
  {ahead rest : List UInt8} {α β : Type}

theorem unchanged_map {c : Call α} (f : α → β) : Unchanged (f <$> c) s ↔ Unchanged c s := by
  refine forall_congr' fun t => imp_congr_left ?_
  simp only [EStateM.run, Functor.map, EStateM.map]
  cases c s <;> simp

theorem toMemory_ofMemory {bs : List UInt8} (h : bs.length = n) :
    toMemory e (ofMemory e n bs) = bs := by
  cases e with
  | FIBER_LITTLE_ENDIAN => exact bytes_ofBytes h
  | FIBER_BIG_ENDIAN =>
    rw [toMemory, ofMemory, bytes_ofBytes (by rw [List.length_reverse, h]), List.reverse_reverse]

/-! ### Numbers -/

/-- The call reads a number of the layout. -/
structure Layout.Reads (l : Layout) (c : Call (BitVec w)) (e : Endian) : Prop where
  ok {s : Ordered} {cap pos m : Nat} {ahead rest : List UInt8} : Holds s e cap pos ahead →
    l.decode e ahead = some (m, rest) →
    ∃ x t k, c.run s = .ok x t ∧ x.toNat = m ∧ 0 < k ∧ Holds t e cap (pos + k) rest
  error {s : Ordered} {cap pos : Nat} {ahead : List UInt8} : Holds s e cap pos ahead →
    l.decode e ahead = none →
    ∃ t, c.run s = .error (.error .out_of_range) t ∧ (t = s ↔ ¬ l.Torn ahead)

theorem readFixed_reads (hn : n = 2 ∨ n = 4 ∨ n = 8) :
    (Layout.fixed n).Reads (readFixed FIBER_BYTE_ORDER n) e where
  ok {s cap pos m ahead rest} h hdecode := by
    rw [Layout.decode] at hdecode
    split_ifs at hdecode with hle
    obtain ⟨rfl, rfl⟩ := Prod.mk.inj (Option.some.inj hdecode)
    have hsplit : ahead = toMemory e (ofMemory e n (ahead.take n)) ++ ahead.drop n := by
      rw [toMemory_ofMemory (List.length_take_of_le hle), List.take_append_drop]
    rw [hsplit] at h
    obtain ⟨t, hrun, ht⟩ := readFixed_spec FIBER_BYTE_ORDER hn h
    exact ⟨_, t, n, hrun, rfl, by omega, ht⟩
  error {s cap pos ahead} h hdecode := by
    rw [Layout.decode] at hdecode
    split_ifs at hdecode with hle
    exact ⟨s, bind_error (readBytes_short h (Nat.lt_of_not_le hle)), iff_of_true rfl id⟩

theorem readFuint8_reads : (Layout.fixed 1).Reads (readFuint8 FIBER_BYTE_ORDER) e where
  ok {s cap pos m ahead rest} h hdecode := by
    rw [Layout.decode] at hdecode
    split_ifs at hdecode with hle
    obtain ⟨rfl, rfl⟩ := Prod.mk.inj (Option.some.inj hdecode)
    cases ahead with
    | nil => exact absurd hle (by decide)
    | cons b bs =>
      obtain ⟨t, hrun, ht⟩ := readFuint8_spec FIBER_BYTE_ORDER h
      have hvalue : ofMemory e 1 [b] = b.toBitVec := by
        rw [← toMemory_toBitVec (e := e), ofMemory_toMemory]
      refine ⟨b.toBitVec, t, 1, hrun, ?_, Nat.one_pos, ht⟩
      exact congrArg BitVec.toNat hvalue.symm
  error {s cap pos ahead} h hdecode := by
    rw [Layout.decode] at hdecode
    split_ifs at hdecode with hle
    exact ⟨s, bind_error (readBytes_short h (Nat.lt_of_not_le hle)), iff_of_true rfl id⟩

theorem readVarint_reads (hw : 0 < w) :
    (Layout.groups w).Reads (readVarint FIBER_BYTE_ORDER w w 0 0) e where
  ok {s cap pos m ahead rest} h hdecode := by
    obtain ⟨⟨m', rest'⟩, hm', heq⟩ := Option.map_eq_some_iff.mp hdecode
    obtain ⟨rfl, rfl⟩ := Prod.mk.inj heq
    obtain ⟨hok, -⟩ := readVarint_spec FIBER_BYTE_ORDER (w := w) (i := 0) (n := (w + 6) / 7) rfl
      (by omega : _ ≤ w) h
    obtain ⟨t, k, hrun, hlen, ht⟩ := hok m' rest' hm'
    obtain ⟨n, hn⟩ : ∃ n, (w + 6) / 7 = n + 1 := ⟨(w + 6) / 7 - 1, by omega⟩
    have hshort : rest'.length < ahead.length := by
      rw [hn] at hm'
      exact length_lt_of_ungroup hm'
    refine ⟨_, t, k, hrun, ?_, by omega, ht⟩
    simp
  error {s cap pos ahead} h hdecode := by
    have hnone : ungroup ((w + 6) / 7) ahead = none := Option.map_eq_none_iff.mp hdecode
    obtain ⟨-, herror⟩ := readVarint_spec FIBER_BYTE_ORDER (w := w) (i := 0) (n := (w + 6) / 7) rfl
      (by omega : _ ≤ w) h
    obtain ⟨t, hrun, hposition, hnil⟩ := herror hnone
    refine ⟨t, hrun, ?_, ?_⟩
    · rintro rfl ⟨hne, -⟩
      have hpos := List.length_pos_iff.mpr hne
      rw [h.position] at hposition
      omega
    · intro hwhole
      apply hnil
      by_contra hne
      exact hwhole ⟨hne, ungroup_eq_none_iff.mp hnone⟩

theorem unchanged_of_error {c : Call α} {t : Ordered}
    (h : c.run s = .error (.error .out_of_range) t) : Unchanged c s ↔ t = s := by
  refine ⟨fun hun => hun t h, fun heq t' hthrows => ?_⟩
  rw [h] at hthrows
  cases hthrows
  exact heq

/-- The exception of a number leaves the state as it was unless the bytes are torn. -/
theorem Layout.Reads.unchanged_iff {l : Layout} {c : Call (BitVec w)} (hc : l.Reads c e)
    (h : Holds s e cap pos ahead) : Unchanged c s ↔ ¬ l.Torn ahead := by
  cases hdecode : l.decode e ahead with
  | some found =>
    obtain ⟨m, rest⟩ := found
    obtain ⟨x, t, k, hrun, -⟩ := hc.ok h hdecode
    refine iff_of_true (fun t' hthrows => ?_) fun htorn => ?_
    · rw [hrun] at hthrows
      exact nomatch hthrows
    · cases l with
      | fixed n => exact htorn
      | groups w' =>
        have hnone : ungroup ((w' + 6) / 7) ahead = none := ungroup_eq_none_iff.mpr htorn.2
        rw [decode, hnone] at hdecode
        exact nomatch hdecode
  | none =>
    obtain ⟨t, hrun, hsame⟩ := hc.error h hdecode
    exact (unchanged_of_error hrun).trans hsame

/-! ### Strings -/

/-- A read that throws only for want of bytes. -/
theorem readBytes_throws_iff (h : Holds s e cap pos ahead) :
    (∃ t, (readBytes n).run s = .error (.error .out_of_range) t) ↔ ahead.length < n := by
  refine ⟨fun ⟨t, hthrows⟩ => Nat.lt_of_not_le fun hle => ?_, fun hlt => ⟨s, readBytes_short h hlt⟩⟩
  obtain hzero | hpos := Nat.eq_zero_or_pos n
  · subst hzero
    obtain hlt | hend := Nat.lt_or_eq_of_le (Nat.le_trans (Nat.le_add_right _ _) h.le)
    · rw [readBytes_zero h hlt] at hthrows
      exact nomatch hthrows
    · subst hend
      rw [readBytes_zero_end h] at hthrows
      exact nomatch hthrows
  · have hlen : (ahead.take n).length = n := List.length_take_of_le hle
    rw [← List.take_append_drop n ahead] at h
    obtain ⟨u, hread, -⟩ := readBytes_spec h (List.ne_nil_of_length_pos (by rw [hlen]; exact hpos))
    rw [hlen, hthrows] at hread
    exact nomatch hread

/-- The exception of a string comes after its length has been taken off, unless that is what the
bytes are too few for. -/
theorem Layout.Reads.readString_unchanged_iff {l : Layout} {c : Call (BitVec w)} (hc : l.Reads c e)
    (h : Holds s e cap pos ahead) : Unchanged (readString c) s ↔
      ¬ (l.Torn ahead ∨ ∃ len rest, l.decode e ahead = some (len, rest) ∧ rest.length < len) := by
  have hlength := hc.unchanged_iff h
  cases hdecode : l.decode e ahead with
  | none =>
    obtain ⟨t, hrun, -⟩ := hc.error h hdecode
    have hstring : (readString c).run s = .error (.error .out_of_range) t := bind_error hrun
    rw [unchanged_of_error hstring, ← unchanged_of_error hrun, hlength, not_or]
    exact (and_iff_left (by rintro ⟨len, rest, hnone, -⟩; exact nomatch hnone)).symm
  | some found =>
    obtain ⟨m, rest⟩ := found
    obtain ⟨x, t, k, hrun, rfl, hk, ht⟩ := hc.ok h hdecode
    have hwhole : ¬ l.Torn ahead := hlength.mp fun t' hthrows => by
      rw [hrun] at hthrows
      exact nomatch hthrows
    have hstring : (readString c).run s = (readBytes x.toNat).run t := by
      rw [readString, EStateM.run_bind, hrun]
    have hthrows := readBytes_throws_iff (n := x.toNat) ht
    rw [or_iff_right hwhole]
    constructor
    · rintro hun ⟨len, rest', heq, hlt⟩
      cases heq
      have hsame := hun t (by rw [hstring]; exact readBytes_short ht hlt)
      -- the cursor is behind the length
      have hposition := h.position
      rw [← hsame, ht.position] at hposition
      omega
    · intro hfits t' hthrow
      rw [hstring] at hthrow
      exact absurd ⟨x.toNat, rest, rfl, hthrows.mp ⟨t', hthrow⟩⟩ hfits

/-! ### Every typed read -/

theorem unchanged_num_iff (type : NumType) (h : Holds s e cap pos ahead) :
    Unchanged (type.read FIBER_BYTE_ORDER) s ↔ ¬ type.layout.Torn ahead := by
  cases type with
  | Fint8 => exact (unchanged_map _).trans ((readFuint8_reads FIBER_BYTE_ORDER).unchanged_iff h)
  | Fuint8 => exact (unchanged_map _).trans ((readFuint8_reads FIBER_BYTE_ORDER).unchanged_iff h)
  | Fint16 | Fuint16 =>
    exact (unchanged_map _).trans ((readFixed_reads FIBER_BYTE_ORDER (.inl rfl)).unchanged_iff h)
  | Fint32 | Fuint32 =>
    exact (unchanged_map _).trans
      ((readFixed_reads FIBER_BYTE_ORDER (.inr (.inl rfl))).unchanged_iff h)
  | Fint64 | Fuint64 =>
    exact (unchanged_map _).trans
      ((readFixed_reads FIBER_BYTE_ORDER (.inr (.inr rfl))).unchanged_iff h)
  | Uint32 =>
    exact (unchanged_map _).trans
      ((readVarint_reads FIBER_BYTE_ORDER (w := 32) (by decide)).unchanged_iff h)
  | Uint64 =>
    exact (unchanged_map _).trans
      ((readVarint_reads FIBER_BYTE_ORDER (w := 64) (by decide)).unchanged_iff h)
  | Int32 =>
    have hzigzag := (readVarint_reads FIBER_BYTE_ORDER (w := 32) (by decide)).unchanged_iff h
    exact (unchanged_map _).trans ((unchanged_map _).trans hzigzag)
  | Int64 =>
    have hzigzag := (readVarint_reads FIBER_BYTE_ORDER (w := 64) (by decide)).unchanged_iff h
    exact (unchanged_map _).trans ((unchanged_map _).trans hzigzag)

theorem unchanged_str_iff (kind : StrKind) (h : Holds s e cap pos ahead) :
    Unchanged (kind.read FIBER_BYTE_ORDER) s ↔ ¬ TypedRead.Torn e (.str kind) ahead := by
  cases kind with
  | F16 => exact (readFixed_reads FIBER_BYTE_ORDER (.inl rfl)).readString_unchanged_iff h
  | F32 => exact (readFixed_reads FIBER_BYTE_ORDER (.inr (.inl rfl))).readString_unchanged_iff h
  | F64 => exact (readFixed_reads FIBER_BYTE_ORDER (.inr (.inr rfl))).readString_unchanged_iff h
  | Vint => exact (readVarint_reads FIBER_BYTE_ORDER (by decide)).readString_unchanged_iff h

end

/-! ### Every state -/

theorem Refines.settle {s : ByteArray} {f : Flat} (h : Refines s f) (memory : Nat → Nat → UInt8) :
    ∃ g, Refines (s.settle memory) g ∧ ∃ bytes : List UInt8, g.bytes = bytes.map some := by
  have huniform : Uniform s.m_baseSize (s.settle memory).nodes := by
    intro node hnode
    obtain ⟨i, hi, rfl⟩ := List.mem_mapIdx.mp hnode
    obtain ⟨hsize, hlen⟩ := h.wf.uniform _ (List.getElem_mem hi)
    exact ⟨hsize, List.length_mapIdx.trans hlen⟩
  have hcount : (s.settle memory).nodes.length = s.nodes.length := List.length_mapIdx
  have hlength : (flat (s.settle memory).nodes).length = f.bytes.length := by
    rw [huniform.length_flat, hcount, ← h.capacity, h.wf.capacity]
  have hwritten : ∀ b ∈ flat (s.settle memory).nodes, some (b.getD 0) = b := by
    intro b hb
    obtain ⟨ptr, hptr, hb⟩ := List.mem_flatten.mp hb
    obtain ⟨node, hnode, rfl⟩ := List.mem_map.mp hptr
    obtain ⟨i, hi, rfl⟩ := List.mem_mapIdx.mp hnode
    obtain ⟨j, hj, rfl⟩ := List.mem_mapIdx.mp hb
    rfl
  have hbytes : flat (s.settle memory).nodes
      = ((flat (s.settle memory).nodes).map fun b => b.getD 0).map some := by
    rw [List.map_map]
    exact ((List.map_congr_left hwritten).trans (List.map_id _)).symm
  refine ⟨{ f with
      bytes := flat (s.settle memory).nodes
      size_le := by rw [hlength]; exact f.size_le }, ⟨?_, h.base, h.position, h.size, rfl⟩, _,
    hbytes⟩
  exact ⟨h.wf.base_pos, huniform, by rw [hcount]; exact h.wf.root,
    by rw [hcount]; exact h.wf.capacity, h.wf.position_le, h.wf.size_le, h.wf.cur⟩

theorem holds_settle {s : ByteArray} (hs : Reachable s) (memory : Nat → Nat → UInt8) (e : Endian) :
    ∃ cap, Holds ⟨s.settle memory, e⟩ e cap s.m_position (s.settle memory).ahead := by
  obtain ⟨f, hf⟩ := hs.refines
  obtain ⟨g, hg, bytes, hbytes⟩ := hf.settle memory
  have hcontents : g.contents.drop g.position = ((bytes.take g.size).drop g.position).map some := by
    rw [Flat.contents, hbytes, List.map_drop, List.map_take]
  have hahead : (s.settle memory).ahead = (bytes.take g.size).drop g.position := by
    rw [ByteArray.ahead, hg.contents, hg.position, hcontents]
    exact List.filterMap_map.trans List.filterMap_some
  refine ⟨g.bytes.length, rfl, g, hg, rfl, hg.position.symm, ?_⟩
  rw [hahead, ← hcontents, ← hg.position]
  rfl

/-- **A typed read that throws** leaves the state as it was if and only if the bytes ahead are not
torn. -/
theorem failedRead_iff (FIBER_BYTE_ORDER : Endian) {s : ByteArray} (hs : Reachable s)
    (memory : Nat → Nat → UInt8) (e : Endian) (r : TypedRead) :
    r.Unchanged FIBER_BYTE_ORDER ⟨s.settle memory, e⟩ ↔ ¬ r.Torn e (s.settle memory).ahead := by
  obtain ⟨cap, h⟩ := holds_settle hs memory e
  cases r with
  | num type => exact unchanged_num_iff FIBER_BYTE_ORDER type h
  | str kind => exact unchanged_str_iff FIBER_BYTE_ORDER kind h

/-- The cursor at the first of the bytes, in nodes of four. -/
def holding (bytes : List Byte) : ByteArray :=
  (((new 4).apply (.write bytes)).1.apply (.setPosition 0)).1

theorem holding_reachable {bytes : List Byte}
    (hwrite : ((new 4).apply (.write bytes)).2 ≠ .error .nullNode)
    (hseek : (((new 4).apply (.write bytes)).1.apply (.setPosition 0)).2 ≠ .error .nullNode) :
    Reachable (holding bytes) :=
  .apply _ (.apply _ (.new 4 (by decide)) hwrite) hseek

/-- A length of five, of which the second byte is missing. -/
theorem failedRead_prefix :
    TypedRead.Unchanged .FIBER_LITTLE_ENDIAN
      ⟨(holding [some 5]).settle fun _ _ => 0, .FIBER_LITTLE_ENDIAN⟩ (.str .F16) :=
  (failedRead_iff .FIBER_LITTLE_ENDIAN (holding_reachable (by decide) (by decide)) _ _ _).mpr
    (by
      rintro (htorn | ⟨len, rest, hdecode, -⟩)
      · exact htorn
      · exact nomatch hdecode)

/-- A group that another should follow, and a length of five with one byte behind it: after the
exceptions the cursor is behind the group and behind the length. -/
theorem failedRead_changes :
    (Reachable (holding [some 0x80])
      ∧ (∃ t, (readUint32 .FIBER_LITTLE_ENDIAN).run
            ⟨(holding [some 0x80]).settle fun _ _ => 0, .FIBER_BIG_ENDIAN⟩
          = .error (.error .out_of_range) t ∧ t.m_position = 1)
      ∧ ¬ TypedRead.Unchanged .FIBER_LITTLE_ENDIAN
        ⟨(holding [some 0x80]).settle fun _ _ => 0, .FIBER_BIG_ENDIAN⟩ (.num .Uint32))
    ∧ Reachable (holding [some 0, some 5, some 97])
      ∧ (∃ t, (readStringF16 .FIBER_LITTLE_ENDIAN).run
            ⟨(holding [some 0, some 5, some 97]).settle fun _ _ => 0, .FIBER_BIG_ENDIAN⟩
          = .error (.error .out_of_range) t ∧ t.m_position = 2)
      ∧ ¬ TypedRead.Unchanged .FIBER_LITTLE_ENDIAN
        ⟨(holding [some 0, some 5, some 97]).settle fun _ _ => 0, .FIBER_BIG_ENDIAN⟩ (.str .F16) := by
  refine ⟨⟨holding_reachable (by decide) (by decide), ⟨_, rfl, rfl⟩, fun h => ?_⟩,
    holding_reachable (by decide) (by decide), ⟨_, rfl, rfl⟩, fun h => ?_⟩
  · exact absurd (congrArg (fun t : Ordered => t.m_position) (h _ rfl)) (by decide)
  · exact absurd (congrArg (fun t : Ordered => t.m_position) (h _ rfl)) (by decide)

end ByteArray

end FiberServer
