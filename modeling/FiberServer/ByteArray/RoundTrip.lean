import FiberServer.ByteArray.Typed

/-!
# Reading back what was written

Numbers and strings are written to a fresh `ByteArray`, the cursor is set to the start, and
the matching calls read.

* `numbers_roundTrip`: the numbers come back, whatever the block size and the byte orders are.
* `strings_roundTrip_iff`: the strings come back unless the last one is empty and the data end
  with a block, or the length of one does not fit its prefix.
-/

namespace FiberServer

namespace ByteArray

open Words

variable (FIBER_BYTE_ORDER : Endian) {e : Endian} {s : Ordered} {base cap pos : Nat}

/-! ### Sequences -/

section

variable {α τ : Type} {write : α → Call Unit} {encode : α → List UInt8} {type : α → τ}
  {read : τ → Call α}

theorem forM_spec (hwrite : ∀ {s : Ordered} {old : List UInt8} (x : α), Written s e base old →
      ∃ t, (write x).run s = .ok () t ∧ Written t e base (old ++ encode x)) (xs : List α)
    {old : List UInt8} (h : Written s e base old) :
    ∃ t, (forM xs write).run s = .ok () t ∧ Written t e base (old ++ xs.flatMap encode) := by
  induction xs generalizing s old with
  | nil => exact ⟨s, rfl, by simpa using h⟩
  | cons x xs ih =>
    obtain ⟨t, hx, ht⟩ := hwrite x h
    obtain ⟨u, hxs, hu⟩ := ih ht
    refine ⟨u, ?_, ?_⟩
    · rw [List.forM_cons, EStateM.run_bind, hx]
      exact hxs
    · rw [List.flatMap_cons, ← List.append_assoc]
      exact hu

theorem mapM_cons_ok {β : Type} {read : τ → Call β} {x : τ} {xs : List τ} {y : β} {ys : List β}
    {u : Ordered} : ((x :: xs).mapM read).run s = .ok (y :: ys) u ↔
      ∃ t, (read x).run s = .ok y t ∧ (xs.mapM read).run t = .ok ys u := by
  rw [List.mapM_cons, EStateM.run_bind]
  constructor
  · intro h
    cases hx : (read x).run s with
    | error err t => simp [hx] at h
    | ok z t =>
      simp only [hx] at h
      rw [EStateM.run_bind] at h
      cases hxs : (xs.mapM read).run t with
      | error err v => simp [hxs] at h
      | ok zs v =>
        simp only [hxs] at h
        cases h
        exact ⟨t, rfl, hxs⟩
  · rintro ⟨t, hx, hxs⟩
    simp only [hx]
    rw [EStateM.run_bind, hxs]
    rfl

theorem mapM_spec (hread : ∀ {s : Ordered} {pos : Nat} {rest : List UInt8} (x : α),
      Holds s e cap pos (encode x ++ rest) →
      ∃ t, (read (type x)).run s = .ok x t ∧ Holds t e cap (pos + (encode x).length) rest)
    (xs : List α) (h : Holds s e cap pos (xs.flatMap encode)) :
    ∃ t, ((xs.map type).mapM read).run s = .ok xs t
      ∧ Holds t e cap (pos + (xs.flatMap encode).length) [] := by
  induction xs generalizing s pos with
  | nil => exact ⟨s, rfl, h⟩
  | cons x xs ih =>
    obtain ⟨t, hx, ht⟩ := hread x h
    obtain ⟨u, hxs, hu⟩ := ih ht
    refine ⟨u, mapM_cons_ok.mpr ⟨t, hx, hxs⟩, ?_⟩
    rw [List.flatMap_cons, List.length_append, ← Nat.add_assoc]
    exact hu

end

/-! ### Numbers -/

/-- A number with the type it is written as. -/
inductive Num
  | Fint8 (value : BitVec 8)
  | Fuint8 (value : BitVec 8)
  | Fint16 (value : BitVec 16)
  | Fuint16 (value : BitVec 16)
  | Fint32 (value : BitVec 32)
  | Fuint32 (value : BitVec 32)
  | Fint64 (value : BitVec 64)
  | Fuint64 (value : BitVec 64)
  | Int32 (value : BitVec 32)
  | Uint32 (value : BitVec 32)
  | Int64 (value : BitVec 64)
  | Uint64 (value : BitVec 64)
  deriving DecidableEq, Repr

inductive NumType
  | Fint8 | Fuint8 | Fint16 | Fuint16 | Fint32 | Fuint32 | Fint64 | Fuint64
  | Int32 | Uint32 | Int64 | Uint64
  deriving DecidableEq, Repr

namespace Num

def type : Num → NumType
  | Fint8 _ => .Fint8
  | Fuint8 _ => .Fuint8
  | Fint16 _ => .Fint16
  | Fuint16 _ => .Fuint16
  | Fint32 _ => .Fint32
  | Fuint32 _ => .Fuint32
  | Fint64 _ => .Fint64
  | Fuint64 _ => .Fuint64
  | Int32 _ => .Int32
  | Uint32 _ => .Uint32
  | Int64 _ => .Int64
  | Uint64 _ => .Uint64

def write (FIBER_BYTE_ORDER : Endian) : Num → Call Unit
  | Fint8 value => writeFint8 FIBER_BYTE_ORDER value
  | Fuint8 value => writeFuint8 FIBER_BYTE_ORDER value
  | Fint16 value => writeFint16 FIBER_BYTE_ORDER value
  | Fuint16 value => writeFuint16 FIBER_BYTE_ORDER value
  | Fint32 value => writeFint32 FIBER_BYTE_ORDER value
  | Fuint32 value => writeFuint32 FIBER_BYTE_ORDER value
  | Fint64 value => writeFint64 FIBER_BYTE_ORDER value
  | Fuint64 value => writeFuint64 FIBER_BYTE_ORDER value
  | Int32 value => writeInt32 value
  | Uint32 value => writeUint32 value
  | Int64 value => writeInt64 value
  | Uint64 value => writeUint64 value

/-- The bytes that are written. -/
def encode (e : Endian) : Num → List UInt8
  | Fint8 value | Fuint8 value => [UInt8.ofBitVec value]
  | Fint16 value | Fuint16 value => toMemory (n := 2) e value
  | Fint32 value | Fuint32 value => toMemory (n := 4) e value
  | Fint64 value | Fuint64 value => toMemory (n := 8) e value
  | Int32 value => varint 4 (EncodeZigzag32 value)
  | Uint32 value => varint 4 value
  | Int64 value => varint 9 (EncodeZigzag64 value)
  | Uint64 value => varint 9 value

end Num

def NumType.read (FIBER_BYTE_ORDER : Endian) : NumType → Call Num
  | Fint8 => .Fint8 <$> readFint8 FIBER_BYTE_ORDER
  | Fuint8 => .Fuint8 <$> readFuint8 FIBER_BYTE_ORDER
  | Fint16 => .Fint16 <$> readFint16 FIBER_BYTE_ORDER
  | Fuint16 => .Fuint16 <$> readFuint16 FIBER_BYTE_ORDER
  | Fint32 => .Fint32 <$> readFint32 FIBER_BYTE_ORDER
  | Fuint32 => .Fuint32 <$> readFuint32 FIBER_BYTE_ORDER
  | Fint64 => .Fint64 <$> readFint64 FIBER_BYTE_ORDER
  | Fuint64 => .Fuint64 <$> readFuint64 FIBER_BYTE_ORDER
  | Int32 => .Int32 <$> readInt32 FIBER_BYTE_ORDER
  | Uint32 => .Uint32 <$> readUint32 FIBER_BYTE_ORDER
  | Int64 => .Int64 <$> readInt64 FIBER_BYTE_ORDER
  | Uint64 => .Uint64 <$> readUint64 FIBER_BYTE_ORDER

/-- A read that gives `value` and moves the cursor behind `buf`. -/
def Gives {α : Type} (c : Call α) (s : Ordered) (value : α) (e : Endian) (cap pos : Nat)
    (rest : List UInt8) : Prop :=
  ∃ t, c.run s = .ok value t ∧ Holds t e cap pos rest

theorem Gives.map {α β : Type} {c : Call α} {value : α} {rest : List UInt8}
    (h : Gives c s value e cap pos rest) (f : α → β) :
    Gives (f <$> c) s (f value) e cap pos rest := by
  obtain ⟨t, hc, ht⟩ := h
  refine ⟨t, ?_, ht⟩
  rw [EStateM.run] at hc
  simp only [EStateM.run, Functor.map, EStateM.map, hc]

/-- What lies ahead is read, unless it is nothing and the nodes end there. -/
theorem readBytes_ahead {buf rest : List UInt8} (h : Holds s e cap pos (buf ++ rest))
    (hend : ¬ (buf = [] ∧ pos + buf.length = cap)) :
    Gives (readBytes buf.length) s buf e cap (pos + buf.length) rest := by
  by_cases hbuf : buf = []
  · subst hbuf
    have hle := h.le
    have hlt : pos < cap := by
      have hne : pos ≠ cap := fun heq => hend ⟨rfl, heq⟩
      omega
    exact ⟨s, readBytes_zero h hlt, h⟩
  · exact readBytes_spec h hbuf

theorem writeFixed_spec {n : Nat} (hn : n = 2 ∨ n = 4 ∨ n = 8) {old : List UInt8}
    (h : Written s e base old) (value : BitVec (8 * n)) :
    ∃ t, (writeFixed FIBER_BYTE_ORDER value).run s = .ok () t
      ∧ Written t e base (old ++ toMemory e value) := by
  have hrun : (writeFixed FIBER_BYTE_ORDER value).run s = (writeBytes (toMemory e value)).run s := by
    rw [← toMemory_byteswap FIBER_BYTE_ORDER hn, ← h.endian]
    rfl
  rw [hrun]
  exact writeBytes_spec h _

/-- The groups of a word, read back. -/
theorem readVarint_varint {w n : Nat} {value : BitVec w} {rest : List UInt8} (hw : 8 ≤ w)
    (hfit : 2 ^ w ≤ 128 ^ (n + 1)) (hn : 7 * n < w) (h : Holds s e cap pos (varint n value ++ rest)) :
    Gives (readVarint FIBER_BYTE_ORDER w w 0 0) s value e cap (pos + (varint n value).length) rest := by
  have hlt : value.toNat < 128 ^ (n + 1) := Nat.lt_of_lt_of_le value.isLt hfit
  have hgroups := ungroup_groups hlt (show n < (w + 6) / 7 by omega) rest
  rw [varint_eq_groups hw hlt] at h ⊢
  obtain ⟨t, k, hrun, hlen, ht⟩ := (readVarint_spec FIBER_BYTE_ORDER (w := w) (i := 0)
    (n := (w + 6) / 7) rfl (by omega : _ ≤ w) h).1 _ _ hgroups
  have hk : k = (groups n value.toNat).length := by
    rw [List.length_append] at hlen
    omega
  refine ⟨t, ?_, hk ▸ ht⟩
  rw [hrun, BitVec.ofNat_toNat, BitVec.setWidth_eq, BitVec.shiftLeft_zero]
  exact congrArg (EStateM.Result.ok · t) BitVec.zero_or

theorem readUint32_spec {value : BitVec 32} {rest : List UInt8}
    (h : Holds s e cap pos (varint 4 value ++ rest)) :
    Gives (readUint32 FIBER_BYTE_ORDER) s value e cap (pos + (varint 4 value).length) rest :=
  readVarint_varint FIBER_BYTE_ORDER (by decide) (by decide) (by decide) h

theorem readUint64_spec {value : BitVec 64} {rest : List UInt8}
    (h : Holds s e cap pos (varint 9 value ++ rest)) :
    Gives (readUint64 FIBER_BYTE_ORDER) s value e cap (pos + (varint 9 value).length) rest :=
  readVarint_varint FIBER_BYTE_ORDER (by decide) (by decide) (by decide) h

namespace Num

theorem write_spec {old : List UInt8} (v : Num) (h : Written s e base old) :
    ∃ t, (v.write FIBER_BYTE_ORDER).run s = .ok () t ∧ Written t e base (old ++ v.encode e) := by
  cases v with
  | Fint8 value | Fuint8 value =>
    rw [encode, ← toMemory_toBitVec (e := FIBER_BYTE_ORDER)]
    exact writeBytes_spec h _
  | Fint16 value | Fuint16 value => exact writeFixed_spec FIBER_BYTE_ORDER (.inl rfl) h _
  | Fint32 value | Fuint32 value => exact writeFixed_spec FIBER_BYTE_ORDER (.inr (.inl rfl)) h _
  | Fint64 value | Fuint64 value => exact writeFixed_spec FIBER_BYTE_ORDER (.inr (.inr rfl)) h _
  | Int32 value | Uint32 value | Int64 value | Uint64 value => exact writeBytes_spec h _

theorem read_spec {rest : List UInt8} (v : Num) (h : Holds s e cap pos (v.encode e ++ rest)) :
    Gives (v.type.read FIBER_BYTE_ORDER) s v e cap (pos + (v.encode e).length) rest := by
  cases v with
  | Fint8 value => exact Gives.map (readFuint8_spec FIBER_BYTE_ORDER h) Fint8
  | Fuint8 value => exact Gives.map (readFuint8_spec FIBER_BYTE_ORDER h) Fuint8
  | Fint16 value =>
    rw [encode, length_toMemory]
    exact Gives.map (readFixed_spec FIBER_BYTE_ORDER (.inl rfl) h) Fint16
  | Fuint16 value =>
    rw [encode, length_toMemory]
    exact Gives.map (readFixed_spec FIBER_BYTE_ORDER (.inl rfl) h) Fuint16
  | Fint32 value =>
    rw [encode, length_toMemory]
    exact Gives.map (readFixed_spec FIBER_BYTE_ORDER (.inr (.inl rfl)) h) Fint32
  | Fuint32 value =>
    rw [encode, length_toMemory]
    exact Gives.map (readFixed_spec FIBER_BYTE_ORDER (.inr (.inl rfl)) h) Fuint32
  | Fint64 value =>
    rw [encode, length_toMemory]
    exact Gives.map (readFixed_spec FIBER_BYTE_ORDER (.inr (.inr rfl)) h) Fint64
  | Fuint64 value =>
    rw [encode, length_toMemory]
    exact Gives.map (readFixed_spec FIBER_BYTE_ORDER (.inr (.inr rfl)) h) Fuint64
  | Int32 value =>
    have hread := (readUint32_spec FIBER_BYTE_ORDER h).map DecodeZigzag32
    rw [DecodeZigzag32, EncodeZigzag32, unzigzag_zigzag] at hread
    exact hread.map Int32
  | Uint32 value => exact (readUint32_spec FIBER_BYTE_ORDER h).map Uint32
  | Int64 value =>
    have hread := (readUint64_spec FIBER_BYTE_ORDER h).map DecodeZigzag64
    rw [DecodeZigzag64, EncodeZigzag64, unzigzag_zigzag] at hread
    exact hread.map Int64
  | Uint64 value => exact (readUint64_spec FIBER_BYTE_ORDER h).map Uint64

/-- The fewest and the most bytes. -/
def sizes : Num → Nat × Nat
  | Fint8 _ | Fuint8 _ => (1, 1)
  | Fint16 _ | Fuint16 _ => (2, 2)
  | Fint32 _ | Fuint32 _ => (4, 4)
  | Fint64 _ | Fuint64 _ => (8, 8)
  | Int32 _ | Uint32 _ => (1, 5)
  | Int64 _ | Uint64 _ => (1, 10)

theorem length_varint {w n : Nat} (hw : 8 ≤ w) (hfit : 2 ^ w ≤ 128 ^ (n + 1)) (value : BitVec w) :
    1 ≤ (varint n value).length ∧ (varint n value).length ≤ n + 1 := by
  rw [varint_eq_groups hw (Nat.lt_of_lt_of_le value.isLt hfit)]
  exact length_groups n _

theorem length_encode (v : Num) :
    v.sizes.1 ≤ (v.encode e).length ∧ (v.encode e).length ≤ v.sizes.2 := by
  cases v with
  | Fint8 | Fuint8 => exact ⟨Nat.le_refl 1, Nat.le_refl 1⟩
  | Fint16 | Fuint16 | Fint32 | Fuint32 | Fint64 | Fuint64 =>
    rw [encode, length_toMemory]
    exact ⟨Nat.le_refl _, Nat.le_refl _⟩
  | Int32 | Uint32 => exact length_varint (by decide) (by decide) _
  | Int64 | Uint64 => exact length_varint (by decide) (by decide) _

end Num

/-- **Numbers come back**: the reads return what was written and consume all of it, and each
number takes as many bytes as its type has. -/
theorem numbers_roundTrip {base_size : Nat} (h : 1 ≤ base_size) (val : Bool) (vs : List Num) :
    (∃ t u v, (forM vs (Num.write FIBER_BYTE_ORDER)).run
          ((Ordered.new base_size).setIsLittleEndian val) = .ok () t
        ∧ (seekTo 0).run t = .ok () u
        ∧ ((vs.map Num.type).mapM (NumType.read FIBER_BYTE_ORDER)).run u = .ok vs v
        ∧ v.m_position = t.m_position ∧ t.m_position = t.m_size)
      ∧ ∀ before x after, vs = before ++ x :: after →
        ∃ t u, (forM before (Num.write FIBER_BYTE_ORDER)).run
              ((Ordered.new base_size).setIsLittleEndian val) = .ok () t
            ∧ (x.write FIBER_BYTE_ORDER).run t = .ok () u
            ∧ t.m_position + x.sizes.1 ≤ u.m_position
            ∧ u.m_position ≤ t.m_position + x.sizes.2 := by
  constructor
  · obtain ⟨t, hwrite, ht⟩ := forM_spec (Num.write_spec FIBER_BYTE_ORDER) vs (written_new h val)
    obtain ⟨u, cap, hseek, hu, -⟩ := seekTo_zero_spec ht
    obtain ⟨v, hread, hv⟩ := mapM_spec (Num.read_spec FIBER_BYTE_ORDER) vs hu
    obtain ⟨hposition, hsize⟩ := ht.position
    refine ⟨t, u, v, hwrite, hseek, hread, ?_, hposition.trans hsize.symm⟩
    rw [hv.position, hposition, Nat.zero_add]
    rfl
  · rintro before x after -
    obtain ⟨t, hwrite, ht⟩ := forM_spec (Num.write_spec FIBER_BYTE_ORDER) before (written_new h val)
    obtain ⟨u, hx, hu⟩ := x.write_spec FIBER_BYTE_ORDER ht
    obtain ⟨hmin, hmax⟩ := x.length_encode
    have hlen := hu.position.1
    rw [List.length_append, ← ht.position.1] at hlen
    refine ⟨t, u, hwrite, hx, ?_, ?_⟩
    · rw [hlen]
      exact Nat.add_le_add_left hmin _
    · rw [hlen]
      exact Nat.add_le_add_left hmax _

/-- Numbers over blocks of three bytes. -/
theorem numbers_roundTrip_blocks :
    ∃ t u v, (forM [.Fint16 (-2), .Int32 (-70000), .Uint64 300, .Fuint8 7]
          (Num.write .FIBER_LITTLE_ENDIAN)).run ((Ordered.new 3).setIsLittleEndian false) = .ok () t
      ∧ (seekTo 0).run t = .ok () u
      ∧ (([.Fint16, .Int32, .Uint64, .Fuint8] : List NumType).mapM
          (NumType.read .FIBER_LITTLE_ENDIAN)).run u
          = .ok [.Fint16 (-2), .Int32 (-70000), .Uint64 300, .Fuint8 7] v
      ∧ v.m_position = t.m_position ∧ t.m_position = t.m_size :=
  (numbers_roundTrip .FIBER_LITTLE_ENDIAN (by decide) false _).1

/-! ### Strings -/

inductive StrKind
  | F16 | F32 | F64 | Vint
  deriving DecidableEq, Repr

/-- A `std::string` with the kind it is written as.  No string has `2 ^ 64` bytes, and the caller
of `writeStringF16` keeps below `65536` of them. -/
structure Str where
  kind : StrKind
  content : List UInt8
  addressable : content.length < 2 ^ 64
  short : kind = .F16 → content.length < 65536

def StrKind.read (FIBER_BYTE_ORDER : Endian) : StrKind → Call (List UInt8)
  | F16 => readStringF16 FIBER_BYTE_ORDER
  | F32 => readStringF32 FIBER_BYTE_ORDER
  | F64 => readStringF64 FIBER_BYTE_ORDER
  | Vint => readStringVint FIBER_BYTE_ORDER

namespace Str

def write (FIBER_BYTE_ORDER : Endian) (x : Str) : Call Unit :=
  match x.kind with
  | .F16 => writeStringF16 FIBER_BYTE_ORDER x.content
  | .F32 => writeStringF32 FIBER_BYTE_ORDER x.content
  | .F64 => writeStringF64 FIBER_BYTE_ORDER x.content
  | .Vint => writeStringVint x.content

/-- The length as it is written. -/
def length (x : Str) : Num :=
  match x.kind with
  | .F16 => .Fuint16 (BitVec.ofNat 16 x.content.length)
  | .F32 => .Fuint32 (BitVec.ofNat 32 x.content.length)
  | .F64 => .Fuint64 (BitVec.ofNat 64 x.content.length)
  | .Vint => .Uint64 (BitVec.ofNat 64 x.content.length)

def encode (e : Endian) (x : Str) : List UInt8 := x.length.encode e ++ x.content

/-- The length is what the prefix says. -/
def Fits (x : Str) : Prop := x.kind = .F32 → x.content.length < 2 ^ 32

/-- How many bytes the string takes: two, four or eight for its length, or a group for every
seven bits of it, and its own. -/
def size (x : Str) : Nat :=
  (match x.kind with
    | .F16 => 2
    | .F32 => 4
    | .F64 => 8
    | .Vint => max 1 (Nat.digits 128 x.content.length).length) + x.content.length

theorem length_encode (x : Str) : (x.encode e).length = x.size := by
  rw [encode, List.length_append, size]
  congr 1
  rw [length]
  cases x.kind with
  | F16 | F32 | F64 => exact length_toMemory _
  | Vint =>
    have hlen : (BitVec.ofNat 64 x.content.length).toNat = x.content.length := by
      rw [BitVec.toNat_ofNat, Nat.mod_eq_of_lt x.addressable]
    show (varint 9 _).length = _
    rw [varint_eq_groups (by decide) (Nat.lt_of_lt_of_le (BitVec.isLt _) (by decide)), hlen,
      length_groups_eq (Nat.lt_of_lt_of_le x.addressable (by decide))]

theorem size_pos (x : Str) : 0 < x.size := by
  rw [size]
  cases x.kind <;> simp only <;> omega

theorem write_spec {old : List UInt8} (x : Str) (h : Written s e base old) :
    ∃ t, (x.write FIBER_BYTE_ORDER).run s = .ok () t ∧ Written t e base (old ++ x.encode e) := by
  obtain ⟨t, hlength, ht⟩ := x.length.write_spec FIBER_BYTE_ORDER h
  obtain ⟨u, hcontent, hu⟩ := writeBytes_spec ht x.content
  have hwrite : x.write FIBER_BYTE_ORDER = writeString (x.length.write FIBER_BYTE_ORDER) x.content := by
    rw [write, length]
    cases x.kind <;> rfl
  refine ⟨u, ?_, ?_⟩
  · rw [hwrite, writeString, EStateM.run_bind, hlength]
    exact hcontent
  · rw [encode, ← List.append_assoc]
    exact hu

/-- The length is read, and it is wrong only if it did not fit. -/
theorem readLength_spec {rest : List UInt8} (x : Str) (h : Holds s e cap pos (x.encode e ++ rest)) :
    ∃ (w : Nat) (readLength : Call (BitVec w)) (len : BitVec w),
      x.kind.read FIBER_BYTE_ORDER = readString readLength
        ∧ Gives readLength s len e cap (pos + (x.length.encode e).length) (x.content ++ rest)
        ∧ (x.Fits → len.toNat = x.content.length) ∧ (¬ x.Fits → len.toNat < x.content.length) := by
  have hfits (w : Nat) (hlt : x.content.length < 2 ^ w) :
      (BitVec.ofNat w x.content.length).toNat = x.content.length := by
    rw [BitVec.toNat_ofNat, Nat.mod_eq_of_lt hlt]
  have hother (hkind : x.kind ≠ .F32) : x.Fits := fun heq => absurd heq hkind
  rw [encode, List.append_assoc] at h
  cases hkind : x.kind with
  | F16 =>
    rw [length, hkind] at h ⊢
    refine ⟨16, readFuint16 FIBER_BYTE_ORDER, _, rfl, ?_, fun _ => hfits 16 (x.short hkind),
      fun hnot => absurd (hother (by simp [hkind])) hnot⟩
    rw [Num.encode, length_toMemory]
    exact readFixed_spec FIBER_BYTE_ORDER (.inl rfl) h
  | F32 =>
    rw [length, hkind] at h ⊢
    refine ⟨32, readFuint32 FIBER_BYTE_ORDER, _, rfl, ?_, fun hx => hfits 32 (hx hkind), fun hnot => ?_⟩
    · rw [Num.encode, length_toMemory]
      exact readFixed_spec FIBER_BYTE_ORDER (.inr (.inl rfl)) h
    · have hlong : 2 ^ 32 ≤ x.content.length :=
        Nat.le_of_not_lt fun hlt => hnot fun _ => hlt
      exact Nat.lt_of_lt_of_le (BitVec.isLt _) hlong
  | F64 =>
    rw [length, hkind] at h ⊢
    refine ⟨64, readFuint64 FIBER_BYTE_ORDER, _, rfl, ?_, fun _ => hfits 64 x.addressable,
      fun hnot => absurd (hother (by simp [hkind])) hnot⟩
    rw [Num.encode, length_toMemory]
    exact readFixed_spec FIBER_BYTE_ORDER (.inr (.inr rfl)) h
  | Vint =>
    rw [length, hkind] at h ⊢
    exact ⟨64, readUint64 FIBER_BYTE_ORDER, _, rfl, readUint64_spec FIBER_BYTE_ORDER h,
      fun _ => hfits 64 x.addressable, fun hnot => absurd (hother (by simp [hkind])) hnot⟩

/-- A string that fits comes back, unless it is empty and the nodes end where it would be. -/
theorem read_spec {rest : List UInt8} (x : Str) (h : Holds s e cap pos (x.encode e ++ rest))
    (hfits : x.Fits) (hend : ¬ (x.content = [] ∧ pos + x.size = cap)) :
    Gives (x.kind.read FIBER_BYTE_ORDER) s x.content e cap (pos + x.size) rest := by
  obtain ⟨w, readLength, len, hread, ⟨t, hrun, ht⟩, hlen, -⟩ := x.readLength_spec FIBER_BYTE_ORDER h
  have hsize : pos + x.size = pos + (x.length.encode e).length + x.content.length := by
    rw [← x.length_encode (e := e), encode, List.length_append, Nat.add_assoc]
  rw [hsize] at hend ⊢
  obtain ⟨u, hcontent, hu⟩ := readBytes_ahead ht hend
  refine ⟨u, ?_, hu⟩
  rw [hread, readString, EStateM.run_bind, hrun]
  simp only [hlen hfits]
  exact hcontent

/-- Otherwise it does not. -/
theorem read_fails {rest : List UInt8} (x : Str) (h : Holds s e cap pos (x.encode e ++ rest))
    (hnot : ¬ x.Fits ∨ x.content = [] ∧ pos + x.size = cap) :
    ∀ t, (x.kind.read FIBER_BYTE_ORDER).run s ≠ .ok x.content t := by
  obtain ⟨w, readLength, len, hread, ⟨t, hrun, ht⟩, hlen, hshort⟩ := x.readLength_spec FIBER_BYTE_ORDER h
  rintro u hok
  rw [hread, readString, EStateM.run_bind, hrun] at hok
  by_cases hfits : x.Fits
  · obtain ⟨hempty, hend⟩ := hnot.resolve_left (not_not.mpr hfits)
    have hzero : len.toNat = 0 := by rw [hlen hfits, hempty, List.length_nil]
    have hpos : pos + (x.length.encode e).length = cap := by
      rw [← hend, ← x.length_encode (e := e), encode, hempty, List.append_nil]
    rw [hpos] at ht
    simp only [hzero, readBytes_zero_end ht] at hok
    cases hok
  · have hlt := hshort hfits
    have htake : (x.content.take len.toNat).length = len.toNat :=
      List.length_take_of_le (Nat.le_of_lt hlt)
    have hsplit : x.content ++ rest
        = x.content.take len.toNat ++ (x.content.drop len.toNat ++ rest) := by
      rw [← List.append_assoc, List.take_append_drop]
    have hle := ht.le
    rw [List.length_append] at hle
    rw [hsplit] at ht
    obtain ⟨v, hbytes, -⟩ := readBytes_ahead ht (by omega)
    rw [htake] at hbytes
    simp only [hbytes, EStateM.Result.ok.injEq] at hok
    rw [hok.1] at htake
    omega

end Str

/-- The strings ahead come back unless one does not fit, or the last one is empty and the nodes
end with it. -/
theorem readStrings_iff (xs : List Str) (h : Holds s e cap pos (xs.flatMap (Str.encode e))) :
    (∃ t, ((xs.map Str.kind).mapM (StrKind.read FIBER_BYTE_ORDER)).run s
        = .ok (xs.map Str.content) t) ↔
      (∀ x ∈ xs, x.Fits)
        ∧ ∀ x, xs.getLast? = some x → x.content = [] → pos + (xs.map Str.size).sum ≠ cap := by
  induction xs generalizing s pos with
  | nil => exact ⟨fun _ => ⟨by simp, by simp⟩, fun _ => ⟨s, rfl⟩⟩
  | cons x xs ih =>
    rw [List.flatMap_cons] at h
    simp only [List.map_cons, List.sum_cons, mapM_cons_ok]
    by_cases hfails : ¬ x.Fits ∨ x.content = [] ∧ pos + x.size = cap
    · refine ⟨fun ⟨_, t, hx, _⟩ => absurd hx (x.read_fails FIBER_BYTE_ORDER h hfails t), ?_⟩
      rintro ⟨hfits, hlast⟩
      obtain ⟨hempty, hend⟩ := hfails.resolve_left (not_not.mpr (hfits x (List.mem_cons_self ..)))
      -- nothing lies behind the end of the nodes
      have hle := h.le
      rw [List.length_append, x.length_encode] at hle
      cases xs with
      | nil => exact absurd (by simpa using hend) (hlast x rfl hempty)
      | cons y ys =>
        have hpos := y.size_pos
        rw [List.flatMap_cons, List.length_append, y.length_encode] at hle
        omega
    · rw [not_or, not_not] at hfails
      obtain ⟨t, hx, ht⟩ := x.read_spec FIBER_BYTE_ORDER h hfails.1 hfails.2
      have hfirst : (∃ u t, (x.kind.read FIBER_BYTE_ORDER).run s = .ok x.content t
            ∧ ((xs.map Str.kind).mapM (StrKind.read FIBER_BYTE_ORDER)).run t
              = .ok (xs.map Str.content) u)
          ↔ ∃ u, ((xs.map Str.kind).mapM (StrKind.read FIBER_BYTE_ORDER)).run t
              = .ok (xs.map Str.content) u := by
        simp [hx]
      rw [hfirst, ih ht, List.forall_mem_cons, Nat.add_assoc]
      constructor
      · rintro ⟨hfits, hlast⟩
        refine ⟨⟨hfails.1, hfits⟩, fun y hy hempty => ?_⟩
        cases xs with
        | nil =>
          obtain rfl : x = y := by simpa using hy
          exact fun heq => hfails.2 ⟨hempty, by simpa using heq⟩
        | cons z zs => exact hlast y (by simpa using hy) hempty
      · rintro ⟨⟨-, hfits⟩, hlast⟩
        refine ⟨hfits, fun y hy => hlast y ?_⟩
        cases xs with
        | nil => simp at hy
        | cons z zs => simpa using hy

/-- The nodes end with the strings exactly if these are whole blocks. -/
theorem sum_size_eq_iff {xs : List Str} {x : Str} (hx : xs.getLast? = some x) (hwhole : base ∣ cap)
    (hle : (xs.map Str.size).sum ≤ cap) (hleast : cap < (xs.map Str.size).sum + base ∨ cap = base) :
    (xs.map Str.size).sum = cap ↔ base ∣ (xs.map Str.size).sum := by
  refine ⟨fun heq => heq ▸ hwhole, fun hdvd => ?_⟩
  have hpos : 0 < (xs.map Str.size).sum := by
    obtain ⟨init, hinit⟩ := List.getLast?_eq_some_iff.mp hx
    have hlast := x.size_pos
    rw [hinit, List.map_append, List.sum_append, List.map_singleton, List.sum_singleton]
    omega
  have hbase := Nat.le_of_dvd hpos hdvd
  rcases hleast with hlt | heq
  · have hzero : cap - (xs.map Str.size).sum = 0 :=
      Nat.eq_zero_of_dvd_of_lt (Nat.dvd_sub hwhole hdvd) (by omega)
    omega
  · omega

/-- The strings that were written, read from the start. -/
theorem seekTo_readStrings_iff {xs : List Str} (h : Written s e base (xs.flatMap (Str.encode e))) :
    (∃ t u, (seekTo 0).run s = .ok () t
        ∧ ((xs.map Str.kind).mapM (StrKind.read FIBER_BYTE_ORDER)).run t
          = .ok (xs.map Str.content) u) ↔
      (∀ x ∈ xs, x.Fits)
        ∧ ∀ x, xs.getLast? = some x → x.content = [] → ¬ base ∣ (xs.map Str.size).sum := by
  obtain ⟨t, cap, hseek, ht, hwhole, hleast⟩ := seekTo_zero_spec h
  have hsize : (xs.flatMap (Str.encode e)).length = (xs.map Str.size).sum := by
    rw [List.length_flatMap]
    congr 1
    exact List.map_congr_left fun x _ => x.length_encode
  have hle := ht.le
  rw [Nat.zero_add, hsize] at hle
  rw [hsize] at hleast
  have hread := readStrings_iff FIBER_BYTE_ORDER xs ht
  rw [Nat.zero_add] at hread
  have hblocks : (∀ x, xs.getLast? = some x → x.content = [] → (xs.map Str.size).sum ≠ cap)
      ↔ ∀ x, xs.getLast? = some x → x.content = [] → ¬ base ∣ (xs.map Str.size).sum :=
    forall_congr' fun x => imp_congr_right fun hx => imp_congr_right fun _ =>
      not_congr (sum_size_eq_iff hx hwhole hle hleast)
  rw [← hblocks, ← hread]
  constructor
  · rintro ⟨t', u, hseek', hrun⟩
    rw [hseek] at hseek'
    cases hseek'
    exact ⟨u, hrun⟩
  · rintro ⟨u, hrun⟩
    exact ⟨t, u, hseek, hrun⟩

/-- **Strings come back** exactly if each length fits its prefix and the data do not end with an
empty string at the end of a block. -/
theorem strings_roundTrip_iff {base_size : Nat} (h : 1 ≤ base_size) (val : Bool) (xs : List Str) :
    (∃ t u v, (forM xs (Str.write FIBER_BYTE_ORDER)).run
          ((Ordered.new base_size).setIsLittleEndian val) = .ok () t
        ∧ (seekTo 0).run t = .ok () u
        ∧ ((xs.map Str.kind).mapM (StrKind.read FIBER_BYTE_ORDER)).run u
          = .ok (xs.map Str.content) v) ↔
      (∀ x ∈ xs, x.kind = .F32 → x.content.length < 2 ^ 32)
        ∧ ∀ x, xs.getLast? = some x → x.content = [] → ¬ base_size ∣ (xs.map Str.size).sum := by
  obtain ⟨t, hwrite, ht⟩ := forM_spec (Str.write_spec FIBER_BYTE_ORDER) xs (written_new h val)
  rw [List.nil_append] at ht
  have hread := seekTo_readStrings_iff FIBER_BYTE_ORDER ht
  constructor
  · rintro ⟨t', u, v, hwrite', hrun⟩
    rw [hwrite] at hwrite'
    cases hwrite'
    exact hread.mp ⟨u, v, hrun⟩
  · intro hfits
    obtain ⟨u, v, hrun⟩ := hread.mpr hfits
    exact ⟨t, u, v, hwrite, hrun⟩

/-- Three strings, the empty one in the middle: nine bytes over blocks of four. -/
theorem strings_roundTrip_iff_blocks :
    ∃ t u v, (forM [⟨.F16, [104, 105], by decide, by decide⟩, ⟨.Vint, [], by decide, by decide⟩,
          ⟨.Vint, [97, 98, 99], by decide, by decide⟩] (Str.write .FIBER_LITTLE_ENDIAN)).run
          ((Ordered.new 4).setIsLittleEndian false) = .ok () t
      ∧ (seekTo 0).run t = .ok () u
      ∧ (([.F16, .Vint, .Vint] : List StrKind).mapM (StrKind.read .FIBER_LITTLE_ENDIAN)).run u
          = .ok [[104, 105], [], [97, 98, 99]] v :=
  (strings_roundTrip_iff .FIBER_LITTLE_ENDIAN (by decide) false _).mpr
    ⟨by simp, by simp⟩

/-- One empty string in a block of two bytes: the read goes through a null pointer. -/
theorem strings_not_roundTrip :
    ¬ ∀ (base_size : Nat) (xs : List Str), 1 ≤ base_size →
      ∃ t u v, (forM xs (Str.write .FIBER_LITTLE_ENDIAN)).run (Ordered.new base_size) = .ok () t
        ∧ (seekTo 0).run t = .ok () u
        ∧ ((xs.map Str.kind).mapM (StrKind.read .FIBER_LITTLE_ENDIAN)).run u
          = .ok (xs.map Str.content) v := by
  intro h
  obtain ⟨t, u, v, hwrite, hrun⟩ := h 2 [⟨.F16, [], by decide, by decide⟩] (by decide)
  obtain ⟨t', hwrite', ht'⟩ := forM_spec (Str.write_spec .FIBER_LITTLE_ENDIAN)
    [⟨.F16, [], by decide, by decide⟩] (written_new (by decide : 1 ≤ 2) false)
  have hnew : (Ordered.new 2).setIsLittleEndian false = Ordered.new 2 := rfl
  rw [hnew, hwrite] at hwrite'
  cases hwrite'
  have hread := (seekTo_readStrings_iff .FIBER_LITTLE_ENDIAN ht').mp ⟨u, v, hrun⟩
  exact hread.2 _ rfl rfl (by decide)

end ByteArray

end FiberServer
