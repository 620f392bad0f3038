import FiberServer.ByteArray.Refinement
import FiberServer.Library.Words

/-!
# The typed calls of `ByteArray`

`writeFint8` to `writeUint64`, the matching reads, and the four kinds of strings.  A call
changes the `ByteArray` and returns a value or fails, so it is an `EStateM`.

A signed and an unsigned integer of one width are the same bits.  `memcpy` from and to an
integer depends on the machine's `FIBER_BYTE_ORDER`, which is a parameter.

* `Holds`: what lies ahead of the cursor.  `readBytes_spec` and one lemma for each way of
  reading a number say what a read makes of it.
* `Written`: a `ByteArray` that was only written to.
-/

namespace FiberServer

namespace ByteArray

open Words Blocks

inductive Endian
  | FIBER_LITTLE_ENDIAN | FIBER_BIG_ENDIAN
  deriving DecidableEq, Repr

/-- A `ByteArray` with its byte order. -/
structure Ordered extends ByteArray where
  m_endian : Endian
  deriving DecidableEq, Repr

inductive Failure
  | error (e : Error)
  /-- a value was made of bytes that nobody has written -/
  | unwritten
  deriving DecidableEq, Repr

abbrev Call := EStateM Failure Ordered

namespace Ordered

def new (base_size : Nat) : Ordered where
  toByteArray := .new base_size
  m_endian := .FIBER_BIG_ENDIAN

def setIsLittleEndian (s : Ordered) (val : Bool) : Ordered :=
  { s with m_endian := if val then .FIBER_LITTLE_ENDIAN else .FIBER_BIG_ENDIAN }

end Ordered

/-- A call of the untyped `ByteArray`. -/
def Call.untyped (f : ByteArray → ByteArray × Reply) : Call (List Byte) := fun s =>
  match (f s.toByteArray).2 with
  | .ok bytes => .ok bytes { s with toByteArray := (f s.toByteArray).1 }
  | .error e => .error (.error e) { s with toByteArray := (f s.toByteArray).1 }

def writeBytes (buf : List UInt8) : Call Unit :=
  discard (Call.untyped fun s => s.write (buf.map some))

def readBytes (size : Nat) : Call (List UInt8) := do
  match (← Call.untyped fun s => s.read size).mapM id with
  | some buf => pure buf
  | none => throw .unwritten

def seekTo (v : Nat) : Call Unit := discard (Call.untyped fun s => s.setPosition v)

section

variable (FIBER_BYTE_ORDER : Endian)

/-! ### Integers of a fixed length -/

/-- `memcpy` from an integer. -/
def toMemory {n : Nat} (value : BitVec (8 * n)) : List UInt8 :=
  match FIBER_BYTE_ORDER with
  | .FIBER_LITTLE_ENDIAN => bytes value
  | .FIBER_BIG_ENDIAN => (bytes value).reverse

/-- `memcpy` into an integer. -/
def ofMemory (n : Nat) (buf : List UInt8) : BitVec (8 * n) :=
  match FIBER_BYTE_ORDER with
  | .FIBER_LITTLE_ENDIAN => Words.ofBytes n buf
  | .FIBER_BIG_ENDIAN => Words.ofBytes n buf.reverse

/-- `byteswap`, by `bswap_16`, `bswap_32` and `bswap_64`. -/
def byteswap {n : Nat} (value : BitVec (8 * n)) : BitVec (8 * n) :=
  if n = 2 ∨ n = 4 ∨ n = 8 then swap value else value

/-- `if(m_endian != FIBER_BYTE_ORDER) value = byteswap(value); write(&value, sizeof(value));`. -/
def writeFixed {n : Nat} (value : BitVec (8 * n)) : Call Unit := do
  let s ← get
  writeBytes (toMemory FIBER_BYTE_ORDER
    (if s.m_endian ≠ FIBER_BYTE_ORDER then byteswap value else value))

/-- `read(&v, sizeof(v)); return m_endian == FIBER_BYTE_ORDER ? v : byteswap(v);`. -/
def readFixed (n : Nat) : Call (BitVec (8 * n)) := do
  let v := ofMemory FIBER_BYTE_ORDER n (← readBytes n)
  let s ← get
  return if s.m_endian = FIBER_BYTE_ORDER then v else byteswap v

def writeFint8 (value : BitVec 8) : Call Unit := writeBytes (toMemory (n := 1) FIBER_BYTE_ORDER value)
def writeFuint8 (value : BitVec 8) : Call Unit := writeBytes (toMemory (n := 1) FIBER_BYTE_ORDER value)
def writeFint16 (value : BitVec 16) : Call Unit := writeFixed (n := 2) FIBER_BYTE_ORDER value
def writeFuint16 (value : BitVec 16) : Call Unit := writeFixed (n := 2) FIBER_BYTE_ORDER value
def writeFint32 (value : BitVec 32) : Call Unit := writeFixed (n := 4) FIBER_BYTE_ORDER value
def writeFuint32 (value : BitVec 32) : Call Unit := writeFixed (n := 4) FIBER_BYTE_ORDER value
def writeFint64 (value : BitVec 64) : Call Unit := writeFixed (n := 8) FIBER_BYTE_ORDER value
def writeFuint64 (value : BitVec 64) : Call Unit := writeFixed (n := 8) FIBER_BYTE_ORDER value

def readFint8 : Call (BitVec 8) := return ofMemory FIBER_BYTE_ORDER 1 (← readBytes 1)
def readFuint8 : Call (BitVec 8) := return ofMemory FIBER_BYTE_ORDER 1 (← readBytes 1)
def readFint16 : Call (BitVec 16) := readFixed FIBER_BYTE_ORDER 2
def readFuint16 : Call (BitVec 16) := readFixed FIBER_BYTE_ORDER 2
def readFint32 : Call (BitVec 32) := readFixed FIBER_BYTE_ORDER 4
def readFuint32 : Call (BitVec 32) := readFixed FIBER_BYTE_ORDER 4
def readFint64 : Call (BitVec 64) := readFixed FIBER_BYTE_ORDER 8
def readFuint64 : Call (BitVec 64) := readFixed FIBER_BYTE_ORDER 8

/-! ### Integers of variable length -/

def EncodeZigzag32 (v : BitVec 32) : BitVec 32 := zigzag v
def EncodeZigzag64 (v : BitVec 64) : BitVec 64 := zigzag v
def DecodeZigzag32 (v : BitVec 32) : BitVec 32 := unzigzag v
def DecodeZigzag64 (v : BitVec 64) : BitVec 64 := unzigzag v

/-- The loop of `writeUint32` and `writeUint64`.  `tmp` has room for `n + 1` bytes;
`varint_eq_groups` shows that the loop ends by its own test. -/
def varint {w : Nat} : Nat → BitVec w → List UInt8
  | 0, value => [UInt8.ofBitVec (value.setWidth 8)]
  | n + 1, value =>
    if 0x80 ≤ value then
      UInt8.ofBitVec ((value &&& 0x7F ||| 0x80).setWidth 8) :: varint n (value >>> 7)
    else [UInt8.ofBitVec (value.setWidth 8)]

def writeUint32 (value : BitVec 32) : Call Unit := writeBytes (varint 4 value)
def writeUint64 (value : BitVec 64) : Call Unit := writeBytes (varint 9 value)
def writeInt32 (value : BitVec 32) : Call Unit := writeUint32 (EncodeZigzag32 value)
def writeInt64 (value : BitVec 64) : Call Unit := writeUint64 (EncodeZigzag64 value)

/-- `for(int i = 0; i < w; i += 7)` of `readUint32` and `readUint64`; `fuel` bounds the number
of rounds. -/
def readVarint (w : Nat) : (fuel i : Nat) → BitVec w → Call (BitVec w)
  | 0, _, result => pure result
  | fuel + 1, i, result =>
    if i < w then do
      let b ← readFuint8 FIBER_BYTE_ORDER
      if b < 0x80 then pure (result ||| b.setWidth w <<< i)
      else readVarint w fuel (i + 7) (result ||| (b &&& 0x7F).setWidth w <<< i)
    else pure result

def readUint32 : Call (BitVec 32) := readVarint FIBER_BYTE_ORDER 32 32 0 0
def readUint64 : Call (BitVec 64) := readVarint FIBER_BYTE_ORDER 64 64 0 0
def readInt32 : Call (BitVec 32) := return DecodeZigzag32 (← readUint32 FIBER_BYTE_ORDER)
def readInt64 : Call (BitVec 64) := return DecodeZigzag64 (← readUint64 FIBER_BYTE_ORDER)

/-! ### Strings -/

/-- The length of the string, then its bytes. -/
def writeString (writeLength : Call Unit) (value : List UInt8) : Call Unit := do
  writeLength
  writeBytes value

/-- `buff.resize(len); read(&buff[0], len);`. -/
def readString {w : Nat} (readLength : Call (BitVec w)) : Call (List UInt8) := do
  let len ← readLength
  readBytes len.toNat

def writeStringF16 (value : List UInt8) : Call Unit :=
  writeString (writeFuint16 FIBER_BYTE_ORDER (BitVec.ofNat 16 value.length)) value
def writeStringF32 (value : List UInt8) : Call Unit :=
  writeString (writeFuint32 FIBER_BYTE_ORDER (BitVec.ofNat 32 value.length)) value
def writeStringF64 (value : List UInt8) : Call Unit :=
  writeString (writeFuint64 FIBER_BYTE_ORDER (BitVec.ofNat 64 value.length)) value
def writeStringVint (value : List UInt8) : Call Unit :=
  writeString (writeUint64 (BitVec.ofNat 64 value.length)) value

def readStringF16 : Call (List UInt8) := readString (readFuint16 FIBER_BYTE_ORDER)
def readStringF32 : Call (List UInt8) := readString (readFuint32 FIBER_BYTE_ORDER)
def readStringF64 : Call (List UInt8) := readString (readFuint64 FIBER_BYTE_ORDER)
def readStringVint : Call (List UInt8) := readString (readUint64 FIBER_BYTE_ORDER)

end

/-! ### What lies ahead -/

/-- From the cursor at `pos` to the end the contents are `ahead`; the nodes have room for
`cap` bytes. -/
structure Holds (s : Ordered) (e : Endian) (cap pos : Nat) (ahead : List UInt8) : Prop where
  endian : s.m_endian = e
  flat : ∃ f : Flat, Refines s.toByteArray f ∧ f.bytes.length = cap ∧ f.position = pos
    ∧ f.contents.drop pos = ahead.map some

theorem Holds.position {s : Ordered} {e : Endian} {cap pos : Nat} {ahead : List UInt8}
    (h : Holds s e cap pos ahead) : s.m_position = pos := by
  obtain ⟨-, f, hf, -, rfl, -⟩ := h
  exact hf.position

theorem untyped_ok {f : ByteArray → ByteArray × Reply} {s : Ordered} {buf : List Byte}
    (h : (f s.toByteArray).2 = .ok buf) :
    (Call.untyped f).run s = .ok buf { s with toByteArray := (f s.toByteArray).1 } := by
  simp only [EStateM.run, Call.untyped, h]

theorem discard_ok {α : Type} {c : Call α} {a : α} {s t : Ordered} (h : c.run s = .ok a t) :
    (discard c).run s = .ok () t := by
  rw [EStateM.run] at h
  simp only [EStateM.run, discard, Functor.discard, Functor.mapConst, EStateM.map, h, Function.comp]

theorem mapM_id_map_some (buf : List UInt8) : (buf.map some).mapM id = some buf := by
  induction buf with
  | nil => rfl
  | cons b buf ih => simp [List.mapM_cons, ih]

/-- **A read** of the bytes ahead. -/
theorem readBytes_spec {s : Ordered} {e : Endian} {cap pos : Nat} {buf rest : List UInt8}
    (h : Holds s e cap pos (buf ++ rest)) (hbuf : buf ≠ []) :
    ∃ t, (readBytes buf.length).run s = .ok buf t ∧ Holds t e cap (pos + buf.length) rest := by
  obtain ⟨hend, f, hf, hcap, rfl, hahead⟩ := h
  have hpos : 0 < buf.length := List.length_pos_iff.mpr hbuf
  have hlen := congrArg List.length hahead
  rw [List.length_drop, Flat.length_contents, List.length_map, List.length_append] at hlen
  have hin : f.position + buf.length ≤ f.size := by omega
  obtain ⟨hrefines, hreply⟩ := read_refines hf hpos
  have hread := f.contents_read hin
  have hslice : slice f.contents f.position buf.length = buf.map some := by
    rw [slice, hahead, List.map_append, List.take_left' (List.length_map _)]
  rw [hslice] at hread
  rw [hread] at hreply
  refine ⟨{ s with toByteArray := (s.toByteArray.read buf.length).1 }, ?_, hend,
    (f.read buf.length).1, hrefines, ?_, ?_, ?_⟩
  · rw [readBytes, EStateM.run_bind, untyped_ok hreply]
    simp only [mapM_id_map_some]
    rfl
  · rw [Flat.read, dif_pos hin]
    exact hcap
  · rw [Flat.read, dif_pos hin]
  · have hcontents : (f.read buf.length).1.contents = f.contents := by
      rw [Flat.read, dif_pos hin]
      rfl
    rw [hcontents, ← List.drop_drop, hahead, List.map_append, List.drop_left' (List.length_map _)]

theorem Holds.le {s : Ordered} {e : Endian} {cap pos : Nat} {ahead : List UInt8}
    (h : Holds s e cap pos ahead) : pos + ahead.length ≤ cap := by
  obtain ⟨-, f, -, rfl, rfl, hahead⟩ := h
  have hlen := congrArg List.length hahead
  rw [List.length_drop, Flat.length_contents, List.length_map] at hlen
  have hsize := f.size_le
  have hposition := f.position_le
  omega

/-- A copy of no bytes looks at the current node. -/
theorem copyFrom_zero (s : ByteArray) (buf : List Byte) :
    copyFrom fetch s buf 0 = s.cur.map fun _ => (s, buf) := by
  have hloop (npos ncap : Nat) : copyLoop fetch s.nodes.length s buf npos ncap 0 = .ok (s, buf) := by
    cases s.nodes.length <;> rw [copyLoop, if_pos rfl]
  rw [copyFrom]
  cases hcur : s.cur with
  | error e => rfl
  | ok found => exact hloop _ _

/-- Before the end of the last node, a read of no bytes does nothing. -/
theorem readBytes_zero {s : Ordered} {e : Endian} {cap pos : Nat} {ahead : List UInt8}
    (h : Holds s e cap pos ahead) (hlt : pos < cap) : (readBytes 0).run s = .ok [] s := by
  obtain ⟨-, f, hf, rfl, rfl, -⟩ := h
  rw [← hf.capacity, ← hf.position] at hlt
  have hread : s.toByteArray.read 0 = (s.toByteArray, .ok []) := by
    rw [ByteArray.read, if_neg (Nat.not_lt_zero _), copyFrom_zero, cur_eq (hf.cur_of_lt hlt)
      (hf.cur_lt hlt)]
    rfl
  have hrun := untyped_ok (f := fun s => s.read 0) (s := s) (congrArg Prod.snd hread)
  rw [hread] at hrun
  rw [readBytes, EStateM.run_bind, hrun]
  rfl

/-- At the end of the last node, it goes through a null pointer. -/
theorem readBytes_zero_end {s : Ordered} {e : Endian} {cap : Nat} {ahead : List UInt8}
    (h : Holds s e cap cap ahead) : (readBytes 0).run s = .error (.error .nullNode) s := by
  obtain ⟨-, f, hf, hcap, hpos, -⟩ := h
  have hcur : s.cur = .error .nullNode := by
    have hnull := hf.wf.cur
    rw [if_pos (by rw [hf.position, hf.capacity, hcap, hpos])] at hnull
    rw [ByteArray.cur, hnull]
  have hread : s.toByteArray.read 0 = (s.toByteArray, .error .nullNode) := by
    rw [ByteArray.read, if_neg (Nat.not_lt_zero _), copyFrom_zero, hcur]
    rfl
  have hrun : (Call.untyped fun s => s.read 0).run s = .error (.error .nullNode) s := by
    simp only [EStateM.run, Call.untyped, hread]
  rw [readBytes, EStateM.run_bind, hrun]

theorem Holds.getReadSize {s : Ordered} {e : Endian} {cap pos : Nat} {ahead : List UInt8}
    (h : Holds s e cap pos ahead) : s.getReadSize = ahead.length := by
  obtain ⟨-, f, hf, -, rfl, hahead⟩ := h
  have hlen := congrArg List.length hahead
  rw [List.length_drop, Flat.length_contents, List.length_map] at hlen
  rw [ByteArray.getReadSize, hf.size, hf.position, hlen]

/-- Too few bytes. -/
theorem readBytes_short {s : Ordered} {e : Endian} {cap pos n : Nat} {ahead : List UInt8}
    (h : Holds s e cap pos ahead) (hlt : ahead.length < n) :
    (readBytes n).run s = .error (.error .out_of_range) s := by
  have hread : s.toByteArray.read n = (s.toByteArray, .error .out_of_range) := by
    rw [ByteArray.read, if_pos (by rw [h.getReadSize]; exact hlt)]
  have hrun : (Call.untyped fun s => s.read n).run s = .error (.error .out_of_range) s := by
    simp only [EStateM.run, Call.untyped, hread]
  rw [readBytes, EStateM.run_bind, hrun]

/-- The exception of the first call is that of the sequence. -/
theorem bind_error {α β : Type} {c : Call α} {f : α → Call β} {s t : Ordered} {err : Failure}
    (h : c.run s = .error err t) : (c >>= f).run s = .error err t := by
  rw [EStateM.run_bind, h]

/-! ### Reading a number -/

section

variable (FIBER_BYTE_ORDER : Endian) {e : Endian} {s : Ordered} {cap pos n : Nat} {rest : List UInt8}

@[simp] theorem length_toMemory (value : BitVec (8 * n)) : (toMemory e value).length = n := by
  cases e <;> simp [toMemory]

theorem ofMemory_toMemory (value : BitVec (8 * n)) : ofMemory e n (toMemory e value) = value := by
  cases e with
  | FIBER_LITTLE_ENDIAN => exact Words.ofBytes_bytes value
  | FIBER_BIG_ENDIAN => rw [ofMemory, toMemory, List.reverse_reverse, Words.ofBytes_bytes]

/-- The byte order decides which bytes are written, whatever that of the machine is. -/
theorem toMemory_byteswap (hn : n = 2 ∨ n = 4 ∨ n = 8) (value : BitVec (8 * n)) :
    toMemory FIBER_BYTE_ORDER (if e ≠ FIBER_BYTE_ORDER then byteswap value else value)
      = toMemory e value := by
  cases e <;> cases FIBER_BYTE_ORDER <;>
    simp [toMemory, byteswap, hn, bytes_swap]

theorem byteswap_ofMemory (hn : n = 2 ∨ n = 4 ∨ n = 8) (value : BitVec (8 * n)) :
    (if e = FIBER_BYTE_ORDER then ofMemory FIBER_BYTE_ORDER n (toMemory e value)
      else byteswap (ofMemory FIBER_BYTE_ORDER n (toMemory e value))) = value := by
  have hmemory := toMemory_byteswap FIBER_BYTE_ORDER (e := e) hn value
  rw [← hmemory, ofMemory_toMemory]
  by_cases heq : e = FIBER_BYTE_ORDER
  · rw [if_pos heq, if_neg (not_not.mpr heq)]
  · rw [if_neg heq, if_pos heq, byteswap, if_pos hn, byteswap, if_pos hn, swap_swap]

theorem readFixed_spec (hn : n = 2 ∨ n = 4 ∨ n = 8) {value : BitVec (8 * n)}
    (h : Holds s e cap pos (toMemory e value ++ rest)) :
    ∃ t, (readFixed FIBER_BYTE_ORDER n).run s = .ok value t ∧ Holds t e cap (pos + n) rest := by
  have hne : toMemory e value ≠ [] := by
    rw [← List.length_pos_iff, length_toMemory]
    omega
  obtain ⟨t, hread, ht⟩ := readBytes_spec h hne
  rw [length_toMemory] at hread ht
  refine ⟨t, ?_, ht⟩
  rw [readFixed, EStateM.run_bind, hread]
  show (EStateM.Result.ok _ t : EStateM.Result Failure Ordered _) = _
  rw [ht.endian, byteswap_ofMemory FIBER_BYTE_ORDER hn]

theorem toMemory_toBitVec (b : UInt8) : toMemory (n := 1) e b.toBitVec = [b] := by
  have hbytes : bytes (n := 1) b.toBitVec = [b] := by
    show [UInt8.ofNat b.toNat] = [b]
    rw [UInt8.ofNat_toNat]
  cases e <;> simp [toMemory, hbytes]

theorem readFuint8_spec {b : UInt8} (h : Holds s e cap pos (b :: rest)) :
    ∃ t, (readFuint8 FIBER_BYTE_ORDER).run s = .ok b.toBitVec t ∧ Holds t e cap (pos + 1) rest := by
  have hahead : Holds s e cap pos ([b] ++ rest) := h
  obtain ⟨t, hread, ht⟩ := readBytes_spec hahead (by simp)
  refine ⟨t, ?_, ht⟩
  have hread' : (readBytes 1).run s = .ok [b] t := hread
  rw [readFuint8, EStateM.run_bind, hread', ← toMemory_toBitVec (e := FIBER_BYTE_ORDER)]
  show (EStateM.Result.ok _ t : EStateM.Result Failure Ordered _) = _
  rw [ofMemory_toMemory]

/-! ### Groups of seven bits -/

theorem toNat_literal {w k : Nat} (hw : 8 ≤ w) (hk : k < 2 ^ 8) : (BitVec.ofNat w k).toNat = k :=
  Nat.mod_eq_of_lt (Nat.lt_of_lt_of_le hk (Nat.pow_le_pow_right (by decide) hw))

/-- The last group. -/
theorem group_last {w : Nat} (value : BitVec w) :
    UInt8.ofBitVec (value.setWidth 8) = UInt8.ofNat value.toNat := by
  apply UInt8.toNat_inj.mp
  rw [UInt8.toNat_ofBitVec, BitVec.toNat_setWidth, UInt8.toNat_ofNat']

/-- A group with the high bit set. -/
theorem group_more {w : Nat} (hw : 8 ≤ w) (value : BitVec w) :
    UInt8.ofBitVec ((value &&& 0x7F ||| 0x80).setWidth 8)
      = UInt8.ofNat (value.toNat % 128 + 128) := by
  have h7F : (0x7F : BitVec w).toNat = 127 := toNat_literal hw (by decide)
  have h80 : (0x80 : BitVec w).toNat = 128 := toNat_literal hw (by decide)
  have hor : value.toNat % 128 ||| 128 = value.toNat % 128 + 128 := by
    have hadd := Nat.two_pow_add_eq_or_of_lt (i := 7) (Nat.mod_lt value.toNat (by decide)) 1
    rw [Nat.or_comm, Nat.add_comm]
    exact hadd.symm
  apply UInt8.toNat_inj.mp
  rw [UInt8.toNat_ofBitVec, BitVec.toNat_setWidth, BitVec.toNat_or, BitVec.toNat_and, h7F, h80,
    Nat.and_two_pow_sub_one_eq_mod _ 7, hor, UInt8.toNat_ofNat']

/-- The loop writes the groups of the value, and its own test ends it. -/
theorem varint_eq_groups {w : Nat} (hw : 8 ≤ w) :
    ∀ {n : Nat} {value : BitVec w}, value.toNat < 128 ^ (n + 1) →
      varint n value = groups n value.toNat := by
  have h80 : (0x80 : BitVec w).toNat = 128 := toNat_literal hw (by decide)
  intro n
  induction n with
  | zero =>
    intro value _
    rw [varint, groups, group_last]
  | succ n ih =>
    intro value hlt
    have hmore : (0x80 ≤ value) ↔ 128 ≤ value.toNat := by rw [BitVec.le_def, h80]
    have hnext : (value >>> 7).toNat = value.toNat / 128 := by
      rw [BitVec.toNat_ushiftRight, Nat.shiftRight_eq_div_pow]
    have hsmall : (value >>> 7).toNat < 128 ^ (n + 1) := by
      rw [hnext, Nat.div_lt_iff_lt_mul (by decide)]
      exact hlt
    rw [varint, groups, group_more hw, group_last, ih hsmall, hnext]
    simp only [hmore]

/-- One more group in front. -/
theorem ofNat_group {w a m : Nat} (ha : a < 128) :
    BitVec.ofNat w (a + 128 * m) = BitVec.ofNat w a ||| BitVec.ofNat w m <<< 7 := by
  have hor : a + 128 * m = a ||| m * 2 ^ 7 := by
    have hadd := Nat.two_pow_add_eq_or_of_lt (i := 7) ha m
    rw [Nat.or_comm, Nat.mul_comm m, ← hadd, Nat.add_comm]
  apply BitVec.eq_of_toNat_eq
  rw [BitVec.toNat_or, BitVec.toNat_shiftLeft, Nat.shiftLeft_eq]
  simp only [BitVec.toNat_ofNat]
  rw [hor, Nat.or_mod_two_pow, Nat.mod_mul_mod]

theorem group_eq {w : Nat} (b : UInt8) :
    (b.toBitVec &&& 0x7F).setWidth w = BitVec.ofNat w (b.toNat % 128) := by
  have h7F : (0x7F : BitVec 8).toNat = 127 := rfl
  rw [← BitVec.ofNat_toNat, BitVec.toNat_and, h7F, Nat.and_two_pow_sub_one_eq_mod _ 7]
  rfl

theorem readVarint_end {w fuel i : Nat} (hi : ¬ i < w) (result : BitVec w) :
    readVarint FIBER_BYTE_ORDER w fuel i result = pure result := by
  cases fuel with
  | zero => rfl
  | succ fuel => rw [readVarint, if_neg hi]

/-- The loop takes off what `ungroup` takes off, or the bytes end inside the number. -/
theorem readVarint_spec {w : Nat} : ∀ {n fuel i : Nat} {s : Ordered} {pos : Nat} {result : BitVec w}
      {ahead : List UInt8}, n = (w - i + 6) / 7 → n ≤ fuel → Holds s e cap pos ahead →
      (∀ m rest, ungroup n ahead = some (m, rest) →
        ∃ t k, (readVarint FIBER_BYTE_ORDER w fuel i result).run s
            = .ok (result ||| BitVec.ofNat w m <<< i) t
          ∧ rest.length + k = ahead.length ∧ Holds t e cap (pos + k) rest)
      ∧ (ungroup n ahead = none →
        ∃ t, (readVarint FIBER_BYTE_ORDER w fuel i result).run s = .error (.error .out_of_range) t
          ∧ t.m_position = pos + ahead.length ∧ (ahead = [] → t = s)) := by
  intro n
  induction n with
  | zero =>
    intro fuel i s pos result ahead hn _ h
    refine ⟨fun m rest hm => ?_, fun hnone => by cases hnone⟩
    obtain ⟨rfl, rfl⟩ := Prod.mk.inj (Option.some.inj hm)
    rw [readVarint_end FIBER_BYTE_ORDER (by omega)]
    refine ⟨s, 0, ?_, rfl, h⟩
    simp
  | succ n ih =>
    intro fuel i s pos result ahead hn hfuel h
    obtain ⟨fuel, rfl⟩ : ∃ k, fuel = k + 1 := ⟨fuel - 1, by omega⟩
    rw [readVarint, if_pos (by omega)]
    cases ahead with
    | nil =>
      refine ⟨(fun m rest hm => by cases hm), fun _ => ⟨s, ?_, h.position, fun _ => rfl⟩⟩
      exact bind_error (bind_error (readBytes_short h Nat.one_pos))
    | cons b bs =>
      obtain ⟨t, hread, ht⟩ := readFuint8_spec FIBER_BYTE_ORDER h
      have hlt : b < 0x80 ↔ b.toBitVec < 0x80 := Iff.rfl
      rw [ungroup, EStateM.run_bind, hread]
      simp only [hlt]
      by_cases hlast : b.toBitVec < 0x80
      · rw [if_pos hlast, if_pos hlast]
        refine ⟨fun m rest hm => ?_, fun hnone => by cases hnone⟩
        obtain ⟨rfl, rfl⟩ := Prod.mk.inj (Option.some.inj hm)
        refine ⟨t, 1, ?_, rfl, ht⟩
        rw [← UInt8.toNat_toBitVec, BitVec.ofNat_toNat]
        rfl
      · rw [if_neg hlast, if_neg hlast]
        obtain ⟨hok, herror⟩ := @ih fuel (i + 7) t (pos + 1)
          (result ||| (b.toBitVec &&& 0x7F).setWidth w <<< i) bs (by omega)
          (Nat.le_of_succ_le_succ hfuel) ht
        refine ⟨fun m rest hm => ?_, fun hnone => ?_⟩
        · obtain ⟨⟨m', rest'⟩, hm', heq⟩ := Option.map_eq_some_iff.mp hm
          obtain ⟨rfl, rfl⟩ := Prod.mk.inj heq
          obtain ⟨u, k, hrun, hlen, hu⟩ := hok m' rest' hm'
          refine ⟨u, 1 + k, ?_, ?_, ?_⟩
          · rw [hrun, ofNat_group (Nat.mod_lt _ (by decide)), group_eq, BitVec.shiftLeft_or_distrib,
              ← BitVec.shiftLeft_add, Nat.add_comm 7, BitVec.or_assoc]
          · have hlen' : rest'.length + k = bs.length := hlen
            rw [List.length_cons, ← hlen', Nat.add_comm 1, Nat.add_assoc]
          · rw [← Nat.add_assoc]
            exact hu
        · obtain ⟨u, hrun, hposition, -⟩ := herror (Option.map_eq_none_iff.mp hnone)
          refine ⟨u, hrun, ?_, fun hnil => by cases hnil⟩
          rw [hposition, List.length_cons]
          omega

end

/-! ### Writing at the end -/

/-- The room of a flat buffer that was only written to: whole nodes, and no more of them
than needed. -/
structure Snug (f : Flat) : Prop where
  position : f.position = f.size
  whole : f.base ∣ f.bytes.length
  least : f.bytes.length < f.size + f.base ∨ f.bytes.length = f.base

theorem Snug.write {f : Flat} (h : Snug f) (buf : List Byte) : Snug (f.write buf) := by
  obtain ⟨hposition, hwhole, hleast⟩ := h
  have hsize := f.size_le
  have hbase := f.base_pos
  have hlen : (f.write buf).bytes.length = f.bytes.length + f.lack buf.length * f.base := by
    show (overwrite (f.room buf.length) f.position buf).length = _
    rw [length_overwrite (f.le_room buf.length), Flat.length_room]
  have hnew : (f.write buf).size = f.size + buf.length := by
    show max f.size (f.position + buf.length) = _
    omega
  refine ⟨?_, ?_, ?_⟩
  · rw [hnew, ← hposition]
    rfl
  · rw [hlen]
    exact Nat.dvd_add hwhole (Nat.dvd_mul_left _ _)
  · rw [hlen, hnew]
    show _ < _ + f.base ∨ _ = f.base
    have hdiv := Nat.div_mul_le_self (buf.length - (f.bytes.length - f.position) + f.base - 1) f.base
    have hlack : f.lack buf.length * f.base
        ≤ buf.length - (f.bytes.length - f.position) + f.base - 1 := hdiv
    by_cases hfits : buf.length ≤ f.bytes.length - f.position
    · have hnone : f.lack buf.length = 0 := by
        rw [Flat.lack, Nat.sub_eq_zero_of_le hfits, Nat.zero_add]
        exact Nat.div_eq_of_lt (by omega)
      rw [hnone, Nat.zero_mul, Nat.add_zero]
      omega
    · omega

/-- A `ByteArray` to which exactly `buf` was written. -/
structure Written (s : Ordered) (e : Endian) (base : Nat) (buf : List UInt8) : Prop where
  endian : s.m_endian = e
  flat : ∃ f : Flat, Refines s.toByteArray f ∧ f.base = base ∧ Snug f ∧ f.contents = buf.map some

theorem Written.position {s : Ordered} {e : Endian} {base : Nat} {buf : List UInt8}
    (h : Written s e base buf) : s.m_position = buf.length ∧ s.m_size = buf.length := by
  obtain ⟨-, f, hf, -, hsnug, hcontents⟩ := h
  have hsize : f.size = buf.length := by rw [← f.length_contents, hcontents, List.length_map]
  exact ⟨by rw [hf.position, hsnug.position, hsize], by rw [hf.size, hsize]⟩

theorem written_new {base_size : Nat} (h : 1 ≤ base_size) (val : Bool) :
    Written ((Ordered.new base_size).setIsLittleEndian val)
      (if val then .FIBER_LITTLE_ENDIAN else .FIBER_BIG_ENDIAN) base_size [] :=
  ⟨rfl, Flat.new base_size h, new_refines h, rfl,
    ⟨rfl, by simp [Flat.new], .inr (by simp [Flat.new])⟩, rfl⟩

/-- **A write** adds to the end. -/
theorem writeBytes_spec {s : Ordered} {e : Endian} {base : Nat} {old : List UInt8}
    (h : Written s e base old) (buf : List UInt8) :
    ∃ t, (writeBytes buf).run s = .ok () t ∧ Written t e base (old ++ buf) := by
  obtain ⟨hend, f, hf, hbase, hsnug, hcontents⟩ := h
  obtain ⟨hrefines, hreply⟩ := write_refines hf (buf.map some)
  refine ⟨{ s with toByteArray := (s.toByteArray.write (buf.map some)).1 }, ?_, hend,
    f.write (buf.map some), hrefines, hbase, hsnug.write _, ?_⟩
  · exact discard_ok (untyped_ok hreply)
  · have hlen : f.position = f.contents.length := by rw [hsnug.position, f.length_contents]
    rw [f.contents_write, hlen, overwrite, List.take_length, List.drop_eq_nil_of_le (by omega),
      List.append_nil, hcontents, List.map_append]

/-- Back at the start everything lies ahead. -/
theorem seekTo_zero_spec {s : Ordered} {e : Endian} {base : Nat} {buf : List UInt8}
    (h : Written s e base buf) :
    ∃ t cap, (seekTo 0).run s = .ok () t ∧ Holds t e cap 0 buf ∧ base ∣ cap
      ∧ (cap < buf.length + base ∨ cap = base) := by
  obtain ⟨hend, f, hf, rfl, hsnug, hcontents⟩ := h
  obtain ⟨hrefines, hreply⟩ := setPosition_refines hf 0
  have hsize : f.size = buf.length := by rw [← f.length_contents, hcontents, List.length_map]
  have hok : f.setPosition 0 = ({ f with
      size := max f.size 0
      position := 0
      position_le := Nat.le_max_right ..
      size_le := Nat.max_le.mpr ⟨f.size_le, Nat.zero_le _⟩ }, .ok []) := dif_pos (Nat.zero_le _)
  rw [hok] at hrefines hreply
  refine ⟨{ s with toByteArray := (s.toByteArray.setPosition 0).1 }, f.bytes.length, ?_,
    ⟨hend, _, hrefines, rfl, rfl, ?_⟩, hsnug.whole, hsize ▸ hsnug.least⟩
  · exact discard_ok (untyped_ok hreply)
  · show (f.bytes.take (max f.size 0)).drop 0 = buf.map some
    rw [Nat.max_zero, List.drop_zero]
    exact hcontents

end ByteArray

end FiberServer
