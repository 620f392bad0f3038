import FiberServer.Artifact.Metadata
import FiberServer.ByteArray.Buffers

/-!
# `writeToFile` and `readFromFile`

`writeToFile` gives one range of each node to `ofs.write`.  It takes the length of a range from what
is left to write and the block size, whichever is less, and takes the offset in the block from
that.

* `readFromFile_spec`: `readFromFile` appends the bytes of the file.
* `writeLoop_aligned`: from the beginning of a block on, the ranges are right.
* `exported_iff`: when they are, wherever the cursor is.
-/

namespace FiberServer

open Blocks
open TypeUtil (wrap)

namespace ByteArray

inductive FileError
  | nullNode
  /-- a range that is not inside of its node -/
  | outside
  deriving DecidableEq, Repr

/-- `int diff = pos % m_baseSize` -/
def diff (s : ByteArray) (pos : Int) : Int := wrap 32 (pos % s.m_baseSize)

/-- `int64_t len = (read_size > (int64_t)m_baseSize ? m_baseSize : read_size) - diff` -/
def len (s : ByteArray) (pos read_size : Int) : Int :=
  wrap 64 ((if wrap 64 s.m_baseSize < read_size then (s.m_baseSize : Int) else read_size)
    - s.diff pos)

/-- `while(read_size > 0)`, with the ranges for `ofs.write`.  A node is visited once, so `fuel` is
the number of nodes. -/
def writeLoop (s : ByteArray) : Nat → Option Nat → Int → Int → Except FileError (List Iovec)
  | 0, _, _, read_size => if read_size ≤ 0 then .ok [] else .error .nullNode
  | fuel + 1, cur, pos, read_size =>
    if read_size ≤ 0 then .ok []
    else
      match cur with
      | none => .error .nullNode
      | some i =>
        match s.nodes[i]? with
        | none => .error .nullNode
        | some node =>
          let diff := s.diff pos
          let len := s.len pos read_size
          if 0 ≤ diff ∧ 0 ≤ len ∧ diff + len ≤ node.size then do
            let ranges ← writeLoop s fuel (s.next i) (pos + len) (read_size - len)
            return ⟨i, diff.toNat, len.toNat⟩ :: ranges
          else .error .outside

/-- What `writeToFile` writes to a file that can be opened. -/
def writeToFile (s : ByteArray) : Except FileError (List Iovec) :=
  s.writeLoop s.nodes.length s.m_cur (wrap 64 s.m_position) (wrap 64 s.getReadSize)

/-- `while(!ifs.eof())`: some rounds with `m_baseSize` bytes each, and one that meets the end of the
file. -/
def readLoop : Nat → ByteArray → List Byte → ByteArray × Reply
  | 0, s, rest => s.write rest
  | rounds + 1, s, rest =>
    match s.write (rest.take s.m_baseSize) with
    | (t, .error e) => (t, .error e)
    | (t, .ok _) => readLoop rounds t (rest.drop s.m_baseSize)

def readFromFile (s : ByteArray) (file : List Byte) : ByteArray × Reply :=
  readLoop (file.length / s.m_baseSize) s file

/-- The positions of the flat buffer that the ranges are about, in their order. -/
def places (n : Nat) (ranges : List Iovec) : List Nat :=
  ranges.flatMap fun v => List.range' (v.node * n + v.offset) v.iov_len

/-- The bytes from the cursor on. -/
def readable (s : ByteArray) : List Byte := slice s.contents s.m_position s.getReadSize

/-- The call ends, has written exactly the bytes from `m_position` to `m_size`, and a fresh
`ByteArray` that reads the file has the same bytes. -/
def Exported (s : ByteArray) : Prop :=
  ∃ ranges, s.writeToFile = .ok ranges
    ∧ places s.m_baseSize ranges = List.range' s.m_position s.getReadSize
    ∧ ∀ base_size, 1 ≤ base_size → ∃ t u,
      (new base_size).readFromFile (gather s.nodes ranges) = (t, .ok [])
        ∧ t.setPosition 0 = (u, .ok []) ∧ u.readable = s.readable

/-! ### `readFromFile` -/

theorem readLoop_spec {rounds : Nat} {s : ByteArray} {f : Flat} {file : List Byte}
    (h : Refines s f) (hrounds : rounds * s.m_baseSize ≤ file.length) :
    ∃ t g, readLoop rounds s file = (t, .ok []) ∧ Refines t g
      ∧ g.contents = overwrite f.contents f.position file
      ∧ g.size = max f.size (f.position + file.length) := by
  induction rounds generalizing s f file with
  | zero =>
    obtain ⟨hwrite, hreply⟩ := write_refines h file
    exact ⟨_, _, Prod.ext rfl hreply, hwrite, f.contents_write file, rfl⟩
  | succ rounds ih =>
    obtain ⟨hwrite, hreply⟩ := write_refines h (file.take s.m_baseSize)
    rw [Nat.succ_mul] at hrounds
    have htake : (file.take s.m_baseSize).length = s.m_baseSize :=
      List.length_take_of_le (by omega)
    have hbase : (s.write (file.take s.m_baseSize)).1.m_baseSize = s.m_baseSize :=
      hwrite.base.trans h.base.symm
    obtain ⟨t, g, hloop, hg, hcontents, hsize⟩ := @ih _ _ (file.drop s.m_baseSize) hwrite (by
      rw [hbase, List.length_drop]
      omega)
    refine ⟨t, g, ?_, hg, ?_, ?_⟩
    · rw [readLoop, show s.write (file.take s.m_baseSize)
        = ((s.write (file.take s.m_baseSize)).1, .ok []) from Prod.ext rfl hreply]
      exact hloop
    · have hwrites : overwrite (overwrite f.contents f.position (file.take s.m_baseSize)) _
          (file.drop s.m_baseSize) = _ :=
        overwrite_overwrite_of_le (by rw [Flat.length_contents]; exact f.position_le)
      rw [List.take_append_drop] at hwrites
      rw [hcontents, Flat.contents_write]
      exact hwrites
    · have hdrop : (file.drop s.m_baseSize).length = file.length - s.m_baseSize :=
        List.length_drop
      rw [hsize]
      show max (max f.size (f.position + (file.take s.m_baseSize).length))
        (f.position + (file.take s.m_baseSize).length + (file.drop s.m_baseSize).length) = _
      omega

/-- A fresh `ByteArray` has the bytes of the file. -/
theorem readFromFile_spec {base_size : Nat} (h : 1 ≤ base_size) (file : List Byte) :
    ∃ t u, (new base_size).readFromFile file = (t, .ok [])
      ∧ t.setPosition 0 = (u, .ok []) ∧ u.readable = file := by
  obtain ⟨t, g, hloop, hg, hcontents, hsize⟩ := readLoop_spec (new_refines h)
    (Nat.div_mul_le_self file.length (new base_size).m_baseSize)
  have hfile : g.contents = file := by
    have hnil : (Flat.new base_size h).contents = [] := List.take_zero
    rw [hcontents, hnil, overwrite, List.take_nil, List.drop_nil, List.nil_append, List.append_nil]
  obtain ⟨hu, hreply⟩ := setPosition_refines hg 0
  have hset : (g.setPosition 0).2 = .ok [] ∧ (g.setPosition 0).1.contents = g.contents
      ∧ (g.setPosition 0).1.position = 0 := by
    rw [Flat.setPosition, dif_pos (Nat.zero_le _)]
    refine ⟨rfl, ?_, rfl⟩
    show g.bytes.take (max g.size 0) = g.bytes.take g.size
    rw [Nat.max_zero]
  obtain ⟨hok, hcontents', hposition⟩ := hset
  refine ⟨t, _, hloop, Prod.ext rfl (hreply.trans hok), ?_⟩
  have hall : (t.setPosition 0).1.contents = file := by rw [hu.contents, hcontents', hfile]
  have hlength : (t.setPosition 0).1.getReadSize = file.length := by
    rw [getReadSize, hu.position, hposition, Nat.sub_zero, ← hall, hu.contents,
      Flat.length_contents, hu.size]
  rw [readable, hlength, hall, hu.position, hposition, slice, List.drop_zero, List.take_length]

/-! ### `writeToFile` -/

/-- `int` and `int64_t` hold numbers that are small enough. -/
theorem wrap_32 {n : Nat} (h : n < 2 ^ 31) : wrap 32 n = n := by
  rw [wrap, Int.bmod_eq_of_le (by omega) (by omega)]

theorem wrap_64 {n : Nat} (h : n < 2 ^ 63) : wrap 64 n = n := by
  rw [wrap, Int.bmod_eq_of_le (by omega) (by omega)]

theorem writeLoop_done (s : ByteArray) (fuel : Nat) (cur : Option Nat) (pos : Int) :
    s.writeLoop fuel cur pos 0 = .ok [] := by
  cases fuel with
  | zero => exact if_pos (Int.le_refl 0)
  | succ fuel =>
    rw [writeLoop.eq_def]
    exact if_pos (Int.le_refl 0)

/-- The length of a range, in numbers that are small enough. -/
theorem len_eq {s : ByteArray} (hbase : s.m_baseSize < 2 ^ 63) {pos left d : Nat}
    (hleft : left < 2 ^ 63) (hdiff : s.diff pos = d) (hle : d ≤ min left s.m_baseSize) :
    s.len pos left = (min left s.m_baseSize - d : Nat) := by
  have hwrap : wrap 64 (s.m_baseSize : Int) = s.m_baseSize := wrap_64 hbase
  have hmin : (if (s.m_baseSize : Int) < (left : Int) then (s.m_baseSize : Int) else left)
      = (min left s.m_baseSize : Nat) := by
    split_ifs <;> omega
  rw [len, hwrap, hmin, hdiff, ← Int.ofNat_sub hle]
  exact wrap_64 (by omega)

/-- One round that writes something. -/
theorem writeLoop_step {s : ByteArray} {i : Nat} (hu : Uniform s.m_baseSize s.nodes)
    (hi : i < s.nodes.length) (hbase : s.m_baseSize < 2 ^ 63) {fuel pos left d : Nat}
    (hpos : 0 < left) (hleft : left < 2 ^ 63) (hdiff : s.diff pos = d)
    (hle : d ≤ min left s.m_baseSize) :
    s.writeLoop (fuel + 1) (some i) pos left
      = (s.writeLoop fuel (s.next i) (pos + (min left s.m_baseSize - d) : Nat)
          (left - (min left s.m_baseSize - d) : Nat)).map
            (⟨i, d, min left s.m_baseSize - d⟩ :: ·) := by
  have hget : s.nodes[i]? = some s.nodes[i] := List.getElem?_eq_getElem hi
  have hlen := len_eq hbase hleft hdiff hle
  generalize hk : min left s.m_baseSize - d = k at hlen
  have hfits : 0 ≤ (d : Int) ∧ 0 ≤ (k : Int) ∧ (d : Int) + k ≤ (s.m_baseSize : Int) := by omega
  have hrest : (left : Int) - (k : Int) = (left - k : Nat) := by omega
  rw [writeLoop, if_neg (by omega), hget]
  simp only [hdiff, hlen, hu.size hget, Int.toNat_natCast]
  rw [if_pos hfits, hrest, ← Int.natCast_add]
  cases s.writeLoop fuel (s.next i) (pos + k : Nat) (left - k : Nat) <;> rfl

/-- From the beginning of node `i` on, the ranges are right. -/
theorem writeLoop_aligned {s : ByteArray} (hu : Uniform s.m_baseSize s.nodes)
    (hbase : 0 < s.m_baseSize) (hcap : s.m_baseSize * s.nodes.length < 2 ^ 63) :
    ∀ {fuel i left : Nat} {cur : Option Nat}, (0 < left → cur = some i) →
      i * s.m_baseSize + left ≤ s.m_baseSize * s.nodes.length → s.nodes.length ≤ i + fuel →
      ∃ vs, s.writeLoop fuel cur (i * s.m_baseSize : Nat) left = .ok vs
        ∧ Contiguous s.m_baseSize s.nodes.length (i * s.m_baseSize) vs left := by
  intro fuel
  induction fuel with
  | zero =>
    intro i left cur hcur hle hfuel
    have hmul : s.nodes.length * s.m_baseSize ≤ i * s.m_baseSize := Nat.mul_le_mul_right _ hfuel
    rw [Nat.mul_comm] at hmul
    obtain rfl : left = 0 := by omega
    exact ⟨[], writeLoop_done s 0 cur _, .nil _⟩
  | succ fuel ih =>
    intro i left cur hcur hle hfuel
    obtain rfl | hpos := Nat.eq_zero_or_pos left
    · exact ⟨[], writeLoop_done s _ cur _, .nil _⟩
    · obtain rfl := hcur hpos
      have hi : i < s.nodes.length := block_lt (n := s.m_baseSize) (by omega)
      have hone : s.m_baseSize ≤ s.m_baseSize * s.nodes.length :=
        Nat.le_mul_of_pos_right _ (by omega)
      have hdiff : s.diff (i * s.m_baseSize : Nat) = (0 : Nat) := by
        rw [diff, ← Int.natCast_emod, Nat.mul_mod_left]
        exact wrap_32 (by decide)
      rw [writeLoop_step hu hi (by omega) hpos (by omega) hdiff (Nat.zero_le _), Nat.sub_zero]
      by_cases hlast : left ≤ s.m_baseSize
      · -- the last range
        rw [Nat.min_eq_left hlast, Nat.sub_self]
        refine ⟨[⟨i, 0, left⟩], ?_, ?_⟩
        · exact congrArg (Except.map _) (writeLoop_done s fuel (s.next i) _)
        · have hfits : 0 + left ≤ s.m_baseSize := by omega
          exact .cons (v := ⟨i, 0, left⟩) hi hfits (.nil _)
      · have hsucc : (i + 1) * s.m_baseSize = i * s.m_baseSize + s.m_baseSize := Nat.succ_mul ..
        have hnext : i + 1 < s.nodes.length := block_lt (n := s.m_baseSize) (by omega)
        obtain ⟨vs, hloop, hvs⟩ := @ih (i + 1) (left - s.m_baseSize) (s.next i)
          (fun _ => if_pos hnext) (by omega) (by omega)
        rw [hsucc] at hloop hvs
        rw [Nat.min_eq_right (by omega), hloop]
        refine ⟨⟨i, 0, s.m_baseSize⟩ :: vs, rfl, ?_⟩
        have hsum : left = s.m_baseSize + (left - s.m_baseSize) := by omega
        rw [hsum]
        exact .cons (v := ⟨i, 0, s.m_baseSize⟩) hi (Nat.le_of_eq (Nat.zero_add _)) hvs

section

variable {s : ByteArray} {f : Flat}

/-- Numbers that are small enough are what they were. -/
theorem writeToFile_eq (h : Refines s f) (hcap : s.m_capacity < 2 ^ 63) :
    s.writeToFile = s.writeLoop s.nodes.length s.m_cur s.m_position s.getReadSize := by
  have hle := Nat.le_trans h.wf.position_le h.wf.size_le
  have hsize := h.wf.size_le
  have hread : s.getReadSize = s.m_size - s.m_position := rfl
  rw [writeToFile, wrap_64 (by omega), wrap_64 (by omega)]

/-- The ranges, if the cursor is at the beginning of a block. -/
theorem writeToFile_aligned (h : Refines s f) (hcap : s.m_capacity < 2 ^ 63)
    (haligned : s.m_position % s.m_baseSize = 0) :
    ∃ vs, s.writeToFile = .ok vs
      ∧ Contiguous s.m_baseSize s.nodes.length s.m_position vs s.getReadSize := by
  have hcapacity := h.wf.capacity
  have hsize := h.wf.size_le
  have hle := h.wf.position_le
  have hread : s.getReadSize = s.m_size - s.m_position := rfl
  have hdivmod := Nat.div_add_mod' s.m_position s.m_baseSize
  have hcur : 0 < s.getReadSize → s.m_cur = some (s.m_position / s.m_baseSize) := fun hpos =>
    h.cur_of_lt (by omega)
  rw [haligned, Nat.add_zero] at hdivmod
  obtain ⟨vs, hloop, hvs⟩ := writeLoop_aligned h.wf.uniform h.wf.base_pos (by omega) hcur
    (by omega) (Nat.le_add_left s.nodes.length _)
  rw [hdivmod] at hloop hvs
  exact ⟨vs, (writeToFile_eq h hcap).trans hloop, hvs⟩

/-- The ranges, if it is behind it with a whole block to write: the rest of the block, and then whole
blocks. -/
theorem writeToFile_long (h : Refines s f) (hcap : s.m_capacity < 2 ^ 63)
    (hint : s.m_position % s.m_baseSize < 2 ^ 31) (hpos : 0 < s.m_position % s.m_baseSize)
    (hlong : s.m_baseSize ≤ s.getReadSize) :
    ∃ vs, s.writeToFile = .ok vs
      ∧ Contiguous s.m_baseSize s.nodes.length s.m_position vs s.getReadSize := by
  have hbase := h.wf.base_pos
  have hcapacity := h.wf.capacity
  have hsize := h.wf.size_le
  have hread : s.getReadSize = s.m_size - s.m_position := rfl
  have hdivmod := Nat.div_add_mod' s.m_position s.m_baseSize
  have hmod := Nat.mod_lt s.m_position hbase
  have hcur := h.cur_of_lt (by omega)
  have hdiff : s.diff s.m_position = (s.m_position % s.m_baseSize : Nat) := by
    rw [diff, ← Int.natCast_emod]
    exact wrap_32 hint
  obtain ⟨fuel, hfuel⟩ : ∃ fuel, s.nodes.length = fuel + 1 :=
    Nat.exists_eq_succ_of_ne_zero (Nat.ne_of_gt h.wf.root)
  generalize s.m_position / s.m_baseSize = i at hdivmod hcur
  generalize s.m_position % s.m_baseSize = d at hdivmod hmod hpos hdiff
  have hstep := fun hi hb hpos hlt hle => @writeLoop_step s i h.wf.uniform hi hb fuel
    s.m_position s.getReadSize d hpos hlt hdiff hle
  clear hdiff
  have hsucc : (i + 1) * s.m_baseSize = s.m_position + (s.m_baseSize - d) := by
    rw [Nat.succ_mul]
    omega
  have hnext : i + 1 < s.nodes.length := block_lt (n := s.m_baseSize) (by omega)
  have hi : i < s.nodes.length := Nat.lt_of_succ_lt hnext
  obtain ⟨vs, hloop, hvs⟩ := @writeLoop_aligned s h.wf.uniform hbase (by omega) fuel (i + 1)
    (s.getReadSize - (s.m_baseSize - d)) _ (fun _ => if_pos hnext) (by omega) (by omega)
  rw [hsucc] at hloop hvs
  refine ⟨⟨i, d, s.m_baseSize - d⟩ :: vs, ?_, ?_⟩
  · replace hstep := hstep hi (by omega) (by omega) (by omega) (by omega)
    rw [Nat.min_eq_right hlong] at hstep
    rw [writeToFile_eq h hcap, hcur, hfuel, hstep, next, hloop]
    rfl
  · have hsum : s.getReadSize = s.m_baseSize - d + (s.getReadSize - (s.m_baseSize - d)) := by
      omega
    have hfits : d + (s.m_baseSize - d) ≤ s.m_baseSize := by omega
    rw [hsum, ← hdivmod]
    rw [← hdivmod] at hvs
    exact .cons (v := ⟨i, d, s.m_baseSize - d⟩) hi hfits hvs

theorem writeToFile_contiguous (h : Refines s f) (hcap : s.m_capacity < 2 ^ 63)
    (hfit : s.m_size = s.m_position ∨ s.m_position % s.m_baseSize < 2 ^ 31
      ∧ (s.m_position % s.m_baseSize = 0 ∨ s.m_baseSize ≤ s.getReadSize)) :
    ∃ vs, s.writeToFile = .ok vs
      ∧ Contiguous s.m_baseSize s.nodes.length s.m_position vs s.getReadSize := by
  obtain haligned | hpos := Nat.eq_zero_or_pos (s.m_position % s.m_baseSize)
  · exact writeToFile_aligned h hcap haligned
  · obtain hempty | ⟨hint, hlong⟩ := hfit
    · have hzero : s.getReadSize = 0 := by rw [getReadSize, hempty, Nat.sub_self]
      rw [writeToFile_eq h hcap, hzero]
      exact ⟨[], writeLoop_done s _ _ _, .nil _⟩
    · exact writeToFile_long h hcap hint hpos (hlong.resolve_left (Nat.ne_of_gt hpos))

end

/-! ### What a call that ends has written -/

/-- The first round of a call that ends. -/
theorem writeLoop_ok {s : ByteArray} {fuel : Nat} {cur : Option Nat} {pos left : Int}
    {ranges : List Iovec} (h : s.writeLoop fuel cur pos left = .ok ranges) (hleft : 0 < left) :
    ∃ fuel' i rest, fuel = fuel' + 1 ∧ cur = some i ∧ 0 ≤ s.diff pos ∧ 0 ≤ s.len pos left
      ∧ s.writeLoop fuel' (s.next i) (pos + s.len pos left) (left - s.len pos left) = .ok rest
      ∧ ranges = ⟨i, (s.diff pos).toNat, (s.len pos left).toNat⟩ :: rest := by
  cases fuel with
  | zero =>
    rw [writeLoop, if_neg (Int.not_le.mpr hleft)] at h
    exact nomatch h
  | succ fuel =>
    cases cur with
    | none =>
      rw [writeLoop, if_neg (Int.not_le.mpr hleft)] at h
      exact nomatch h
    | some i =>
      rw [writeLoop, if_neg (Int.not_le.mpr hleft)] at h
      split at h
      · exact nomatch h
      · simp only at h
        split_ifs at h with hfits
        cases hrest : s.writeLoop fuel (s.next i) (pos + s.len pos left)
            (left - s.len pos left) with
        | error e =>
          rw [hrest] at h
          exact nomatch h
        | ok rest =>
          rw [hrest] at h
          exact ⟨fuel, i, rest, rfl, rfl, hfits.1, hfits.2.1, hrest, (Except.ok.inj h).symm⟩

/-- A round that writes nothing is repeated until there is no node. -/
theorem len_pos_of_ok {s : ByteArray} {fuel : Nat} {cur : Option Nat} {pos left : Int}
    {ranges : List Iovec} (h : s.writeLoop fuel cur pos left = .ok ranges) (hleft : 0 < left) :
    0 < s.len pos left := by
  induction fuel generalizing cur ranges with
  | zero =>
    obtain ⟨fuel', i, rest, hfuel, -⟩ := writeLoop_ok h hleft
    exact nomatch hfuel
  | succ fuel ih =>
    obtain ⟨fuel', i, rest, hfuel, -, -, hlen, hrest, -⟩ := writeLoop_ok h hleft
    obtain rfl := Nat.succ.inj hfuel
    obtain hlt | hzero := Int.lt_or_eq_of_le hlen
    · exact hlt
    · rw [← hzero, Int.add_zero, Int.sub_zero] at hrest
      exact ih hrest

/-- The first byte that is written lies in the node under the cursor. -/
theorem places_of_ok {s : ByteArray} {fuel : Nat} {cur : Option Nat} {pos left : Int}
    {ranges : List Iovec} (h : s.writeLoop fuel cur pos left = .ok ranges) (hleft : 0 < left) :
    ∃ i tail, cur = some i
      ∧ places s.m_baseSize ranges = (i * s.m_baseSize + (s.diff pos).toNat) :: tail := by
  have hpos := len_pos_of_ok h hleft
  obtain ⟨fuel', i, rest, -, rfl, -, -, -, rfl⟩ := writeLoop_ok h hleft
  obtain ⟨k, hk⟩ : ∃ k, (s.len pos left).toNat = k + 1 :=
    Nat.exists_eq_succ_of_ne_zero (Nat.ne_of_gt (Int.pos_iff_toNat_pos.mp hpos))
  have hplaces : places s.m_baseSize (⟨i, (s.diff pos).toNat, (s.len pos left).toNat⟩ :: rest)
      = (i * s.m_baseSize + (s.diff pos).toNat)
        :: (List.range' (i * s.m_baseSize + (s.diff pos).toNat + 1) k
          ++ places s.m_baseSize rest) := by
    rw [places, List.flatMap_cons, hk, List.range'_succ, List.cons_append]
    rfl
  exact ⟨i, _, rfl, hplaces⟩

/-- Ranges one behind the other are about positions one behind the other. -/
theorem Contiguous.places {n count p len : Nat} {vs : List Iovec}
    (h : Contiguous n count p vs len) : places n vs = List.range' p len := by
  induction h with
  | nil p => rfl
  | cons _ _ _ ih =>
    rw [ByteArray.places, List.flatMap_cons, ← List.range'_append_1]
    exact congrArg _ ih

theorem eq_of_cons_eq_range' {a p n : Nat} {tail : List Nat} (h : a :: tail = List.range' p n) :
    a = p := by
  cases n with
  | zero => exact nomatch h
  | succ n =>
    rw [List.range'_succ] at h
    exact (List.cons.inj h).1

theorem diff_lt (s : ByteArray) (pos : Int) : s.diff pos < 2 ^ 31 :=
  Int.lt_of_lt_of_le (Int.bmod_lt (by decide)) (by decide)

/-- The length of the first range, if it begins inside a block and less than a block is left. -/
theorem len_of_lt {s : ByteArray} {pos : Int} {left d : Nat} (hbase : s.m_baseSize < 2 ^ 63)
    (hlt : left < s.m_baseSize) (hdiff : s.diff pos = d) (hd : d < 2 ^ 31) :
    s.len pos left = (left : Int) - d := by
  rw [len, wrap_64 hbase, if_neg (by omega), hdiff, wrap,
    Int.bmod_eq_of_le (by omega) (by omega)]

section

variable {s : ByteArray} {f : Flat} {ranges : List Iovec}

/-- The first byte of a call that writes the right bytes: its offset in the block goes through an
`int`. -/
theorem offset_of_places (h : Refines s f) (hcap : s.m_capacity < 2 ^ 63)
    (hwrite : s.writeToFile = .ok ranges)
    (hplaces : places s.m_baseSize ranges = List.range' s.m_position s.getReadSize)
    (hpos : 0 < s.getReadSize) : s.m_position % s.m_baseSize < 2 ^ 31
      ∧ s.diff s.m_position = (s.m_position % s.m_baseSize : Nat) := by
  have hsize := h.wf.size_le
  have hread : s.getReadSize = s.m_size - s.m_position := rfl
  have hcur := h.cur_of_lt (by omega)
  have hleft : (0 : Int) < s.getReadSize := by omega
  rw [writeToFile_eq h hcap] at hwrite
  obtain ⟨i, tail, hi, hhead⟩ := places_of_ok hwrite hleft
  obtain rfl : s.m_position / s.m_baseSize = i := Option.some.inj (hcur.symm.trans hi)
  have hfirst := eq_of_cons_eq_range' (hhead.symm.trans hplaces)
  have hoffset : (s.diff s.m_position).toNat = s.m_position % s.m_baseSize :=
    Nat.add_left_cancel (hfirst.trans (Nat.div_add_mod' s.m_position s.m_baseSize).symm)
  obtain ⟨-, -, -, -, -, hdiff, -⟩ := writeLoop_ok hwrite hleft
  have hdiff' : s.diff s.m_position = (s.m_position % s.m_baseSize : Nat) := by
    rw [← hoffset, Int.toNat_of_nonneg hdiff]
  refine ⟨?_, hdiff'⟩
  have hint := diff_lt s s.m_position
  rw [hdiff'] at hint
  exact Int.ofNat_lt.mp hint

/-- A call that writes the right bytes begins at the beginning of a block, or has a whole block to
write. -/
theorem aligned_of_places (h : Refines s f) (hcap : s.m_capacity < 2 ^ 63)
    (hwrite : s.writeToFile = .ok ranges)
    (hplaces : places s.m_baseSize ranges = List.range' s.m_position s.getReadSize)
    (hpos : 0 < s.getReadSize) : s.m_position % s.m_baseSize < 2 ^ 31
      ∧ (s.m_position % s.m_baseSize = 0 ∨ s.m_baseSize ≤ s.getReadSize) := by
  have hbase := h.wf.base_pos
  have hcapacity := h.wf.capacity
  have hsize := h.wf.size_le
  have hread : s.getReadSize = s.m_size - s.m_position := rfl
  have hone : s.m_baseSize ≤ s.m_baseSize * s.nodes.length :=
    Nat.le_mul_of_pos_right _ h.wf.root
  have hdivmod := Nat.div_add_mod' s.m_position s.m_baseSize
  have hmod := Nat.mod_lt s.m_position hbase
  have hcur := h.cur_of_lt (by omega)
  have hleft : (0 : Int) < s.getReadSize := by omega
  obtain ⟨hlt, hdiff⟩ := offset_of_places h hcap hwrite hplaces hpos
  refine ⟨hlt, ?_⟩
  by_contra hnot
  obtain ⟨haligned, hshort⟩ := not_or.mp hnot
  have hlen' : s.len s.m_position s.getReadSize
      = (s.getReadSize : Int) - (s.m_position % s.m_baseSize : Nat) :=
    len_of_lt (by omega) (Nat.not_le.mp hshort) hdiff hlt
  rw [writeToFile_eq h hcap] at hwrite
  have hlen := len_pos_of_ok hwrite hleft
  obtain ⟨fuel, i, rest, -, hi, -, -, hrest, rfl⟩ := writeLoop_ok hwrite hleft
  obtain rfl : s.m_position / s.m_baseSize = i := Option.some.inj (hcur.symm.trans hi)
  -- the second range is at the beginning of the next block, and not behind the first one
  rw [hlen'] at hlen hrest hplaces
  rw [places, List.flatMap_cons, hdiff, Int.toNat_natCast, hdivmod] at hplaces
  clear hdiff hlen' hwrite
  generalize s.m_position % s.m_baseSize = d at *
  generalize s.m_position / s.m_baseSize = c at *
  have hd : d < s.getReadSize := by omega
  have hcast : ((s.getReadSize : Int) - (d : Int)).toNat = s.getReadSize - d := by omega
  have hrestleft : 0 < (s.getReadSize : Int) - ((s.getReadSize : Int) - (d : Int)) := by omega
  obtain ⟨j, tail', hj, hhead'⟩ := places_of_ok hrest hrestleft
  have hnext : j = c + 1 := by
    rw [next] at hj
    split_ifs at hj
    exact (Option.some.inj hj).symm
  have hsplit : List.range' s.m_position s.getReadSize
      = List.range' s.m_position (s.getReadSize - d)
        ++ List.range' (s.m_position + (s.getReadSize - d)) d := by
    rw [List.range'_append_1, Nat.sub_add_cancel (Nat.le_of_lt hd)]
  have hsecond : places s.m_baseSize rest
      = List.range' (s.m_position + (s.getReadSize - d)) d := by
    rw [hcast, hsplit] at hplaces
    exact List.append_cancel_left hplaces
  have hplace := eq_of_cons_eq_range' (hhead'.symm.trans hsecond)
  rw [hnext, Nat.succ_mul] at hplace
  have hle : c * s.m_baseSize + s.m_baseSize ≤ s.m_position + (s.getReadSize - d) := by
    rw [← hplace]
    exact Nat.le_add_right ..
  omega

end

/-- **Export** to a file, in every state that calls lead to: it is right if and only if nothing is
left to write, or the cursor is at the beginning of a block, or a whole block is left to write (and
the offset in the block fits an `int`). -/
theorem exported_iff {s : ByteArray} (hs : Reachable s) (hcap : s.m_capacity < 2 ^ 63) :
    s.Exported ↔ s.m_size = s.m_position ∨ s.m_position % s.m_baseSize < 2 ^ 31
      ∧ (s.m_position % s.m_baseSize = 0 ∨ s.m_baseSize ≤ s.m_size - s.m_position) := by
  obtain ⟨f, h⟩ := hs.refines
  constructor
  · rintro ⟨ranges, hwrite, hplaces, -⟩
    obtain hzero | hpos := Nat.eq_zero_or_pos s.getReadSize
    · have hle := h.wf.position_le
      rw [getReadSize] at hzero
      exact .inl (by omega)
    · exact .inr (aligned_of_places h hcap hwrite hplaces hpos)
  · intro hfit
    obtain ⟨vs, hwrite, hvs⟩ := writeToFile_contiguous h hcap hfit
    refine ⟨vs, hwrite, hvs.places, fun base_size hbase => ?_⟩
    obtain ⟨t, u, hread, hset, hu⟩ := readFromFile_spec hbase (gather s.nodes vs)
    refine ⟨t, u, hread, hset, hu.trans ?_⟩
    have hle := h.wf.position_le
    have hin : s.m_position + s.getReadSize ≤ s.m_size := by
      rw [getReadSize]
      omega
    rw [hvs.gather h.wf.uniform, readable, ByteArray.contents, slice_take hin]

/-- The bytes one to five in nodes of two, with the cursor at position `v`. -/
def fiveAt (v : Nat) : ByteArray :=
  ((((new 2).apply (.write [some 1, some 2, some 3, some 4, some 5])).1).apply (.setPosition v)).1

/-- The bytes from the second on are four, and a block is two. -/
theorem exported_second : (fiveAt 1).Exported :=
  (exported_iff (.apply _ (.apply _ (.new 2 (by decide)) (by decide)) (by decide))
    (by decide)).mpr (.inr ⟨by decide, .inr (by decide)⟩)

/-- The bytes one and two in a node of four, with the cursor at the second. -/
def twoAtSecond : ByteArray :=
  ((((new 4).apply (.write [some 1, some 2])).1).apply (.setPosition 1)).1

/-- One byte is left to write; nothing is written, and the call goes on to a null node. -/
theorem not_exported : Reachable twoAtSecond ∧ twoAtSecond.readable = [some 2]
    ∧ twoAtSecond.writeToFile = .error .nullNode ∧ ¬ twoAtSecond.Exported := by
  have hwrite : twoAtSecond.writeToFile = .error .nullNode := by decide +kernel
  refine ⟨.apply _ (.apply _ (.new 4 (by decide)) (by decide)) (by decide), by decide, hwrite, ?_⟩
  rintro ⟨ranges, hok, -⟩
  rw [hwrite] at hok
  exact nomatch hok

end ByteArray

end FiberServer
