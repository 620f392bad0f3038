import FiberServer.ByteArray.Refinement
import Mathlib.Algebra.Order.Ring.Int

/-!
# `getReadBuffers` and `getWriteBuffers`

Instead of copying, these calls return ranges of the nodes, which the caller reads from or writes
to; `setPosition` moves the cursor afterwards.

* `Contiguous`: ranges that lie one behind the other, from a position of the flat buffer on.
* `buffersLoop_spec`: the two loops return such ranges.
* `Filled.same`, `getReadBuffers_spec`: filling ranges and then moving the cursor is a `write`, and
  what lies in the ranges is what `read` returns.
-/

namespace FiberServer

open Blocks

namespace Flat

/-- Room for `n` bytes at the cursor. -/
def reserve (f : Flat) (n : Nat) : Flat :=
  { f with
    bytes := f.room n
    size_le := by
      have hsize := f.size_le
      rw [length_room]
      omega }

/-- The bytes at the cursor are set; the cursor stays. -/
def overwrite (f : Flat) (bytes : List Byte) (h : f.position + bytes.length ≤ f.bytes.length) :
    Flat :=
  { f with
    bytes := Blocks.overwrite f.bytes f.position bytes
    size_le := by
      rw [length_overwrite h]
      exact f.size_le }

end Flat

namespace ByteArray

/-- `iovec`: `iov_base` is a place in a node. -/
structure Iovec where
  node : Nat
  offset : Nat
  iov_len : Nat
  deriving DecidableEq, Repr

/-- `while(len > 0)` of the two calls, from the node `cur` on.  A node is visited once, so `fuel` is
the number of nodes. -/
def buffersLoop (nodes : List Node) :
    Nat → Nat → Nat → Nat → Nat → Except Error (List Iovec)
  | 0, _, _, _, len => if len = 0 then .ok [] else .error .nullNode
  | fuel + 1, cur, npos, ncap, len =>
    if len = 0 then .ok []
    else if len ≤ ncap then .ok [⟨cur, npos, len⟩]
    else
      -- `cur = cur->next; ncap = cur->size`
      match nodes[cur + 1]? with
      | none => .error .nullNode
      | some node => do
        let buffers ← buffersLoop nodes fuel (cur + 1) 0 node.size (len - ncap)
        return ⟨cur, npos, ncap⟩ :: buffers

/-- From `size_t npos = m_position % m_baseSize` on. -/
def buffersFrom (s : ByteArray) (len : Nat) : Except Error (Nat × List Iovec) := do
  let npos := s.m_position % s.m_baseSize
  let (i, node) ← s.cur
  let buffers ← buffersLoop s.nodes s.nodes.length i npos (node.size - npos) len
  return (len, buffers)

/-- The result, and what is appended to `buffers`. -/
def getReadBuffers (s : ByteArray) (len : Nat) : Except Error (Nat × List Iovec) :=
  let len := if s.getReadSize < len then s.getReadSize else len
  if len = 0 then .ok (0, []) else s.buffersFrom len

def getWriteBuffers (s : ByteArray) (len : Nat) : ByteArray × Except Error (Nat × List Iovec) :=
  if len = 0 then (s, .ok (0, []))
  else
    let s := s.addCapacity len
    (s, s.buffersFrom len)

/-- The bytes in the ranges, one after the other. -/
def gather (nodes : List Node) (buffers : List Iovec) : List Byte :=
  buffers.flatMap fun v => nodes[v.node]?.elim [] fun node => slice node.ptr v.offset v.iov_len

/-- The nodes after the first bytes of the ranges have been set to `bytes`. -/
def fill : List Node → List Iovec → List Byte → List Node
  | nodes, [], _ => nodes
  | nodes, v :: buffers, bytes =>
    let (nodes, bytes) := put nodes bytes v.node v.offset (min v.iov_len bytes.length)
    fill nodes buffers bytes

/-- What a caller does with the ranges of `getWriteBuffers`. -/
def filled (s : ByteArray) (buffers : List Iovec) (bytes : List Byte) : ByteArray :=
  { s with nodes := fill s.nodes buffers bytes }

/-- The bytes that the counters `m_size` and `m_position` are about. -/
def contents (s : ByteArray) : List Byte := (flat s.nodes).take s.m_size

/-- The states that calls lead to, as long as none has dereferenced a null node. -/
inductive Reachable : ByteArray → Prop
  | new (base_size : Nat) : 1 ≤ base_size → Reachable (new base_size)
  | apply {s : ByteArray} (op : Op) :
    Reachable s → (s.apply op).2 ≠ .error .nullNode → Reachable (s.apply op).1
  | getWriteBuffers {s : ByteArray} {len n : Nat} {buffers : List Iovec} (bytes : List Byte) :
    Reachable s → (s.getWriteBuffers len).2 = .ok (n, buffers) → bytes.length ≤ n →
    Reachable ((s.getWriteBuffers len).1.filled buffers bytes)

/-! ### Ranges one behind the other -/

/-- The ranges lie inside `count` nodes of `n` bytes, and are the `len` bytes from `p` on. -/
inductive Contiguous (n count : Nat) : Nat → List Iovec → Nat → Prop
  | nil (p : Nat) : Contiguous n count p [] 0
  | cons {v : Iovec} {vs : List Iovec} {len : Nat} : v.node < count → v.offset + v.iov_len ≤ n →
    Contiguous n count (v.node * n + v.offset + v.iov_len) vs len →
    Contiguous n count (v.node * n + v.offset) (v :: vs) (v.iov_len + len)

namespace Contiguous

variable {n count p len : Nat} {vs : List Iovec} {nodes : List Node}

theorem sum_iov_len (h : Contiguous n count p vs len) : (vs.map Iovec.iov_len).sum = len := by
  induction h with
  | nil p => rfl
  | cons _ _ _ ih => rw [List.map_cons, List.sum_cons, ih]

theorem gather (hu : Uniform n nodes) (h : Contiguous n nodes.length p vs len) :
    gather nodes vs = slice (flat nodes) p len := by
  induction h with
  | nil p => rw [slice_zero]; rfl
  | @cons v vs len hnode hfit _ ih =>
    have hget : nodes[v.node]? = some nodes[v.node] := List.getElem?_eq_getElem hnode
    have hblock : (nodes.map Node.ptr)[v.node]? = some nodes[v.node].ptr := by
      rw [List.getElem?_map, hget]
      rfl
    rw [ByteArray.gather, List.flatMap_cons, hget, slice_add, flat,
      slice_flatten hu.blocks hblock hfit]
    exact congrArg _ ih

theorem fill (h : Contiguous n count p vs len) : ∀ {nodes : List Node} {bytes : List Byte},
    Uniform n nodes → nodes.length = count → bytes.length ≤ len → p + len ≤ n * count →
    Uniform n (ByteArray.fill nodes vs bytes)
      ∧ (ByteArray.fill nodes vs bytes).length = count
      ∧ flat (ByteArray.fill nodes vs bytes) = overwrite (flat nodes) p bytes := by
  induction h with
  | nil p =>
    intro nodes bytes hu hcount hb hp
    rw [List.eq_nil_of_length_eq_zero (Nat.le_zero.mp hb), overwrite_nil]
    exact ⟨hu, hcount, rfl⟩
  | @cons v vs len hnode hfit _ ih =>
    intro nodes bytes hu hcount hb hp
    obtain ⟨hu', hlength, hput⟩ := put_spec hu (show v.node < nodes.length by omega)
      (show v.offset + min v.iov_len bytes.length ≤ n by omega)
      (Nat.min_le_right v.iov_len bytes.length)
    obtain ⟨hu'', hlength', hfill⟩ := @ih _ (bytes.drop (min v.iov_len bytes.length)) hu'
      (hlength.trans hcount) (by rw [List.length_drop]; omega) (by omega)
    refine ⟨hu'', hlength', ?_⟩
    have hflat := hu.length_flat
    rw [ByteArray.fill]
    refine hfill.trans ?_
    rw [hput]
    by_cases hlt : v.iov_len ≤ bytes.length
    · have htake : (bytes.take v.iov_len).length = v.iov_len := List.length_take_of_le hlt
      have hin : v.node * n + v.offset + (bytes.take v.iov_len).length ≤ (flat nodes).length := by
        rw [htake, hflat, hcount]
        omega
      have hwrites : overwrite (overwrite (flat nodes) (v.node * n + v.offset)
          (bytes.take v.iov_len)) _ (bytes.drop v.iov_len) = _ := overwrite_overwrite hin
      rw [htake, List.take_append_drop] at hwrites
      rw [Nat.min_eq_left hlt, hwrites]
    · -- the bytes end inside this range
      rw [Nat.min_eq_right (by omega), List.drop_length, List.take_length, overwrite_nil]

end Contiguous

theorem buffersLoop_spec {n : Nat} {nodes : List Node} (hu : Uniform n nodes) :
    ∀ {fuel i npos len : Nat}, i < nodes.length → npos < n → 0 < len →
      i * n + npos + len ≤ n * nodes.length → nodes.length ≤ i + fuel →
      ∃ vs, buffersLoop nodes fuel i npos (n - npos) len = .ok vs
        ∧ Contiguous n nodes.length (i * n + npos) vs len := by
  intro fuel
  induction fuel with
  | zero => intros; omega
  | succ fuel ih =>
    intro i npos len hi hnpos hlen hcap hfuel
    rw [buffersLoop, if_neg (Nat.ne_of_gt hlen)]
    by_cases hfit : len ≤ n - npos
    · rw [if_pos hfit]
      have hfit' : npos + len ≤ n := by omega
      exact ⟨_, rfl, .cons (v := ⟨i, npos, len⟩) hi hfit' (.nil _)⟩
    · -- the rest of the node, and the loop goes on in the next one
      have hnext : i + 1 < nodes.length := block_lt (n := n) (by
        rw [Nat.succ_mul]
        omega)
      have hget : nodes[i + 1]? = some nodes[i + 1] := List.getElem?_eq_getElem hnext
      have hstart : (i + 1) * n + 0 = i * n + npos + (n - npos) := by
        rw [Nat.succ_mul]
        omega
      obtain ⟨vs, hloop, hvs⟩ := @ih (i + 1) 0 (len - (n - npos)) hnext (by omega) (by omega)
        (by omega) (by omega)
      rw [Nat.sub_zero] at hloop
      rw [if_neg hfit, hget]
      simp only [hu.size hget, hloop]
      refine ⟨⟨i, npos, n - npos⟩ :: vs, rfl, ?_⟩
      have hsum : len = n - npos + (len - (n - npos)) := by omega
      rw [hstart] at hvs
      rw [hsum]
      exact .cons (v := ⟨i, npos, n - npos⟩) hi (by simp only; omega) hvs

/-- The ranges that the calls return in a state with room, and a node under the cursor. -/
theorem buffersFrom_spec {s : ByteArray} {len : Nat} (h : Ready s len) :
    ∃ vs, s.buffersFrom len = .ok (len, vs)
      ∧ Contiguous s.m_baseSize s.nodes.length s.m_position vs len := by
  have hbase := h.base_pos
  have hfits := h.fits
  have hsize := h.size_pos
  have hi : s.m_position / s.m_baseSize < s.nodes.length := Nat.div_lt_of_lt_mul (by omega)
  have hpos := Nat.div_add_mod' s.m_position s.m_baseSize
  obtain ⟨vs, hloop, hvs⟩ := buffersLoop_spec h.uniform hi (Nat.mod_lt s.m_position hbase) hsize
    (by omega) (Nat.le_add_left s.nodes.length _)
  rw [hpos] at hvs
  refine ⟨vs, ?_, hvs⟩
  rw [buffersFrom, cur_eq h.cur hi]
  simp only [bind, Except.bind, h.uniform.size (List.getElem?_eq_getElem hi), hloop]
  rfl

/-! ### Filling the ranges -/

theorem Refines.contents {s : ByteArray} {f : Flat} (h : Refines s f) : s.contents = f.contents := by
  rw [ByteArray.contents, Flat.contents, h.bytes, h.size]

theorem addCapacity_ready {s : ByteArray} {f : Flat} (h : Refines s f) {n : Nat} (hn : 0 < n) :
    Refines (s.addCapacity n) (f.reserve n) ∧ Ready (s.addCapacity n) n := by
  obtain ⟨hb, hp, hs, hu, hc, hflat, hroot, hcur⟩ := addCapacity_spec h hn
  generalize s.addCapacity n = t at hb hp hs hu hc hflat hroot hcur ⊢
  have hroom := f.le_room n
  have hlong := f.length_room n
  have hlength := hu.length_flat
  have hsize := f.size_le
  have hposition := h.position
  have htsize : t.m_size = f.size := hs.trans h.size
  rw [← hb] at hu hc hcur hlength
  rw [← hp] at hcur
  rw [hflat] at hlength
  refine ⟨⟨⟨hb ▸ h.wf.base_pos, hu, hroot, hc, ?_, ?_, ?_⟩, hb.trans h.base, hp.trans h.position,
    htsize, hflat⟩, hb ▸ h.wf.base_pos, hu, hn, ?_, hcur⟩
  · have hle := f.position_le
    omega
  · omega
  · rw [hcur, if_neg (by omega)]
  · omega

theorem filled_refines {s : ByteArray} {f : Flat} (h : Refines s f) {len : Nat} {vs : List Iovec}
    (hvs : Contiguous s.m_baseSize s.nodes.length s.m_position vs len) {bytes : List Byte}
    (hb : bytes.length ≤ len) (hp : f.position + len ≤ f.bytes.length) :
    Refines (s.filled vs bytes) (f.overwrite bytes (by omega)) := by
  have hcap := h.capacity
  have hcapacity := h.wf.capacity
  obtain ⟨hu, hlength, hflat⟩ := hvs.fill h.wf.uniform rfl hb (by rw [h.position]; omega)
  refine ⟨⟨h.wf.base_pos, hu, ?_, ?_, h.wf.position_le, h.wf.size_le, h.wf.cur⟩, h.base,
    h.position, h.size, ?_⟩
  · rw [ByteArray.filled, hlength]
    exact h.wf.root
  · rw [ByteArray.filled, hlength]
    exact hcapacity
  · show flat (ByteArray.fill s.nodes vs bytes) = _
    rw [hflat, h.bytes, h.position]
    rfl

/-- The contents, the size and the cursor are the same. -/
structure Same (s t : ByteArray) : Prop where
  contents : s.contents = t.contents
  size : s.m_size = t.m_size
  position : s.m_position = t.m_position

namespace Refines

variable {s t : ByteArray} {f g : Flat}

theorem same (hs : Refines s f) (ht : Refines t g) (hcontents : f.contents = g.contents)
    (hsize : f.size = g.size) (hposition : f.position = g.position) : Same s t where
  contents := by rw [hs.contents, ht.contents, hcontents]
  size := hs.size.trans (hsize.trans ht.size.symm)
  position := hs.position.trans (hposition.trans ht.position.symm)

/-- A cursor with a node under it has the same node in a longer chain. -/
theorem cur_of_same (hs : Refines s f) (ht : Refines t g) (h : Same s t) (hbase : f.base = g.base)
    (hroom : g.bytes.length ≤ f.bytes.length) {i : Nat} (hi : t.m_cur = some i) :
    s.m_cur = some i := by
  have hscap := hs.capacity
  have htcap := ht.capacity
  have hp := h.position
  have htle := Nat.le_trans ht.wf.position_le ht.wf.size_le
  have hb : s.m_baseSize = t.m_baseSize := hs.base.trans (hbase.trans ht.base.symm)
  rw [ht.wf.cur] at hi
  split_ifs at hi with hend
  rw [hs.wf.cur, if_neg (by omega), hp, hb]
  exact hi

end Refines

theorem getWriteBuffers_spec {s : ByteArray} {f : Flat} (h : Refines s f) {len : Nat}
    (hlen : 0 < len) : ∃ vs, s.getWriteBuffers len = (s.addCapacity len, .ok (len, vs))
      ∧ Contiguous (s.addCapacity len).m_baseSize (s.addCapacity len).nodes.length
        (s.addCapacity len).m_position vs len := by
  obtain ⟨-, hready⟩ := addCapacity_ready h hlen
  obtain ⟨vs, hfrom, hvs⟩ := buffersFrom_spec hready
  refine ⟨vs, ?_, hvs⟩
  rw [getWriteBuffers, if_neg (Nat.ne_of_gt hlen)]
  simp only [hfrom]

/-- The ranges for `len` bytes have been filled with `bytes`, and the cursor is behind them. -/
inductive Filled (s : ByteArray) (len : Nat) (bytes : List Byte) : ByteArray → Prop
  | intro {t u : ByteArray} {buffers : List Iovec} :
    s.getWriteBuffers len = (t, .ok (len, buffers)) →
    (buffers.map Iovec.iov_len).sum = len →
    (t.filled buffers bytes).setPosition (t.m_position + bytes.length) = (u, .ok []) →
    Filled s len bytes u

theorem exists_filled {s : ByteArray} {f : Flat} (h : Refines s f) {len : Nat} {bytes : List Byte}
    (hpos : 0 < len) (hle : bytes.length ≤ len) :
    ∃ u g, Filled s len bytes u ∧ Refines u g ∧ g.base = f.base
      ∧ g.contents = Blocks.overwrite f.contents f.position bytes
      ∧ g.size = max f.size (f.position + bytes.length)
      ∧ g.position = f.position + bytes.length
      ∧ g.bytes.length = (f.room len).length := by
  obtain ⟨vs, hbuffers, hvs⟩ := getWriteBuffers_spec h hpos
  obtain ⟨hrefines, -⟩ := addCapacity_ready h hpos
  have hroom := f.le_room len
  have hfilled := filled_refines hrefines hvs hle hroom
  have hposition : (s.addCapacity len).m_position = f.position := hrefines.position
  obtain ⟨hu, hreply⟩ := setPosition_refines hfilled (f.position + bytes.length)
  have hin : f.position + bytes.length ≤ (f.room len).length := by omega
  have hlength : (Blocks.overwrite (f.room len) f.position bytes).length = (f.room len).length :=
    length_overwrite hin
  have hset : ((f.reserve len).overwrite bytes hin).setPosition (f.position + bytes.length)
      = ({ (f.reserve len).overwrite bytes hin with
          size := max f.size (f.position + bytes.length)
          position := f.position + bytes.length
          position_le := Nat.le_max_right ..
          size_le := by
            show _ ≤ (Blocks.overwrite (f.room len) f.position bytes).length
            have hsize := f.size_le
            have hlong := f.length_room len
            omega }, .ok []) := by
    rw [Flat.setPosition, dif_pos (by rw [← hlength] at hin; exact hin)]
    rfl
  rw [hset] at hu hreply
  have htake : (f.room len).take f.size = f.contents := List.take_append_of_le_length f.size_le
  refine ⟨_, _, .intro hbuffers hvs.sum_iov_len ?_, hu, rfl, ?_, rfl, rfl, hlength⟩
  · rw [hposition]
    exact Prod.ext rfl hreply
  · rw [← htake]
    exact take_overwrite f.position_le (f.reserve len).size_le

theorem Filled.unique {s u u' : ByteArray} {len : Nat} {bytes : List Byte}
    (h : Filled s len bytes u) (h' : Filled s len bytes u') : u = u' := by
  obtain ⟨hbuffers, -, hset⟩ := h
  obtain ⟨hbuffers', -, hset'⟩ := h'
  rw [hbuffers] at hbuffers'
  obtain ⟨rfl, hreply⟩ := Prod.mk.inj hbuffers'
  obtain ⟨-, rfl⟩ := Prod.mk.inj (Except.ok.inj hreply)
  exact (Prod.mk.inj (hset.symm.trans hset')).1

/-- **Filling ranges** and then moving the cursor is a `write`; only the chain may be longer, and
where the cursor of the `write` has no node, there may be one now. -/
theorem filled_same {s : ByteArray} {f : Flat} (h : Refines s f) {len : Nat} {bytes : List Byte}
    (hpos : 0 < len) (hle : bytes.length ≤ len) :
    ∃ u, Filled s len bytes u ∧ Same u (s.write bytes).1
      ∧ ∀ i, (s.write bytes).1.m_cur = some i → u.m_cur = some i := by
  obtain ⟨u, g, hfilled, hu, hbase, hcontents, hsize, hposition, hlength⟩ :=
    exists_filled h hpos hle
  have hwrite := (write_refines h bytes).1
  have hsame : Same u (s.write bytes).1 :=
    hu.same hwrite (hcontents.trans (f.contents_write bytes).symm) hsize hposition
  refine ⟨u, hfilled, hsame, fun i hi => hu.cur_of_same hwrite hsame hbase ?_ hi⟩
  -- less room is enough for the bytes alone
  have hin := f.le_room bytes.length
  have hless : f.lack bytes.length ≤ f.lack len := Nat.div_le_div_right (by omega)
  show (Blocks.overwrite (f.room bytes.length) f.position bytes).length ≤ _
  rw [length_overwrite hin, hlength, Flat.length_room, Flat.length_room]
  exact Nat.add_le_add_left (Nat.mul_le_mul_right _ hless) _

/-- **What lies in the ranges** of `getReadBuffers` is what `read` returns. -/
theorem getReadBuffers_spec {s : ByteArray} {f : Flat} (h : Refines s f) (len : Nat) :
    ∃ vs, s.getReadBuffers len = .ok (min len s.getReadSize, vs)
      ∧ (vs.map Iovec.iov_len).sum = min len s.getReadSize
      ∧ gather s.nodes vs = slice s.contents s.m_position (min len s.getReadSize)
      ∧ (0 < min len s.getReadSize →
        (s.read (min len s.getReadSize)).2 = .ok (gather s.nodes vs)) := by
  have hmin : (if s.getReadSize < len then s.getReadSize else len) = min len s.getReadSize := by
    split_ifs <;> omega
  rw [getReadBuffers, hmin]
  obtain hzero | hpos := Nat.eq_zero_or_pos (min len s.getReadSize)
  · rw [if_pos hzero, hzero]
    exact ⟨[], rfl, rfl, (slice_zero _ _).symm, fun hlt => absurd hlt (Nat.lt_irrefl 0)⟩
  · have hsize : min len s.getReadSize ≤ s.m_size - s.m_position := Nat.min_le_right ..
    have hcap := h.wf.capacity
    have hscap := h.wf.size_le
    have hready : Ready s (min len s.getReadSize) :=
      ⟨h.wf.base_pos, h.wf.uniform, hpos, by omega, h.cur_of_lt (by omega)⟩
    obtain ⟨vs, hfrom, hvs⟩ := buffersFrom_spec hready
    have hcontents := f.contents_read (n := min len s.getReadSize) (by
      rw [← h.position, ← h.size]
      omega)
    have hread := (read_refines h hpos).2
    have hgather := hvs.gather h.wf.uniform
    rw [hcontents] at hread
    have hslice : slice (flat s.nodes) s.m_position (min len s.getReadSize)
        = slice f.contents f.position (min len s.getReadSize) := by
      rw [Flat.read] at hcontents
      split_ifs at hcontents with hfit
      · rw [h.bytes, h.position]
        exact Except.ok.inj hcontents
    rw [if_neg (Nat.ne_of_gt hpos), hfrom]
    refine ⟨vs, rfl, hvs.sum_iov_len, ?_, fun _ => ?_⟩
    · rw [hgather, hslice, h.contents, h.position]
    · rw [hgather, hslice, hread]

/-! ### Reachable states -/

theorem copyLoop_zero (copy : Copy) (fuel : Nat) (s : ByteArray) (buf : List Byte)
    (npos ncap : Nat) : copyLoop copy fuel s buf npos ncap 0 = .ok (s, buf) := by
  cases fuel with
  | zero => rw [copyLoop, if_pos rfl]
  | succ fuel => rw [copyLoop, if_pos rfl]

theorem cur_error {s : ByteArray} {e : Error} (h : s.cur = .error e) : e = .nullNode := by
  rw [cur] at h
  split at h
  · exact (Except.error.inj h).symm
  · split at h
    · exact (Except.error.inj h).symm
    · cases h

/-- A `read` of nothing throws nothing and leaves the state as it is. -/
theorem read_zero (s : ByteArray) :
    s.read 0 = (s, .ok []) ∨ s.read 0 = (s, .error .nullNode) := by
  rw [read, if_neg (Nat.not_lt_zero _), copyFrom]
  cases hcur : s.cur with
  | error e =>
    rw [cur_error hcur]
    exact .inr rfl
  | ok c =>
    left
    simp only [bind, Except.bind, copyLoop_zero]

theorem Reachable.refines {s : ByteArray} (hs : Reachable s) : ∃ f, Refines s f := by
  induction hs with
  | new base_size h => exact ⟨_, new_refines h⟩
  | @apply s op _ hop ih =>
    obtain ⟨f, hf⟩ := ih
    by_cases hallowed : op.Allowed
    · exact ⟨_, (apply_refines hf hallowed).1⟩
    · cases op with
      | read n =>
        obtain rfl : n = 0 := by
          show n = 0
          exact Nat.lt_one_iff.mp (Nat.not_le.mp hallowed)
        refine ⟨f, ?_⟩
        show Refines (s.read 0).1 f
        obtain hread | hread := read_zero s
        · rw [hread]
          exact hf
        · exact absurd (congrArg Prod.snd hread) hop
      | write buf => exact absurd trivial hallowed
      | setPosition v => exact absurd trivial hallowed
      | clear => exact absurd trivial hallowed
  | @getWriteBuffers s len n buffers bytes _ hbuffers hle ih =>
    obtain ⟨f, hf⟩ := ih
    obtain rfl | hpos := Nat.eq_zero_or_pos len
    · rw [ByteArray.getWriteBuffers, if_pos rfl] at hbuffers ⊢
      obtain ⟨rfl, rfl⟩ := Prod.mk.inj (Except.ok.inj hbuffers)
      exact ⟨f, hf⟩
    · obtain ⟨vs, hspec, hvs⟩ := getWriteBuffers_spec hf hpos
      rw [hspec] at hbuffers ⊢
      obtain ⟨rfl, rfl⟩ := Prod.mk.inj (Except.ok.inj hbuffers)
      exact ⟨_, filled_refines (addCapacity_ready hf hpos).1 hvs hle (f.le_room len)⟩

end ByteArray

end FiberServer
