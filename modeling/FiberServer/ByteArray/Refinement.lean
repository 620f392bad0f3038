import FiberServer.ByteArray.Flat

/-!
# `ByteArray` refines the flat buffer

The bytes of the nodes, one after the other, are the flat vector.

* `copyLoop_spec`: the rule for the loops of `write` and `read`.  It needs what one
  `memcpy` inside one node does.
* `apply_refines`: one call on the nodes does what the flat call does.
* `run_refines`: **so does every sequence of calls on a new `ByteArray`**, and no null
  node is dereferenced.
-/

namespace FiberServer

open Blocks

namespace ByteArray

/-- All nodes have `n` bytes. -/
def Uniform (n : Nat) (nodes : List Node) : Prop :=
  ∀ node ∈ nodes, node.size = n ∧ node.ptr.length = n

/-- The bytes of the chain. -/
def flat (nodes : List Node) : List Byte := (nodes.map Node.ptr).flatten

/-- Where `m_cur` is when the position is `p` and there are `count` nodes. -/
def curAt (n count p : Nat) : Option Nat := if p = n * count then none else some (p / n)

/-- The nodes, the counters and the cursor fit. -/
structure Wf (s : ByteArray) : Prop where
  base_pos : 0 < s.m_baseSize
  uniform : Uniform s.m_baseSize s.nodes
  root : 0 < s.nodes.length
  capacity : s.m_capacity = s.m_baseSize * s.nodes.length
  position_le : s.m_position ≤ s.m_size
  size_le : s.m_size ≤ s.m_capacity
  cur : s.m_cur = if s.m_position = s.m_capacity then none else some (s.m_position / s.m_baseSize)

/-! ### Nodes of one size -/

namespace Uniform

variable {n : Nat} {nodes : List Node}

theorem blocks (h : Uniform n nodes) : ∀ b ∈ nodes.map Node.ptr, b.length = n := by
  intro b hb
  obtain ⟨node, hnode, rfl⟩ := List.mem_map.mp hb
  exact (h node hnode).2

theorem length_flat (h : Uniform n nodes) : (flat nodes).length = n * nodes.length := by
  rw [flat, length_flatten h.blocks, List.length_map, Nat.mul_comm]

theorem append (h : Uniform n nodes) (count : Nat) :
    Uniform n (nodes ++ List.replicate count (Node.new n)) := by
  intro node hnode
  rcases List.mem_append.mp hnode with hnode | hnode
  · exact h node hnode
  · rw [List.eq_of_mem_replicate hnode]
    exact ⟨rfl, List.length_replicate⟩

theorem size (h : Uniform n nodes) {i : Nat} {node : Node} (hi : nodes[i]? = some node) :
    node.size = n := (h node (List.mem_of_getElem? hi)).1

end Uniform

theorem flat_append (nodes : List Node) (n count : Nat) :
    flat (nodes ++ List.replicate count (Node.new n))
      = flat nodes ++ List.replicate (count * n) none := by
  rw [flat, flat, List.map_append, List.flatten_append, List.map_replicate]
  simp [Node.new, List.flatten_replicate_replicate]

/-! ### One `memcpy` -/

/-- `put` inside one node. -/
theorem put_spec {n : Nat} {nodes : List Node} (h : Uniform n nodes) {i npos size : Nat}
    {buf : List Byte} (hi : i < nodes.length) (hfit : npos + size ≤ n) (hbuf : size ≤ buf.length) :
    Uniform n (put nodes buf i npos size).1
      ∧ (put nodes buf i npos size).1.length = nodes.length
      ∧ flat (put nodes buf i npos size).1
        = overwrite (flat nodes) (i * n + npos) (buf.take size) := by
  have hget : nodes[i]? = some nodes[i] := List.getElem?_eq_getElem hi
  have hlen : (buf.take size).length = size := List.length_take_of_le hbuf
  have hnode := h nodes[i] (List.getElem_mem hi)
  have hput : (put nodes buf i npos size).1 = nodes.set i
      { nodes[i] with ptr := overwrite nodes[i].ptr npos (buf.take size) } := by
    rw [put, hget]
    rfl
  rw [hput]
  refine ⟨fun node hm => ?_, List.length_set, ?_⟩
  · rcases List.mem_or_eq_of_mem_set hm with hm | rfl
    · exact h node hm
    · refine ⟨hnode.1, ?_⟩
      rw [length_overwrite (by rw [hlen, hnode.2]; exact hfit)]
      exact hnode.2
  · rw [flat, List.map_set]
    have hblock : (nodes.map Node.ptr)[i]? = some nodes[i].ptr := by rw [List.getElem?_map, hget]; rfl
    exact flatten_set_overwrite h.blocks hblock (by rw [hlen]; exact hfit)

/-- `fetch` inside one node. -/
theorem fetch_spec {n : Nat} {nodes : List Node} (h : Uniform n nodes) {i npos size : Nat}
    (buf : List Byte) (hi : i < nodes.length) (hfit : npos + size ≤ n) :
    fetch nodes buf i npos size = (nodes, buf ++ slice (flat nodes) (i * n + npos) size) := by
  have hget : nodes[i]? = some nodes[i] := List.getElem?_eq_getElem hi
  have hblock : (nodes.map Node.ptr)[i]? = some nodes[i].ptr := by rw [List.getElem?_map, hget]; rfl
  rw [fetch, hget, flat, slice_flatten h.blocks hblock hfit]
  rfl

/-! ### The loop -/

theorem cur_eq {s : ByteArray} {i : Nat} (hcur : s.m_cur = some i) (hi : i < s.nodes.length) :
    s.cur = .ok (i, s.nodes[i]) := by
  simp [cur, hcur, hi]

/-- The cursor after the bytes up to the end of node `i` or less. -/
theorem next_eq_curAt {s : ByteArray} {n i : Nat} (npos : Nat) (hn : 0 < n)
    (hi : i < s.nodes.length) (hpos : npos ≤ n) :
    (if n = npos then s.next i else some i) = curAt n s.nodes.length (i * n + npos) := by
  have hmul : i * n + n ≤ s.nodes.length * n := by
    rw [← Nat.succ_mul]
    exact Nat.mul_le_mul_right n hi
  rw [curAt, Nat.mul_comm n]
  split_ifs with h hend hend
  · -- the node is full and the last one
    subst h
    rw [← Nat.succ_mul] at hend
    rw [next, if_neg]
    have := Nat.eq_of_mul_eq_mul_right hn hend
    omega
  · subst h
    have hlt : i + 1 < s.nodes.length := by
      refine Nat.lt_of_le_of_ne hi fun heq => hend ?_
      rw [← heq, Nat.succ_mul]
    rw [next, if_pos hlt, ← Nat.succ_mul, Nat.mul_div_cancel _ hn]
  · omega
  · rw [Nat.mul_comm, Nat.mul_add_div hn, Nat.div_eq_of_lt (by omega), Nat.add_zero]

/-- **The loop rule.**  `P k` holds after `k` bytes; the nodes have `n` bytes each. -/
theorem copyLoop_spec {copy : Copy} {n len pos : Nat} (hn : 0 < n)
    {P : Nat → List Node → List Byte → Prop}
    (hstep : ∀ {k : Nat} {nodes : List Node} {buf : List Byte} (i npos size : Nat),
      P k nodes buf → Uniform n nodes → i < nodes.length → i * n + npos = pos + k →
      npos + size ≤ n → k + size ≤ len →
      P (k + size) (copy nodes buf i npos size).1 (copy nodes buf i npos size).2
        ∧ Uniform n (copy nodes buf i npos size).1
        ∧ (copy nodes buf i npos size).1.length = nodes.length) :
    ∀ {fuel : Nat} {s : ByteArray} {buf : List Byte} {i npos k size : Nat},
      P k s.nodes buf → Uniform n s.nodes → s.m_cur = some i → i < s.nodes.length →
      i * n + npos = s.m_position → s.m_position = pos + k → npos < n → 0 < size →
      k + size = len → pos + len ≤ n * s.nodes.length → s.nodes.length ≤ i + fuel →
      ∃ nodes buf', copyLoop copy fuel s buf npos (n - npos) size
          = .ok ({ s with
              nodes := nodes
              m_position := pos + len
              m_cur := curAt n nodes.length (pos + len) }, buf')
        ∧ P len nodes buf' ∧ Uniform n nodes ∧ nodes.length = s.nodes.length := by
  intro fuel
  induction fuel with
  | zero => intros; omega
  | succ fuel ih =>
    intro s buf i npos k size hP hu hcur hi hpos hk hnpos hsize hlen hcap hfuel
    have hnode : s.nodes[i].size = n := (hu s.nodes[i] (List.getElem_mem hi)).1
    rw [copyLoop, if_neg (Nat.ne_of_gt hsize), cur_eq hcur hi]
    by_cases hfit : size ≤ n - npos
    · -- the last round
      obtain ⟨hP', hu', hl'⟩ := hstep i npos size hP hu hi (hpos.trans hk) (by omega) (by omega)
      refine ⟨(copy s.nodes buf i npos size).1, (copy s.nodes buf i npos size).2, ?_,
        hlen ▸ hP', hu', hl'⟩
      have hend : pos + len = i * n + (npos + size) := by omega
      have hposition : s.m_position + size = pos + len := by omega
      have hat := next_eq_curAt (s := s) (npos + size) hn hi (by omega)
      simp only [bind, Except.bind, pure, Except.pure, hfit, if_true, hnode, hcur, hposition, hl']
      rw [hat, ← hend]
    · -- the rest of the node, and the loop goes on in the next one
      obtain ⟨hP', hu', hl'⟩ := hstep i npos (n - npos) hP hu hi (hpos.trans hk) (by omega) (by omega)
      have hnext : i + 1 < s.nodes.length := block_lt (n := n) (by
        rw [Nat.succ_mul]
        omega)
      let t : ByteArray := { s with
        nodes := (copy s.nodes buf i npos (n - npos)).1
        m_position := s.m_position + (n - npos)
        m_cur := s.next i }
      have htcur : t.m_cur = some (i + 1) := if_pos hnext
      have htlen : i + 1 < t.nodes.length := by
        show i + 1 < (copy s.nodes buf i npos (n - npos)).1.length
        omega
      have htnode : t.nodes[i + 1].size = n := (hu' _ (List.getElem_mem htlen)).1
      have htpos : (i + 1) * n + 0 = t.m_position := by
        show _ = s.m_position + (n - npos)
        rw [Nat.succ_mul]
        omega
      obtain ⟨nodes, buf', hloop, hP'', hu'', hl''⟩ := @ih t
        (copy s.nodes buf i npos (n - npos)).2 (i + 1) 0 (k + (n - npos)) (size - (n - npos))
        hP' hu' htcur htlen htpos
        (by show s.m_position + (n - npos) = _; omega) hn (by omega) (by omega)
        (by show _ ≤ n * (copy s.nodes buf i npos (n - npos)).1.length; rw [hl']; exact hcap)
        (by show (copy s.nodes buf i npos (n - npos)).1.length ≤ _; omega)
      refine ⟨nodes, buf', ?_, hP'', hu'', hl''.trans hl'⟩
      have htc : t.cur = .ok (i + 1, t.nodes[i + 1]) := cur_eq htcur htlen
      show (if size ≤ n - npos then _ else _) = _
      rw [if_neg hfit]
      show Except.bind t.cur (fun v => copyLoop copy fuel t
        (copy s.nodes buf i npos (n - npos)).2 0 v.2.size (size - (n - npos))) = _
      rw [htc]
      show copyLoop copy fuel t (copy s.nodes buf i npos (n - npos)).2 0 t.nodes[i + 1].size
        (size - (n - npos)) = _
      rw [htnode]
      exact hloop

/-! ### `addCapacity`, `write` and `read` -/

/-- The nodes of `s` hold the flat buffer `f`. -/
structure Refines (s : ByteArray) (f : Flat) : Prop where
  wf : Wf s
  base : s.m_baseSize = f.base
  position : s.m_position = f.position
  size : s.m_size = f.size
  bytes : flat s.nodes = f.bytes

namespace Refines

variable {s : ByteArray} {f : Flat}

theorem capacity (h : Refines s f) : s.m_capacity = f.bytes.length := by
  rw [← h.bytes, h.wf.uniform.length_flat, h.wf.capacity]

/-- Where the cursor is when there is room at it. -/
theorem cur_of_lt (h : Refines s f) (hlt : s.m_position < s.m_capacity) :
    s.m_cur = some (s.m_position / s.m_baseSize) := by
  rw [h.wf.cur, if_neg (Nat.ne_of_lt hlt)]

theorem cur_lt (h : Refines s f) (hlt : s.m_position < s.m_capacity) :
    s.m_position / s.m_baseSize < s.nodes.length :=
  Nat.div_lt_of_lt_mul (h.wf.capacity ▸ hlt)

end Refines

/-- `copyFrom` with the loop rule. -/
theorem copyFrom_spec (copy : Copy) {s : ByteArray} (buf : List Byte) {size : Nat}
    (P : Nat → List Node → List Byte → Prop) (hbase : 0 < s.m_baseSize)
    (hu : Uniform s.m_baseSize s.nodes) (hsize : 0 < size)
    (hcap : s.m_position + size ≤ s.m_baseSize * s.nodes.length)
    (hcur : s.m_cur = some (s.m_position / s.m_baseSize))
    (hstep : ∀ {k : Nat} {nodes : List Node} {buf : List Byte} (i npos size' : Nat),
      P k nodes buf → Uniform s.m_baseSize nodes → i < nodes.length →
      i * s.m_baseSize + npos = s.m_position + k →
      npos + size' ≤ s.m_baseSize → k + size' ≤ size →
      P (k + size') (copy nodes buf i npos size').1 (copy nodes buf i npos size').2
        ∧ Uniform s.m_baseSize (copy nodes buf i npos size').1
        ∧ (copy nodes buf i npos size').1.length = nodes.length)
    (h0 : P 0 s.nodes buf) :
    ∃ nodes buf', copyFrom copy s buf size
        = .ok ({ s with
            nodes := nodes
            m_position := s.m_position + size
            m_cur := curAt s.m_baseSize nodes.length (s.m_position + size) }, buf')
      ∧ P size nodes buf' ∧ Uniform s.m_baseSize nodes ∧ nodes.length = s.nodes.length := by
  have hi : s.m_position / s.m_baseSize < s.nodes.length := Nat.div_lt_of_lt_mul (by omega)
  have hpos := Nat.div_add_mod' s.m_position s.m_baseSize
  have hloop := copyLoop_spec hbase hstep h0 hu hcur hi hpos (Nat.add_zero _).symm
    (Nat.mod_lt _ hbase) hsize (Nat.zero_add _) hcap (Nat.le_add_left ..)
  rw [copyFrom, cur_eq hcur hi]
  simp only [bind, Except.bind, hu.size (List.getElem?_eq_getElem hi)]
  exact hloop

/-- What the copying of `size` bytes needs. -/
structure Ready (s : ByteArray) (size : Nat) : Prop where
  base_pos : 0 < s.m_baseSize
  uniform : Uniform s.m_baseSize s.nodes
  size_pos : 0 < size
  fits : s.m_position + size ≤ s.m_baseSize * s.nodes.length
  cur : s.m_cur = some (s.m_position / s.m_baseSize)

/-- The state after the copying. -/
def moved (s : ByteArray) (nodes : List Node) (size : Nat) : ByteArray :=
  { s with
    nodes := nodes
    m_position := s.m_position + size
    m_cur := curAt s.m_baseSize nodes.length (s.m_position + size) }

theorem copyFrom_put {s : ByteArray} {buf : List Byte} (h : Ready s buf.length) :
    ∃ nodes rest, copyFrom put s buf buf.length = .ok (s.moved nodes buf.length, rest)
      ∧ flat nodes = overwrite (flat s.nodes) s.m_position buf
      ∧ Uniform s.m_baseSize nodes ∧ nodes.length = s.nodes.length := by
  have hlen := h.uniform.length_flat
  have hfits := h.fits
  -- after `k` bytes the first `k` bytes of `buf` are written
  obtain ⟨nodes, rest, hcopy, ⟨hbytes, -⟩, hu, hl⟩ := copyFrom_spec put buf
    (fun k nodes rest => flat nodes = overwrite (flat s.nodes) s.m_position (buf.take k)
      ∧ rest = buf.drop k)
    h.base_pos h.uniform h.size_pos h.fits h.cur (by
      intro k nodes rest i npos size hP hun hi hat hfit hk
      obtain ⟨hP, rfl⟩ := hP
      have hrest : size ≤ (buf.drop k).length := by
        rw [List.length_drop]
        omega
      obtain ⟨hun', hl, hput⟩ := put_spec hun hi hfit hrest
      have hk' : (buf.take k).length = k := List.length_take_of_le (by omega)
      have hin : s.m_position + (buf.take k).length ≤ (flat s.nodes).length := by omega
      have hover : overwrite (overwrite (flat s.nodes) s.m_position (buf.take k))
          (s.m_position + (buf.take k).length) ((buf.drop k).take size) = _ :=
        overwrite_overwrite hin
      rw [hk', ← List.take_add] at hover
      refine ⟨⟨?_, ?_⟩, hun', hl⟩
      · rw [hput, hP, hat]
        exact hover
      · rw [put, List.drop_drop]) ⟨by simp, rfl⟩
  rw [List.take_length] at hbytes
  exact ⟨nodes, rest, hcopy, hbytes, hu, hl⟩

theorem copyFrom_fetch {s : ByteArray} {size : Nat} (h : Ready s size) :
    copyFrom fetch s [] size
      = .ok (s.moved s.nodes size, slice (flat s.nodes) s.m_position size) := by
  obtain ⟨nodes, buf, hcopy, ⟨rfl, rfl⟩, -, -⟩ := copyFrom_spec fetch []
    (fun k nodes buf => nodes = s.nodes ∧ buf = slice (flat s.nodes) s.m_position k)
    h.base_pos h.uniform h.size_pos h.fits h.cur (by
      intro k nodes buf i npos size hP hun hi hat hfit hk
      obtain ⟨rfl, rfl⟩ := hP
      rw [fetch_spec hun _ hi hfit, hat, ← slice_add]
      exact ⟨⟨rfl, rfl⟩, hun, rfl⟩) ⟨rfl, by simp⟩
  exact hcopy

/-- The state after `addCapacity` has room for `n` bytes, and a node under the cursor. -/
theorem addCapacity_spec {s : ByteArray} {f : Flat} (h : Refines s f) {n : Nat} (hn : 0 < n) :
    let t := s.addCapacity n
    t.m_baseSize = s.m_baseSize ∧ t.m_position = s.m_position ∧ t.m_size = s.m_size
      ∧ Uniform s.m_baseSize t.nodes ∧ t.m_capacity = s.m_baseSize * t.nodes.length
      ∧ flat t.nodes = f.room n ∧ 0 < t.nodes.length
      ∧ t.m_cur = some (s.m_position / s.m_baseSize) := by
  have hcap := h.capacity
  have hwf := h.wf
  have hbase := hwf.base_pos
  have hposcap := Nat.le_trans hwf.position_le hwf.size_le
  have hlack : f.lack n = (n - s.getCapacity + s.m_baseSize - 1) / s.m_baseSize := by
    rw [Flat.lack, ← hcap, ← h.base, ← h.position]
    rfl
  simp only
  rw [addCapacity, if_neg (Nat.ne_of_gt hn)]
  simp only
  by_cases hle : n ≤ s.getCapacity
  · -- there is room already
    rw [if_pos hle]
    have hzero : f.lack n = 0 := by
      rw [hlack, Nat.sub_eq_zero_of_le hle, Nat.zero_add]
      exact Nat.div_eq_of_lt (Nat.sub_lt hbase Nat.one_pos)
    refine ⟨rfl, rfl, rfl, hwf.uniform, hwf.capacity, ?_, hwf.root, h.cur_of_lt ?_⟩
    · rw [Flat.room, hzero, h.bytes]
      simp
    · rw [getCapacity] at hle
      omega
  · have hpos : 0 < f.lack n := by
      rw [hlack]
      exact Nat.div_pos (by omega) hbase
    rw [if_neg hle, ← hlack, if_pos hpos]
    refine ⟨rfl, rfl, rfl, hwf.uniform.append _, ?_, ?_, ?_, ?_⟩
    · rw [List.length_append, List.length_replicate, Nat.mul_add, hwf.capacity, Nat.mul_comm _ (f.lack n)]
    · rw [flat_append, h.bytes, h.base]
      rfl
    · rw [List.length_append]
      have hroot := hwf.root
      omega
    · show (if s.getCapacity = 0 then some s.nodes.length else s.m_cur) = _
      rw [getCapacity] at *
      split_ifs with hfull
      · -- the cursor was at the end of the last node
        have hend : s.m_position = s.m_baseSize * s.nodes.length := by
          rw [← hwf.capacity]
          omega
        rw [hend, Nat.mul_div_cancel_left _ hbase]
      · exact h.cur_of_lt (by omega)

/-- The state after the copying, once `m_size` has been raised. -/
theorem Ready.refines_moved {s : ByteArray} {size : Nat} (h : Ready s size) (nodes : List Node)
    (hu : Uniform s.m_baseSize nodes) (hlen : nodes.length = s.nodes.length)
    (hcap : s.m_capacity = s.m_baseSize * s.nodes.length) (hsize : s.m_size ≤ s.m_capacity)
    {f : Flat} (hbase : s.m_baseSize = f.base) (hposition : s.m_position + size = f.position)
    (hmax : max s.m_size (s.m_position + size) = f.size) (hbytes : flat nodes = f.bytes) :
    Refines { s.moved nodes size with m_size := max s.m_size (s.m_position + size) } f := by
  have hfits := h.fits
  have hroot : 0 < s.nodes.length := by
    rcases Nat.eq_zero_or_pos s.nodes.length with hz | hz
    · rw [hz] at hfits
      have hpos := h.size_pos
      omega
    · exact hz
  refine ⟨⟨h.base_pos, hu, ?_, ?_, ?_, ?_, ?_⟩, hbase, hposition, hmax, hbytes⟩
  · show 0 < nodes.length
    omega
  · show s.m_capacity = s.m_baseSize * nodes.length
    rw [hlen, hcap]
  · exact Nat.le_max_right ..
  · show max s.m_size (s.m_position + size) ≤ s.m_capacity
    omega
  · show curAt s.m_baseSize nodes.length (s.m_position + size) = _
    rw [curAt, hlen, ← hcap]
    rfl

theorem write_refines {s : ByteArray} {f : Flat} (h : Refines s f) (buf : List Byte) :
    Refines (s.write buf).1 (f.write buf) ∧ (s.write buf).2 = .ok [] := by
  rw [write]
  split_ifs with hzero
  · have hnil : buf = [] := List.eq_nil_of_length_eq_zero hzero
    subst hnil
    have hlack : f.lack 0 = 0 := by
      rw [Flat.lack, Nat.zero_sub, Nat.zero_add]
      exact Nat.div_eq_of_lt (Nat.sub_lt f.base_pos Nat.one_pos)
    refine ⟨⟨h.wf, h.base, h.position, ?_, ?_⟩, rfl⟩
    · show s.m_size = max f.size f.position
      rw [Nat.max_eq_left f.position_le]
      exact h.size
    · show flat s.nodes = overwrite (f.room 0) f.position []
      rw [overwrite_nil, Flat.room, hlack, h.bytes]
      simp
  · have hpos : 0 < buf.length := Nat.pos_of_ne_zero hzero
    obtain ⟨hb, hp, hs, hu, hc, hflat, hroot, hcur⟩ := addCapacity_spec h hpos
    generalize s.addCapacity buf.length = t at hb hp hs hu hc hflat hroot hcur ⊢
    have hroom := f.le_room buf.length
    rw [← hflat, hu.length_flat, ← h.position, ← hb, ← hp] at hroom
    rw [← hb] at hu hc hcur
    rw [← hp] at hcur
    have hready : Ready t buf.length := ⟨hb ▸ h.wf.base_pos, hu, hpos, hroom, hcur⟩
    obtain ⟨nodes, rest, hcopy, hbytes, hu', hl'⟩ := copyFrom_put hready
    have hsize : t.m_size ≤ t.m_capacity := by
      have hold := h.wf.size_le
      have hlen := hu.length_flat
      have hcap := h.capacity
      have hlong := f.length_room buf.length
      rw [hflat] at hlen
      omega
    have hrefines : Refines { t.moved nodes buf.length with
        m_size := max t.m_size (t.m_position + buf.length) } (f.write buf) := by
      refine hready.refines_moved nodes hu' hl' hc hsize (hb.trans h.base) ?_ ?_ ?_
      · rw [hp, h.position]
        rfl
      · rw [hs, hp, h.size, h.position]
        rfl
      · rw [hbytes, hflat, hp, h.position]
        rfl
    simp only
    rw [hcopy]
    refine ⟨?_, rfl⟩
    simp only
    split_ifs with hlt
    · have hmax : max t.m_size (t.m_position + buf.length) = t.m_position + buf.length :=
        Nat.max_eq_right (Nat.le_of_lt hlt)
      rw [hmax] at hrefines
      exact hrefines
    · have hmax : max t.m_size (t.m_position + buf.length) = t.m_size :=
        Nat.max_eq_left (Nat.le_of_not_lt hlt)
      rw [hmax] at hrefines
      exact hrefines

theorem read_refines {s : ByteArray} {f : Flat} (h : Refines s f) {n : Nat} (hn : 0 < n) :
    Refines (s.read n).1 (f.read n).1 ∧ (s.read n).2 = (f.read n).2 := by
  have hposition := h.wf.position_le
  have hsize := h.wf.size_le
  have hfp := h.position
  have hfs := h.size
  rw [read, Flat.read, getReadSize]
  by_cases hlt : s.m_size - s.m_position < n
  · rw [if_pos hlt, dif_neg (by omega)]
    exact ⟨h, rfl⟩
  · have hin : s.m_position + n ≤ s.m_size := by omega
    have hcap := h.wf.capacity
    have hready : Ready s n :=
      ⟨h.wf.base_pos, h.wf.uniform, hn, by omega, h.cur_of_lt (by omega)⟩
    rw [if_neg hlt, dif_pos (by omega), copyFrom_fetch hready]
    refine ⟨?_, ?_⟩
    · have hmax : max s.m_size (s.m_position + n) = s.m_size := Nat.max_eq_left hin
      have hrefines := hready.refines_moved s.nodes h.wf.uniform rfl hcap hsize
        (f := { f with position := f.position + n, position_le := by omega }) h.base
        (by rw [h.position]) (by rw [hmax, h.size]) h.bytes
      rw [hmax] at hrefines
      exact hrefines
    · rw [h.bytes, h.position]

/-! ### `setPosition` and `clear` -/

/-- The loop of `setPosition` ends in a node that has the position or ends at it. -/
theorem seek_spec {n : Nat} {nodes : List Node} (hu : Uniform n nodes) :
    ∀ {fuel i v : Nat}, i < nodes.length → v ≤ n * (nodes.length - i) →
      nodes.length ≤ i + fuel →
      ∃ j w node, seek nodes fuel i v = .ok (j, node, w) ∧ nodes[j]? = some node
        ∧ w ≤ n ∧ j * n + w = i * n + v := by
  intro fuel
  induction fuel with
  | zero => intros; omega
  | succ fuel ih =>
    intro i v hi hv hfuel
    have hget : nodes[i]? = some nodes[i] := List.getElem?_eq_getElem hi
    have hsize := hu.size hget
    rw [seek, hget]
    simp only [hsize]
    split_ifs with hlt
    · have hsucc : n * (nodes.length - i) = n * (nodes.length - (i + 1)) + n := by
        rw [← Nat.mul_succ]
        congr 1
        omega
      have hnext : i + 1 < nodes.length := by
        by_contra hlast
        rw [Nat.sub_eq_zero_of_le (Nat.le_of_not_lt hlast)] at hsucc
        omega
      obtain ⟨j, w, node, hseek, hj, hw, heq⟩ := ih (v := v - n) hnext (by omega) (by omega)
      refine ⟨j, w, node, hseek, hj, hw, ?_⟩
      rw [heq, Nat.succ_mul]
      omega
    · exact ⟨i, v, nodes[i], rfl, hget, Nat.le_of_not_lt hlt, rfl⟩

theorem setPosition_refines {s : ByteArray} {f : Flat} (h : Refines s f) (v : Nat) :
    Refines (s.setPosition v).1 (f.setPosition v).1
      ∧ (s.setPosition v).2 = (f.setPosition v).2 := by
  have hcap := h.capacity
  have hwf := h.wf
  rw [setPosition, Flat.setPosition]
  by_cases hlt : s.m_capacity < v
  · rw [if_pos hlt, dif_neg (by omega)]
    exact ⟨h, rfl⟩
  · rw [if_neg hlt, dif_pos (by omega)]
    have hv : v ≤ s.m_baseSize * (s.nodes.length - 0) := by
      rw [Nat.sub_zero, ← hwf.capacity]
      omega
    obtain ⟨j, w, node, hseek, hj, hw, heq⟩ :=
      seek_spec hwf.uniform hwf.root hv (Nat.le_add_left s.nodes.length 0)
    obtain ⟨hjlt, -⟩ := List.getElem?_eq_some_iff.mp hj
    have hat := next_eq_curAt w hwf.base_pos hjlt hw
    rw [heq, Nat.zero_mul, Nat.zero_add, curAt, ← hwf.capacity] at hat
    have hcur : (if w = node.size then s.next j else some j)
        = if v = s.m_capacity then none else some (v / s.m_baseSize) := by
      rw [← hat, hwf.uniform.size hj]
      by_cases hfull : s.m_baseSize = w
      · rw [if_pos hfull, if_pos hfull.symm]
      · rw [if_neg hfull, if_neg fun h' => hfull h'.symm]
    have hmax : (if s.m_size < v then { s with m_position := v, m_size := v }
        else { s with m_position := v }) = { s with m_position := v, m_size := max s.m_size v } := by
      split_ifs with hgt
      · rw [Nat.max_eq_right (Nat.le_of_lt hgt)]
      · rw [Nat.max_eq_left (Nat.le_of_not_lt hgt)]
    simp only [hmax, hseek]
    refine ⟨⟨⟨hwf.base_pos, hwf.uniform, hwf.root, hwf.capacity, Nat.le_max_right .., ?_, ?_⟩,
      h.base, rfl, ?_, h.bytes⟩, trivial⟩
    · have hsize := hwf.size_le
      show max s.m_size v ≤ s.m_capacity
      omega
    · exact hcur
    · show max s.m_size v = max f.size v
      rw [h.size]

theorem clear_refines {s : ByteArray} {f : Flat} (h : Refines s f) : Refines s.clear f.clear := by
  have hwf := h.wf
  obtain ⟨node, rest, hnodes⟩ := List.exists_cons_of_length_pos hwf.root
  have hnode := hwf.uniform node (hnodes ▸ List.mem_cons_self)
  have htake : s.clear.nodes = [node] := by
    show s.nodes.take 1 = [node]
    rw [hnodes]
    rfl
  refine ⟨⟨hwf.base_pos, ?_, ?_, ?_, Nat.le_refl 0, Nat.zero_le _, ?_⟩, h.base, rfl, rfl, ?_⟩
  · rw [htake]
    exact fun x hx => List.mem_singleton.mp hx ▸ hnode
  · rw [htake]
    exact Nat.one_pos
  · rw [htake]
    exact (Nat.mul_one _).symm
  · show some 0 = if 0 = s.m_baseSize then none else some (0 / s.m_baseSize)
    rw [if_neg (Nat.ne_of_lt hwf.base_pos), Nat.zero_div]
  · show flat s.clear.nodes = f.bytes.take f.base
    have hbytes : f.bytes = node.ptr ++ flat rest := by
      rw [← h.bytes, hnodes]
      rfl
    have hflat : flat [node] = node.ptr := List.append_nil _
    rw [htake, hflat, hbytes, ← h.base, List.take_left' hnode.2]

/-! ### Sequences of calls -/

/-- A `read` of nothing looks at the node under the cursor all the same. -/
def Op.Allowed : Op → Prop
  | .read n => 1 ≤ n
  | _ => True

instance : DecidablePred Op.Allowed
  | .read n => inferInstanceAs (Decidable (1 ≤ n))
  | .write _ | .setPosition _ | .clear => .isTrue trivial

/-- **One call.** -/
theorem apply_refines {s : ByteArray} {f : Flat} (h : Refines s f) {op : Op} (hop : op.Allowed) :
    Refines (s.apply op).1 (f.apply op).1 ∧ (s.apply op).2 = (f.apply op).2 := by
  cases op with
  | write buf => exact write_refines h buf
  | read n => exact read_refines h hop
  | setPosition v => exact setPosition_refines h v
  | clear => exact ⟨clear_refines h, rfl⟩

theorem new_refines {base_size : Nat} (h : 1 ≤ base_size) :
    Refines (new base_size) (Flat.new base_size h) where
  wf :=
    { base_pos := h
      uniform := fun node hnode => by
        rw [List.mem_singleton.mp hnode]
        exact ⟨rfl, List.length_replicate⟩
      root := Nat.one_pos
      capacity := (Nat.mul_one _).symm
      position_le := Nat.le_refl 0
      size_le := Nat.zero_le _
      cur := by
        show some 0 = if 0 = base_size then none else some (0 / base_size)
        rw [if_neg (Nat.ne_of_lt h), Nat.zero_div] }
  base := rfl
  position := rfl
  size := rfl
  bytes := List.append_nil _

theorem run_refines {s : ByteArray} {f : Flat} (h : Refines s f) {ops : List Op}
    (hops : ∀ op ∈ ops, op.Allowed) :
    Refines (s.run ops).1 (f.run ops).1 ∧ (s.run ops).2 = (f.run ops).2 := by
  induction ops generalizing s f with
  | nil => exact ⟨h, rfl⟩
  | cons op ops ih =>
    obtain ⟨happly, hreply⟩ := apply_refines h (hops op List.mem_cons_self)
    obtain ⟨hrun, hreplies⟩ := ih happly fun op' hop => hops op' (List.mem_cons_of_mem op hop)
    refine ⟨hrun, ?_⟩
    rw [run, Flat.run]
    simp only [hreply, hreplies]

theorem flat_apply_ne_nullNode (f : Flat) (op : Op) : (f.apply op).2 ≠ .error .nullNode := by
  cases op with
  | write buf =>
    intro h
    cases h
  | read n =>
    rw [Flat.apply, Flat.read]
    split_ifs <;> intro h <;> cases h
  | setPosition v =>
    rw [Flat.apply, Flat.setPosition]
    split_ifs <;> intro h <;> cases h
  | clear =>
    intro h
    cases h

theorem flat_run_ne_nullNode (f : Flat) (ops : List Op) : .error .nullNode ∉ (f.run ops).2 := by
  induction ops generalizing f with
  | nil => exact List.not_mem_nil
  | cons op ops ih =>
    intro h
    rcases List.mem_cons.mp h with h | h
    · exact flat_apply_ne_nullNode f op h.symm
    · exact ih _ h

/-- **`ByteArray` refines the flat buffer.**  After every sequence of calls the nodes
hold the flat buffer, every call has answered as the flat one, and none has
dereferenced a null node. -/
theorem new_run_refines {base_size : Nat} (h : 1 ≤ base_size) {ops : List Op}
    (hops : ∀ op ∈ ops, op.Allowed) :
    Refines ((new base_size).run ops).1 ((Flat.new base_size h).run ops).1
      ∧ ((new base_size).run ops).2 = ((Flat.new base_size h).run ops).2
      ∧ .error .nullNode ∉ ((new base_size).run ops).2 := by
  obtain ⟨hrefines, hreplies⟩ := run_refines (new_refines h) hops
  refine ⟨hrefines, hreplies, ?_⟩
  rw [hreplies]
  exact flat_run_ne_nullNode _ _

/-- Five bytes over nodes of two, read back from the second one on; then a read and a
move that throw. -/
def fiveBytes : List Op :=
  [.write [some 1, some 2, some 3, some 4, some 5], .setPosition 1, .read 3, .read 2,
    .setPosition 7, .setPosition 6, .clear, .setPosition 2]

theorem new_run_refines_fiveBytes :
    (((new 2).run fiveBytes).2 = [.ok [], .ok [], .ok [some 2, some 3, some 4],
      .error .out_of_range, .error .out_of_range, .ok [], .ok [], .ok []])
    ∧ Refines ((new 2).run fiveBytes).1 ((Flat.new 2 (by decide)).run fiveBytes).1
      ∧ ((new 2).run fiveBytes).2 = ((Flat.new 2 (by decide)).run fiveBytes).2
      ∧ .error .nullNode ∉ ((new 2).run fiveBytes).2 :=
  ⟨by decide, new_run_refines (by decide) (by decide)⟩

end ByteArray

end FiberServer
