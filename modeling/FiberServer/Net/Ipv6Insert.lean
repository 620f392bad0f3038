import FiberServer.Library.Ipv6Text
import FiberServer.Net.Address

/-!
# `IPv6Address::insert`

One loop prints the eight groups of an address.  A flag and a look at the group before decide which
run of zeros becomes `::`; a run at the end is printed behind the loop.

* `printed_insertLoop`: what the loop has printed after any number of groups.
* `insert_faithful`: the address is read back from its text.
-/

namespace FiberServer

namespace Net

open Ipv6 Words
open FiberServer.ByteArray (Endian byteswap ofMemory)

section

variable (FIBER_BYTE_ORDER : Endian)

/-- `addr[i]` of the bytes as an array of `uint16_t`. -/
def In6Addr.at (a : In6Addr) (i : Nat) : BitVec 16 :=
  ofMemory FIBER_BYTE_ORDER 2 ((a.s6_addr.drop (2 * i)).take 2)

/-- One pass of the loop; the state is what is printed, and `used_zeros`. -/
def insertStep (addr : Nat → BitVec 16) (s : Str × Bool) (i : Nat) : Str × Bool :=
  let (os, used_zeros) := s
  if addr i = 0 ∧ !used_zeros then (os, used_zeros)
  else
    let (os, used_zeros) :=
      if i ≠ 0 ∧ addr (i - 1) = 0 ∧ !used_zeros then (os ++ [':'], true) else (os, used_zeros)
    let os := if i ≠ 0 then os ++ [':'] else os
    (os ++ Nat.toDigits 16 (byteswapOnLittleEndian FIBER_BYTE_ORDER (n := 2) (addr i)).toNat,
      used_zeros)

/-- The loop up to `n`. -/
def insertLoop (addr : Nat → BitVec 16) (n : Nat) (os : Str) : Str × Bool :=
  (List.range n).foldl (insertStep FIBER_BYTE_ORDER addr) (os, false)

/-- `IPv6Address::insert` on a stream with the flags of a new one. -/
def IPv6Address.insert (m_addr : sockaddr_in6) (os : Str) : Str :=
  let addr := m_addr.sin6_addr.at FIBER_BYTE_ORDER
  let (os, used_zeros) := insertLoop FIBER_BYTE_ORDER addr 8 (os ++ ['['])
  let os := if !used_zeros ∧ addr 7 = 0 then os ++ [':', ':'] else os
  os ++ [']', ':']
    ++ Nat.toDigits 10 (byteswapOnLittleEndian FIBER_BYTE_ORDER (n := 2) m_addr.sin6_port).toNat

/-! ### The loop -/

/-- The number that is printed for a group. -/
def groupAt (addr : Nat → BitVec 16) (i : Nat) : Nat :=
  (byteswapOnLittleEndian FIBER_BYTE_ORDER (n := 2) (addr i)).toNat

/-- What is printed for groups: all of them but the zeros at the end, or all but the first run of
zeros, for which `::` stands. -/
inductive Printed : List Nat → Str → Bool → Prop
  | plain (l : List Nat) (k : Nat) (hl : 0 ∉ l) :
    Printed (l ++ List.replicate k 0) (join l) false
  | double (l : List Nat) (k : Nat) (r : List Nat) (hk : 0 < k) (hr : r ≠ []) :
    Printed (l ++ List.replicate k 0 ++ r) (join l ++ ':' :: ':' :: join r) true

variable {FIBER_BYTE_ORDER}

theorem byteswapOnLittleEndian_zero : byteswapOnLittleEndian FIBER_BYTE_ORDER (n := 2) 0 = 0 := by
  cases FIBER_BYTE_ORDER with
  | FIBER_LITTLE_ENDIAN => rfl
  | FIBER_BIG_ENDIAN => rfl

theorem groupAt_eq_zero_iff (addr : Nat → BitVec 16) (i : Nat) :
    groupAt FIBER_BYTE_ORDER addr i = 0 ↔ addr i = 0 := by
  rw [groupAt]
  constructor
  · intro h
    have hzero : byteswapOnLittleEndian FIBER_BYTE_ORDER (n := 2) (addr i) = 0 :=
      BitVec.eq_of_toNat_eq h
    rw [← @byteswapOnLittleEndian_self FIBER_BYTE_ORDER 2 (addr i), hzero,
      byteswapOnLittleEndian_zero]
  · intro h
    rw [h, byteswapOnLittleEndian_zero]
    rfl

variable (addr : Nat → BitVec 16) (os : Str)

theorem insertLoop_succ (n : Nat) :
    insertLoop FIBER_BYTE_ORDER addr (n + 1) os
      = insertStep FIBER_BYTE_ORDER addr (insertLoop FIBER_BYTE_ORDER addr n os) n := by
  rw [insertLoop, List.range_succ, List.foldl_append]
  rfl

variable {addr}

theorem insertStep_skip {n : Nat} (h : addr n = 0) :
    insertStep FIBER_BYTE_ORDER addr (os, false) n = (os, false) := by
  simp [insertStep, h]

theorem insertStep_double {n : Nat} (h : addr (n + 1) ≠ 0) (hprev : addr n = 0) :
    insertStep FIBER_BYTE_ORDER addr (os, false) (n + 1)
      = (os ++ ':' :: ':' :: Nat.toDigits 16 (groupAt FIBER_BYTE_ORDER addr (n + 1)), true) := by
  have hne : ¬ addr (n + 1) = 0#16 := h
  simp [insertStep, hne, hprev, groupAt]

theorem insertStep_first (h : addr 0 ≠ 0) :
    insertStep FIBER_BYTE_ORDER addr (os, false) 0
      = (os ++ Nat.toDigits 16 (groupAt FIBER_BYTE_ORDER addr 0), false) := by
  have hne : ¬ addr 0 = 0#16 := h
  simp [insertStep, hne, groupAt]

theorem insertStep_next {n : Nat} {used_zeros : Bool}
    (h : used_zeros = false → addr (n + 1) ≠ 0 ∧ addr n ≠ 0) :
    insertStep FIBER_BYTE_ORDER addr (os, used_zeros) (n + 1)
      = (os ++ ':' :: Nat.toDigits 16 (groupAt FIBER_BYTE_ORDER addr (n + 1)), used_zeros) := by
  cases used_zeros with
  | true => simp [insertStep, groupAt]
  | false =>
    have hne : ¬ addr (n + 1) = 0#16 := (h rfl).1
    have hprev : ¬ addr n = 0#16 := (h rfl).2
    simp [insertStep, groupAt, hne, hprev]

/-- The groups in front of `n`. -/
abbrev groupsTo (FIBER_BYTE_ORDER : Endian) (addr : Nat → BitVec 16) (n : Nat) : List Nat :=
  (List.range n).map (groupAt FIBER_BYTE_ORDER addr)

theorem groupsTo_succ (n : Nat) :
    groupsTo FIBER_BYTE_ORDER addr (n + 1)
      = groupsTo FIBER_BYTE_ORDER addr n ++ [groupAt FIBER_BYTE_ORDER addr n] := by
  rw [groupsTo, List.range_succ, List.map_append]
  rfl

/-- The look at the last group tells whether a run of zeros ends there. -/
theorem last_eq_zero_iff {n k : Nat} {l : List Nat} (hl : 0 ∉ l)
    (h : groupsTo FIBER_BYTE_ORDER addr (n + 1) = l ++ List.replicate k 0) :
    addr n = 0 ↔ 0 < k := by
  rw [groupsTo_succ] at h
  rw [← @groupAt_eq_zero_iff FIBER_BYTE_ORDER]
  cases k with
  | zero =>
    rw [List.replicate_zero, List.append_nil] at h
    have hmem : groupAt FIBER_BYTE_ORDER addr n ∈ l := by
      rw [← h]
      exact List.mem_append_right _ List.mem_cons_self
    exact iff_of_false (fun hzero => hl (hzero ▸ hmem)) (Nat.lt_irrefl 0)
  | succ k =>
    rw [List.replicate_succ', ← List.append_assoc] at h
    have hlast := (List.append_inj' h rfl).2
    exact iff_of_true (List.cons.inj hlast).1 (Nat.succ_pos k)

/-- One more group. -/
theorem printed_insertStep {n : Nat} {text : Str} {used_zeros : Bool}
    (h : Printed (groupsTo FIBER_BYTE_ORDER addr n) text used_zeros) :
    ∃ text', (insertStep FIBER_BYTE_ORDER addr (os ++ text, used_zeros) n).1 = os ++ text'
      ∧ Printed (groupsTo FIBER_BYTE_ORDER addr (n + 1)) text'
        (insertStep FIBER_BYTE_ORDER addr (os ++ text, used_zeros) n).2 := by
  rw [groupsTo_succ]
  generalize hgroups : groupsTo FIBER_BYTE_ORDER addr n = gs at h
  cases h with
  | plain l k hl =>
    by_cases hzero : addr n = 0
    · -- the run of zeros goes on
      rw [insertStep_skip _ hzero, (groupAt_eq_zero_iff addr n).mpr hzero, List.append_assoc,
        ← List.replicate_succ']
      exact ⟨_, rfl, .plain l (k + 1) hl⟩
    · have hgroup : groupAt FIBER_BYTE_ORDER addr n ≠ 0 :=
        mt (groupAt_eq_zero_iff addr n).mp hzero
      cases n with
      | zero =>
        -- the first group
        have hnil : l ++ List.replicate k 0 = [] := hgroups.symm
        obtain ⟨rfl, hreplicate⟩ := List.append_eq_nil_iff.mp hnil
        rw [hreplicate, List.append_nil, insertStep_first _ hzero]
        refine ⟨join [groupAt FIBER_BYTE_ORDER addr 0], ?_, ?_⟩
        · rw [join_singleton, show join [] = [] from rfl, List.append_nil]
        · exact .plain [_] 0 (by simpa using hgroup.symm)
      | succ n =>
        have hlast := last_eq_zero_iff hl hgroups
        cases k with
        | zero =>
          -- no run of zeros is open
          have hprev : addr n ≠ 0 := fun heq => Nat.lt_irrefl 0 (hlast.mp heq)
          rw [List.replicate_zero, List.append_nil] at hgroups ⊢
          have hne : l ≠ [] := by
            rw [← hgroups, groupsTo_succ]
            simp
          rw [insertStep_next _ fun _ => ⟨hzero, hprev⟩]
          refine ⟨join (l ++ [groupAt FIBER_BYTE_ORDER addr (n + 1)]), ?_, ?_⟩
          · rw [join_append_singleton hne, List.append_assoc]
          · have hl' : 0 ∉ l ++ [groupAt FIBER_BYTE_ORDER addr (n + 1)] := by
              simp [hl, hgroup.symm]
            have hplain := Printed.plain _ 0 hl'
            rw [List.replicate_zero, List.append_nil] at hplain
            exact hplain
        | succ k =>
          -- the run ends here
          rw [insertStep_double _ hzero (hlast.mpr (Nat.succ_pos k))]
          refine ⟨join l ++ ':' :: ':' :: join [groupAt FIBER_BYTE_ORDER addr (n + 1)], ?_, ?_⟩
          · rw [join_singleton, List.append_assoc]
          · exact .double l (k + 1) [_] (Nat.succ_pos k) (List.cons_ne_nil _ _)
  | double l k r hk hr =>
    cases n with
    | zero =>
      have hnil : l ++ List.replicate k 0 ++ r = [] := hgroups.symm
      exact absurd (List.append_eq_nil_iff.mp hnil).2 hr
    | succ n =>
      rw [insertStep_next _ fun heq => absurd heq (by decide)]
      refine ⟨join l ++ ':' :: ':' :: join (r ++ [groupAt FIBER_BYTE_ORDER addr (n + 1)]), ?_, ?_⟩
      · rw [join_append_singleton hr]
        simp
      · rw [List.append_assoc]
        exact .double l k _ hk (by simp)

/-- The loop up to any number of groups. -/
theorem printed_insertLoop (n : Nat) :
    ∃ text, (insertLoop FIBER_BYTE_ORDER addr n os).1 = os ++ text
      ∧ Printed (groupsTo FIBER_BYTE_ORDER addr n) text
        (insertLoop FIBER_BYTE_ORDER addr n os).2 := by
  induction n with
  | zero =>
    refine ⟨join [], ?_, .plain [] 0 List.not_mem_nil⟩
    exact (List.append_nil os).symm
  | succ n ih =>
    obtain ⟨text, htext, hprinted⟩ := ih
    have hpair : insertLoop FIBER_BYTE_ORDER addr n os
        = (os ++ text, (insertLoop FIBER_BYTE_ORDER addr n os).2) := Prod.ext htext rfl
    rw [insertLoop_succ, hpair]
    exact printed_insertStep os hprinted

/-- What `insert` makes of the text behind the loop. -/
theorem writes_of_printed {n : Nat} {text : Str} {used_zeros : Bool}
    (h : Printed (groupsTo FIBER_BYTE_ORDER addr (n + 1)) text used_zeros) :
    Ipv6.Writes (groupsTo FIBER_BYTE_ORDER addr (n + 1))
      (if !used_zeros ∧ addr n = 0 then text ++ [':', ':'] else text) := by
  generalize hgroups : groupsTo FIBER_BYTE_ORDER addr (n + 1) = gs at h
  cases h with
  | plain l k hl =>
    have hlast := last_eq_zero_iff hl hgroups
    cases k with
    | zero =>
      rw [if_neg fun hand => Nat.lt_irrefl 0 (hlast.mp hand.2), List.replicate_zero,
        List.append_nil]
      exact .plain l
    | succ k =>
      rw [if_pos ⟨rfl, hlast.mpr (Nat.succ_pos k)⟩]
      have hdouble := Ipv6.Writes.double l (k + 1) [] (Nat.succ_pos k)
      rw [List.append_nil] at hdouble
      exact hdouble
  | double l k r hk hr =>
    rw [if_neg fun hand => absurd hand.1 (by decide)]
    exact .double l k r hk

/-! ### The bytes -/

/-- The group of two bytes, on both kinds of machines. -/
theorem groupAt_bytes (a : In6Addr) {i : Nat} {x y : UInt8}
    (h : (a.s6_addr.drop (2 * i)).take 2 = [x, y]) :
    groupAt FIBER_BYTE_ORDER (a.at FIBER_BYTE_ORDER) i = x.toNat * 256 + y.toNat := by
  have hx := x.toNat_lt
  have hy := y.toNat_lt
  have hswapped : byteswapOnLittleEndian FIBER_BYTE_ORDER (n := 2) (a.at FIBER_BYTE_ORDER i)
      = Words.ofBytes 2 [y, x] := by
    rw [In6Addr.at, h]
    cases FIBER_BYTE_ORDER with
    | FIBER_LITTLE_ENDIAN =>
      have hbytes : bytes (Words.ofBytes 2 [x, y]) = [x, y] := bytes_ofBytes rfl
      rw [byteswapOnLittleEndian, byteswap, if_pos (Or.inl rfl), swap, ofMemory, hbytes]
      rfl
    | FIBER_BIG_ENDIAN => rfl
  rw [groupAt, hswapped, Words.ofBytes, BitVec.toNat_ofNat, value, value, value]
  omega

/-- Two bytes at a time, from the front. -/
theorem flatMap_take_two (bs : Bytes) (n : Nat) :
    (List.range n).flatMap (fun i => (bs.drop (2 * i)).take 2) = bs.take (2 * n) := by
  induction n with
  | zero => rfl
  | succ n ih =>
    rw [List.range_succ, List.flatMap_append, ih, List.flatMap_singleton, Nat.mul_succ,
      List.take_add]

/-- The groups of an address are its bytes. -/
theorem octets_groupsTo (a : In6Addr) :
    octets (groupsTo FIBER_BYTE_ORDER (a.at FIBER_BYTE_ORDER) 8) = a.s6_addr := by
  have hall : a.s6_addr.take (2 * 8) = a.s6_addr := List.take_of_length_le (by rw [a.length])
  rw [octets, groupsTo, List.flatMap_map, ← hall, ← flatMap_take_two]
  refine List.flatMap_congr fun i hi => ?_
  have hlength : ((a.s6_addr.drop (2 * i)).take 2).length = 2 := by
    have hi := List.mem_range.mp hi
    rw [List.length_take, List.length_drop, a.length]
    omega
  obtain ⟨x, y, hbytes⟩ := List.length_eq_two.mp hlength
  have hy := y.toNat_lt
  rw [groupAt_bytes a hbytes, hbytes]
  have hhigh : (x.toNat * 256 + y.toNat) / 256 = x.toNat := by omega
  have hlow : UInt8.ofNat (x.toNat * 256 + y.toNat) = y := by
    apply UInt8.toNat_inj.mp
    rw [UInt8.toNat_ofNat']
    omega
  rw [hhigh, hlow, UInt8.ofNat_toNat]

theorem groupAt_lt (i : Nat) : groupAt FIBER_BYTE_ORDER addr i < 65536 := BitVec.isLt _

variable (FIBER_BYTE_ORDER)

/-- The text between the brackets. -/
theorem exists_literal (a : sockaddr_in6) :
    ∃ literal, IPv6Address.insert FIBER_BYTE_ORDER a os
        = os ++ '[' :: (literal ++ ']' :: ':' ::
          Nat.toDigits 10
            (byteswapOnLittleEndian FIBER_BYTE_ORDER (n := 2) a.sin6_port).toNat)
      ∧ Ipv6.Writes (groupsTo FIBER_BYTE_ORDER (a.sin6_addr.at FIBER_BYTE_ORDER) 8) literal := by
  obtain ⟨text, htext, hprinted⟩ :=
    @printed_insertLoop FIBER_BYTE_ORDER (a.sin6_addr.at FIBER_BYTE_ORDER) (os ++ ['[']) 8
  refine ⟨_, ?_, writes_of_printed hprinted⟩
  simp only [IPv6Address.insert, htext]
  split_ifs <;> simp

/-- The text of an address is a literal in brackets, and the port; the literal is read as the bytes
of the address and has one `::` at most, and no other address has the same text. -/
theorem insert_faithful (a : sockaddr_in6) :
    (∃ literal, IPv6Address.insert FIBER_BYTE_ORDER a os
        = os ++ '[' :: (literal ++ ']' :: ':' ::
          Nat.toDigits 10
            (byteswapOnLittleEndian FIBER_BYTE_ORDER (n := 2) a.sin6_port).toNat)
      ∧ ']' ∉ literal
      ∧ pton literal = some a.sin6_addr.s6_addr
      ∧ doubles literal ≤ 1)
    ∧ ∀ b : sockaddr_in6, IPv6Address.insert FIBER_BYTE_ORDER a os
        = IPv6Address.insert FIBER_BYTE_ORDER b os → a.sin6_addr = b.sin6_addr := by
  have hread : ∀ (a : sockaddr_in6) {literal},
      Ipv6.Writes (groupsTo FIBER_BYTE_ORDER (a.sin6_addr.at FIBER_BYTE_ORDER) 8) literal →
      pton literal = some a.sin6_addr.s6_addr := by
    intro a literal hwrites
    rw [← @octets_groupsTo FIBER_BYTE_ORDER a.sin6_addr]
    refine hwrites.pton (fun g hg => ?_) (by simp)
    obtain ⟨i, -, rfl⟩ := List.mem_map.mp hg
    exact groupAt_lt i
  obtain ⟨literal, htext, hwrites⟩ := exists_literal FIBER_BYTE_ORDER os a
  have hbracket : ']' ∉ literal := hwrites.not_mem (by decide) (by decide)
  refine ⟨⟨literal, htext, hbracket, hread a hwrites, hwrites.doubles_le⟩, fun b heq => ?_⟩
  obtain ⟨literal', htext', hwrites'⟩ := exists_literal FIBER_BYTE_ORDER os b
  have hport : ']' ∉ ':' :: Nat.toDigits 10
      (byteswapOnLittleEndian FIBER_BYTE_ORDER (n := 2) a.sin6_port).toNat := by
    rw [List.mem_cons, not_or]
    refine ⟨by decide, fun hmem => ?_⟩
    exact absurd (Nat.isDigit_of_mem_toDigits (by decide) (by decide) hmem) (by decide)
  rw [htext, htext', List.append_cancel_left_eq, List.cons.injEq,
    List.append_cons_inj_of_notMem hbracket hport] at heq
  obtain ⟨-, rfl, -⟩ := heq
  have hbytes := Option.some.inj ((hread a hwrites).symm.trans (hread b hwrites'))
  cases haddr : a.sin6_addr
  cases haddr' : b.sin6_addr
  rw [haddr, haddr'] at hbytes
  congr

end

end Net

end FiberServer
