import FiberServer.ByteArray.Typed
import FiberServer.Chunk.FSUtil
import FiberServer.Library.Arithmetic

/-!
# Subnets of `IPv4Address` and `IPv6Address`

`broadcastAddress`, `networdAddress` and `subnetMask` share the helper `CreateMask`, which gives the
ones of the host part.

* `ipv4_subnet_iff`, `ipv6_subnet_iff`: the addresses and prefix lengths for which the three
  operations are right.
-/

namespace FiberServer

namespace Net

open Arithmetic Words
open FiberServer.ByteArray (Endian byteswap)

/-- `(1 << (sizeof(T) * 8 - bits)) - 1` for a `T` of `w` bits.  The `1` is an `int`, the count a
`size_t`. -/
def CreateMask (w : Nat) (bits : BitVec 32) : Eval (BitVec w) := do
  let one ← shl (1 : BitVec 32) (BitVec.ofNat 64 w - bits.setWidth 64).toNat
  let mask ← sub one 1
  return mask.setWidth w

/-- The constants of the system. -/
def AF_INET : BitVec 16 := 2
def AF_INET6 : BitVec 16 := 10

section

variable (FIBER_BYTE_ORDER : Endian)

def byteswapOnLittleEndian {n : Nat} (t : BitVec (8 * n)) : BitVec (8 * n) :=
  match FIBER_BYTE_ORDER with
  | .FIBER_LITTLE_ENDIAN => byteswap t
  | .FIBER_BIG_ENDIAN => t

/-! ### IPv4 -/

/-- Port and address are in the order of the network. -/
structure sockaddr_in where
  sin_family : BitVec 16
  sin_port : BitVec 16
  sin_addr : BitVec 32
  sin_zero : BitVec 64
  deriving DecidableEq, Repr

/-- The address in the order of the host. -/
def sockaddr_in.host (addr : sockaddr_in) : BitVec 32 :=
  byteswapOnLittleEndian FIBER_BYTE_ORDER (n := 4) addr.sin_addr

namespace IPv4Address

def broadcastAddress (m_addr : sockaddr_in) (prefix_len : BitVec 32) :
    Eval (Option sockaddr_in) :=
  if prefix_len > 32 then return none
  else do
    let mask ← CreateMask 32 prefix_len
    return some { m_addr with
      sin_addr := m_addr.sin_addr ||| byteswapOnLittleEndian FIBER_BYTE_ORDER (n := 4) mask }

def networdAddress (m_addr : sockaddr_in) (prefix_len : BitVec 32) : Eval (Option sockaddr_in) :=
  if prefix_len > 32 then return none
  else do
    let mask ← CreateMask 32 prefix_len
    return some { m_addr with
      sin_addr := m_addr.sin_addr &&& byteswapOnLittleEndian FIBER_BYTE_ORDER (n := 4) mask }

/-- The length is not checked here. -/
def subnetMask (prefix_len : BitVec 32) : Eval sockaddr_in := do
  let mask ← CreateMask 32 prefix_len
  return { sin_family := AF_INET
           sin_port := 0
           sin_addr := ~~~ byteswapOnLittleEndian FIBER_BYTE_ORDER (n := 4) mask
           sin_zero := 0 }

end IPv4Address

/-- What the three operations are for: the mask has `n` leading ones, the address of the net is the
address and the mask, the broadcast address is the address or the rest of the mask; no shift is by
32 or more. -/
structure Subnet4 (a : sockaddr_in) (n : BitVec 32) : Prop where
  shifts : Fault.shift ∉ (IPv4Address.subnetMask FIBER_BYTE_ORDER n).faults
    ∧ Fault.shift ∉ (IPv4Address.networdAddress FIBER_BYTE_ORDER a n).faults
    ∧ Fault.shift ∉ (IPv4Address.broadcastAddress FIBER_BYTE_ORDER a n).faults
  subnetMask : (IPv4Address.subnetMask FIBER_BYTE_ORDER n).value.host FIBER_BYTE_ORDER
    = leading 32 n.toNat
  networdAddress : ∃ b, (IPv4Address.networdAddress FIBER_BYTE_ORDER a n).value = some b
    ∧ b.host FIBER_BYTE_ORDER = a.host FIBER_BYTE_ORDER &&& leading 32 n.toNat
    ∧ b.sin_port = a.sin_port ∧ b.sin_family = a.sin_family
  broadcastAddress : ∃ b, (IPv4Address.broadcastAddress FIBER_BYTE_ORDER a n).value = some b
    ∧ b.host FIBER_BYTE_ORDER = a.host FIBER_BYTE_ORDER ||| ~~~ leading 32 n.toNat
    ∧ b.sin_port = a.sin_port ∧ b.sin_family = a.sin_family

variable {FIBER_BYTE_ORDER}

theorem byteswapOnLittleEndian_and {n : Nat} (v u : BitVec (8 * n)) :
    byteswapOnLittleEndian FIBER_BYTE_ORDER (v &&& u)
      = byteswapOnLittleEndian FIBER_BYTE_ORDER v
        &&& byteswapOnLittleEndian FIBER_BYTE_ORDER u := by
  cases FIBER_BYTE_ORDER with
  | FIBER_LITTLE_ENDIAN =>
    simp only [byteswapOnLittleEndian, byteswap]
    split_ifs
    · exact swap_and v u
    · rfl
  | FIBER_BIG_ENDIAN => rfl

theorem byteswapOnLittleEndian_or {n : Nat} (v u : BitVec (8 * n)) :
    byteswapOnLittleEndian FIBER_BYTE_ORDER (v ||| u)
      = byteswapOnLittleEndian FIBER_BYTE_ORDER v
        ||| byteswapOnLittleEndian FIBER_BYTE_ORDER u := by
  cases FIBER_BYTE_ORDER with
  | FIBER_LITTLE_ENDIAN =>
    simp only [byteswapOnLittleEndian, byteswap]
    split_ifs
    · exact swap_or v u
    · rfl
  | FIBER_BIG_ENDIAN => rfl

theorem byteswapOnLittleEndian_not {n : Nat} (v : BitVec (8 * n)) :
    byteswapOnLittleEndian FIBER_BYTE_ORDER (~~~ v)
      = ~~~ byteswapOnLittleEndian FIBER_BYTE_ORDER v := by
  cases FIBER_BYTE_ORDER with
  | FIBER_LITTLE_ENDIAN =>
    simp only [byteswapOnLittleEndian, byteswap]
    split_ifs
    · exact swap_not v
    · rfl
  | FIBER_BIG_ENDIAN => rfl

@[simp] theorem byteswapOnLittleEndian_self {n : Nat} (v : BitVec (8 * n)) :
    byteswapOnLittleEndian FIBER_BYTE_ORDER (byteswapOnLittleEndian FIBER_BYTE_ORDER v) = v := by
  cases FIBER_BYTE_ORDER with
  | FIBER_LITTLE_ENDIAN =>
    simp only [byteswapOnLittleEndian, byteswap]
    split_ifs
    · exact swap_swap v
    · rfl
  | FIBER_BIG_ENDIAN => rfl

/-- The helper gives the ones of the host part. -/
theorem value_CreateMask {n : BitVec 32} (h : 1 ≤ n.toNat ∧ n.toNat ≤ 32) :
    (CreateMask 32 n).value = ~~~ leading 32 n.toNat := by
  have hall : ∀ k < 33, 1 ≤ k →
      (CreateMask 32 (BitVec.ofNat 32 k)).value = ~~~ leading 32 k := by decide
  have hn := hall n.toNat (Nat.lt_succ_of_le h.2) h.1
  rw [BitVec.ofNat_toNat, BitVec.setWidth_eq] at hn
  exact hn

/-- Only a shift for the length 0 is by the whole width. -/
theorem shift_CreateMask {n : BitVec 32} (h : n.toNat ≤ 32) :
    Fault.shift ∉ (CreateMask 32 n).faults ↔ 1 ≤ n.toNat := by
  have hall : ∀ k < 33,
      Fault.shift ∉ (CreateMask 32 (BitVec.ofNat 32 k)).faults ↔ 1 ≤ k := by decide
  have hn := hall n.toNat (Nat.lt_succ_of_le h)
  rw [BitVec.ofNat_toNat, BitVec.setWidth_eq] at hn
  exact hn

theorem not_gt_32 {n : BitVec 32} (h : n.toNat ≤ 32) : ¬ n > 32 := BitVec.not_lt.mpr h

variable (FIBER_BYTE_ORDER)

theorem value_networdAddress (a : sockaddr_in) {n : BitVec 32} (h : n.toNat ≤ 32) :
    (IPv4Address.networdAddress FIBER_BYTE_ORDER a n).value = some { a with
      sin_addr := a.sin_addr
        &&& byteswapOnLittleEndian FIBER_BYTE_ORDER (n := 4) (CreateMask 32 n).value } := by
  rw [IPv4Address.networdAddress, if_neg (not_gt_32 h)]
  rfl

theorem value_broadcastAddress (a : sockaddr_in) {n : BitVec 32} (h : n.toNat ≤ 32) :
    (IPv4Address.broadcastAddress FIBER_BYTE_ORDER a n).value = some { a with
      sin_addr := a.sin_addr
        ||| byteswapOnLittleEndian FIBER_BYTE_ORDER (n := 4) (CreateMask 32 n).value } := by
  rw [IPv4Address.broadcastAddress, if_neg (not_gt_32 h)]
  rfl

/-- The broadcast address and the mask are right, but what comes for the net is the part of the
host. -/
theorem ipv4_operations {n : BitVec 32} (h : 1 ≤ n.toNat ∧ n.toNat ≤ 32) (a : sockaddr_in) :
    (IPv4Address.subnetMask FIBER_BYTE_ORDER n).value.host FIBER_BYTE_ORDER = leading 32 n.toNat
      ∧ (∃ b, (IPv4Address.networdAddress FIBER_BYTE_ORDER a n).value = some b
        ∧ b.host FIBER_BYTE_ORDER = a.host FIBER_BYTE_ORDER &&& ~~~ leading 32 n.toNat
        ∧ b.sin_port = a.sin_port ∧ b.sin_family = a.sin_family)
      ∧ ∃ b, (IPv4Address.broadcastAddress FIBER_BYTE_ORDER a n).value = some b
        ∧ b.host FIBER_BYTE_ORDER = a.host FIBER_BYTE_ORDER ||| ~~~ leading 32 n.toNat
        ∧ b.sin_port = a.sin_port ∧ b.sin_family = a.sin_family := by
  have hmask := value_CreateMask h
  refine ⟨?_, ⟨_, value_networdAddress FIBER_BYTE_ORDER a h.2, ?_, rfl, rfl⟩,
    ⟨_, value_broadcastAddress FIBER_BYTE_ORDER a h.2, ?_, rfl, rfl⟩⟩
  · show byteswapOnLittleEndian FIBER_BYTE_ORDER (n := 4)
      (~~~ byteswapOnLittleEndian FIBER_BYTE_ORDER (n := 4) (CreateMask 32 n).value) = _
    rw [byteswapOnLittleEndian_not, byteswapOnLittleEndian_self, hmask]
    exact BitVec.not_not
  · rw [sockaddr_in.host, byteswapOnLittleEndian_and, byteswapOnLittleEndian_self, hmask]
    rfl
  · rw [sockaddr_in.host, byteswapOnLittleEndian_or, byteswapOnLittleEndian_self, hmask]
    rfl

theorem ipv4_faults {n : BitVec 32} (h : n.toNat ≤ 32) (a : sockaddr_in) :
    (IPv4Address.subnetMask FIBER_BYTE_ORDER n).faults = (CreateMask 32 n).faults
      ∧ (IPv4Address.networdAddress FIBER_BYTE_ORDER a n).faults = (CreateMask 32 n).faults
      ∧ (IPv4Address.broadcastAddress FIBER_BYTE_ORDER a n).faults = (CreateMask 32 n).faults := by
  rw [IPv4Address.networdAddress, IPv4Address.broadcastAddress, if_neg (not_gt_32 h),
    if_neg (not_gt_32 h), IPv4Address.subnetMask]
  simp only [faults_bind, faults_pure, List.append_nil, and_self]

/-- **The subnets that are right.**  For any prefix length up to 32 and any address, mask, address
of the net and broadcast address are right and no shift is too large, if and only if the length is
not 0 and the address is 0.0.0.0. -/
theorem ipv4_subnet_iff (a : sockaddr_in) {n : BitVec 32} (h : n.toNat ≤ 32) :
    Subnet4 FIBER_BYTE_ORDER a n ↔ 1 ≤ n.toNat ∧ a.host FIBER_BYTE_ORDER = 0 := by
  obtain ⟨hmask, hnet, hbroadcast⟩ := ipv4_faults FIBER_BYTE_ORDER h a
  constructor
  · intro hsubnet
    have hpos : 1 ≤ n.toNat := by
      have hshift := hsubnet.shifts.1
      rw [hmask] at hshift
      exact (shift_CreateMask h).mp hshift
    obtain ⟨-, ⟨b, hb, hhost, -⟩, -⟩ := ipv4_operations FIBER_BYTE_ORDER ⟨hpos, h⟩ a
    obtain ⟨b', hb', hhost', -⟩ := hsubnet.networdAddress
    obtain rfl : b = b' := Option.some.inj (hb.symm.trans hb')
    exact ⟨hpos, (and_not_eq_and_iff _ _).mp (hhost.symm.trans hhost')⟩
  · rintro ⟨hpos, hzero⟩
    obtain ⟨hsubnet, ⟨b, hb, hhost, hkept⟩, hbroad⟩ := ipv4_operations FIBER_BYTE_ORDER ⟨hpos, h⟩ a
    have hshift := (shift_CreateMask h).mpr hpos
    refine ⟨?_, hsubnet, ⟨b, hb, ?_, hkept⟩, hbroad⟩
    · rw [hmask, hnet, hbroadcast]
      exact ⟨hshift, hshift, hshift⟩
    · rw [hhost]
      exact (and_not_eq_and_iff _ _).mpr hzero

/-- 0.0.0.0/8 on a machine with the lowest byte first. -/
theorem ipv4_subnet_any : Subnet4 .FIBER_LITTLE_ENDIAN ⟨AF_INET, 0, 0, 0⟩ 8 :=
  (ipv4_subnet_iff .FIBER_LITTLE_ENDIAN ⟨AF_INET, 0, 0, 0⟩ (by decide)).mpr ⟨by decide, by decide⟩

/-- 192.168.1.1/24: for the net the code gives 0.0.0.1.  For the length 0 the shift is by 32. -/
theorem ipv4_not_subnet : ¬ Subnet4 .FIBER_LITTLE_ENDIAN ⟨AF_INET, 0, 0x0101a8c0, 0⟩ 24
    ∧ ¬ Subnet4 .FIBER_LITTLE_ENDIAN ⟨AF_INET, 0, 0, 0⟩ 0 := by
  constructor
  · intro h
    obtain ⟨b, hb, hhost, -⟩ := h.networdAddress
    have hvalue : (IPv4Address.networdAddress .FIBER_LITTLE_ENDIAN
        ⟨AF_INET, 0, 0x0101a8c0, 0⟩ 24).value = some ⟨AF_INET, 0, 0x01000000, 0⟩ := by decide
    obtain rfl := Option.some.inj (hvalue.symm.trans hb)
    exact absurd hhost (by decide)
  · intro h
    exact absurd h.shifts.1 (by decide)

end

/-! ### IPv6 -/

structure In6Addr where
  s6_addr : Bytes
  length : s6_addr.length = 16
  deriving DecidableEq, Repr

structure sockaddr_in6 where
  sin6_family : BitVec 16
  sin6_port : BitVec 16
  sin6_flowinfo : BitVec 32
  sin6_addr : In6Addr
  sin6_scope_id : BitVec 32
  deriving DecidableEq, Repr

namespace In6Addr

/-- All bytes are zero. -/
def any : In6Addr := ⟨List.replicate 16 0, rfl⟩

/-- `s6_addr[i] = f(s6_addr[i])`.  Behind the array nothing of it changes. -/
def update (a : In6Addr) (i : Nat) (f : UInt8 → UInt8) : Eval In6Addr :=
  ⟨⟨a.s6_addr.modify i f, by rw [List.length_modify, a.length]⟩, if i < 16 then [] else [.index]⟩

/-- `s6_addr[i] = b` for each `i`. -/
def setAll (b : UInt8) : List Nat → In6Addr → Eval In6Addr
  | [], a => return a
  | i :: is, a => do setAll b is (← a.update i fun _ => b)

end In6Addr

/-- `prefix_len / 8 + 1` up to 15. -/
def behind (prefix_len : BitVec 32) : List Nat :=
  List.range' (prefix_len.toNat / 8 + 1) (16 - (prefix_len.toNat / 8 + 1))

namespace IPv6Address

def broadcastAddress (m_addr : sockaddr_in6) (prefix_len : BitVec 32) : Eval sockaddr_in6 := do
  let mask ← CreateMask 8 (prefix_len % 8)
  let addr ← m_addr.sin6_addr.update (prefix_len.toNat / 8) (· ||| ⟨mask⟩)
  let addr ← addr.setAll 0xff (behind prefix_len)
  return { m_addr with sin6_addr := addr }

def networdAddress (m_addr : sockaddr_in6) (prefix_len : BitVec 32) : Eval sockaddr_in6 := do
  let mask ← CreateMask 8 (prefix_len % 8)
  let addr ← m_addr.sin6_addr.update (prefix_len.toNat / 8) (· &&& ⟨mask⟩)
  let addr ← addr.setAll 0x00 (behind prefix_len)
  return { m_addr with sin6_addr := addr }

def subnetMask (prefix_len : BitVec 32) : Eval sockaddr_in6 := do
  let mask ← CreateMask 8 (prefix_len % 8)
  let addr ← In6Addr.any.update (prefix_len.toNat / 8) (fun _ => ~~~ ⟨mask⟩)
  let addr ← addr.setAll 0xff (List.range (prefix_len.toNat / 8))
  return { sin6_family := AF_INET6
           sin6_port := 0
           sin6_flowinfo := 0
           sin6_addr := addr
           sin6_scope_id := 0 }

end IPv6Address

/-- Byte `k` of the mask with `n` leading ones. -/
def maskByte (n k : Nat) : UInt8 := ⟨leading 8 (n - 8 * k)⟩

/-- What the three operations are for, byte by byte; all indexes are in the array. -/
structure Subnet6 (a : sockaddr_in6) (n : BitVec 32) : Prop where
  indexes : Fault.index ∉ (IPv6Address.subnetMask n).faults
    ∧ Fault.index ∉ (IPv6Address.networdAddress a n).faults
    ∧ Fault.index ∉ (IPv6Address.broadcastAddress a n).faults
  subnetMask : (IPv6Address.subnetMask n).value.sin6_addr.s6_addr
    = (List.range 16).map (maskByte n.toNat)
  networdAddress : (IPv6Address.networdAddress a n).value.sin6_addr.s6_addr
    = List.zipWith (· &&& ·) a.sin6_addr.s6_addr ((List.range 16).map (maskByte n.toNat))
  broadcastAddress : (IPv6Address.broadcastAddress a n).value.sin6_addr.s6_addr
    = List.zipWith (· ||| ·) a.sin6_addr.s6_addr ((List.range 16).map (~~~ maskByte n.toNat ·))

/-- The bits of the mask, counted from the first one. -/
theorem getMsbD_maskByte {n k i : Nat} (hi : i < 8) :
    (maskByte n k).toBitVec.getMsbD i = decide (8 * k + i < n) := by
  rw [maskByte, getMsbD_leading hi]
  exact decide_eq_decide.mpr (by omega)

theorem value_setAll (b : UInt8) (is : List Nat) (a : In6Addr) (k : Nat) :
    (a.setAll b is).value.s6_addr[k]? = if k ∈ is then a.s6_addr[k]?.map fun _ => b
      else a.s6_addr[k]? := by
  induction is generalizing a with
  | nil => rfl
  | cons i is ih =>
    show (In6Addr.setAll b is (a.update i fun _ => b).value).value.s6_addr[k]? = _
    rw [ih]
    show (if k ∈ is then ((a.s6_addr.modify i fun _ => b)[k]?).map fun _ => b
      else (a.s6_addr.modify i fun _ => b)[k]?) = _
    rw [List.getElem?_modify]
    by_cases hk : k ∈ is
    · rw [if_pos hk, if_pos (List.mem_cons_of_mem i hk), Option.map_eq_map, Option.map_map]
      rfl
    · rw [if_neg hk]
      by_cases hik : i = k
      · subst hik
        rw [if_pos List.mem_cons_self]
        simp only [if_true]
        rfl
      · rw [if_neg (fun h => (List.mem_cons.mp h).elim (fun h => hik h.symm) hk)]
        simp only [if_neg hik, Option.map_eq_map, Option.map_id']

theorem faults_setAll {b : UInt8} {is : List Nat} (h : ∀ i ∈ is, i < 16) (a : In6Addr) :
    (a.setAll b is).faults = [] := by
  induction is generalizing a with
  | nil => rfl
  | cons i is ih =>
    rw [List.forall_mem_cons] at h
    show (if i < 16 then [] else [Fault.index]) ++ (In6Addr.setAll b is _).faults = []
    rw [if_pos h.1, ih h.2]
    rfl

/-- A byte is changed, and then others are set. -/
theorem value_update_setAll (b : UInt8) (is : List Nat) (a : In6Addr) (q : Nat) (f : UInt8 → UInt8)
    (k : Nat) : ((a.update q f).value.setAll b is).value.s6_addr[k]?
      = a.s6_addr[k]?.map fun x => if k ∈ is then b else if q = k then f x else x := by
  rw [value_setAll]
  show (if k ∈ is then ((a.s6_addr.modify q f)[k]?).map fun _ => b
    else (a.s6_addr.modify q f)[k]?) = _
  rw [List.getElem?_modify]
  by_cases hk : k ∈ is
  · simp only [if_pos hk, Option.map_eq_map, Option.map_map]
    rfl
  · simp only [if_neg hk, Option.map_eq_map]

theorem value_CreateMask8 (n : BitVec 32) :
    (CreateMask 8 (n % 8)).value = ~~~ leading 8 (n.toNat % 8) := by
  have hall : ∀ k < 8, (CreateMask 8 (BitVec.ofNat 32 k)).value = ~~~ leading 8 k := by decide
  have hrest : BitVec.ofNat 32 (n.toNat % 8) = n % 8 := by
    apply BitVec.eq_of_toNat_eq
    rw [BitVec.toNat_ofNat, BitVec.toNat_umod]
    exact Nat.mod_eq_of_lt (Nat.lt_of_le_of_lt (Nat.mod_le _ _) n.isLt)
  rw [← hrest]
  exact hall (n.toNat % 8) (Nat.mod_lt _ (by decide))

theorem index_CreateMask (w : Nat) (bits : BitVec 32) :
    Fault.index ∉ (CreateMask w bits).faults := by
  rw [CreateMask, faults_bind, faults_bind, faults_pure, shl, sub]
  dsimp only
  split_ifs <;> decide

theorem mem_behind {n : BitVec 32} {k : Nat} (hk : k < 16) : k ∈ behind n ↔ n.toNat / 8 < k := by
  rw [behind, List.mem_range'_1]
  omega

theorem maskByte_eq (n k : Nat) : maskByte n k
    = if k < n / 8 then 0xff else if n / 8 = k then ⟨leading 8 (n % 8)⟩ else 0x00 := by
  rw [maskByte]
  by_cases hlt : k < n / 8
  · have hones : leading 8 (n - 8 * k) = 0xff := by
      rw [leading, Nat.sub_eq_zero_of_le (by omega)]
      rfl
    rw [if_pos hlt, hones]
    rfl
  · rw [if_neg hlt]
    by_cases heq : n / 8 = k
    · rw [if_pos heq, ← heq, show n - 8 * (n / 8) = n % 8 by omega]
    · have hzeros : leading 8 (n - 8 * k) = 0x00 := by
        rw [leading, show n - 8 * k = 0 by omega]
        rfl
      rw [if_neg heq, hzeros]
      rfl

theorem eq_of_getElem? {a b : Bytes} (ha : a.length = 16) (hb : b.length = 16)
    (h : ∀ k < 16, a[k]? = b[k]?) : a = b := by
  apply List.ext_getElem?
  intro k
  rcases Nat.lt_or_ge k 16 with hk | hk
  · exact h k hk
  · rw [List.getElem?_eq_none (by omega), List.getElem?_eq_none (by omega)]

theorem getElem?_zipWith_range (f : UInt8 → UInt8 → UInt8) (g : Nat → UInt8) (a : In6Addr) {k : Nat}
    (hk : k < 16) : (List.zipWith f a.s6_addr ((List.range 16).map g))[k]?
      = a.s6_addr[k]?.map fun x => f x (g k) := by
  have hlt : k < a.s6_addr.length := by
    rw [a.length]
    exact hk
  have hget : a.s6_addr[k]? = some a.s6_addr[k] := List.getElem?_eq_getElem hlt
  rw [List.getElem?_zipWith, List.getElem?_map, List.getElem?_range hk, hget]
  rfl

/-- An operation with the mask, if it is right before, in and behind the byte in which the prefix
ends. -/
theorem bytes_eq {op : UInt8 → UInt8 → UInt8} {g : Nat → UInt8} {f : UInt8 → UInt8} {b : UInt8}
    {n : BitVec 32} (a r : In6Addr)
    (hr : ∀ k, r.s6_addr[k]? = a.s6_addr[k]?.map fun x =>
      if k ∈ behind n then b else if n.toNat / 8 = k then f x else x)
    (hbefore : ∀ k x, k < n.toNat / 8 → op x (g k) = x)
    (hin : ∀ x, op x (g (n.toNat / 8)) = f x) (hbehind : ∀ k x, n.toNat / 8 < k → op x (g k) = b) :
    r.s6_addr = List.zipWith op a.s6_addr ((List.range 16).map g) := by
  refine eq_of_getElem? r.length ?_ fun k hk => ?_
  · rw [List.length_zipWith, a.length, List.length_map, List.length_range, Nat.min_self]
  · rw [hr, getElem?_zipWith_range _ _ _ hk]
    refine congrArg (a.s6_addr[k]?.map ·) (funext fun x => ?_)
    simp only [mem_behind hk]
    rcases Nat.lt_trichotomy k (n.toNat / 8) with hlt | rfl | hgt
    · rw [if_neg (by omega), if_neg (by omega), hbefore k x hlt]
    · rw [if_neg (by omega), if_pos rfl, hin]
    · rw [if_pos hgt, hbehind k x hgt]

/-- The three results, byte by byte.  The mask and the broadcast address are right; in the byte
that the prefix ends in, what comes for the net is the part of the host. -/
theorem ipv6_operations (a : sockaddr_in6) {n : BitVec 32} :
    (IPv6Address.subnetMask n).value.sin6_addr.s6_addr = (List.range 16).map (maskByte n.toNat)
      ∧ (IPv6Address.broadcastAddress a n).value.sin6_addr.s6_addr
        = List.zipWith (· ||| ·) a.sin6_addr.s6_addr
          ((List.range 16).map (~~~ maskByte n.toNat ·))
      ∧ (IPv6Address.networdAddress a n).value.sin6_addr.s6_addr
        = List.zipWith (· &&& ·) a.sin6_addr.s6_addr ((List.range 16).map fun k =>
          if n.toNat / 8 = k then ~~~ maskByte n.toNat k else maskByte n.toNat k) := by
  have hmask := value_CreateMask8 n
  have hbefore (k : Nat) (hk : k < n.toNat / 8) : maskByte n.toNat k = 0xff := by
    rw [maskByte_eq, if_pos hk]
  have hin : maskByte n.toNat (n.toNat / 8) = ~~~ ⟨(CreateMask 8 (n % 8)).value⟩ := by
    rw [maskByte_eq, if_neg (Nat.lt_irrefl _), if_pos rfl, hmask]
    exact congrArg UInt8.ofBitVec BitVec.not_not.symm
  have hbehind (k : Nat) (hk : n.toNat / 8 < k) : maskByte n.toNat k = 0x00 := by
    rw [maskByte_eq, if_neg (by omega), if_neg (by omega)]
  refine ⟨?_, ?_, ?_⟩
  · refine eq_of_getElem? (In6Addr.length _) (by rw [List.length_map, List.length_range])
      fun k hk => ?_
    have hzero : In6Addr.any.s6_addr[k]? = some 0x00 := by
      rw [In6Addr.any, List.getElem?_replicate, if_pos hk]
    refine (value_update_setAll 0xff (List.range (n.toNat / 8)) _ _ _ k).trans ?_
    rw [hzero, List.getElem?_map, List.getElem?_range hk, Option.map_some, Option.map_some]
    refine congrArg some ?_
    simp only [List.mem_range]
    rcases Nat.lt_trichotomy k (n.toNat / 8) with hlt | rfl | hgt
    · rw [if_pos hlt, hbefore k hlt]
    · rw [if_neg (Nat.lt_irrefl _), if_pos rfl, hin]
    · rw [if_neg (by omega), if_neg (by omega), hbehind k hgt]
  · refine bytes_eq _ _ (value_update_setAll 0xff (behind n) _ _ _) (fun k x hk => ?_)
      (fun x => ?_) (fun k x hk => ?_)
    · rw [hbefore k hk]
      exact UInt8.or_zero
    · rw [hin]
      exact congrArg (x ||| ·) UInt8.not_not
    · rw [hbehind k hk]
      exact UInt8.or_neg_one
  · refine bytes_eq _ _ (value_update_setAll 0x00 (behind n) _ _ _) (fun k x hk => ?_)
      (fun x => ?_) (fun k x hk => ?_)
    · rw [if_neg (by omega), hbefore k hk]
      exact UInt8.and_neg_one
    · rw [if_pos rfl, hin]
      exact congrArg (x &&& ·) UInt8.not_not
    · rw [if_neg (by omega), hbehind k hk]
      exact UInt8.and_zero

theorem ipv6_faults (a : sockaddr_in6) {n : BitVec 32} (h : n.toNat ≤ 128) :
    (Fault.index ∉ (IPv6Address.subnetMask n).faults ↔ n.toNat < 128)
      ∧ (Fault.index ∉ (IPv6Address.networdAddress a n).faults ↔ n.toNat < 128)
      ∧ (Fault.index ∉ (IPv6Address.broadcastAddress a n).faults ↔ n.toNat < 128) := by
  have hmask := index_CreateMask 8 (n % 8)
  have hupdate (faults : List Fault) (hfaults : faults = []) :
      Fault.index ∉ (CreateMask 8 (n % 8)).faults
        ++ ((if n.toNat / 8 < 16 then [] else [Fault.index]) ++ (faults ++ []))
        ↔ n.toNat < 128 := by
    rw [hfaults, List.append_nil, List.append_nil, List.mem_append, not_or]
    split_ifs with hq
    · exact ⟨fun _ => by omega, fun _ => ⟨hmask, List.not_mem_nil⟩⟩
    · exact ⟨fun hnot => absurd (List.mem_singleton_self _) hnot.2,
        fun hlt => absurd hlt (by omega)⟩
  have hbehind : ∀ i ∈ behind n, i < 16 := by
    intro i hi
    rw [behind, List.mem_range'_1] at hi
    omega
  have hbefore : ∀ i ∈ List.range (n.toNat / 8), i < 16 := by
    intro i hi
    rw [List.mem_range] at hi
    omega
  exact ⟨hupdate _ (faults_setAll hbefore _), hupdate _ (faults_setAll hbehind _),
    hupdate _ (faults_setAll hbehind _)⟩

/-- **The subnets that are right.**  For any prefix length up to 128 and any address, mask, address
of the net and broadcast address are right and every index is below 16, if and only if the length
is not 128 and the byte in which the prefix ends is 0. -/
theorem ipv6_subnet_iff (a : sockaddr_in6) {n : BitVec 32} (h : n.toNat ≤ 128) :
    Subnet6 a n ↔ n.toNat < 128 ∧ a.sin6_addr.s6_addr[n.toNat / 8]? = some 0 := by
  obtain ⟨hsubnet, hbroadcast, hnet⟩ := ipv6_operations a (n := n)
  obtain ⟨hindex, hindexNet, hindexBroadcast⟩ := ipv6_faults a h
  have hbyte (x : UInt8) : x &&& ~~~ maskByte n.toNat (n.toNat / 8)
      = x &&& maskByte n.toNat (n.toNat / 8) ↔ x = 0 := by
    rw [← UInt8.toBitVec_inj, ← UInt8.toBitVec_inj]
    exact and_not_eq_and_iff _ _
  constructor
  · intro hright
    have hlt := hindex.mp hright.indexes.1
    have hq : n.toNat / 8 < 16 := by omega
    have hat := congrArg (·[n.toNat / 8]?) (hnet.symm.trans hright.networdAddress)
    simp only [getElem?_zipWith_range _ _ _ hq, if_true] at hat
    refine ⟨hlt, ?_⟩
    rw [List.getElem?_eq_getElem (by rw [In6Addr.length]; exact hq)] at hat ⊢
    exact congrArg some ((hbyte _).mp (Option.some.inj hat))
  · rintro ⟨hlt, hzero⟩
    refine ⟨⟨hindex.mpr hlt, hindexNet.mpr hlt, hindexBroadcast.mpr hlt⟩, hsubnet, ?_, hbroadcast⟩
    rw [hnet]
    refine eq_of_getElem? ?_ ?_ fun k hk => ?_
    · rw [List.length_zipWith, In6Addr.length, List.length_map, List.length_range, Nat.min_self]
    · rw [List.length_zipWith, In6Addr.length, List.length_map, List.length_range, Nat.min_self]
    · rw [getElem?_zipWith_range _ _ _ hk, getElem?_zipWith_range _ _ _ hk]
      by_cases hkq : n.toNat / 8 = k
      · subst hkq
        rw [hzero, if_pos rfl]
        exact congrArg some ((hbyte 0).mpr rfl)
      · rw [if_neg hkq]

/-- 2001:db8::/32 -/
def documentation : sockaddr_in6 :=
  { sin6_family := AF_INET6
    sin6_port := 0
    sin6_flowinfo := 0
    sin6_addr := ⟨[0x20, 0x01, 0x0d, 0xb8, 0, 0, 0, 0, 0, 0, 0, 0, 0, 0, 0, 1], rfl⟩
    sin6_scope_id := 0 }

theorem ipv6_subnet_documentation : Subnet6 documentation 32 :=
  (ipv6_subnet_iff documentation (by decide)).mpr ⟨by decide, by decide⟩

/-- In a prefix of 20 bits the third byte is 0x0d; its part of the net is 0x00. -/
theorem ipv6_not_subnet : ¬ Subnet6 documentation 20 ∧ ¬ Subnet6 documentation 128 := by
  constructor
  · intro h
    exact absurd h.networdAddress (by decide)
  · intro h
    exact absurd h.indexes.1 (by decide)

end Net

end FiberServer
