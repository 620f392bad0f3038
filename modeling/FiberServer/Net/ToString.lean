import FiberServer.Library.Ipv4Text
import FiberServer.Net.Interfaces
import FiberServer.Net.Ipv6Insert
import FiberServer.Net.Lookup

/-!
# `Address::toString`, and back

The text of an address is what `Lookup` takes as a host, and `Create` reads the text of an address
without a port.

* `lookup_toString`: for every address the node that `Lookup` takes from its text is read by
  `Create` as that address again; the service is the port for IPv4 only.
* `toString_eq_iff`: the text decides all that it shows.
-/

namespace FiberServer

namespace Net

open FileSystem (cstr cstr_eq_self)
open FiberServer.ByteArray (Endian)

section

variable (FIBER_BYTE_ORDER : Endian)

/-! ### IPv4 -/

/-- `IPv4Address::insert` -/
def IPv4Address.insert (m_addr : sockaddr_in) (os : Str) : Str :=
  let addr := byteswapOnLittleEndian FIBER_BYTE_ORDER (n := 4) m_addr.sin_addr
  os ++ Nat.toDigits 10 ((addr >>> 24) &&& 0xff).toNat ++ ['.']
    ++ Nat.toDigits 10 ((addr >>> 16) &&& 0xff).toNat ++ ['.']
    ++ Nat.toDigits 10 ((addr >>> 8) &&& 0xff).toNat ++ ['.']
    ++ Nat.toDigits 10 (addr &&& 0xff).toNat
    ++ [':']
    ++ Nat.toDigits 10 (byteswapOnLittleEndian FIBER_BYTE_ORDER (n := 2) m_addr.sin_port).toNat

/-- `IPv4Address::Create`; `inet_pton` writes the bytes in the order of the network. -/
def IPv4Address.Create (address : Str) (port : BitVec 16) : Option sockaddr_in :=
  (Ipv4.pton (cstr address)).map fun addr =>
    { sin_family := AF_INET
      sin_port := byteswapOnLittleEndian FIBER_BYTE_ORDER (n := 2) port
      sin_addr := byteswapOnLittleEndian FIBER_BYTE_ORDER (n := 4) (BitVec.ofNat 32 addr)
      sin_zero := 0 }

/-! ### IPv6 -/

/-- `IPv6Address::Create` -/
def IPv6Address.Create (address : Str) (port : BitVec 16) : Option sockaddr_in6 :=
  (Ipv6.pton (cstr address)).pmap (fun bytes length =>
    { sin6_family := AF_INET6
      sin6_port := byteswapOnLittleEndian FIBER_BYTE_ORDER (n := 2) port
      sin6_flowinfo := 0
      sin6_addr := ⟨bytes, length⟩
      sin6_scope_id := 0 }) fun _ h => Ipv6.length_pton h

/-! ### Both -/

namespace IPAddress

/-- `Address::toString` -/
def toString : IPAddress → Str
  | v4 m_addr => IPv4Address.insert FIBER_BYTE_ORDER m_addr []
  | v6 m_addr => IPv6Address.insert FIBER_BYTE_ORDER m_addr []

/-- `getPort`, as 16 bits. -/
def getPort : IPAddress → BitVec 16
  | v4 m_addr => byteswapOnLittleEndian FIBER_BYTE_ORDER (n := 2) m_addr.sin_port
  | v6 m_addr => byteswapOnLittleEndian FIBER_BYTE_ORDER (n := 2) m_addr.sin6_port

/-- `Create` of the class that an address is of. -/
def CreateLike : IPAddress → Str → BitVec 16 → Option IPAddress
  | v4 _, address, port => (IPv4Address.Create FIBER_BYTE_ORDER address port).map v4
  | v6 _, address, port => (IPv6Address.Create FIBER_BYTE_ORDER address port).map v6

/-- The address with the family of its class and nothing in the fields that are not printed. -/
def shown : IPAddress → IPAddress
  | v4 m_addr => v4 { m_addr with sin_family := AF_INET, sin_zero := 0 }
  | v6 m_addr => v6 { m_addr with sin6_family := AF_INET6, sin6_flowinfo := 0, sin6_scope_id := 0 }

def IsV4 : IPAddress → Prop
  | v4 _ => True
  | v6 _ => False

end IPAddress

/-! ### The text -/

theorem toNat_byte (v : BitVec 32) (k : Nat) :
    ((v >>> k) &&& 0xff).toNat = v.toNat / 2 ^ k % 256 := by
  rw [BitVec.toNat_and, BitVec.toNat_ushiftRight, Nat.shiftRight_eq_div_pow]
  exact Nat.and_two_pow_sub_one_eq_mod (v.toNat / 2 ^ k) 8

/-- The four numbers are those of the address in the order of the host. -/
theorem insert_eq_quad (a : sockaddr_in) :
    IPv4Address.insert FIBER_BYTE_ORDER a []
      = Ipv4.quad (a.host FIBER_BYTE_ORDER).toNat ++ ':' :: Nat.toDigits 10
        (byteswapOnLittleEndian FIBER_BYTE_ORDER (n := 2) a.sin_port).toNat := by
  have hlast : ((a.host FIBER_BYTE_ORDER) &&& 0xff).toNat
      = (a.host FIBER_BYTE_ORDER).toNat % 256 := by
    have h := toNat_byte (a.host FIBER_BYTE_ORDER) 0
    rwa [BitVec.ushiftRight_zero, Nat.pow_zero, Nat.div_one] at h
  rw [IPv4Address.insert, ← sockaddr_in.host, toNat_byte, toNat_byte, toNat_byte, hlast,
    Ipv4.quad, Ipv4.numbers]
  simp only [List.map_cons, List.map_nil, List.intercalate_cons_cons, List.intercalate_singleton,
    List.nil_append, List.append_assoc, List.cons_append]
  norm_num

/-- `Create` reads the numbers of an IPv4 address. -/
theorem create_quad (a : sockaddr_in) :
    IPv4Address.Create FIBER_BYTE_ORDER (Ipv4.quad (a.host FIBER_BYTE_ORDER).toNat)
        (byteswapOnLittleEndian FIBER_BYTE_ORDER (n := 2) a.sin_port)
      = some { a with sin_family := AF_INET, sin_zero := 0 } := by
  have hnull : '\x00' ∉ Ipv4.quad (a.host FIBER_BYTE_ORDER).toNat :=
    Ipv4.not_mem_quad _ (by decide) (by decide)
  rw [IPv4Address.Create, cstr_eq_self hnull, Ipv4.pton_quad (BitVec.isLt _), Option.map_some,
    BitVec.ofNat_toNat, BitVec.setWidth_eq, sockaddr_in.host]
  simp only [byteswapOnLittleEndian_self]

/-- `Create` reads a literal of an IPv6 address. -/
theorem create_literal (a : sockaddr_in6) {literal : Str} (hnull : '\x00' ∉ literal)
    (h : Ipv6.pton literal = some a.sin6_addr.s6_addr) :
    IPv6Address.Create FIBER_BYTE_ORDER literal
        (byteswapOnLittleEndian FIBER_BYTE_ORDER (n := 2) a.sin6_port)
      = some { a with sin6_family := AF_INET6, sin6_flowinfo := 0, sin6_scope_id := 0 } := by
  rw [← cstr_eq_self hnull] at h
  simp only [IPv6Address.Create, h, Option.pmap_some, byteswapOnLittleEndian_self]

/-- The text of an IPv6 address has a literal of its bytes. -/
theorem exists_read (a : sockaddr_in6) :
    ∃ literal, IPv6Address.insert FIBER_BYTE_ORDER a []
        = '[' :: (literal ++ ']' :: ':' :: Nat.toDigits 10
            (byteswapOnLittleEndian FIBER_BYTE_ORDER (n := 2) a.sin6_port).toNat)
      ∧ (∀ c, Ipv6.hexDigit c = none → c ≠ ':' → c ∉ literal)
      ∧ Ipv6.pton literal = some a.sin6_addr.s6_addr := by
  obtain ⟨literal, htext, hwrites⟩ := exists_literal FIBER_BYTE_ORDER [] a
  refine ⟨literal, htext, fun c hc hcolon => hwrites.not_mem hc hcolon, ?_⟩
  rw [← @octets_groupsTo FIBER_BYTE_ORDER a.sin6_addr]
  refine hwrites.pton (fun g hg => ?_) (by simp)
  obtain ⟨i, -, rfl⟩ := List.mem_map.mp hg
  exact groupAt_lt i

/-- The parts of the text of an IPv4 address. -/
theorem split_insert4 (a : sockaddr_in) :
    HostLookup.split (IPv4Address.insert FIBER_BYTE_ORDER a [])
      = (Ipv4.quad (a.host FIBER_BYTE_ORDER).toNat,
        Nat.toDigits 10 (byteswapOnLittleEndian FIBER_BYTE_ORDER (n := 2) a.sin_port).toNat) := by
  have hsplit := HostLookup.split_text (.namePort (Ipv4.quad (a.host FIBER_BYTE_ORDER).toNat)
    (Nat.toDigits 10 (byteswapOnLittleEndian FIBER_BYTE_ORDER (n := 2) a.sin_port).toNat)
    (Ipv4.quad_ne_nil _) (Ipv4.not_mem_quad _ (by decide) (by decide))
    (Ipv4.not_mem_quad _ (by decide) (by decide)) (Ipv4.not_mem_toDigits _ (by decide)))
  rw [insert_eq_quad]
  exact Prod.ext hsplit.1 hsplit.2

/-- The parts of the text of an IPv6 address: the colon stays with the port. -/
theorem split_insert6 (a : sockaddr_in6) :
    ∃ literal, HostLookup.split (IPv6Address.insert FIBER_BYTE_ORDER a [])
        = (literal, ':' :: Nat.toDigits 10
          (byteswapOnLittleEndian FIBER_BYTE_ORDER (n := 2) a.sin6_port).toNat)
      ∧ '\x00' ∉ literal ∧ Ipv6.pton literal = some a.sin6_addr.s6_addr := by
  obtain ⟨literal, htext, hmem, hread⟩ := exists_read FIBER_BYTE_ORDER a
  have hne : literal ≠ [] := by
    rintro rfl
    have hnone : Ipv6.pton [] = none := by decide
    rw [hnone] at hread
    cases hread
  have hsplit := HostLookup.split_text (.bracketPort literal
    (Nat.toDigits 10 (byteswapOnLittleEndian FIBER_BYTE_ORDER (n := 2) a.sin6_port).toNat)
    hne (hmem _ (by decide) (by decide)) (Ipv4.not_mem_toDigits _ (by decide)))
  refine ⟨literal, ?_, hmem _ (by decide) (by decide), hread⟩
  rw [htext]
  exact Prod.ext hsplit.1 hsplit.2

/-! ### Two addresses -/

theorem toString_shown (a : IPAddress) :
    a.shown.toString FIBER_BYTE_ORDER = a.toString FIBER_BYTE_ORDER := by
  cases a with
  | v4 m_addr => simp only [IPAddress.shown, IPAddress.toString, IPv4Address.insert]
  | v6 m_addr => simp only [IPAddress.shown, IPAddress.toString, IPv6Address.insert]

theorem decimal_inj {v u : BitVec 16} (h : Nat.toDigits 10 v.toNat = Nat.toDigits 10 u.toNat) :
    v = u := by
  have hvalue := congrArg (fun s => Nat.ofDigitChars 10 s 0) h
  simp only [Nat.ofDigitChars_ten_toDigits] at hvalue
  exact BitVec.eq_of_toNat_eq hvalue

/-- Addresses with one text differ in nothing that is shown. -/
theorem toString_eq_iff (a b : IPAddress) :
    a.toString FIBER_BYTE_ORDER = b.toString FIBER_BYTE_ORDER ↔ a.shown = b.shown := by
  constructor
  · intro h
    have hsplit := congrArg HostLookup.split h
    cases a with
    | v4 m_addr =>
      cases b with
      | v4 n_addr =>
        simp only [IPAddress.toString, split_insert4, Prod.mk.injEq] at hsplit
        have hport := decimal_inj hsplit.2
        have hread := create_quad FIBER_BYTE_ORDER m_addr
        rw [hsplit.1, hport, create_quad FIBER_BYTE_ORDER n_addr] at hread
        exact congrArg IPAddress.v4 (Option.some.inj hread).symm
      | v6 n_addr =>
        obtain ⟨literal, hother, -⟩ := split_insert6 FIBER_BYTE_ORDER n_addr
        simp only [IPAddress.toString, split_insert4, hother, Prod.mk.injEq] at hsplit
        have hmem := Ipv4.not_mem_toDigits
          (byteswapOnLittleEndian FIBER_BYTE_ORDER (n := 2) m_addr.sin_port).toNat
          (c := ':') (by decide)
        rw [hsplit.2] at hmem
        exact absurd List.mem_cons_self hmem
    | v6 m_addr =>
      obtain ⟨literal, hown, hnull, hread⟩ := split_insert6 FIBER_BYTE_ORDER m_addr
      cases b with
      | v4 n_addr =>
        simp only [IPAddress.toString, split_insert4, hown, Prod.mk.injEq] at hsplit
        have hmem := Ipv4.not_mem_toDigits
          (byteswapOnLittleEndian FIBER_BYTE_ORDER (n := 2) n_addr.sin_port).toNat
          (c := ':') (by decide)
        rw [← hsplit.2] at hmem
        exact absurd List.mem_cons_self hmem
      | v6 n_addr =>
        obtain ⟨literal', hother, -, hread'⟩ := split_insert6 FIBER_BYTE_ORDER n_addr
        simp only [IPAddress.toString, hown, hother, Prod.mk.injEq, List.cons.injEq,
          true_and] at hsplit
        rw [← hsplit.1] at hread'
        have hfirst := create_literal FIBER_BYTE_ORDER m_addr hnull hread
        have hsecond := create_literal FIBER_BYTE_ORDER n_addr hnull hread'
        rw [decimal_inj hsplit.2, hsecond] at hfirst
        exact congrArg IPAddress.v6 (Option.some.inj hfirst).symm
  · intro h
    rw [← toString_shown, h, toString_shown]

/-! ### The text as a host -/

variable {R A : Type*} (getaddrinfo : HostLookup.Request → Except Int (List R)) (Create : R → A)
  (result : List A)

/-- The text of an address as a host: the node is read as that address again, and the service is its
port for the addresses of IPv4 only. -/
theorem lookup_toString (a : IPAddress) (family type protocol : Int) :
    let asked := (HostLookup.Lookup getaddrinfo Create result (a.toString FIBER_BYTE_ORDER)
      family type protocol).asked
    a.CreateLike FIBER_BYTE_ORDER asked.node (a.getPort FIBER_BYTE_ORDER) = some a.shown
      ∧ (asked.service = Nat.toDigits 10 (a.getPort FIBER_BYTE_ORDER).toNat ↔ a.IsV4) := by
  intro asked
  have hasked : asked = HostLookup.request (a.toString FIBER_BYTE_ORDER) family type protocol :=
    HostLookup.asked_Lookup getaddrinfo Create result _ family type protocol
  rw [hasked]
  cases a with
  | v4 m_addr =>
    have hnull : ∀ n, '\x00' ∉ Nat.toDigits 10 n := fun n => Ipv4.not_mem_toDigits n (by decide)
    rw [HostLookup.request, IPAddress.toString, split_insert4]
    dsimp only
    rw [cstr_eq_self (Ipv4.not_mem_quad _ (by decide) (by decide)), cstr_eq_self (hnull _)]
    exact ⟨congrArg (Option.map IPAddress.v4) (create_quad FIBER_BYTE_ORDER m_addr),
      iff_of_true rfl trivial⟩
  | v6 m_addr =>
    obtain ⟨literal, hsplit, hnull, hread⟩ := split_insert6 FIBER_BYTE_ORDER m_addr
    rw [HostLookup.request, IPAddress.toString, hsplit]
    dsimp only
    rw [cstr_eq_self hnull]
    refine ⟨congrArg (Option.map IPAddress.v6) (create_literal FIBER_BYTE_ORDER m_addr hnull hread),
      iff_of_false (fun heq => ?_) not_false⟩
    have hmem : ':' ∈ cstr (':' :: Nat.toDigits 10
        (byteswapOnLittleEndian FIBER_BYTE_ORDER (n := 2) m_addr.sin6_port).toNat) := by
      rw [cstr, List.takeWhile_cons_of_pos (by decide)]
      exact List.mem_cons_self
    rw [heq] at hmem
    exact Ipv4.not_mem_toDigits _ (by decide) hmem

end

end Net

end FiberServer
