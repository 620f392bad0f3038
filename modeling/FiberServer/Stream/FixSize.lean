import FiberServer.Http.HttpSession
import FiberServer.Library.Blocks
import FiberServer.Library.Transfer

/-!
# `Stream::readFixSize` and `Stream::writeFixSize`

Both call `read` or `write` of the stream until `length` bytes are moved, and return `length` as an
`int` then.  The comment in `stream.h` says that a positive result is the number of the bytes.

* `readFixSize_completes`, `readFixSize_stops`, `writeFixSize_completes`, `writeFixSize_stops`: what
  is moved, and what is returned.
* `fixSize_exact_iff`: the sign of the result tells the two cases apart if and only if the low 32
  bits of the length are a positive `int`.
-/

namespace FiberServer

open Blocks
open Transfer (Peer Completes Stops loop)

namespace Stream

variable {σ : Type}

/-- An access behind the end of the caller's buffer. -/
inductive OutOfBounds
  | buffer
  deriving DecidableEq, Repr

/-- The `n` bytes of an incoming stream from byte `p` on. -/
def chunk (incoming : Nat → UInt8) (p n : Nat) : Bytes := (List.range' p n).map incoming

/-- The state of `readFixSize`; `taken` bytes have been taken from the incoming stream. -/
structure Reading (σ : Type) where
  buffer : Bytes
  offset : Nat
  taken : Nat
  peer : σ

/-- `read(buffer + offset, left)`, and the assignments to `offset`. -/
def readStep (peer : Peer σ) (incoming : Nat → UInt8) (left : Nat) (t : Reading σ) :
    Except OutOfBounds (Int × Reading σ) :=
  let (answer, peer') := peer left t.peer
  let len := answer.result
  if len ≤ 0 then .ok (len, { t with peer := peer' })
  else if t.buffer.length < t.offset + len.toNat then .error .buffer
  else
    .ok (len,
      { buffer := overwrite t.buffer t.offset (chunk incoming t.taken len.toNat)
        offset := t.offset + len.toNat
        taken := t.taken + len.toNat
        peer := peer' })

def readFixSize (peer : Peer σ) (incoming : Nat → UInt8) (buffer : Bytes) (length : Nat) (s : σ) :
    Except OutOfBounds (Int × Reading σ) :=
  loop (readStep peer incoming) (TypeUtil.wrap 32 length) (TypeUtil.wrap 64 length)
    { buffer := buffer, offset := 0, taken := 0, peer := s }

/-- The state of `writeFixSize`; the other side has got the bytes `sent`. -/
structure Writing (σ : Type) where
  offset : Nat
  sent : Bytes
  peer : σ

/-- `write(buffer + offset, left)`, and the assignments to `offset`. -/
def writeStep (peer : Peer σ) (buffer : Bytes) (left : Nat) (t : Writing σ) :
    Except OutOfBounds (Int × Writing σ) :=
  let (answer, peer') := peer left t.peer
  let len := answer.result
  if len ≤ 0 then .ok (len, { t with peer := peer' })
  else if buffer.length < t.offset + len.toNat then .error .buffer
  else
    .ok (len,
      { offset := t.offset + len.toNat
        sent := t.sent ++ slice buffer t.offset len.toNat
        peer := peer' })

def writeFixSize (peer : Peer σ) (buffer : Bytes) (length : Nat) (s : σ) :
    Except OutOfBounds (Int × Writing σ) :=
  loop (writeStep peer buffer) (TypeUtil.wrap 32 length) (TypeUtil.wrap 64 length)
    { offset := 0, sent := [], peer := s }

/-- The call returns a positive value if all bytes are moved, and the first result that is not
positive if not; the bytes are in the buffer in the order of the stream. -/
structure ReadExact (peer : Peer σ) (incoming : Nat → UInt8) (buffer : Bytes) (n : Nat) (s : σ) :
    Prop where
  completes : Completes peer n s → ∃ r t, readFixSize peer incoming buffer n s = .ok (r, t)
    ∧ 0 < r ∧ t.buffer = overwrite buffer 0 (chunk incoming 0 n)
  stops : ∀ m r, Stops peer n s m r → ∃ t, readFixSize peer incoming buffer n s = .ok (r, t)
    ∧ t.buffer = overwrite buffer 0 (chunk incoming 0 m)

structure WriteExact (peer : Peer σ) (buffer : Bytes) (n : Nat) (s : σ) : Prop where
  completes : Completes peer n s → ∃ r t, writeFixSize peer buffer n s = .ok (r, t)
    ∧ 0 < r ∧ t.sent = buffer.take n
  stops : ∀ m r, Stops peer n s m r → ∃ t, writeFixSize peer buffer n s = .ok (r, t)
    ∧ t.sent = buffer.take m

/-! ### What is moved -/

theorem length_chunk (incoming : Nat → UInt8) (p n : Nat) : (chunk incoming p n).length = n := by
  rw [chunk, List.length_map, List.length_range']

theorem chunk_add (incoming : Nat → UInt8) (p m n : Nat) :
    chunk incoming p (m + n) = chunk incoming p m ++ chunk incoming (p + m) n := by
  rw [chunk, chunk, chunk, ← List.map_append, List.range'_append_1]

/-- After `m` bytes. -/
def Reading.After (incoming : Nat → UInt8) (buffer : Bytes) (m : Nat) (t : Reading σ) : Prop :=
  t.offset = m ∧ t.taken = m ∧ t.buffer = overwrite buffer 0 (chunk incoming 0 m)

def Writing.After (buffer : Bytes) (m : Nat) (t : Writing σ) : Prop :=
  t.offset = m ∧ t.sent = buffer.take m

variable {peer : Peer σ} {incoming : Nat → UInt8} {buffer : Bytes} {n : Nat} {s : σ}

theorem Reading.after_zero : Reading.After incoming buffer 0 ⟨buffer, 0, 0, s⟩ :=
  ⟨rfl, rfl, (overwrite_nil buffer 0).symm⟩

theorem Writing.after_zero : Writing.After buffer 0 ⟨0, [], s⟩ :=
  ⟨rfl, List.take_zero.symm⟩

theorem readStep_keeps (hbuffer : n ≤ buffer.length) :
    Transfer.Keeps peer Reading.peer n (Reading.After incoming buffer)
      (readStep peer incoming) := by
  rintro m t hm ⟨hoffset, htaken, ht⟩
  have hle := (peer (n - m) t.peer).1.le
  rw [readStep]
  generalize peer (n - m) t.peer = answer at hle ⊢
  simp only
  have hlength : t.buffer.length = buffer.length := by
    rw [ht, length_overwrite (by rw [length_chunk]; omega)]
  by_cases hr : answer.1.result ≤ 0
  · rw [if_pos hr]
    refine ⟨_, rfl, rfl, ?_⟩
    rw [Int.toNat_of_nonpos hr, Nat.add_zero]
    exact ⟨hoffset, htaken, ht⟩
  · rw [if_neg hr, if_neg (by omega)]
    refine ⟨_, rfl, rfl, congrArg (· + _) hoffset, congrArg (· + _) htaken, ?_⟩
    have hchunk : 0 + (chunk incoming 0 m).length = m := by rw [length_chunk, Nat.zero_add]
    have hwrites : overwrite (overwrite buffer 0 (chunk incoming 0 m)) _
        (chunk incoming m answer.1.result.toNat) = _ := overwrite_overwrite_of_le (Nat.zero_le _)
    rw [hchunk] at hwrites
    show overwrite t.buffer t.offset (chunk incoming t.taken _) = _
    rw [ht, hoffset, htaken, hwrites, chunk_add, Nat.zero_add]

theorem writeStep_keeps (hbuffer : n ≤ buffer.length) :
    Transfer.Keeps peer Writing.peer n (Writing.After buffer) (writeStep peer buffer) := by
  rintro m t hm ⟨hoffset, ht⟩
  have hle := (peer (n - m) t.peer).1.le
  rw [writeStep]
  generalize peer (n - m) t.peer = answer at hle ⊢
  simp only
  by_cases hr : answer.1.result ≤ 0
  · rw [if_pos hr]
    refine ⟨_, rfl, rfl, ?_⟩
    rw [Int.toNat_of_nonpos hr, Nat.add_zero]
    exact ⟨hoffset, ht⟩
  · rw [if_neg hr, if_neg (by omega)]
    refine ⟨_, rfl, rfl, congrArg (· + _) hoffset, ?_⟩
    show t.sent ++ slice buffer t.offset _ = _
    rw [ht, hoffset, slice, ← List.take_add]

/-- `int64_t left = length` -/
theorem wrap_left (h : n < 2 ^ 63) : TypeUtil.wrap 64 n = n := by
  rw [TypeUtil.wrap, Int.bmod_eq_of_le (by omega) (by omega)]

theorem readFixSize_completes (hbuffer : n ≤ buffer.length) (hint : n < 2 ^ 63)
    (h : Completes peer n s) : ∃ t, readFixSize peer incoming buffer n s
      = .ok (TypeUtil.wrap 32 n, t) ∧ Reading.After incoming buffer n t := by
  rw [readFixSize, wrap_left hint]
  exact Transfer.loop_of_completes (readStep_keeps hbuffer) _ h rfl (Nat.zero_add n)
    Reading.after_zero

theorem readFixSize_stops (hbuffer : n ≤ buffer.length) (hint : n < 2 ^ 63) {m : Nat} {r : Int}
    (h : Stops peer n s m r) : ∃ t, readFixSize peer incoming buffer n s = .ok (r, t)
      ∧ Reading.After incoming buffer m t := by
  rw [readFixSize, wrap_left hint]
  obtain ⟨t, hloop, ht⟩ := Transfer.loop_of_stops (readStep_keeps hbuffer)
    (TypeUtil.wrap 32 n) h rfl (Nat.zero_add n) Reading.after_zero
  rw [Nat.zero_add] at ht
  exact ⟨t, hloop, ht⟩

theorem writeFixSize_completes (hbuffer : n ≤ buffer.length) (hint : n < 2 ^ 63)
    (h : Completes peer n s) : ∃ t, writeFixSize peer buffer n s
      = .ok (TypeUtil.wrap 32 n, t) ∧ Writing.After buffer n t := by
  rw [writeFixSize, wrap_left hint]
  exact Transfer.loop_of_completes (writeStep_keeps hbuffer) _ h rfl (Nat.zero_add n)
    Writing.after_zero

theorem writeFixSize_stops (hbuffer : n ≤ buffer.length) (hint : n < 2 ^ 63) {m : Nat} {r : Int}
    (h : Stops peer n s m r) : ∃ t, writeFixSize peer buffer n s = .ok (r, t)
      ∧ Writing.After buffer m t := by
  rw [writeFixSize, wrap_left hint]
  obtain ⟨t, hloop, ht⟩ := Transfer.loop_of_stops (writeStep_keeps hbuffer)
    (TypeUtil.wrap 32 n) h rfl (Nat.zero_add n) Writing.after_zero
  rw [Nat.zero_add] at ht
  exact ⟨t, hloop, ht⟩

/-! ### The sign of the result -/

/-- `return length` as an `int`. -/
theorem wrap_pos_iff (n : Nat) :
    0 < TypeUtil.wrap 32 n ↔ 0 < n % 2 ^ 32 ∧ n % 2 ^ 32 < 2 ^ 31 := by
  have hmod : (n : Int) % (2 ^ 32 : Nat) = (n % 2 ^ 32 : Nat) := (Int.natCast_emod n _).symm
  rw [TypeUtil.wrap, Int.bmod_def, hmod]
  split_ifs with h
  · omega
  · omega

/-- A call that returns its length when all is moved, and the first result that is not positive when
not, is right about the first case exactly if the length is positive as an `int`. -/
theorem sign_right_iff {τ : Type} {call : Except OutOfBounds (Int × τ)} {P : Nat → τ → Prop}
    (hcompletes : Completes peer n s → ∃ t, call = .ok (TypeUtil.wrap 32 n, t) ∧ P n t)
    (hstops : ∀ m r, Stops peer n s m r → ∃ t, call = .ok (r, t) ∧ P m t) :
    ((Completes peer n s → ∃ r t, call = .ok (r, t) ∧ 0 < r ∧ P n t)
        ∧ ∀ m r, Stops peer n s m r → ∃ t, call = .ok (r, t) ∧ P m t)
      ↔ (Completes peer n s → 0 < n % 2 ^ 32 ∧ n % 2 ^ 32 < 2 ^ 31) := by
  constructor
  · rintro ⟨hexact, -⟩ hall
    obtain ⟨r, t, hcall, hpos, -⟩ := hexact hall
    obtain ⟨t', hcall', -⟩ := hcompletes hall
    rw [hcall'] at hcall
    obtain ⟨rfl, -⟩ := Prod.mk.inj (Except.ok.inj hcall)
    exact (wrap_pos_iff n).mp hpos
  · intro hsign
    refine ⟨fun hall => ?_, hstops⟩
    obtain ⟨t, hcall, ht⟩ := hcompletes hall
    exact ⟨_, t, hcall, (wrap_pos_iff n).mpr (hsign hall), ht⟩

theorem readExact_iff (hbuffer : n ≤ buffer.length) (hint : n < 2 ^ 63) :
    ReadExact peer incoming buffer n s
      ↔ (Completes peer n s → 0 < n % 2 ^ 32 ∧ n % 2 ^ 32 < 2 ^ 31) := by
  have hcompletes (h : Completes peer n s) : ∃ t, readFixSize peer incoming buffer n s
      = .ok (TypeUtil.wrap 32 n, t) ∧ t.buffer = overwrite buffer 0 (chunk incoming 0 n) := by
    obtain ⟨t, hcall, -, -, ht⟩ := readFixSize_completes hbuffer hint h
    exact ⟨t, hcall, ht⟩
  have hstops (m : Nat) (r : Int) (h : Stops peer n s m r) : ∃ t,
      readFixSize peer incoming buffer n s = .ok (r, t)
        ∧ t.buffer = overwrite buffer 0 (chunk incoming 0 m) := by
    obtain ⟨t, hcall, -, -, ht⟩ := readFixSize_stops hbuffer hint h
    exact ⟨t, hcall, ht⟩
  have hexact := sign_right_iff hcompletes hstops
  rw [← hexact]
  exact ⟨fun h => ⟨h.completes, h.stops⟩, fun h => ⟨h.1, h.2⟩⟩

theorem writeExact_iff (hbuffer : n ≤ buffer.length) (hint : n < 2 ^ 63) :
    WriteExact peer buffer n s
      ↔ (Completes peer n s → 0 < n % 2 ^ 32 ∧ n % 2 ^ 32 < 2 ^ 31) := by
  have hcompletes (h : Completes peer n s) : ∃ t, writeFixSize peer buffer n s
      = .ok (TypeUtil.wrap 32 n, t) ∧ t.sent = buffer.take n := by
    obtain ⟨t, hcall, -, ht⟩ := writeFixSize_completes hbuffer hint h
    exact ⟨t, hcall, ht⟩
  have hstops (m : Nat) (r : Int) (h : Stops peer n s m r) : ∃ t,
      writeFixSize peer buffer n s = .ok (r, t) ∧ t.sent = buffer.take m := by
    obtain ⟨t, hcall, -, ht⟩ := writeFixSize_stops hbuffer hint h
    exact ⟨t, hcall, ht⟩
  have hexact := sign_right_iff hcompletes hstops
  rw [← hexact]
  exact ⟨fun h => ⟨h.completes, h.stops⟩, fun h => ⟨h.1, h.2⟩⟩

/-- **Transfers of a fixed size.**  For every length and every way in which the stream answers, the
two calls are exact if and only if the transfer stops, or the low 32 bits of the length are a
positive `int`. -/
theorem fixSize_exact_iff (peer : Peer σ) (s : σ) {n : Nat} (hint : n < 2 ^ 63)
    {buffer : Bytes} (hbuffer : n ≤ buffer.length) :
    (∀ incoming, ReadExact peer incoming buffer n s
        ↔ ¬ Completes peer n s ∨ 0 < n % 2 ^ 32 ∧ n % 2 ^ 32 < 2 ^ 31)
      ∧ (WriteExact peer buffer n s
        ↔ ¬ Completes peer n s ∨ 0 < n % 2 ^ 32 ∧ n % 2 ^ 32 < 2 ^ 31) := by
  rw [← imp_iff_not_or]
  exact ⟨fun incoming => readExact_iff hbuffer hint, writeExact_iff hbuffer hint⟩

/-- A stream that moves all that an `int` can count. -/
def generous : Peer Unit := fun k _ =>
  ({ result := (min k (2 ^ 31 - 1) : Nat)
     le := by omega
     int := by omega }, ())

theorem generous_completes (n : Nat) (s : Unit) : Completes generous n s := by
  obtain h | ⟨m, r, h⟩ := Transfer.completes_or_stops generous n s
  · exact h
  · exfalso
    induction h with
    | now hk hr =>
      change ((min _ (2 ^ 31 - 1) : Nat) : Int) ≤ 0 at hr
      omega
    | later _ _ _ ih => exact ih

theorem fixSize_exact_four :
    ReadExact generous (fun i => UInt8.ofNat i) [9, 9, 9, 9] 4 ()
      ∧ WriteExact generous [1, 2, 3, 4] 4 () :=
  ⟨((fixSize_exact_iff generous () (by decide) (Nat.le_refl 4)).1 _).mpr
      (.inr (by decide)),
    (fixSize_exact_iff generous () (by decide) (Nat.le_refl 4)).2.mpr
      (.inr (by decide))⟩

/-- All `2 ^ 32` bytes are moved, and the result is zero. -/
theorem fixSize_not_exact :
    ¬ ReadExact generous (fun _ => 0) (List.replicate (2 ^ 32) 0) (2 ^ 32) ()
      ∧ ¬ WriteExact generous (List.replicate (2 ^ 32) 0) (2 ^ 32) () := by
  have hbuffer : 2 ^ 32 ≤ (List.replicate (2 ^ 32) (0 : UInt8)).length :=
    Nat.le_of_eq List.length_replicate.symm
  rw [readExact_iff hbuffer (by decide), writeExact_iff hbuffer (by decide)]
  have hsign : ¬ (0 < 2 ^ 32 % 2 ^ 32 ∧ 2 ^ 32 % 2 ^ 32 < 2 ^ 31) := by decide
  exact ⟨fun h => hsign (h (generous_completes _ _)), fun h => hsign (h (generous_completes _ _))⟩

end Stream

end FiberServer
