import FiberServer.ByteArray.Buffers
import FiberServer.Stream.FixSize

/-!
# `SocketStream` and `ByteArray`

`SocketStream::read` receives into the ranges of `getWriteBuffers` and moves the cursor behind what
has come.  `Stream::readFixSize` repeats it.

* `read_keeps`: one call, whatever part of the bytes comes.
* `readFixSize_ba`: the `ByteArray` is as after a `write` of the bytes that have come.
* `scatter_gather`: the calls on ranges and the plain calls of a `ByteArray`.
-/

namespace FiberServer

open Blocks
open Transfer (Peer Completes Stops)
open FiberServer.ByteArray (Error Reachable Refines Same Filled Iovec gather)

namespace SocketStream

variable {σ : Type}

/-- `m_socket`, with `recv`. -/
structure Socket (σ : Type) where
  isConnected : σ → Bool
  recv : Peer σ

/-- The answers that a caller of `read` gets. -/
def Socket.peer (m_socket : Socket σ) : Peer σ := fun k s =>
  if m_socket.isConnected s then m_socket.recv k s
  else ({ result := -1, le := by omega, int := by omega }, s)

/-- `taken` bytes have been taken from the incoming stream. -/
structure Receiving (σ : Type) where
  ba : ByteArray
  taken : Nat
  peer : σ

/-- `SocketStream::read(ba, length)` -/
def read (m_socket : Socket σ) (incoming : Nat → UInt8) (length : Nat) (t : Receiving σ) :
    Except Error (Int × Receiving σ) :=
  if !m_socket.isConnected t.peer then .ok (-1, t)
  else
    match t.ba.getWriteBuffers length with
    | (_, .error e) => .error e
    | (ba, .ok (_, iovs)) =>
      let (rt, peer') := m_socket.recv.call (iovs.map Iovec.iov_len).sum t.peer
      if rt ≤ 0 then .ok (rt, { t with ba := ba, peer := peer' })
      else
        let received := (Stream.chunk incoming t.taken rt.toNat).map some
        match (ba.filled iovs received).setPosition (ba.m_position + rt.toNat) with
        | (_, .error e) => .error e
        | (ba, .ok _) => .ok (rt, { ba := ba, taken := t.taken + rt.toNat, peer := peer' })

/-- `Stream::readFixSize(ba, length)` -/
def readFixSize (m_socket : Socket σ) (incoming : Nat → UInt8) (ba : ByteArray) (length : Nat)
    (s : σ) : Except Error (Int × Receiving σ) :=
  Transfer.loop (read m_socket incoming) (TypeUtil.wrap 32 length) (TypeUtil.wrap 64 length)
    { ba := ba, taken := 0, peer := s }

/-- The bytes at the cursor of `f` have been set to the first `m` of the stream. -/
def After (incoming : Nat → UInt8) (f : Flat) (m : Nat) (t : Receiving σ) : Prop :=
  t.taken = m ∧ ∃ g, Refines t.ba g
    ∧ g.contents = overwrite f.contents f.position ((Stream.chunk incoming 0 m).map some)
    ∧ g.size = max f.size (f.position + m) ∧ g.position = f.position + m

variable {m_socket : Socket σ} {incoming : Nat → UInt8} {f : Flat} {n : Nat}

theorem read_keeps : Transfer.Keeps m_socket.peer Receiving.peer n (After incoming f)
    (read m_socket incoming) := by
  rintro m t hm ⟨htaken, g, hg, hcontents, hsize, hposition⟩
  rw [read, Socket.peer]
  cases hconnected : m_socket.isConnected t.peer with
  | false =>
    refine ⟨t, rfl, rfl, htaken, g, hg, hcontents, hsize, hposition⟩
  | true =>
    have hle := (m_socket.recv (n - m) t.peer).1.le
    -- the answer to a call for as many bytes as the ranges have
    have hanswer : ∀ {k : Nat}, k = n - m → m_socket.recv.call k t.peer
        = ((m_socket.recv (n - m) t.peer).1.result, (m_socket.recv (n - m) t.peer).2) := by
      rintro k rfl
      rfl
    rw [if_neg (by decide), if_pos rfl]
    by_cases hr : (m_socket.recv (n - m) t.peer).1.result ≤ 0
    · -- the chain may be longer now
      obtain ⟨vs, hbuffers, hvs⟩ := ByteArray.getWriteBuffers_spec hg (Nat.sub_pos_of_lt hm)
      obtain ⟨hreserve, -⟩ := ByteArray.addCapacity_ready hg (Nat.sub_pos_of_lt hm)
      have hroom : (g.room (n - m)).take g.size = g.contents :=
        List.take_append_of_le_length g.size_le
      have hcall := hanswer hvs.sum_iov_len
      rw [hbuffers]
      simp only [hcall, if_pos hr]
      refine ⟨_, rfl, rfl, ?_⟩
      rw [Int.toNat_of_nonpos hr, Nat.add_zero]
      exact ⟨htaken, _, hreserve, hroom.trans hcontents, hsize, hposition⟩
    · have hlength : ((Stream.chunk incoming t.taken
          (m_socket.recv (n - m) t.peer).1.result.toNat).map some).length
          = (m_socket.recv (n - m) t.peer).1.result.toNat := by
        rw [List.length_map, Stream.length_chunk]
      obtain ⟨u, g', ⟨hbuffers, hsum, hset⟩, hu, -, hcontents', hsize', hposition', -⟩ :=
        ByteArray.exists_filled hg (Nat.sub_pos_of_lt hm) (Nat.le_trans (Nat.le_of_eq hlength)
          (by omega))
      rw [hlength] at hset hsize' hposition'
      have hcall := hanswer hsum
      rw [hbuffers]
      simp only [hcall, if_neg hr, hset]
      refine ⟨_, rfl, rfl, congrArg (· + _) htaken, g', hu, ?_, by omega, by omega⟩
      have hchunk : ((Stream.chunk incoming 0 m).map some).length = m := by
        rw [List.length_map, Stream.length_chunk]
      have hwrites : overwrite (overwrite f.contents f.position
          ((Stream.chunk incoming 0 m).map some)) _ ((Stream.chunk incoming m
            (m_socket.recv (n - m) t.peer).1.result.toNat).map some) = _ :=
        overwrite_overwrite_of_le (by rw [Flat.length_contents]; exact f.position_le)
      rw [hchunk] at hwrites
      rw [hcontents', hcontents, hposition, htaken, hwrites, Stream.chunk_add, List.map_append,
        Nat.zero_add]

/-- **`readFixSize`** of a `ByteArray`, whatever part of the bytes each call gets: the first `m` of
the stream are written. -/
theorem readFixSize_ba {ba : ByteArray} (h : Refines ba f) (s : σ) (hint : n < 2 ^ 63) :
    (Completes m_socket.peer n s → ∃ t, readFixSize m_socket incoming ba n s
        = .ok (TypeUtil.wrap 32 n, t)
        ∧ Same t.ba (ba.write ((Stream.chunk incoming 0 n).map some)).1)
      ∧ ∀ m r, Stops m_socket.peer n s m r → ∃ t, readFixSize m_socket incoming ba n s
        = .ok (r, t) ∧ Same t.ba (ba.write ((Stream.chunk incoming 0 m).map some)).1 := by
  have hstart : After incoming f 0 (⟨ba, 0, s⟩ : Receiving σ) := by
    refine ⟨rfl, f, h, ?_, ?_, rfl⟩
    · exact (overwrite_nil f.contents f.position).symm
    · exact (Nat.max_eq_left f.position_le).symm
  have hsame : ∀ {m : Nat} {t : Receiving σ}, After incoming f m t →
      Same t.ba (ba.write ((Stream.chunk incoming 0 m).map some)).1 := by
    rintro m t ⟨-, g, hg, hcontents, hsize, hposition⟩
    have hlength : ((Stream.chunk incoming 0 m).map some).length = m := by
      rw [List.length_map, Stream.length_chunk]
    refine hg.same (ByteArray.write_refines h _).1 (hcontents.trans (f.contents_write _).symm) ?_ ?_
    · show g.size = max f.size (f.position + ((Stream.chunk incoming 0 m).map some).length)
      rw [hlength, hsize]
    · show g.position = f.position + ((Stream.chunk incoming 0 m).map some).length
      rw [hlength, hposition]
  rw [readFixSize, Stream.wrap_left hint]
  constructor
  · intro hcompletes
    obtain ⟨t, hloop, ht⟩ := Transfer.loop_of_completes read_keeps (TypeUtil.wrap 32 n) hcompletes
      rfl (Nat.zero_add n) hstart
    exact ⟨t, hloop, hsame ht⟩
  · intro m r hstops
    obtain ⟨t, hloop, ht⟩ := Transfer.loop_of_stops read_keeps (TypeUtil.wrap 32 n) hstops
      rfl (Nat.zero_add n) hstart
    rw [Nat.zero_add] at ht
    exact ⟨t, hloop, hsame ht⟩

/-- **Ranges and plain calls**, in every state that calls lead to.  Filling the first bytes of the
ranges for `len` bytes and moving the cursor behind them is a `write`; the ranges to read from hold
what `read` returns; and a stream is written into the `ByteArray` as it comes. -/
theorem scatter_gather {ba : ByteArray} (hba : Reachable ba) :
    (∀ (len : Nat) (bytes : List Byte), 1 ≤ bytes.length → bytes.length ≤ len →
        ∃ u, Filled ba len bytes u ∧ Same u (ba.write bytes).1
          ∧ ∀ i, (ba.write bytes).1.m_cur = some i → u.m_cur = some i)
      ∧ (∀ len : Nat, 1 ≤ len → ∃ buffers,
        ba.getReadBuffers len = .ok (min len ba.getReadSize, buffers)
          ∧ (buffers.map Iovec.iov_len).sum = min len ba.getReadSize
          ∧ gather ba.nodes buffers = slice ba.contents ba.m_position (min len ba.getReadSize)
          ∧ (0 < min len ba.getReadSize →
            (ba.read (min len ba.getReadSize)).2 = .ok (gather ba.nodes buffers)))
      ∧ ∀ (σ : Type) (m_socket : Socket σ) (incoming : Nat → UInt8) (s : σ) (n : Nat), n < 2 ^ 63 →
        (Completes m_socket.peer n s → ∃ t, readFixSize m_socket incoming ba n s
            = .ok (TypeUtil.wrap 32 n, t)
            ∧ Same t.ba (ba.write ((Stream.chunk incoming 0 n).map some)).1)
          ∧ ∀ m r, Stops m_socket.peer n s m r → ∃ t, readFixSize m_socket incoming ba n s
            = .ok (r, t) ∧ Same t.ba (ba.write ((Stream.chunk incoming 0 m).map some)).1 := by
  obtain ⟨f, hf⟩ := hba.refines
  refine ⟨fun len bytes hpos hle => ?_, fun len _ => ?_, fun σ m_socket incoming s n hint => ?_⟩
  · exact ByteArray.filled_same hf (Nat.le_trans hpos hle) hle
  · exact ByteArray.getReadBuffers_spec hf len
  · exact readFixSize_ba hf s hint

/-- Three bytes over nodes of two, with the cursor behind them. -/
def threeBytes : ByteArray := ((ByteArray.new 2).apply (.write [some 1, some 2, some 3])).1

theorem scatter_gather_threeBytes :
    (∃ u, Filled threeBytes 5 [some 4, some 5] u
        ∧ Same u (threeBytes.write [some 4, some 5]).1)
      ∧ ∃ buffers, (threeBytes.setPosition 1).1.getReadBuffers 7 = .ok (2, buffers)
        ∧ gather threeBytes.nodes buffers = [some 2, some 3] := by
  have hthree : Reachable threeBytes := .apply _ (.new 2 (by decide)) (by decide)
  have hone : Reachable (threeBytes.setPosition 1).1 :=
    .apply (.setPosition 1) hthree (by decide)
  obtain ⟨u, hu, hsame, -⟩ :=
    (scatter_gather hthree).1 5 [some 4, some 5] (by decide) (by decide)
  obtain ⟨buffers, hbuffers, -, hgather, -⟩ := (scatter_gather hone).2.1 7 (by decide)
  exact ⟨⟨u, hu, hsame⟩, buffers, hbuffers, hgather⟩

end SocketStream

end FiberServer
