import FiberServer.ByteArray.Nodes

/-!
# A flat buffer with a cursor

`Flat` says what a `ByteArray` is for: one vector of bytes, of which the first `size`
are its contents, and a cursor inside them.  The bytes above `size` are the room that
was allocated.

* `Flat.contents_write`, `Flat.contents_setPosition`: what the calls do to the contents.
* `Flat.contents_read`: a read returns the contents at the cursor.
-/

namespace FiberServer

open Blocks

/-- The room grows by multiples of `base`. -/
structure Flat where
  base : Nat
  bytes : List Byte
  size : Nat
  position : Nat
  base_pos : 0 < base
  position_le : position ≤ size
  size_le : size ≤ bytes.length

namespace Flat

open FiberServer.ByteArray (Error Reply Op)

def new (base : Nat) (base_pos : 0 < base) : Flat where
  base := base
  bytes := List.replicate base none
  size := 0
  position := 0
  base_pos := base_pos
  position_le := Nat.le_refl 0
  size_le := Nat.zero_le _

/-- The bytes that can be read or overwritten. -/
def contents (f : Flat) : List Byte := f.bytes.take f.size

/-- How many nodes `n` bytes at the cursor need in addition. -/
def lack (f : Flat) (n : Nat) : Nat :=
  (n - (f.bytes.length - f.position) + f.base - 1) / f.base

def room (f : Flat) (n : Nat) : List Byte :=
  f.bytes ++ List.replicate (f.lack n * f.base) none

theorem le_ceil_mul {n base : Nat} (h : 0 < base) : n ≤ (n + base - 1) / base * base := by
  have hdiv := Nat.div_add_mod (n + base - 1) base
  have hmod := Nat.mod_lt (n + base - 1) h
  rw [Nat.mul_comm] at hdiv
  omega

theorem length_room (f : Flat) (n : Nat) :
    (f.room n).length = f.bytes.length + f.lack n * f.base := by
  simp [room]

theorem le_room (f : Flat) (n : Nat) : f.position + n ≤ (f.room n).length := by
  have hceil : n - (f.bytes.length - f.position) ≤ f.lack n * f.base := le_ceil_mul f.base_pos
  have hposition := f.position_le
  have hsize := f.size_le
  rw [length_room]
  omega

def write (f : Flat) (buf : List Byte) : Flat :=
  { f with
    bytes := overwrite (f.room buf.length) f.position buf
    size := max f.size (f.position + buf.length)
    position := f.position + buf.length
    position_le := Nat.le_max_right ..
    size_le := by
      have hroom := f.le_room buf.length
      have hsize := f.size_le
      rw [length_overwrite hroom, length_room] at *
      omega }

def read (f : Flat) (n : Nat) : Flat × Reply :=
  if h : f.position + n ≤ f.size then
    ({ f with position := f.position + n, position_le := h }, .ok (slice f.bytes f.position n))
  else (f, .error .out_of_range)

def setPosition (f : Flat) (v : Nat) : Flat × Reply :=
  if h : v ≤ f.bytes.length then
    ({ f with
      size := max f.size v
      position := v
      position_le := Nat.le_max_right ..
      size_le := Nat.max_le.mpr ⟨f.size_le, h⟩ }, .ok [])
  else (f, .error .out_of_range)

def clear (f : Flat) : Flat :=
  { f with
    bytes := f.bytes.take f.base
    size := 0
    position := 0
    position_le := Nat.le_refl 0
    size_le := Nat.zero_le _ }

def apply (f : Flat) : Op → Flat × Reply
  | .write buf => (f.write buf, .ok [])
  | .read n => f.read n
  | .setPosition v => f.setPosition v
  | .clear => (f.clear, .ok [])

def run (f : Flat) : List Op → Flat × List Reply
  | [] => (f, [])
  | op :: ops =>
    let (g, reply) := f.apply op
    let (h, replies) := g.run ops
    (h, reply :: replies)

/-! ### The contents -/

theorem length_contents (f : Flat) : f.contents.length = f.size :=
  List.length_take_of_le f.size_le

/-- A write overwrites the contents at the cursor, and extends them. -/
theorem contents_write (f : Flat) (buf : List Byte) :
    (f.write buf).contents = overwrite f.contents f.position buf := by
  have hsize := f.size_le
  have hle : f.size ≤ (f.room buf.length).length := by
    rw [length_room]
    omega
  have htake : (f.room buf.length).take f.size = f.contents := List.take_append_of_le_length hsize
  rw [← htake]
  exact take_overwrite f.position_le hle

/-- A read that succeeds returns the contents at the cursor. -/
theorem contents_read (f : Flat) {n : Nat} (h : f.position + n ≤ f.size) :
    (f.read n).2 = .ok (slice f.contents f.position n) := by
  have hsplit : f.bytes = f.contents ++ f.bytes.drop f.size :=
    (List.take_append_drop f.size f.bytes).symm
  have hslice : slice f.bytes f.position n = slice f.contents f.position n := by
    rw [hsplit]
    exact slice_append_of_le _ (by rw [length_contents]; exact h)
  rw [read, dif_pos h, hslice]

end Flat

end FiberServer
