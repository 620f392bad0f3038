import FiberServer.Library.Blocks

/-!
# `ByteArray` and its nodes

The chain that starts at `m_root` is the list `nodes`; `m_cur` is the position of a
node in it, `none` for the null pointer.  A byte that nobody has written since its
`new char[]` is `none`.  Where the code would dereference a null node the call ends
with `nullNode`.

`addCapacity` counts the new nodes in floating point, which is exact below `2 ^ 53`
bytes; the model divides and rounds up.
-/

namespace FiberServer

open Blocks

abbrev Byte := Option UInt8

/-- `ByteArray::Node`. -/
structure Node where
  ptr : List Byte
  size : Nat
  deriving DecidableEq, Repr

/-- `new Node(s)`. -/
def Node.new (s : Nat) : Node := { ptr := List.replicate s none, size := s }

structure ByteArray where
  m_baseSize : Nat
  m_position : Nat
  m_capacity : Nat
  m_size : Nat
  nodes : List Node
  m_cur : Option Nat
  deriving DecidableEq, Repr

namespace ByteArray

inductive Error
  /-- `std::out_of_range` -/
  | out_of_range
  | nullNode
  deriving DecidableEq, Repr

/-- What a call gives back: the bytes it has read, or what it threw. -/
abbrev Reply := Except Error (List Byte)

def new (base_size : Nat) : ByteArray where
  m_baseSize := base_size
  m_position := 0
  m_capacity := base_size
  m_size := 0
  nodes := [Node.new base_size]
  m_cur := some 0

def getCapacity (s : ByteArray) : Nat := s.m_capacity - s.m_position

def getReadSize (s : ByteArray) : Nat := s.m_size - s.m_position

/-- `node->next`. -/
def next (s : ByteArray) (i : Nat) : Option Nat :=
  if i + 1 < s.nodes.length then some (i + 1) else none

/-- `*m_cur`, with its position. -/
def cur (s : ByteArray) : Except Error (Nat × Node) :=
  match s.m_cur with
  | none => .error .nullNode
  | some i =>
    match s.nodes[i]? with
    | none => .error .nullNode
    | some node => .ok (i, node)

def clear (s : ByteArray) : ByteArray :=
  { s with
    m_position := 0
    m_size := 0
    m_capacity := s.m_baseSize
    nodes := s.nodes.take 1
    m_cur := some 0 }

def addCapacity (s : ByteArray) (size : Nat) : ByteArray :=
  if size = 0 then s
  else
    let old_cap := s.getCapacity
    if size ≤ old_cap then s
    else
      let count := (size - old_cap + s.m_baseSize - 1) / s.m_baseSize
      { s with
        nodes := s.nodes ++ List.replicate count (Node.new s.m_baseSize)
        m_capacity := s.m_capacity + count * s.m_baseSize
        m_cur := if old_cap = 0 then
            -- `first`, the first of the new nodes
            if 0 < count then some s.nodes.length else none
          else s.m_cur }

/-! ### `write` and `read`

The two loops differ in the `memcpy` only.  The one of `write` takes its bytes off
the front of `buf`, the one of `read` adds to its end. -/

abbrev Copy := List Node → List Byte → Nat → Nat → Nat → List Node × List Byte

/-- `memcpy(m_cur->ptr + npos, buf + bpos, size)`. -/
def put : Copy := fun nodes buf i npos size =>
  (nodes[i]?.elim nodes fun node =>
      nodes.set i { node with ptr := overwrite node.ptr npos (buf.take size) },
    buf.drop size)

/-- `memcpy(buf + bpos, m_cur->ptr + npos, size)`. -/
def fetch : Copy := fun nodes buf i npos size =>
  (nodes, buf ++ (nodes[i]?.elim [] fun node => slice node.ptr npos size))

/-- `while(size > 0)`.  A node is visited once, so `fuel` is the number of nodes. -/
def copyLoop (copy : Copy) :
    Nat → ByteArray → List Byte → Nat → Nat → Nat → Except Error (ByteArray × List Byte)
  | 0, s, buf, _, _, size => if size = 0 then .ok (s, buf) else .error .nullNode
  | fuel + 1, s, buf, npos, ncap, size =>
    if size = 0 then .ok (s, buf)
    else do
      let (i, node) ← s.cur
      if size ≤ ncap then
        let (nodes, buf) := copy s.nodes buf i npos size
        return ({ s with
          nodes := nodes
          m_cur := if node.size = npos + size then s.next i else s.m_cur
          m_position := s.m_position + size }, buf)
      else
        let (nodes, buf) := copy s.nodes buf i npos ncap
        let s := { s with nodes := nodes, m_position := s.m_position + ncap, m_cur := s.next i }
        let (_, node) ← s.cur
        copyLoop copy fuel s buf 0 node.size (size - ncap)

/-- What `write` and `read` do from `m_position % m_baseSize` on. -/
def copyFrom (copy : Copy) (s : ByteArray) (buf : List Byte) (size : Nat) :
    Except Error (ByteArray × List Byte) := do
  let npos := s.m_position % s.m_baseSize
  let (_, node) ← s.cur
  copyLoop copy s.nodes.length s buf npos (node.size - npos) size

def write (s : ByteArray) (buf : List Byte) : ByteArray × Reply :=
  if buf.length = 0 then (s, .ok [])
  else
    let s := s.addCapacity buf.length
    match copyFrom put s buf buf.length with
    | .error e => (s, .error e)
    | .ok (s, _) =>
      (if s.m_size < s.m_position then { s with m_size := s.m_position } else s, .ok [])

def read (s : ByteArray) (size : Nat) : ByteArray × Reply :=
  if s.getReadSize < size then (s, .error .out_of_range)
  else
    match copyFrom fetch s [] size with
    | .error e => (s, .error e)
    | .ok (s, buf) => (s, .ok buf)

/-- The loop of `setPosition`: `m_cur` after it, and what is left of `v`. -/
def seek (nodes : List Node) : Nat → Nat → Nat → Except Error (Nat × Node × Nat)
  | 0, _, _ => .error .nullNode
  | fuel + 1, i, v =>
    match nodes[i]? with
    | none => .error .nullNode
    | some node => if node.size < v then seek nodes fuel (i + 1) (v - node.size) else .ok (i, node, v)

def setPosition (s : ByteArray) (v : Nat) : ByteArray × Reply :=
  if s.m_capacity < v then (s, .error .out_of_range)
  else
    let s := { s with m_position := v }
    let s := if s.m_size < s.m_position then { s with m_size := s.m_position } else s
    match seek s.nodes s.nodes.length 0 v with
    | .error e => (s, .error e)
    | .ok (i, node, v) => ({ s with m_cur := if v = node.size then s.next i else some i }, .ok [])

/-! ### Sequences of calls -/

inductive Op
  | write (buf : List Byte)
  | read (size : Nat)
  | setPosition (v : Nat)
  | clear
  deriving DecidableEq, Repr

def apply (s : ByteArray) : Op → ByteArray × Reply
  | .write buf => s.write buf
  | .read size => s.read size
  | .setPosition v => s.setPosition v
  | .clear => (s.clear, .ok [])

def run (s : ByteArray) : List Op → ByteArray × List Reply
  | [] => (s, [])
  | op :: ops =>
    let (t, reply) := s.apply op
    let (u, replies) := run t ops
    (u, reply :: replies)

end ByteArray

end FiberServer
