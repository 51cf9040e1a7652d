import LoNetfw.Basis.Bytes
import LoNetfw.Basis.Word64
import LoNetfw.Basis.Binary32

namespace LoNetfw.Util

open Basis

/-!
# `ByteArray` — the node chain and its primitive operations

The buffer of `util/serializer.cpp`: a singly linked chain of nodes of one size, a cursor
`m_cur` into it and the counters `m_total_size`, `m_data_size`, `m_position`.

* The chain from `m_root` is the list `nodes`; a node pointer is the index of the node in
  that list, and the null pointer is `none`.
* `new char[s]` leaves its bytes unspecified, so every operation that allocates takes the
  bytes of the fresh nodes as an argument `fill`.
* Dereferencing a null node and copying past the end of a node (or of a local buffer) are errors of their own
  (`Exn.nullNode`, `Exn.outOfBounds`), so that "never happens" can be stated about them.
* Sizes are natural numbers: the nodes are allocated memory, so their total stays below
  `2 ^ 64`.  Subtraction of sizes is `wsub`, which wraps below zero as `size_t` does.
* `ceil(size * 1.0f / m_node_size)` is computed with `Basis.div32`.

The loops recurse on a fuel that bounds the number of nodes; running out of it is the
error `Exn.noFuel`.
-/

/-- The byte orders `LON_LITTLE_ENDIAN` and `LON_BIG_ENDIAN`. -/
inductive Endian
  | little
  | big
  deriving DecidableEq, Repr

/-- What an operation can end with instead of a value: an exception of the source, or one
    of the faults that must not happen. -/
inductive Exn
  | runtimeError (what : String)
  | lengthError
  | nullNode
  | outOfBounds
  | noFuel
  deriving DecidableEq, Repr

/-- The faults: outcomes that are undefined behaviour (or a diverging loop) and not an
    exception. -/
def Exn.isFault : Exn → Bool
  | .nullNode | .outOfBounds | .noFuel => true
  | .runtimeError _ | .lengthError => false

structure ByteArrayNode where
  data : List UInt8
  size : ℕ
  deriving DecidableEq, Repr

/-- `ByteArrayNode(size_t s)`; the bytes of `new char[s]` are those of `fill`. -/
def ByteArrayNode.new (s : ℕ) (fill : ℕ → UInt8) : ByteArrayNode where
  data := (List.range s).map fill
  size := s

/-- `memcpy` out of a node: `n` bytes from offset `pos`. -/
def ByteArrayNode.load (node : ByteArrayNode) (pos n : ℕ) : Except Exn (List UInt8) :=
  if pos + n ≤ node.data.length then .ok (slice node.data pos n) else .error .outOfBounds

/-- `memcpy` into a node at offset `pos`. -/
def ByteArrayNode.store (node : ByteArrayNode) (pos : ℕ) (bs : List UInt8) :
    Except Exn ByteArrayNode :=
  if pos + bs.length ≤ node.data.length then
    .ok { node with data := overlay node.data pos bs }
  else .error .outOfBounds

structure ByteArray where
  /-- The chain from `m_root`. -/
  nodes : List ByteArrayNode
  cur : Option ℕ
  nodeSize : ℕ
  totalSize : ℕ
  dataSize : ℕ
  position : ℕ
  baEndian : Endian
  deriving DecidableEq, Repr

/-- An operation on a `ByteArray`; one that throws keeps the changes made before. -/
abbrev Op (α : Type) := EStateM Exn ByteArray α

/-- `iovec`: the base pointer is a node and an offset in it. -/
structure Iovec where
  node : ℕ
  offset : ℕ
  len : ℕ
  deriving DecidableEq, Repr

/-! ### Node pointers -/

/-- Dereference a node pointer. -/
def deref (nodes : List ByteArrayNode) : Option ℕ → Except Exn (ℕ × ByteArrayNode)
  | none => .error .nullNode
  | some i =>
    match nodes[i]? with
    | none => .error .nullNode
    | some node => .ok (i, node)

/-- `node->next` for the node at index `i`. -/
def nextNode (nodes : List ByteArrayNode) (i : ℕ) : Option ℕ :=
  if i + 1 < nodes.length then some (i + 1) else none

/-- The bytes an `iovec` points to. -/
def segment (nodes : List ByteArrayNode) (v : Iovec) : List UInt8 :=
  match nodes[v.node]? with
  | none => []
  | some node => slice node.data v.offset v.len

namespace ByteArray

/-- `ByteArray(size_t node_size)`. -/
def new (nodeSize : ℕ) (fill : ℕ → UInt8) : ByteArray where
  nodes := [ByteArrayNode.new nodeSize fill]
  cur := some 0
  nodeSize := nodeSize
  totalSize := nodeSize
  dataSize := 0
  position := 0
  baEndian := .big

def getReadSize (b : ByteArray) : ℕ := wsub b.dataSize b.position

def getRemainSize (b : ByteArray) : ℕ := wsub b.totalSize b.position

def size (b : ByteArray) : ℕ := b.dataSize

def setLittleEndian (isLittle : Bool) (b : ByteArray) : ByteArray :=
  { b with baEndian := if isLittle then .little else .big }

def clear (b : ByteArray) : ByteArray :=
  { b with
    position := 0
    dataSize := 0
    totalSize := b.nodeSize
    -- every node but the root is deleted
    nodes := b.nodes.take 1
    cur := some 0 }

/-! ### Growing the chain -/

/-- `ceil(size * 1.0f / m_node_size)`. -/
def newNodeCount (size nodeSize : ℕ) : ℕ := ⌈div32 size nodeSize⌉₊

/-- `addTotalSize`; `fill i` are the bytes of the `i`-th fresh node. -/
def addTotalSize (fill : ℕ → ℕ → UInt8) (size : ℕ) (b : ByteArray) : ByteArray :=
  if size = 0 then b
  else
    let oldRemainSize := b.getRemainSize
    if oldRemainSize ≥ size then b
    else
      let count := newNodeCount (size - oldRemainSize) b.nodeSize
      { b with
        nodes := b.nodes ++ (List.range count).map (fun i => ByteArrayNode.new b.nodeSize (fill i))
        totalSize := b.totalSize + count * b.nodeSize
        -- the cursor was null: it moves to the first new node
        cur := if oldRemainSize = 0 then (if 0 < count then some b.nodes.length else none)
               else b.cur }

/-! ### The loops over the nodes -/

/-- The loop of `write`: copies `buf` into the nodes from `cur` on and returns the nodes,
    the cursor and the position after it. -/
def writeLoop : ℕ → List ByteArrayNode → Option ℕ → ℕ → ℕ → ℕ → List UInt8 →
    Except Exn (List ByteArrayNode × Option ℕ × ℕ)
  | 0, nodes, cur, _, _, position, buf =>
    if buf = [] then .ok (nodes, cur, position) else .error .noFuel
  | fuel + 1, nodes, cur, nodePos, nodeRemain, position, buf =>
    if buf = [] then .ok (nodes, cur, position)
    else if nodeRemain ≥ buf.length then do
      let (i, node) ← deref nodes cur
      let node' ← node.store nodePos buf
      -- the last piece: the cursor moves on when it ends on a node boundary
      let cur' := if node.size = nodePos + buf.length then nextNode nodes i else cur
      return (nodes.set i node', cur', position + buf.length)
    else do
      let (i, node) ← deref nodes cur
      -- fill up this node and go on with the next one
      let node' ← node.store nodePos (buf.take nodeRemain)
      let nodes' := nodes.set i node'
      let cur' := nextNode nodes i
      let (_, after) ← deref nodes' cur'
      writeLoop fuel nodes' cur' 0 after.size (position + nodeRemain) (buf.drop nodeRemain)

/-- The loop of both `read` overloads: the bytes read, and the cursor and the position
    after it (the overload with a position keeps these in locals). -/
def readLoop (nodes : List ByteArrayNode) : ℕ → Option ℕ → ℕ → ℕ → ℕ → ℕ →
    Except Exn (List UInt8 × Option ℕ × ℕ)
  | 0, cur, _, _, position, size =>
    if size = 0 then .ok ([], cur, position) else .error .noFuel
  | fuel + 1, cur, nodePos, nodeRemain, position, size =>
    if size = 0 then .ok ([], cur, position)
    else if size ≤ nodeRemain then do
      let (i, node) ← deref nodes cur
      let chunk ← node.load nodePos size
      let cur' := if node.size = nodePos + size then nextNode nodes i else cur
      return (chunk, cur', position + size)
    else do
      let (i, node) ← deref nodes cur
      let chunk ← node.load nodePos nodeRemain
      let cur' := nextNode nodes i
      -- `m_cur->size` of the next node: null past the last one
      let (_, after) ← deref nodes cur'
      let (rest, c, p) ← readLoop nodes fuel cur' 0 after.size (position + nodeRemain)
        (size - nodeRemain)
      return (chunk ++ rest, c, p)

/-- The loop of `getReadBuffers` and `getWriteBuffers`: the segments of `len` bytes from
    offset `nodePos` of node `cur` on. -/
def bufferLoop (nodes : List ByteArrayNode) : ℕ → Option ℕ → ℕ → ℕ → ℕ →
    Except Exn (List Iovec)
  | 0, _, _, _, len => if len = 0 then .ok [] else .error .noFuel
  | fuel + 1, cur, nodePos, nodeRemain, len =>
    if len = 0 then .ok []
    else if nodeRemain ≥ len then do
      let (i, _) ← deref nodes cur
      return [⟨i, nodePos, len⟩]
    else do
      let (i, _) ← deref nodes cur
      let cur' := nextNode nodes i
      let (_, after) ← deref nodes cur'
      let rest ← bufferLoop nodes fuel cur' 0 after.size (len - nodeRemain)
      return ⟨i, nodePos, nodeRemain⟩ :: rest

/-- The loop of `setPosition`: walks from `cur` while `pos` lies past the current node. -/
def seekLoop (nodes : List ByteArrayNode) : ℕ → Option ℕ → ℕ → Except Exn (Option ℕ)
  | 0, _, _ => .error .noFuel
  | fuel + 1, cur, pos => do
    let (i, node) ← deref nodes cur
    if pos > node.size then
      let cur' := nextNode nodes i
      let (_, after) ← deref nodes cur'
      -- the size of the next node is subtracted, not of the one that was left
      seekLoop nodes fuel cur' (wsub pos after.size)
    else if pos = node.size then return nextNode nodes i
    else return cur

/-! ### The operations -/

/-- Run a pure computation inside an operation. -/
def liftExcept {α : Type} : Except Exn α → Op α
  | .ok a => pure a
  | .error e => throw e

/-- `write(buf, size)` with `size` the length of `buf`. -/
def write (fill : ℕ → ℕ → UInt8) (buf : List UInt8) : Op Unit := do
  if buf = [] then return ()
  modify (addTotalSize fill buf.length)
  let b ← get
  let nodePos := b.position % b.nodeSize
  let (_, node) ← liftExcept (deref b.nodes b.cur)
  let (nodes, cur, position) ← liftExcept
    (writeLoop b.nodes.length b.nodes b.cur nodePos (wsub node.size nodePos) b.position buf)
  set { b with
    nodes := nodes
    cur := cur
    position := position
    dataSize := if position > b.dataSize then position else b.dataSize }

def readRangeError (b : ByteArray) : Exn :=
  .runtimeError ("ByteArray::read: read out of range, m_data_size: " ++ toString b.dataSize ++
    ", m_position: " ++ toString b.position)

/-- `read(buf, size)`: the bytes stored to `buf`. -/
def read (size : ℕ) : Op (List UInt8) := do
  if size = 0 then return []
  let b ← get
  if size > b.getReadSize then throw b.readRangeError
  let nodePos := b.position % b.nodeSize
  let (_, node) ← liftExcept (deref b.nodes b.cur)
  let (bytes, cur, position) ← liftExcept
    (readLoop b.nodes b.nodes.length b.cur nodePos (wsub node.size nodePos) b.position size)
  set { b with cur := cur, position := position }
  return bytes

/-- `read(buf, size, position) const`; it starts at `m_cur`, not at `position`. -/
def readAt (b : ByteArray) (size position : ℕ) : Except Exn (List UInt8) := do
  if size = 0 then return []
  if size > wsub b.dataSize position then throw b.readRangeError
  let nodePos := position % b.nodeSize
  let (_, node) ← deref b.nodes b.cur
  let (bytes, _, _) ←
    readLoop b.nodes b.nodes.length b.cur nodePos (wsub node.size nodePos) position size
  return bytes

def positionRangeError (b : ByteArray) (pos : ℕ) : Exn :=
  .runtimeError ("ByteArray::setPosition: pos out of range, m_data_size: " ++
    toString b.dataSize ++ ", pos: " ++ toString pos)

/-- `setPosition(pos)`. -/
def setPosition (pos : ℕ) : Op Unit := do
  let b ← get
  if pos > b.totalSize then throw (b.positionRangeError pos)
  let cur ← liftExcept (seekLoop b.nodes b.nodes.length (some 0) pos)
  set { b with
    position := pos
    cur := cur
    dataSize := if pos > b.dataSize then pos else b.dataSize }

/-- `toString()`: the string is as long as the stored bytes it copies, so `resize` succeeds. -/
def toString (b : ByteArray) : Except Exn (List UInt8) := do
  let len := wsub b.dataSize b.position
  if len = 0 then return []
  readAt b len b.position

/-- `getReadBuffers(bufs, len)`: the returned size and the appended segments. -/
def getReadBuffers (b : ByteArray) (len : ℕ) : Except Exn (ℕ × List Iovec) := do
  let readSize := wsub b.dataSize b.position
  let len := if len > readSize then readSize else len
  if len = 0 then return (0, [])
  let nodePos := b.position % b.nodeSize
  let (_, node) ← deref b.nodes b.cur
  let bufs ← bufferLoop b.nodes b.nodes.length b.cur nodePos (wsub node.size nodePos) len
  return (len, bufs)

/-- `count` times `cur = cur->next`. -/
def skipLoop (nodes : List ByteArrayNode) : ℕ → Option ℕ → Except Exn (Option ℕ)
  | 0, cur => .ok cur
  | count + 1, cur => do
    let (i, _) ← deref nodes cur
    skipLoop nodes count (nextNode nodes i)

/-- `getReadBuffers(bufs, len, position)`; the first remainder is that of `m_cur`. -/
def getReadBuffersAt (b : ByteArray) (len position : ℕ) : Except Exn (ℕ × List Iovec) := do
  let readSize := wsub b.dataSize position
  let len := if len > readSize then readSize else len
  if len = 0 then return (0, [])
  let nodePos := position % b.nodeSize
  let (_, node) ← deref b.nodes b.cur
  let nodeRemain := wsub node.size nodePos
  let cur ← skipLoop b.nodes (position / b.nodeSize) (some 0)
  let bufs ← bufferLoop b.nodes b.nodes.length cur nodePos nodeRemain len
  return (len, bufs)

/-- `getWriteBuffers(bufs, len)`: the returned size and the appended segments. -/
def getWriteBuffers (fill : ℕ → ℕ → UInt8) (len : ℕ) : Op (ℕ × List Iovec) := do
  if len = 0 then return (0, [])
  modify (addTotalSize fill len)
  let b ← get
  let nodePos := b.position % b.nodeSize
  let (_, node) ← liftExcept (deref b.nodes b.cur)
  let bufs ← liftExcept
    (bufferLoop b.nodes b.nodes.length b.cur nodePos (wsub node.size nodePos) len)
  return (len, bufs)

end ByteArray

end LoNetfw.Util
