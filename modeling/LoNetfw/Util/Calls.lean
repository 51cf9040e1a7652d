import LoNetfw.Util.Typed
import LoNetfw.Util.ByteArrayInv

namespace LoNetfw.Util

open Basis

/-!
# `ByteArray` — sequences of calls and the representation invariant

Every public member of `ByteArray` that the development covers, as one type of calls with
its execution (`exec`), and the proof that any sequence of calls keeps the representation
invariant and never meets a fault, whether its calls return or throw.

* `Safe` — the triple "from a state with the invariant to one with the invariant, and no
  fault", with its composition rules;
* `exec_safe` — every call is safe when what it asks to store is below `2 ^ 24` bytes;
* `representation_invariant` — every state reached by any sequence of calls.
-/

/-! ### Typed values -/

/-- The kinds of values with a typed writer and reader. -/
inductive Kind
  | fInt8 | fUInt8 | fInt16 | fUInt16 | fInt32 | fUInt32 | fInt64 | fUInt64
  | int32 | uint32 | int64 | uint64
  | float | double
  | stringFInt16 | stringFInt32 | stringFInt64 | stringVInt
  deriving DecidableEq, Repr

/-- The values of a kind; a float or double is its bit pattern. -/
@[reducible] def Kind.Carrier : Kind → Type
  | .fInt8 => Int8
  | .fUInt8 => UInt8
  | .fInt16 => Int16
  | .fUInt16 => UInt16
  | .fInt32 | .int32 => Int32
  | .fUInt32 | .uint32 | .float => UInt32
  | .fInt64 | .int64 => Int64
  | .fUInt64 | .uint64 | .double => UInt64
  | .stringFInt16 | .stringFInt32 | .stringFInt64 | .stringVInt => List UInt8

/-- The number of string bytes a typed write stores after its length prefix. -/
def Kind.stringLength : (k : Kind) → k.Carrier → ℕ
  | .stringFInt16, s | .stringFInt32, s | .stringFInt64, s | .stringVInt, s => List.length s
  | .fInt8, _ | .fUInt8, _ | .fInt16, _ | .fUInt16, _ | .fInt32, _ | .fUInt32, _ | .fInt64, _
  | .fUInt64, _ | .int32, _ | .uint32, _ | .int64, _ | .uint64, _ | .float, _ | .double, _ => 0

/-- What the language leaves open during one call: the bytes of fresh nodes and the results
    of floating-point conversions out of range. -/
structure Unspecified where
  fill : ℕ → ℕ → UInt8
  undef32 : UInt32
  undef64 : UInt64
  deriving Inhabited

namespace ByteArray

/-- The typed writer of a kind. -/
def writeValue (host : Endian) (u : Unspecified) : (k : Kind) → k.Carrier → Op Unit
  | .fInt8, v => writeFInt8 host u.fill v
  | .fUInt8, v => writeFUInt8 host u.fill v
  | .fInt16, v => writeFInt16 host u.fill v
  | .fUInt16, v => writeFUInt16 host u.fill v
  | .fInt32, v => writeFInt32 host u.fill v
  | .fUInt32, v => writeFUInt32 host u.fill v
  | .fInt64, v => writeFInt64 host u.fill v
  | .fUInt64, v => writeFUInt64 host u.fill v
  | .int32, v => writeInt32 u.fill v
  | .uint32, v => writeUInt32 u.fill v
  | .int64, v => writeInt64 u.fill v
  | .uint64, v => writeUInt64 u.fill v
  | .float, v => writeFloat host u.fill v u.undef32
  | .double, v => writeDouble host u.fill v u.undef64
  | .stringFInt16, s => writeStringFInt16 host u.fill s
  | .stringFInt32, s => writeStringFInt32 host u.fill s
  | .stringFInt64, s => writeStringFInt64 host u.fill s
  | .stringVInt, s => writeStringVInt u.fill s

/-- The typed reader of a kind. -/
def readValue (host : Endian) : (k : Kind) → Op k.Carrier
  | .fInt8 => readFInt8 host
  | .fUInt8 => readFUInt8 host
  | .fInt16 => readFInt16 host
  | .fUInt16 => readFUInt16 host
  | .fInt32 => readFInt32 host
  | .fUInt32 => readFUInt32 host
  | .fInt64 => readFInt64 host
  | .fUInt64 => readFUInt64 host
  | .int32 => readInt32 host
  | .uint32 => readUInt32 host
  | .int64 => readInt64 host
  | .uint64 => readUInt64 host
  | .float => readFloat host
  | .double => readDouble host
  | .stringFInt16 => readStringFInt16 host
  | .stringFInt32 => readStringFInt32 host
  | .stringFInt64 => readStringFInt64 host
  | .stringVInt => readStringVInt host

end ByteArray

/-! ### Calls -/

/-- The calls that treat the buffer as untyped bytes. -/
inductive BufferCall
  | write (buf : List UInt8)
  | read (n : ℕ)
  | setPosition (pos : ℕ)
  | clear
  | size
  | getReadSize
  | toString
  | getReadBuffers (len : ℕ)
  deriving DecidableEq, Repr

/-- All calls. -/
inductive Call
  | buffer (c : BufferCall)
  | getWriteBuffers (len : ℕ)
  | setLittleEndian (isLittle : Bool)
  | writeString (data : List UInt8)
  | writeValue (k : Kind) (v : k.Carrier)
  | readValue (k : Kind)

/-- What a call returns.  Segments are given with the bytes they point to. -/
inductive Output
  | unit
  | nat (n : ℕ)
  | bytes (bs : List UInt8)
  | segments (size : ℕ) (bs : List UInt8)
  | value (k : Kind) (v : k.Carrier)

/-- The bytes a call asks to store at once. -/
def BufferCall.request : BufferCall → ℕ
  | .write buf => buf.length
  | .read _ | .setPosition _ | .clear | .size | .getReadSize | .toString | .getReadBuffers _ => 0

def Call.request : Call → ℕ
  | .buffer c => c.request
  | .getWriteBuffers len => len
  | .writeString data => data.length
  | .writeValue k v => k.stringLength v
  | .setLittleEndian _ | .readValue _ => 0

namespace ByteArray

/-- Execute an untyped call. -/
def execBuffer (u : Unspecified) : BufferCall → Op Output
  | .write buf => do
    write u.fill buf
    return .unit
  | .read n => do return .bytes (← read n)
  | .setPosition pos => do
    setPosition pos
    return .unit
  | .clear => do
    modify clear
    return .unit
  | .size => do return .nat (← get).size
  | .getReadSize => do return .nat (← get).getReadSize
  | .toString => do return .bytes (← liftExcept (← get).toString)
  | .getReadBuffers len => do
    let b ← get
    let (size, bufs) ← liftExcept (b.getReadBuffers len)
    return .segments size (bufs.flatMap (segment b.nodes))

/-- Execute a call. -/
def exec (host : Endian) (u : Unspecified) : Call → Op Output
  | .buffer c => execBuffer u c
  | .getWriteBuffers len => do
    let (size, bufs) ← getWriteBuffers u.fill len
    return .segments size (bufs.flatMap (segment (← get).nodes))
  | .setLittleEndian isLittle => do
    modify (setLittleEndian isLittle)
    return .unit
  | .writeString data => do
    writeString u.fill data
    return .unit
  | .writeValue k v => do
    writeValue host u k v
    return .unit
  | .readValue k => do return .value k (← readValue host k)

/-- The result of an operation and the state it leaves, also when it throws. -/
def outcome {α : Type} (op : Op α) (b : ByteArray) : Except Exn α × ByteArray :=
  match op b with
  | .ok a b' => (.ok a, b')
  | .error e b' => (.error e, b')

/-- What a caller sees of a call that returns. -/
theorem outcome_ok {α : Type} {op : Op α} {b b' : ByteArray} {a : α} (h : op b = .ok a b') :
    outcome op b = (.ok a, b') := by
  rw [outcome, h]

/-- What a caller sees of a call that throws. -/
theorem outcome_error {α : Type} {op : Op α} {b b' : ByteArray} {e : Exn}
    (h : op b = .error e b') : outcome op b = (.error e, b') := by
  rw [outcome, h]

/-- The results of a sequence of operations, one after the other, and the last state; an
    exception ends its call, not the sequence. -/
def runOps {α : Type} : ByteArray → List (Op α) → List (Except Exn α) × ByteArray
  | b, [] => ([], b)
  | b, op :: ops =>
    let (r, b') := outcome op b
    let (rs, b'') := runOps b' ops
    (r :: rs, b'')

/-! ### Safe operations -/

/-- From the invariant to the invariant, and no fault. -/
def Safe {α : Type} (op : Op α) : Prop :=
  ∀ b : ByteArray, b.Inv →
    (outcome op b).2.Inv ∧ (outcome op b).2.nodeSize = b.nodeSize ∧
      ∀ e, (outcome op b).1 = .error e → e.isFault = false

namespace Safe

variable {α β : Type}

/-- An operation that returns, and keeps the invariant, is safe. -/
theorem of_ok {op : Op α}
    (h : ∀ b : ByteArray, b.Inv → ∃ a b', op b = .ok a b' ∧ b'.Inv ∧ b'.nodeSize = b.nodeSize) :
    Safe op := by
  intro b hb
  obtain ⟨a, b', hop, hinv, hnode⟩ := h b hb
  rw [outcome_ok hop]
  exact ⟨hinv, hnode, fun e he => by cases he⟩

/-- Returning is safe. -/
theorem pure (a : α) : Safe (Pure.pure a) := of_ok (fun b hb => ⟨a, b, rfl, hb, rfl⟩)

/-- Two safe calls in turn are safe. -/
theorem bind {op : Op α} {f : α → Op β} (hop : Safe op) (hf : ∀ a, Safe (f a)) :
    Safe (op >>= f) := by
  intro b hb
  obtain ⟨hinv, hnode, hfault⟩ := hop b hb
  cases hres : op b with
  | ok a b' =>
    have hbind : (op >>= f) b = f a b' := by simp only [bind_run, hres]
    have hsame : outcome (op >>= f) b = outcome (f a) b' := by rw [outcome, hbind, outcome]
    rw [outcome_ok hres] at hinv hnode
    obtain ⟨hinv', hnode', hfault'⟩ := hf a b' hinv
    rw [hsame]
    exact ⟨hinv', hnode'.trans hnode, hfault'⟩
  -- the second call is not made
  | error e b' =>
    have hbind : (op >>= f) b = .error e b' := by simp only [bind_run, hres]
    rw [outcome_error hres] at hinv hnode hfault
    rw [outcome_error hbind]
    exact ⟨hinv, hnode, fun e' he' => hfault e' (by rw [Except.error.inj he'])⟩

/-- Looking at the object is safe. -/
theorem get : Safe (get : Op ByteArray) := of_ok (fun b hb => ⟨b, b, rfl, hb, rfl⟩)

/-- A change that keeps the invariant is safe. -/
theorem modify {f : ByteArray → ByteArray}
    (h : ∀ b : ByteArray, b.Inv → (f b).Inv ∧ (f b).nodeSize = b.nodeSize) :
    Safe (modify f : Op Unit) :=
  of_ok (fun b hb => ⟨(), f b, rfl, (h b hb).1, (h b hb).2⟩)

/-- Throwing an exception of the source is safe. -/
theorem throw {e : Exn} (h : e.isFault = false) : Safe (throw e : Op α) := by
  intro b hb
  refine ⟨hb, rfl, fun e' he' => ?_⟩
  have heq : e = e' := Except.error.inj he'
  exact heq ▸ h

/-- A pure computation that succeeds under the invariant is safe. -/
theorem liftExcept {f : ByteArray → Except Exn α} (h : ∀ b : ByteArray, b.Inv → ∃ a, f b = .ok a) :
    Safe (MonadState.get >>= fun b => liftExcept (f b)) :=
  of_ok (fun b hb => by
    obtain ⟨a, ha⟩ := h b hb
    refine ⟨a, b, ?_, hb, rfl⟩
    show ByteArray.liftExcept (f b) b = .ok a b
    rw [ha, liftExcept_ok])

/-- `write` is safe below 2²⁴ bytes. -/
theorem write (fill : ℕ → ℕ → UInt8) {buf : List UInt8} (h : buf.length < 2 ^ 24) :
    Safe (ByteArray.write fill buf) :=
  of_ok (fun b hb => by
    obtain ⟨b', _, hwrite, hinv, _, _, hnode, _⟩ := write_spec hb fill h
    exact ⟨(), b', hwrite, hinv, hnode⟩)

/-- `read` is safe. -/
theorem read (n : ℕ) : Safe (ByteArray.read n) := by
  intro b hb
  rcases le_or_gt n (b.dataSize - b.position) with hfit | hlong
  · obtain ⟨b', hread, hinv, _, hnode, _⟩ := read_spec hb hfit
    rw [outcome_ok hread]
    exact ⟨hinv, hnode, fun e he => by cases he⟩
  · rw [outcome_error (read_short hb hlong)]
    refine ⟨hb, rfl, fun e he => ?_⟩
    cases he
    rfl

/-- `setPosition` is safe. -/
theorem setPosition (pos : ℕ) : Safe (ByteArray.setPosition pos) := by
  intro b hb
  rcases le_or_gt pos b.totalSize with hfit | hpast
  · obtain ⟨b', hset, hinv, _, hnode, _⟩ := setPosition_spec hb pos hfit
    rw [outcome_ok hset]
    exact ⟨hinv, hnode, fun e he => by cases he⟩
  · rw [outcome_error (setPosition_past hpast)]
    refine ⟨hb, rfl, fun e he => ?_⟩
    cases he
    rfl

end Safe

/-! ### Typed operations are safe -/

variable (host : Endian) (u : Unspecified)

/-- A raw write is one `write`. -/
theorem writeRaw_safe {n : ℕ} (hn : n < 2 ^ 24) (data : BitVec (8 * n)) :
    Safe (writeRaw host u.fill n data) :=
  Safe.write _ (by rw [length_toMemory]; exact hn)

/-- A fixed-width write is a raw write of the swapped value. -/
theorem writeFixed_safe {n : ℕ} (hn : n < 2 ^ 24) (data : BitVec (8 * n)) :
    Safe (writeFixed host u.fill n data) :=
  Safe.get.bind (fun _ => writeRaw_safe host u hn _)

/-- The compressed writers: the local buffer suffices, and the bytes are few. -/
theorem writeVarint_safe {w k : ℕ} (n : BitVec w) (hw : w ≤ 7 * (k + 1)) (hk : k + 1 < 2 ^ 24) :
    Safe (do
      let buf ← liftExcept (Varint.encodeInto (k + 1) n)
      write u.fill buf) := by
  have hop : (do
      let buf ← liftExcept (Varint.encodeInto (k + 1) n)
      write u.fill buf) = write u.fill (Varint.encode n) := by
    rw [Varint.encodeInto_eq n hw]
    rfl
  have hlen := Varint.length_encode_le (n := n) (k := k) (Varint.toNat_lt_pow n hw)
  rw [hop]
  exact Safe.write _ (by omega)

/-- A varint fits its local array, and goes out in one `write`. -/
theorem writeUInt32_safe (data : UInt32) : Safe (writeUInt32 u.fill data) :=
  writeVarint_safe u (k := 4) data.toBitVec (by decide) (by decide)

/-- The 64-bit one likewise. -/
theorem writeUInt64_safe (data : UInt64) : Safe (writeUInt64 u.fill data) :=
  writeVarint_safe u (k := 9) data.toBitVec (by decide) (by decide)

/-- **Typed writers.** -/
theorem writeValue_safe (k : Kind) (v : k.Carrier) (h : k.stringLength v < 2 ^ 24) :
    Safe (writeValue host u k v) := by
  cases k
  case fInt8 | fUInt8 => exact writeRaw_safe host u (by decide) _
  case fInt16 | fUInt16 | fInt32 | fUInt32 | fInt64 | fUInt64 | float | double =>
    exact writeFixed_safe host u (by decide) _
  case int32 | uint32 => exact writeUInt32_safe u _
  case int64 | uint64 => exact writeUInt64_safe u _
  case stringFInt16 | stringFInt32 | stringFInt64 =>
    exact (writeFixed_safe host u (by decide) _).bind (fun _ => Safe.write _ h)
  case stringVInt => exact (writeUInt64_safe u _).bind (fun _ => Safe.write _ h)

/-- A raw read is one `read`. -/
theorem readRaw_safe (n : ℕ) : Safe (readRaw host n) :=
  (Safe.read n).bind (fun _ => Safe.pure _)

/-- A fixed-width read is a raw read, and the swap comes after it. -/
theorem readFixed_safe (n : ℕ) : Safe (readFixed host n) :=
  (readRaw_safe host n).bind (fun _ => Safe.get.bind (fun _ => Safe.pure _))

/-- One byte has no order. -/
theorem readFUInt8_safe : Safe (readFUInt8 host) := (readRaw_safe host 1).bind (fun _ => Safe.pure _)

/-- The loop of the compressed readers, over any list of shifts. -/
theorem readVarintLoop_safe (w : ℕ) (cnts : List ℕ) (data : BitVec w) :
    Safe (readVarintLoop host w cnts data) := by
  induction cnts generalizing data with
  | nil => exact Safe.pure data
  | cons cnt cnts ih =>
    apply (readFUInt8_safe host).bind
    intro tmp
    split
    · exact Safe.pure _
    · exact ih _

/-- The varint reader is its loop. -/
theorem readUInt64_safe : Safe (readUInt64 host) :=
  (readVarintLoop_safe host 64 _ _).bind (fun _ => Safe.pure _)

/-- The body of a string: `resize` may throw before `read` does. -/
theorem readStringBody_safe (len : ℕ) : Safe (readStringBody len) := by
  unfold readStringBody
  split
  · exact (Safe.throw rfl).bind (fun _ => Safe.read len)
  · exact (Safe.pure ()).bind (fun _ => Safe.read len)

/-- **Typed readers.** -/
theorem readValue_safe (k : Kind) : Safe (readValue host k) := by
  cases k
  case fInt8 | fUInt8 => exact (readRaw_safe host 1).bind (fun _ => Safe.pure _)
  case fInt16 | fUInt16 | fInt32 | fUInt32 | fInt64 | fUInt64 | float | double =>
    exact (readFixed_safe host _).bind (fun _ => Safe.pure _)
  case uint32 => exact (readVarintLoop_safe host 32 _ _).bind (fun _ => Safe.pure _)
  case int32 =>
    exact ((readVarintLoop_safe host 32 _ _).bind (fun _ => Safe.pure _)).bind
      (fun _ => Safe.pure _)
  case uint64 => exact readUInt64_safe host
  case int64 => exact (readUInt64_safe host).bind (fun _ => Safe.pure _)
  case stringFInt16 | stringFInt32 | stringFInt64 =>
    exact ((readFixed_safe host _).bind (fun _ => Safe.pure _)).bind
      (fun _ => readStringBody_safe _)
  case stringVInt => exact (readUInt64_safe host).bind (fun _ => readStringBody_safe _)

/-! ### Calls are safe -/

/-- Every call of the buffer part is safe when it asks for less than 2²⁴ bytes. -/
theorem execBuffer_safe (c : BufferCall) (h : c.request < 2 ^ 24) : Safe (execBuffer u c) := by
  -- a call is one operation and the wrapping of its result
  cases c with
  | write buf => exact (Safe.write _ h).bind (fun _ => Safe.pure _)
  | read n => exact (Safe.read n).bind (fun _ => Safe.pure _)
  | setPosition pos => exact (Safe.setPosition pos).bind (fun _ => Safe.pure _)
  | clear =>
    exact (Safe.modify (fun b hb => ⟨clear_inv hb, rfl⟩)).bind (fun _ => Safe.pure _)
  | size => exact Safe.get.bind (fun _ => Safe.pure _)
  | getReadSize => exact Safe.get.bind (fun _ => Safe.pure _)
  | toString =>
    exact (Safe.liftExcept (fun b hb => ⟨_, toString_spec hb⟩)).bind (fun _ => Safe.pure _)
  | getReadBuffers len =>
    apply Safe.of_ok
    intro b hb
    obtain ⟨bufs, hbufs, _⟩ := getReadBuffers_spec hb len
    refine ⟨.segments (min len (b.dataSize - b.position)) (bufs.flatMap (segment b.nodes)), b, ?_,
      hb, rfl⟩
    simp only [execBuffer, bind_run, get_run, hbufs, liftExcept_ok]
    rfl

/-- **Calls.** -/
theorem exec_safe (c : Call) (h : c.request < 2 ^ 24) : Safe (exec host u c) := by
  cases c with
  | buffer c => exact execBuffer_safe u c h
  | getWriteBuffers len =>
    have hsafe : Safe (getWriteBuffers u.fill len) := Safe.of_ok (fun b hb => by
      obtain ⟨b', _, bufs, hget, hinv, _, _, hnode, _⟩ := getWriteBuffers_spec hb u.fill h
      exact ⟨_, b', hget, hinv, hnode⟩)
    exact hsafe.bind (fun _ => Safe.get.bind (fun _ => Safe.pure _))
  | setLittleEndian isLittle =>
    exact (Safe.modify (fun b hb => ⟨setLittleEndian_inv hb isLittle, rfl⟩)).bind
      (fun _ => Safe.pure _)
  | writeString data => exact (Safe.write _ h).bind (fun _ => Safe.pure _)
  | writeValue k v => exact (writeValue_safe host u k v h).bind (fun _ => Safe.pure _)
  | readValue k => exact (readValue_safe host k).bind (fun _ => Safe.pure _)

/-- A sequence of safe operations keeps the invariant, and none of its results is a fault. -/
theorem runOps_safe {α : Type} {ops : List (Op α)} (hops : ∀ op ∈ ops, Safe op) {b : ByteArray}
    (hb : b.Inv) :
    (runOps b ops).2.Inv ∧ (runOps b ops).2.nodeSize = b.nodeSize ∧
      ∀ e, .error e ∈ (runOps b ops).1 → e.isFault = false := by
  induction ops generalizing b with
  | nil => exact ⟨hb, rfl, fun e he => absurd he (by simp [runOps])⟩
  | cons op ops ih =>
    obtain ⟨hinv, hnode, hfault⟩ := hops op (by simp) b hb
    obtain ⟨hinv', hnode', hfault'⟩ := ih (fun op hop => hops op (by simp [hop])) hinv
    refine ⟨hinv', hnode'.trans hnode, fun e he => ?_⟩
    simp only [runOps, List.mem_cons] at he
    rcases he with he | he
    · exact hfault e he.symm
    · exact hfault' e he

/-! ### The representation invariant of every reachable state -/

/-- What the members of a `ByteArray` of node size `ns` satisfy. -/
structure Represents (ns : ℕ) (b : ByteArray) : Prop where
  nodeSize : b.nodeSize = ns
  total : b.totalSize = b.nodes.length * ns
  count : b.nodes.length = b.totalSize / ns
  sizes : ∀ node ∈ b.nodes, node.size = ns ∧ node.data.length = ns
  position_le : b.position ≤ b.dataSize
  dataSize_le : b.dataSize ≤ b.totalSize
  cur : b.cur = if b.position = b.totalSize then none else some (b.position / ns)
  cur_lt : ∀ i, b.cur = some i → i < b.nodes.length
  /-- The two size differences do not wrap. -/
  readSize : b.getReadSize + b.position = b.dataSize
  remainSize : b.getRemainSize + b.position = b.totalSize

/-- A well-formed buffer represents its own abstraction. -/
theorem Inv.represents {b : ByteArray} (h : b.Inv) : Represents b.nodeSize b := by
  have hle := h.position_le.trans h.dataSize_le
  refine {
    nodeSize := rfl
    total := h.total
    count := h.nodes_length
    sizes := h.blocks
    position_le := h.position_le
    dataSize_le := h.dataSize_le
    cur := ?_
    cur_lt := ?_
    readSize := by rw [h.getReadSize_eq, Nat.sub_add_cancel h.position_le]
    remainSize := by rw [h.getRemainSize_eq, Nat.sub_add_cancel hle] }
  -- at the very end of the nodes there is no current one
  · by_cases hend : b.position = b.totalSize
    · rw [if_pos hend, h.cur_eq_none_iff]
      exact hend
    · rw [if_neg hend, h.cur_of_lt (by omega)]
  · intro i hi
    by_cases hend : b.position = b.totalSize
    · rw [h.cur_eq_none_iff.mpr hend] at hi
      exact absurd hi (by simp)
    · have hlt := h.div_lt (by omega)
      rw [h.cur_of_lt (by omega), Option.some.injEq] at hi
      omega

/-- **Representation invariant.** After any sequence of calls on a fresh `ByteArray`, each
    storing fewer than `2 ^ 24` bytes, the members are in order, and no call of the sequence
    dereferenced a null node or copied out of bounds. -/
theorem representation_invariant (host : Endian) (ns : ℕ) (hns : 1 ≤ ns) (fill : ℕ → UInt8)
    (calls : List (Unspecified × Call)) (hreq : ∀ c ∈ calls, c.2.request < 2 ^ 24) :
    Represents ns (runOps (new ns fill) (calls.map (fun c => exec host c.1 c.2))).2 ∧
      ∀ e, .error e ∈ (runOps (new ns fill) (calls.map (fun c => exec host c.1 c.2))).1 →
        e.isFault = false := by
  have hsafe : ∀ op ∈ calls.map (fun c => exec host c.1 c.2), Safe op := by
    intro op hop
    obtain ⟨c, hc, rfl⟩ := List.mem_map.mp hop
    exact exec_safe host c.1 c.2 (hreq c hc)
  obtain ⟨hinv, hnode, hfault⟩ := runOps_safe hsafe (new_inv hns fill)
  refine ⟨?_, hfault⟩
  have h := hinv.represents
  rwa [hnode] at h

/-- Nodes of two bytes: a write up to the capacity, a read there that throws, and a
    compressed value of two bytes in new nodes. -/
theorem representation_invariant_two_bytes :
    Represents 2 (runOps (new 2 (fun _ => 0))
      (([(default, .buffer (.write [1, 2])), (default, .buffer (.read 1)),
        (default, .writeValue .uint32 300)] : List (Unspecified × Call)).map
          (fun c => exec .little c.1 c.2))).2 :=
  (representation_invariant .little 2 (by decide) (fun _ => 0) _ (by decide)).1

end ByteArray

end LoNetfw.Util
