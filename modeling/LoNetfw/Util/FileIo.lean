import LoNetfw.Util.Growth
import Mathlib.Algebra.Order.Floor.Div

namespace LoNetfw.Util

open Basis

/-!
# `ByteArray` — files

`writeToFile` and `readFromFile`.  A file is the list of its bytes, and whether it can be opened is
an argument.  An input stream sets `eof` exactly when a read asks for more than is left.

* `writeToFile_iff` — in which reachable states the file gets the unread bytes.  Each round writes
  at most `m_node_size` bytes minus the offset in the node, and then goes to the next node; with
  an offset and fewer unread bytes than one node it leaves the node too early;
* `Extended` — storing bytes with no more nodes than they need; it composes (`Extended.trans`);
* `writeChunks_extends`, `readFromFile_extends` — chunks, and files read node by node, are stored
  in this way;
* `chunking_iff` — so both are one `write`, exactly when that adds as few nodes.
-/

namespace ByteArray

/-! ### The operations -/

/-- The loop of `writeToFile`: the bytes passed to the stream, in order. -/
def writeToFileLoop (nodes : List ByteArrayNode) (nodeSize : ℕ) :
    ℕ → Option ℕ → ℕ → ℕ → Except Exn (List UInt8)
  | 0, _, _, readSize => if readSize = 0 then .ok [] else .error .noFuel
  | fuel + 1, cur, pos, readSize =>
    if readSize = 0 then .ok []
    else do
      let nodePos := pos % nodeSize
      -- the difference of two `size_t`; as an `int64_t` it may be negative
      let len : ℤ := ((if readSize > nodeSize then nodeSize else readSize : ℕ) : ℤ) - nodePos
      let (i, node) ← deref nodes cur
      -- a stream cannot take a negative number of bytes
      if len < 0 then throw .outOfBounds
      let chunk ← node.load nodePos len.toNat
      let rest ← writeToFileLoop nodes nodeSize fuel (nextNode nodes i) (pos + len.toNat)
        (readSize - len.toNat)
      return chunk ++ rest

/-- `writeToFile(path)`: the returned value and the contents of the file. -/
def writeToFile (opens : Bool) (path : String) : Op (Bool × List UInt8) := do
  if !opens then
    throw (.runtimeError ("ByteArray::writeToFile: open file failed, path: " ++ path))
  let b ← get
  let file ← liftExcept
    (writeToFileLoop b.nodes b.nodeSize (b.nodes.length + 1) b.cur b.position b.getReadSize)
  return (true, file)

/-- The loop of `readFromFile` on the rest of the file; the `i`-th round from the end allocates
    with the bytes `fills i`. -/
def readFromFileLoop (fills : ℕ → ℕ → ℕ → UInt8) (nodeSize : ℕ) : ℕ → List UInt8 → Op Unit
  | 0, _ => throw .noFuel
  | fuel + 1, rest => do
    -- `in.gcount()` bytes: a whole node, or what is left
    write (fills fuel) (rest.take nodeSize)
    if rest.length < nodeSize then return ()
    else readFromFileLoop fills nodeSize fuel (rest.drop nodeSize)

/-- `readFromFile(path)`; `file` is what can be read at `path`, if it can be opened. -/
def readFromFile (fills : ℕ → ℕ → ℕ → UInt8) (file : Option (List UInt8)) (path : String) :
    Op Bool :=
  match file with
  | none => throw (.runtimeError ("ByteArray::readFromFile: open file failed, path: " ++ path))
  | some bytes => do
    let b ← get
    readFromFileLoop fills b.nodeSize (bytes.length + 1) bytes
    return true

variable {b : ByteArray} {ns : ℕ}

/-! ### Writing to a file -/

/-- What `deref` fails with is a fault, not an exception. -/
theorem deref_fault {nodes : List ByteArrayNode} {cur : Option ℕ} {e : Exn}
    (h : deref nodes cur = .error e) : e.isFault = true := by
  cases cur with
  | none =>
    cases h
    rfl
  | some i =>
    rw [deref] at h
    split at h
    · cases h
      rfl
    · exact absurd h (by simp)

/-- A copy past the end of a node is a fault. -/
theorem load_fault {node : ByteArrayNode} {pos n : ℕ} {e : Exn} (h : node.load pos n = .error e) :
    e.isFault = true := by
  rw [ByteArrayNode.load] at h
  split at h
  · exact absurd h (by simp)
  · cases h
    rfl

/-- From the start of a node, or with a node's worth of bytes left, the loop writes them all. -/
theorem writeToFileLoop_eq {nodes : List ByteArrayNode} (h : Blocks ns nodes) (hns : 0 < ns) :
    ∀ (fuel q r n : ℕ), r < ns → q < nodes.length → 0 < n → (r = 0 ∨ ns ≤ n) →
      q * ns + r + n ≤ nodes.length * ns → nodes.length ≤ fuel + q →
      writeToFileLoop nodes ns fuel (some q) (q * ns + r) n
        = .ok (slice (contents nodes) (q * ns + r) n) := by
  intro fuel
  induction fuel with
  | zero => intro q r n _ hq _ _ _ hfuel; omega
  | succ fuel ih =>
    intro q r n hr hq hpos hregime hcap hfuel
    have hmod : (q * ns + r) % ns = r := by
      rw [Nat.mul_comm, Nat.mul_add_mod, Nat.mod_eq_of_lt hr]
    -- in both regimes the round takes what is left of the node, or of the bytes
    obtain ⟨k, hk, hlen⟩ : ∃ k, k = min n (ns - r) ∧
        ((if n > ns then ns else n : ℕ) : ℤ) - (r : ℤ) = k := by
      refine ⟨_, rfl, ?_⟩
      split_ifs <;> omega
    have hload := load_eq h hq (show r + k ≤ ns by omega)
    rw [writeToFileLoop, if_neg hpos.ne', hmod, deref_some hq]
    simp only [bind, Except.bind, hlen, Int.toNat_natCast, hload, pure, Except.pure]
    rw [if_neg (by omega)]
    by_cases hlast : n ≤ ns - r
    · -- the last round
      have hkn : k = n := by omega
      have hdone : writeToFileLoop nodes ns fuel (nextNode nodes q) (q * ns + r + n) 0 = .ok [] := by
        cases fuel <;> rfl
      rw [hkn, Nat.sub_self, hdone]
      simp only [List.append_nil]
    · obtain ⟨hq', hnext⟩ := next_block (n := n) hr (by omega) hcap
      have hkn : k = ns - r := by omega
      have hrest := ih (q + 1) 0 (n - (ns - r)) hns hq' (by omega) (.inl rfl)
        (by rw [← hnext]; omega) (by omega)
      rw [hkn, nextNode_of_lt hq', hnext, hrest]
      simp only
      rw [← hnext, slice_append, Nat.add_sub_cancel' (show ns - r ≤ n by omega)]

/-- With an offset and fewer bytes left than one node, the loop ends with a fault: it writes at
    most the bytes that exceed the offset, and in the next round the offset exceeds the bytes. -/
theorem writeToFileLoop_fault (nodes : List ByteArrayNode) :
    ∀ (fuel : ℕ) (cur : Option ℕ) (pos n : ℕ), pos % ns ≠ 0 → 0 < n → n < ns →
      ∃ e, writeToFileLoop nodes ns fuel cur pos n = .error e ∧ e.isFault = true := by
  intro fuel
  induction fuel with
  | zero =>
    intro cur pos n _ hpos _
    exact ⟨.noFuel, by rw [writeToFileLoop, if_neg hpos.ne'], rfl⟩
  | succ fuel ih =>
    intro cur pos n hoff hpos hlt
    rw [writeToFileLoop, if_neg hpos.ne', if_neg (by omega)]
    cases hderef : deref nodes cur with
    | error e => exact ⟨e, rfl, deref_fault hderef⟩
    | ok p =>
      simp only [bind, Except.bind, pure, Except.pure]
      by_cases hneg : (n : ℤ) - (pos % ns : ℕ) < 0
      · rw [if_pos hneg]
        exact ⟨.outOfBounds, rfl, rfl⟩
      · rw [if_neg hneg]
        cases hload : p.2.load (pos % ns) ((n : ℤ) - (pos % ns : ℕ)).toNat with
        | error e => exact ⟨e, rfl, load_fault hload⟩
        | ok chunk =>
          -- the position is now `n` bytes behind the start of the node, and the offset is left
          have hlen : ((n : ℤ) - (pos % ns : ℕ)).toNat = n - pos % ns := by omega
          have hpos' : (pos + (n - pos % ns)) % ns = n := by
            have hsplit : pos + (n - pos % ns) = ns * (pos / ns) + n := by
              have := Nat.div_add_mod pos ns
              omega
            rw [hsplit, Nat.mul_add_mod, Nat.mod_eq_of_lt hlt]
          have hleft : n - (n - pos % ns) = pos % ns := by omega
          obtain ⟨e, hrest, he⟩ := ih (nextNode nodes p.1) (pos + (n - pos % ns)) (pos % ns)
            (by rw [hpos']; exact hpos.ne') (Nat.pos_of_ne_zero hoff)
            (Nat.mod_lt _ (Nat.zero_lt_of_lt hlt))
          rw [hlen, hleft, hrest]
          exact ⟨e, rfl, he⟩

/-- **`writeToFile`.**  In every reachable state it writes exactly the unread bytes and leaves the
    buffer as it is, exactly when the cursor is at the start of a node, nothing is unread, or as
    many bytes as a node holds are. -/
theorem writeToFile_iff {host : Endian} (hns : 1 ≤ ns) (hb : Reachable host ns b) (path : String) :
    writeToFile true path b = .ok (true, slice b.mem b.position (b.dataSize - b.position)) b ↔
      b.position % ns = 0 ∨ b.position = b.dataSize ∨ ns ≤ b.dataSize - b.position := by
  obtain ⟨h, rfl⟩ := hb.inv hns
  have hle := h.position_le
  have hdata := h.dataSize_le
  -- the file gets what the loop has written
  have hrun : ∀ r, writeToFileLoop b.nodes b.nodeSize (b.nodes.length + 1) b.cur b.position
      (b.dataSize - b.position) = r →
      writeToFile true path b = (liftExcept r >>= fun file => pure (true, file)) b := by
    rintro r rfl
    rw [← h.getReadSize_eq]
    rfl
  by_cases hend : b.position = b.dataSize
  · refine iff_of_true ?_ (.inr (.inl hend))
    have hloop : writeToFileLoop b.nodes b.nodeSize (b.nodes.length + 1) b.cur b.position
        (b.dataSize - b.position) = .ok [] := by
      rw [hend, Nat.sub_self]
      rfl
    rw [hrun _ hloop, hend, Nat.sub_self, slice_zero]
    rfl
  · have hlt : b.position < b.totalSize := by omega
    -- the first chunk ends at a node's end or is a whole node's length; otherwise the loop runs
    -- into a fault
    by_cases hregime : b.position % b.nodeSize = 0 ∨ b.nodeSize ≤ b.dataSize - b.position
    · have hloop := writeToFileLoop_eq h.blocks h.nodeSize_pos (b.nodes.length + 1)
        (b.position / b.nodeSize) (b.position % b.nodeSize) (b.dataSize - b.position)
        (Nat.mod_lt _ h.nodeSize_pos) (h.div_lt hlt) (by omega) hregime
        (by rw [Inv.position_split, ← h.total]; omega)
        (Nat.le_add_right_of_le (Nat.le_succ _))
      rw [Inv.position_split, ← h.cur_of_lt hlt] at hloop
      refine iff_of_true ?_ (hregime.imp_right .inr)
      rw [hrun _ hloop]
      rfl
    · rw [not_or, Nat.not_le] at hregime
      obtain ⟨e, hloop, -⟩ := writeToFileLoop_fault b.nodes (b.nodes.length + 1) b.cur b.position
        (b.dataSize - b.position) hregime.1 (by omega) hregime.2
      refine iff_of_false ?_ (by omega)
      rw [hrun _ hloop]
      exact nofun

/-- Three bytes, the cursor behind the first. -/
def threeBytes : ByteArray where
  nodes := [⟨[1, 2, 3, 0], 4⟩]
  cur := some 0
  nodeSize := 4
  totalSize := 4
  dataSize := 3
  position := 1
  baEndian := .big

/-- The sample buffer is a run's. -/
theorem threeBytes_reachable : Reachable .little 4 threeBytes := by
  have hnew : Reachable .little 4 (new 4 fun _ => 0) := .new _
  have hwritten := hnew.small (by decide) default (.buffer (.write [1, 2, 3])) (by decide)
  exact hwritten.small (by decide) default (.buffer (.setPosition 1)) (by decide)

/-- Of the two unread bytes one is written, and then the null pointer behind the last node is
    dereferenced. -/
theorem writeToFile_nextNode : Reachable .little 4 threeBytes ∧
    writeToFile true "out" threeBytes = .error .nullNode threeBytes ∧
    ¬ writeToFile true "out" threeBytes = .ok (true, slice threeBytes.mem 1 2) threeBytes := by
  have hfault : writeToFile true "out" threeBytes = .error .nullNode threeBytes := rfl
  refine ⟨threeBytes_reachable, hfault, ?_⟩
  rw [hfault]
  exact nofun

/-- The sample buffer is a run's with the cursor at its start too. -/
theorem rewound_reachable : Reachable .little 4 { threeBytes with position := 0 } :=
  threeBytes_reachable.small (by decide) default (.buffer (.setPosition 0)) (by decide)

/-- Three bytes in one node are written out. -/
theorem writeToFile_iff_rewound :
    writeToFile true "out" { threeBytes with position := 0 }
      = .ok (true, [1, 2, 3]) { threeBytes with position := 0 } :=
  (writeToFile_iff (by decide) rewound_reachable "out").mpr (.inl rfl)

/-! ### Storing in as few nodes as possible -/

/-- `b'` is `b` after `bytes` have been stored at the cursor, in as few nodes as hold them. -/
structure Extended (b : ByteArray) (bytes : List UInt8) (b' : ByteArray) : Prop where
  inv : b'.Inv
  nodeSize : b'.nodeSize = b.nodeSize
  nodes : b'.nodes.length
    = max b.nodes.length ((b.position + bytes.length) ⌈/⌉ b.nodeSize)
  data : slice b'.mem 0 b'.dataSize = overlay (slice b.mem 0 b.dataSize) b.position bytes
  position : b'.position = b.position + bytes.length
  dataSize : b'.dataSize = max b.dataSize (b.position + bytes.length)
  baEndian : b'.baEndian = b.baEndian

/-- Equal but for the bytes behind the data. -/
structure SameData (b c : ByteArray) : Prop where
  data : slice b.mem 0 b.dataSize = slice c.mem 0 c.dataSize
  position : b.position = c.position
  dataSize : b.dataSize = c.dataSize
  totalSize : b.totalSize = c.totalSize
  cur : b.cur = c.cur
  nodeSize : b.nodeSize = c.nodeSize
  baEndian : b.baEndian = c.baEndian

variable {c d : ByteArray} {xs ys : List UInt8}

/-- Writing nothing extends by nothing. -/
theorem Extended.refl (h : b.Inv) : Extended b [] b where
  inv := h
  nodeSize := rfl
  nodes := by
    have hle := h.position_le.trans h.dataSize_le
    rw [h.total, Nat.mul_comm] at hle
    exact (Nat.max_eq_left ((ceilDiv_le_iff_le_mul h.nodeSize_pos).mpr hle)).symm
  data := (overlay_nil _ _).symm
  position := rfl
  dataSize := (Nat.max_eq_left h.position_le).symm
  baEndian := rfl

/-- Two writes in turn extend by both pieces. -/
theorem Extended.trans (h : b.Inv) (hx : Extended b xs c) (hy : Extended c ys d) :
    Extended b (xs ++ ys) d where
  inv := hy.inv
  nodeSize := hy.nodeSize.trans hx.nodeSize
  nodes := by
    have hmono : (b.position + xs.length) ⌈/⌉ b.nodeSize
        ≤ (b.position + xs.length + ys.length) ⌈/⌉ b.nodeSize :=
      (gc_mul_ceilDiv h.nodeSize_pos).monotone_l (Nat.le_add_right _ _)
    rw [hy.nodes, hx.nodes, hx.nodeSize, hx.position, List.length_append, ← Nat.add_assoc,
      Nat.max_assoc, Nat.max_eq_right hmono]
  -- the second write begins where the first one has ended
  data := by
    have hlen : b.position ≤ (slice b.mem 0 b.dataSize).length := by
      rw [length_slice (by rw [h.length_mem, Nat.zero_add]; exact h.dataSize_le)]
      exact h.position_le
    rw [hy.data, hx.data, hx.position, overlay_overlay _ _ _ _ hlen]
  position := by rw [hy.position, hx.position, List.length_append, Nat.add_assoc]
  dataSize := by
    rw [hy.dataSize, hx.dataSize, hx.position, List.length_append]
    omega
  baEndian := hy.baEndian.trans hx.baEndian

/-- What is stored determines the state up to the bytes behind the data. -/
theorem Extended.sameData (hc : Extended b xs c) (hd : Extended b xs d) : SameData c d := by
  have hpos := hc.position.trans hd.position.symm
  have hnode := hc.nodeSize.trans hd.nodeSize.symm
  have hnodes := hc.nodes.trans hd.nodes.symm
  exact {
    data := hc.data.trans hd.data.symm
    position := hpos
    dataSize := hc.dataSize.trans hd.dataSize.symm
    totalSize := by rw [hc.inv.total, hd.inv.total, hnodes, hnode]
    cur := by rw [hc.inv.cursor, hd.inv.cursor, hnodes, hnode, hpos]
    nodeSize := hnode
    baEndian := hc.baEndian.trans hd.baEndian.symm }

/-- The least growth leads to the least number of nodes. -/
theorem nodes_add_growth (h : b.Inv) (size : ℕ) :
    b.nodes.length + b.growth size
      = max b.nodes.length ((b.position + size) ⌈/⌉ b.nodeSize) := by
  obtain ⟨hcover, hleast⟩ := growth_bounds h size
  have hle : ∀ k, (b.position + size) ⌈/⌉ b.nodeSize ≤ k ↔ b.position + size ≤ k * b.nodeSize :=
    fun k => by rw [ceilDiv_le_iff_le_mul h.nodeSize_pos, Nat.mul_comm]
  -- as many nodes as the position needs, and not one less
  apply le_antisymm
  · cases hg : b.growth size with
    | zero => exact le_max_left _ _
    | succ g =>
      apply le_max_of_le_right
      by_contra hlt
      have hfit := (hle (b.nodes.length + g)).mp (by omega)
      have hpast := hleast (by omega)
      rw [hg, Nat.add_sub_cancel, h.total, ← Nat.add_mul] at hpast
      omega
  · apply max_le (Nat.le_add_right _ _)
    rw [hle, Nat.add_mul, ← h.total]
    exact hcover

/-- A `write` extends the buffer when its growth is the least one. -/
theorem write_extends (h : b.Inv) (fill : ℕ → ℕ → UInt8) {buf : List UInt8}
    (hexact : b.newNodes buf.length = b.growth buf.length) :
    ∃ c, write fill buf b = .ok () c ∧ Extended b buf c := by
  have hfit := (growth_bounds h buf.length).1
  rw [← hexact] at hfit
  -- the bytes of the new nodes are behind the data, and not looked at
  obtain ⟨c, ext, hwrite, hc, -, hmem, hnode, htotal, hpos, hdata, hend⟩ := write_adds h fill hfit
  have hlen : b.dataSize ≤ b.mem.length := by
    rw [h.length_mem]
    exact h.dataSize_le
  refine ⟨c, hwrite, {
    inv := hc
    nodeSize := hnode
    nodes := ?_
    data := ?_
    position := hpos
    dataSize := hdata
    baEndian := hend }⟩
  · rw [← nodes_add_growth h, ← hexact]
    apply Nat.eq_of_mul_eq_mul_right h.nodeSize_pos
    rw [Nat.add_mul, ← h.total, ← htotal, hc.total, hnode]
  · rw [hdata, hmem]
    exact slice_overlay_prefix h.position_le hlen

/-- A request of at most one node's size has the least growth, whatever the sizes. -/
theorem newNodes_eq_growth_of_le (h : b.Inv) {size : ℕ} (hsize : size ≤ b.nodeSize) :
    b.newNodes size = b.growth size := by
  have hle := h.position_le.trans h.dataSize_le
  rcases Nat.lt_or_ge b.totalSize (b.position + size) with hlt | hfit
  · obtain ⟨hpos, hgrowth, hnew⟩ := counts_of_lt h hlt
    have hone : b.missing size ≤ b.nodeSize := by
      rw [missing]
      omega
    rw [hnew, hgrowth, newNodeCount, ceil_div32_of_le hpos hone, Nat.div_eq_of_lt (by omega)]
  · rw [newNodes, growth, if_pos hfit, if_pos hfit]

/-! ### Chunks and files -/

/-- The chunks, written one after the other; each comes with the bytes of the nodes it adds. -/
def writeChunks : List ((ℕ → ℕ → UInt8) × List UInt8) → Op Unit
  | [] => return ()
  | (fill, chunk) :: chunks => do
    write fill chunk
    writeChunks chunks

/-- The chunks of a file go in one after the other, by induction on them. -/
theorem writeChunks_extends (chunks : List ((ℕ → ℕ → UInt8) × List UInt8)) (h : b.Inv)
    (hlen : (chunks.flatMap (·.2)).length < 2 ^ 24) :
    ∃ c, writeChunks chunks b = .ok () c ∧ Extended b (chunks.flatMap (·.2)) c := by
  induction chunks generalizing b with
  | nil => exact ⟨b, rfl, .refl h⟩
  | cons head chunks ih =>
    obtain ⟨fill, chunk⟩ := head
    rw [List.flatMap_cons, List.length_append] at hlen
    have hchunk : chunk.length < 2 ^ 24 := lt_of_le_of_lt (Nat.le_add_right _ _) hlen
    obtain ⟨c, hwrite, hc⟩ := write_extends h fill (newNodes_eq_growth h hchunk)
    obtain ⟨d, hrest, hd⟩ := ih hc.inv (lt_of_le_of_lt (Nat.le_add_left _ _) hlen)
    refine ⟨d, ?_, hc.trans h hd⟩
    rw [writeChunks, bind_run, hwrite]
    exact hrest

/-- Reading a file node by node has the least growth in every round. -/
theorem readFromFileLoop_extends (fills : ℕ → ℕ → ℕ → UInt8) (hns : 0 < ns) :
    ∀ (fuel : ℕ) (rest : List UInt8) (b : ByteArray), b.Inv → b.nodeSize = ns →
      rest.length < fuel →
      ∃ c, readFromFileLoop fills ns fuel rest b = .ok () c ∧ Extended b rest c := by
  intro fuel
  induction fuel with
  | zero => intro rest b _ _ hfuel; omega
  | succ fuel ih =>
    intro rest b h hnode hfuel
    have htake : (rest.take ns).length ≤ b.nodeSize := by
      rw [hnode]
      exact List.length_take_le ns rest
    obtain ⟨c, hwrite, hc⟩ := write_extends h (fills fuel) (newNodes_eq_growth_of_le h htake)
    rw [readFromFileLoop, bind_run, hwrite]
    by_cases heof : rest.length < ns
    · -- the read has hit the end
      refine ⟨c, if_pos heof ▸ rfl, ?_⟩
      rwa [List.take_of_length_le heof.le] at hc
    · obtain ⟨d, hrest, hd⟩ := ih (rest.drop ns) c hc.inv (hc.nodeSize.trans hnode)
        (by rw [List.length_drop]; omega)
      refine ⟨d, by simp only [heof, if_false, hrest], ?_⟩
      have hjoin := hc.trans h hd
      rwa [List.take_append_drop] at hjoin

/-- **`readFromFile`.**  A file of any length is stored in as few nodes as hold it. -/
theorem readFromFile_extends (h : b.Inv) (fills : ℕ → ℕ → ℕ → UInt8) (file : List UInt8)
    (path : String) :
    ∃ c, readFromFile fills (some file) path b = .ok true c ∧ Extended b file c := by
  obtain ⟨c, hloop, hc⟩ := readFromFileLoop_extends fills h.nodeSize_pos (file.length + 1) file b h
    rfl (Nat.lt_succ_self _)
  refine ⟨c, ?_, hc⟩
  simp only [readFromFile, bind_run, get_run, hloop]
  rfl

/-- Both operations succeed and leave the same state, up to the bytes behind the data. -/
def SameEffect {α β : Type} (f : Op α) (g : Op β) (b : ByteArray) : Prop :=
  ∃ x c y d, f b = .ok x c ∧ g b = .ok y d ∧ SameData c d

/-- One `write` is as good as storing in the least number of nodes when its growth is the least
    one, and only then. -/
theorem sameEffect_write_iff {α : Type} (h : b.Inv) {f : Op α} {x : α} {buf : List UInt8}
    (fill : ℕ → ℕ → UInt8) (hf : f b = .ok x c) (hc : Extended b buf c) :
    SameEffect f (write fill buf) b ↔ b.newNodes buf.length = b.growth buf.length := by
  constructor
  · rintro ⟨x', c', y, d, hf', hwrite, hsame⟩
    -- `f` has only one result
    obtain ⟨rfl, rfl⟩ : x = x' ∧ c = c' := by
      rw [hf] at hf'
      cases hf'
      exact ⟨rfl, rfl⟩
    by_cases hfit : b.position + buf.length ≤ b.totalSize + b.newNodes buf.length * b.nodeSize
    · -- the total sizes agree
      obtain ⟨d', _, hwrite', -, -, -, -, htotal, -⟩ := write_adds h fill hfit
      rw [hwrite'] at hwrite
      cases hwrite
      have hnodes := hc.nodes
      rw [← nodes_add_growth h] at hnodes
      have hboth := hsame.totalSize
      rw [hc.inv.total, hnodes, hc.nodeSize, htotal, h.total, ← Nat.add_mul] at hboth
      have := Nat.eq_of_mul_eq_mul_right h.nodeSize_pos hboth
      omega
    · -- the write runs into a fault
      obtain ⟨e, hfault, -⟩ := write_short h fill
        (Nat.lt_of_not_le (mt (addTotalSize_room h fill _).mp hfit))
      rw [hfault] at hwrite
      exact nomatch hwrite
  · intro hexact
    obtain ⟨d, hwrite, hd⟩ := write_extends h fill hexact
    exact ⟨x, c, (), d, hf, hwrite, hc.sameData hd⟩

/-- **Chunking.**  In every reachable state, chunks of fewer than `2 ^ 24` bytes in all are one
    `write`, and a file is one exactly when the quotient of that `write` is rounded to the number of
    nodes it needs, as for every file below `2 ^ 24` bytes. -/
theorem chunking_iff {host : Endian} (hns : 1 ≤ ns) (hb : Reachable host ns b)
    (fills : ℕ → ℕ → ℕ → UInt8) (fill : ℕ → ℕ → UInt8) (file : List UInt8) (path : String) :
    (∀ chunks : List ((ℕ → ℕ → UInt8) × List UInt8), (chunks.flatMap (·.2)).length < 2 ^ 24 →
      SameEffect (writeChunks chunks) (write fill (chunks.flatMap (·.2))) b) ∧
    (SameEffect (readFromFile fills (some file) path) (write fill file) b ↔
      b.Enough file.length ∧ b.NotMore file.length) ∧
    (file.length < 2 ^ 24 → b.Enough file.length ∧ b.NotMore file.length) := by
  obtain ⟨h, -⟩ := hb.inv hns
  refine ⟨fun chunks hlen => ?_, ?_, fun hlen => ?_⟩
  · obtain ⟨c, hchunks, hc⟩ := writeChunks_extends chunks h hlen
    exact (sameEffect_write_iff h fill hchunks hc).mpr (newNodes_eq_growth h hlen)
  · obtain ⟨c, hread, hc⟩ := readFromFile_extends h fills file path
    rw [sameEffect_write_iff h fill hread hc, newNodes_eq_growth_iff h]
  · rw [← newNodes_eq_growth_iff h]
    exact newNodes_eq_growth h hlen

/-- Eight bytes over two nodes. -/
theorem chunking_iff_twoNodes :
    SameEffect (readFromFile (fun _ _ _ => 0) (some (List.replicate 8 1)) "in")
      (write (fun _ _ => 0) (List.replicate 8 1)) (new 4 fun _ => 0) := by
  obtain ⟨-, hfile, hsmall⟩ := chunking_iff (by decide)
    (.new fun _ => 0 : Reachable .little 4 _) (fun _ _ _ => 0) (fun _ _ => 0) (List.replicate 8 1) "in"
  exact hfile.mpr (hsmall (by decide))

/-- **One node short.**  A file of `2 ^ 24 + 2` bytes is read into nodes of one byte, but one `write`
    of its bytes runs off the chain. -/
theorem readFromFile_overrun : Reachable .little 1 (new 1 fun _ => 0) ∧
    ¬ ∀ file : List UInt8, SameEffect (readFromFile (fun _ _ _ => 0) (some file) "in")
      (write (fun _ _ => 0) file) (new 1 fun _ => 0) := by
  refine ⟨.new _, fun hall => ?_⟩
  have h : (new 1 fun _ => 0).Inv := new_inv (by decide) _
  have hlen : (List.replicate (2 ^ 24 + 2) (0 : UInt8)).length = 2 ^ 24 + 2 := List.length_replicate
  obtain ⟨c, hread, hc⟩ := readFromFile_extends h (fun _ _ _ => 0) (List.replicate (2 ^ 24 + 2) 0) "in"
  have hexact := (sameEffect_write_iff h _ hread hc).mp (hall _)
  rw [newNodes_eq_growth_iff h, hlen] at hexact
  exact not_enough_twoPow24 hexact.1

end ByteArray

end LoNetfw.Util
