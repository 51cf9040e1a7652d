import LoNetfw.Util.NodeChain

namespace LoNetfw.Util

open Basis

/-!
# `ByteArray` — the representation invariant and one specification per operation

`ByteArray.Inv` is what every reachable `ByteArray` satisfies: the chain is
`m_total_size / m_node_size` nodes of size `m_node_size`, the three counters are ordered,
and `m_cur` is the node of `m_position`, null exactly at the end of the capacity.

Each operation then has one lemma that says what it returns and how it changes the state;
callers cite it and never unfold the operation.

* `write_adds`, `write_spec`, `read_spec`, `read_short`, `setPosition_spec`, `setPosition_past`;
* `toString_spec`, `getReadBuffers_spec`, `getWriteBuffers_spec`;
* `new_inv`, `clear_inv`, `setLittleEndian_inv`, `addTotalSize_spec`.
-/

namespace ByteArray

/-- The representation invariant. -/
structure Inv (b : ByteArray) : Prop where
  nodeSize_pos : 0 < b.nodeSize
  blocks : Blocks b.nodeSize b.nodes
  nodes_pos : 0 < b.nodes.length
  total : b.totalSize = b.nodes.length * b.nodeSize
  position_le : b.position ≤ b.dataSize
  dataSize_le : b.dataSize ≤ b.totalSize
  cursor : b.cur = cursorAt b.nodes.length b.nodeSize b.position

/-- All bytes of the buffer, in chain order. -/
def mem (b : ByteArray) : List UInt8 := contents b.nodes

variable {b : ByteArray}

namespace Inv

/-- The nodes hold as many bytes as the capacity says. -/
theorem length_mem (h : b.Inv) : b.mem.length = b.totalSize := by
  rw [mem, h.blocks.length_contents, h.total]

/-- `getReadSize` does not wrap. -/
theorem getReadSize_eq (h : b.Inv) : b.getReadSize = b.dataSize - b.position :=
  wsub_of_le h.position_le

/-- `getRemainSize` does not wrap. -/
theorem getRemainSize_eq (h : b.Inv) : b.getRemainSize = b.totalSize - b.position :=
  wsub_of_le (h.position_le.trans h.dataSize_le)

/-- The number of nodes. -/
theorem nodes_length (h : b.Inv) : b.nodes.length = b.totalSize / b.nodeSize := by
  rw [h.total, Nat.mul_div_cancel _ h.nodeSize_pos]

/-- Below the capacity the cursor is the node `m_position / m_node_size`. -/
theorem div_lt (h : b.Inv) (hlt : b.position < b.totalSize) :
    b.position / b.nodeSize < b.nodes.length := by
  rw [Nat.div_lt_iff_lt_mul h.nodeSize_pos, ← h.total]
  exact hlt

/-- Below the capacity `m_cur` is the node of the position. -/
theorem cur_of_lt (h : b.Inv) (hlt : b.position < b.totalSize) :
    b.cur = some (b.position / b.nodeSize) := by
  rw [h.cursor, cursorAt, if_pos (h.div_lt hlt)]

/-- The cursor is null exactly at the end of the capacity. -/
theorem cur_eq_none_iff (h : b.Inv) : b.cur = none ↔ b.position = b.totalSize := by
  have hle := h.position_le.trans h.dataSize_le
  rw [h.cursor, cursorAt]
  constructor
  · intro hnone
    by_contra hne
    rw [if_pos (h.div_lt (by omega))] at hnone
    exact absurd hnone (by simp)
  · intro heq
    rw [heq, ← h.nodes_length, if_neg (lt_irrefl _)]

/-- The current position, split into a node index and an offset in the node. -/
theorem position_split (b : ByteArray) :
    b.position / b.nodeSize * b.nodeSize + b.position % b.nodeSize = b.position := by
  rw [Nat.mul_comm]
  exact Nat.div_add_mod b.position b.nodeSize

/-- What the operations read before their loop: the current node and what is left of it. -/
theorem deref_cur (h : b.Inv) (hlt : b.position < b.totalSize) :
    ∃ i node, deref b.nodes b.cur = .ok (i, node) ∧
      wsub node.size (b.position % b.nodeSize)
        = b.nodeSize - b.position % b.nodeSize := by
  have hq := h.div_lt hlt
  refine ⟨_, _, by rw [h.cur_of_lt hlt, deref_some hq], ?_⟩
  rw [(h.blocks _ (List.getElem_mem hq)).1, wsub_of_le (Nat.mod_lt _ h.nodeSize_pos).le]

end Inv

/-! ### Operations without a loop -/

/-- The constructor's buffer is well formed. -/
theorem new_inv {nodeSize : ℕ} (hns : 0 < nodeSize) (fill : ℕ → UInt8) :
    (new nodeSize fill).Inv where
  nodeSize_pos := hns
  blocks := by
    intro node hnode
    rw [List.mem_singleton.mp hnode]
    simp [ByteArrayNode.new, new]
  nodes_pos := by simp [new]
  total := by simp [new]
  position_le := le_refl _
  dataSize_le := Nat.zero_le _
  cursor := by simp [new, cursorAt]

/-- A cleared buffer is well formed. -/
theorem clear_inv (h : b.Inv) : b.clear.Inv where
  nodeSize_pos := h.nodeSize_pos
  blocks := fun node hnode => h.blocks node (List.mem_of_mem_take hnode)
  nodes_pos := by
    have := h.nodes_pos
    simp only [clear, List.length_take]
    omega
  -- only the first node is left
  total := by
    have := h.nodes_pos
    simp only [clear, List.length_take]
    rw [Nat.min_eq_left (by omega), Nat.one_mul]
  position_le := le_refl _
  dataSize_le := Nat.zero_le _
  cursor := by
    have := h.nodes_pos
    simp only [clear, List.length_take, cursorAt, Nat.zero_div]
    rw [if_pos (by omega)]

/-- `clear` keeps the bytes of the first node. -/
theorem clear_mem (h : b.Inv) : b.clear.mem = b.mem.take b.nodeSize := by
  obtain ⟨node, rest, hnodes⟩ := List.exists_cons_of_length_pos h.nodes_pos
  have hlen := (h.blocks node (by rw [hnodes]; simp)).2
  simp only [mem, clear, contents, hnodes, List.take_succ_cons, List.take_zero, List.map_cons,
    List.map_nil, List.flatten_cons, List.flatten_nil, List.append_nil]
  rw [List.take_left' hlen]

/-- The byte order plays no part in the invariant. -/
theorem setLittleEndian_inv (h : b.Inv) (isLittle : Bool) : (b.setLittleEndian isLittle).Inv :=
  { h with }

/-! ### Growing the chain -/

/-- The number of nodes a request of `size` bytes at the current position adds. -/
def growth (b : ByteArray) (size : ℕ) : ℕ :=
  if b.position + size ≤ b.totalSize then 0
  else (b.position + size - b.totalSize + b.nodeSize - 1) / b.nodeSize

/-- The new nodes are just enough: they cover the request, and one fewer would not. -/
theorem growth_bounds (h : b.Inv) (size : ℕ) :
    b.position + size ≤ b.totalSize + b.growth size * b.nodeSize ∧
      (b.growth size ≠ 0 → b.totalSize + (b.growth size - 1) * b.nodeSize < b.position + size) := by
  have hns := h.nodeSize_pos
  unfold growth
  split_ifs with hfit
  · exact ⟨by omega, fun hne => absurd rfl hne⟩
  -- the capacity that is missing, less one
  · obtain ⟨need, hneed⟩ : ∃ need, b.position + size = b.totalSize + (need + 1) :=
      ⟨b.position + size - b.totalSize - 1, by omega⟩
    have hcount : (b.position + size - b.totalSize + b.nodeSize - 1) / b.nodeSize
        = need / b.nodeSize + 1 := by
      rw [show b.position + size - b.totalSize + b.nodeSize - 1 = need + b.nodeSize by omega,
        Nat.add_div_right _ hns]
    have hdiv := Nat.div_add_mod need b.nodeSize
    have hmod := Nat.mod_lt need hns
    rw [hcount, Nat.succ_mul, Nat.mul_comm (need / b.nodeSize)]
    refine ⟨by omega, fun _ => ?_⟩
    rw [Nat.add_sub_cancel, Nat.mul_comm (need / b.nodeSize)]
    omega

/-- The buffer after it has grown by `count` nodes. -/
def grown (b : ByteArray) (fill : ℕ → ℕ → UInt8) (count : ℕ) : ByteArray :=
  { b with
    nodes := b.nodes ++ (List.range count).map (fun i => ByteArrayNode.new b.nodeSize (fill i))
    totalSize := b.totalSize + count * b.nodeSize
    cur := if b.totalSize - b.position = 0 then some b.nodes.length else b.cur }

/-- New nodes at the end keep the invariant: a null `m_cur` is set to the first of them. -/
theorem grown_inv (h : b.Inv) (fill : ℕ → ℕ → UInt8) {count : ℕ} (hpos : 0 < count) :
    (b.grown fill count).Inv where
  nodeSize_pos := h.nodeSize_pos
  blocks := h.blocks.append (blocks_new b.nodeSize count fill)
  nodes_pos := by
    have := h.nodes_pos
    simp only [grown, List.length_append]
    omega
  total := by
    simp only [grown, List.length_append, List.length_map, List.length_range]
    rw [Nat.add_mul, h.total]
  position_le := h.position_le
  dataSize_le := h.dataSize_le.trans (Nat.le_add_right _ _)
  cursor := by
    have hle := h.position_le.trans h.dataSize_le
    simp only [grown, List.length_append, List.length_map, List.length_range, cursorAt]
    -- a null cursor moves to the first new node; any other one stays
    by_cases hend : b.totalSize - b.position = 0
    · have heq : b.position = b.totalSize := by omega
      rw [if_pos hend, heq, ← h.nodes_length, if_pos (by omega)]
    · have hlt := h.div_lt (by omega)
      rw [if_neg hend, h.cur_of_lt (by omega), if_pos (by omega)]

/-- The number of nodes `addTotalSize(size)` adds. -/
def newNodes (b : ByteArray) (size : ℕ) : ℕ :=
  if b.position + size ≤ b.totalSize then 0
  else newNodeCount (b.position + size - b.totalSize) b.nodeSize

/-- Some node is added for whatever does not fit. -/
theorem newNodeCount_pos {size nodeSize : ℕ} (hsize : 0 < size) (hns : 0 < nodeSize) :
    0 < newNodeCount size nodeSize := by
  have hs : (0 : ℚ) < size := by exact_mod_cast hsize
  have hn : (0 : ℚ) < nodeSize := by exact_mod_cast hns
  exact Nat.ceil_pos.mpr (round32_pos (div_pos (round32_pos hs) (round32_pos hn)))

/-- Below `2 ^ 24` the binary32 quotient has the exact ceiling. -/
theorem newNodes_eq_growth (h : b.Inv) {size : ℕ} (hsize : size < 2 ^ 24) :
    b.newNodes size = b.growth size := by
  have hle := h.position_le.trans h.dataSize_le
  rw [newNodes, growth]
  split_ifs with hfit
  · rfl
  · rw [newNodeCount, ceil_div32 (by omega) (by omega) h.nodeSize_pos]

/-- A request inside the capacity changes nothing. -/
theorem addTotalSize_fits (h : b.Inv) (fill : ℕ → ℕ → UInt8) {size : ℕ}
    (hfit : b.position + size ≤ b.totalSize) : addTotalSize fill size b = b := by
  by_cases hz : size = 0
  · rw [addTotalSize, if_pos hz]
  · rw [addTotalSize, if_neg hz, h.getRemainSize_eq]
    exact if_pos (by omega)

/-- A request past the capacity appends nodes. -/
theorem addTotalSize_grown (h : b.Inv) (fill : ℕ → ℕ → UInt8) {size : ℕ}
    (hfit : b.totalSize < b.position + size) :
    0 < b.newNodes size ∧ addTotalSize fill size b = b.grown fill (b.newNodes size) := by
  have hle := h.position_le.trans h.dataSize_le
  have hneed : size - (b.totalSize - b.position) = b.position + size - b.totalSize := by omega
  have hcount : newNodeCount (size - (b.totalSize - b.position)) b.nodeSize = b.newNodes size := by
    rw [newNodes, if_neg (by omega), hneed]
  have hpos : 0 < b.newNodes size := by
    rw [← hcount]
    exact newNodeCount_pos (by omega) h.nodeSize_pos
  refine ⟨hpos, ?_⟩
  rw [addTotalSize, if_neg (by omega), h.getRemainSize_eq]
  simp only [hcount, if_pos hpos]
  rw [if_neg (by omega), grown]

/-- **`addTotalSize`.** The chain grows by `newNodes` whole nodes and nothing else changes. -/
theorem addTotalSize_adds (h : b.Inv) (fill : ℕ → ℕ → UInt8) (size : ℕ) :
    ∃ b' ext, addTotalSize fill size b = b' ∧ b'.Inv ∧ b'.mem = b.mem ++ ext ∧
      ext.length = b.newNodes size * b.nodeSize ∧ b'.nodeSize = b.nodeSize ∧
      b'.totalSize = b.totalSize + b.newNodes size * b.nodeSize ∧
      b'.dataSize = b.dataSize ∧ b'.position = b.position ∧ b'.baEndian = b.baEndian := by
  by_cases hfit : b.position + size ≤ b.totalSize
  · have hgrow : b.newNodes size = 0 := if_pos hfit
    exact ⟨b, [], addTotalSize_fits h fill hfit, h, by simp, by simp [hgrow], rfl, by simp [hgrow],
      rfl, rfl, rfl⟩
  · obtain ⟨hpos, hadd⟩ := addTotalSize_grown h fill (Nat.lt_of_not_le hfit)
    refine ⟨_, contents ((List.range (b.newNodes size)).map
      (fun i => ByteArrayNode.new b.nodeSize (fill i))), hadd, grown_inv h fill hpos, ?_, ?_, rfl, rfl,
      rfl, rfl, rfl⟩
    · simp only [mem, grown, contents, List.map_append, List.flatten_append]
    · rw [(blocks_new b.nodeSize (b.newNodes size) fill).length_contents, List.length_map,
        List.length_range]

/-- The request fits into the grown buffer when the new nodes hold what is past the capacity. -/
theorem addTotalSize_room (h : b.Inv) (fill : ℕ → ℕ → UInt8) (size : ℕ) :
    (addTotalSize fill size b).position + size ≤ (addTotalSize fill size b).totalSize ↔
      b.position + size ≤ b.totalSize + b.newNodes size * b.nodeSize := by
  obtain ⟨_, _, rfl, -, -, -, -, htotal, -, hpos, -⟩ := addTotalSize_adds h fill size
  rw [htotal, hpos]

/-- For a request below `2 ^ 24` these are as few as hold it. -/
theorem addTotalSize_spec (h : b.Inv) (fill : ℕ → ℕ → UInt8) {size : ℕ} (hsize : size < 2 ^ 24) :
    ∃ b' ext, addTotalSize fill size b = b' ∧ b'.Inv ∧ b'.mem = b.mem ++ ext ∧
      ext.length = b.growth size * b.nodeSize ∧ b'.nodeSize = b.nodeSize ∧
      b'.totalSize = b.totalSize + b.growth size * b.nodeSize ∧
      b'.dataSize = b.dataSize ∧ b'.position = b.position ∧ b'.baEndian = b.baEndian := by
  rw [← newNodes_eq_growth h hsize]
  exact addTotalSize_adds h fill size

/-- After it the request fits. -/
theorem addTotalSize_covers (h : b.Inv) (fill : ℕ → ℕ → UInt8) {size : ℕ} (hsize : size < 2 ^ 24) :
    (addTotalSize fill size b).position + size ≤ (addTotalSize fill size b).totalSize := by
  obtain ⟨c, _, hadd, _, _, _, _, htotal, _, hpos, _⟩ := addTotalSize_spec h fill hsize
  obtain ⟨hcover, _⟩ := growth_bounds h size
  rw [hadd, hpos, htotal]
  omega

/-! ### Running an operation -/

/-- Sequencing of two calls: a throw ends the first. -/
theorem bind_run {α β : Type} (op : Op α) (f : α → Op β) (b : ByteArray) :
    (op >>= f) b =
      match op b with
      | .ok a b' => f a b'
      | .error e b' => .error e b' := by
  simp only [bind, EStateM.bind]
  cases op b <;> rfl

/-- A call that returns at once. -/
theorem pure_run {α : Type} (a : α) (b : ByteArray) : (pure a : Op α) b = .ok a b := rfl

/-- A call that reads the object. -/
theorem get_run (b : ByteArray) : (get : Op ByteArray) b = .ok b b := rfl

/-- A call that replaces the object. -/
theorem set_run (c b : ByteArray) : (set c : Op PUnit) b = .ok ⟨⟩ c := rfl

/-- A call that changes the object. -/
theorem modify_run (g : ByteArray → ByteArray) (b : ByteArray) :
    (modify g : Op Unit) b = .ok () (g b) := rfl

/-- A call that throws. -/
theorem throw_run {α : Type} (e : Exn) (b : ByteArray) : (throw e : Op α) b = .error e b := rfl

/-- A step that does not touch the object. -/
@[simp] theorem liftExcept_ok {α : Type} (a : α) (b : ByteArray) :
    liftExcept (.ok a) b = .ok a b := rfl

/-! ### Reading and writing at the cursor -/

/-- A `write` inside the capacity. -/
theorem write_fits (h : b.Inv) (fill : ℕ → ℕ → UInt8) {buf : List UInt8}
    (hfit : b.position + buf.length ≤ b.totalSize) :
    ∃ b', write fill buf b = .ok () b' ∧ b'.Inv ∧ b'.mem = overlay b.mem b.position buf ∧
      b'.nodeSize = b.nodeSize ∧ b'.totalSize = b.totalSize ∧
      b'.position = b.position + buf.length ∧
      b'.dataSize = max b.dataSize (b.position + buf.length) ∧ b'.baEndian = b.baEndian := by
  by_cases hne : buf = []
  · subst hne
    refine ⟨b, rfl, h, by simp, rfl, rfl, rfl, ?_, rfl⟩
    rw [List.length_nil, Nat.add_zero, Nat.max_eq_left h.position_le]
  -- nothing is added, and the loop starts at the node of the position
  · have hadd := addTotalSize_fits h fill hfit
    have hlen : 0 < buf.length := List.length_pos_iff.mpr hne
    have hlt : b.position < b.totalSize := by omega
    obtain ⟨i, node, hderef, hremain⟩ := h.deref_cur hlt
    have hq := h.div_lt hlt
    have hr := Nat.mod_lt b.position h.nodeSize_pos
    have hcap := h.total
    obtain ⟨nodes', hloop, hblocks, hlength, hcont⟩ := writeLoop_eq h.nodeSize_pos
      b.nodes.length b.nodes (b.position / b.nodeSize) (b.position % b.nodeSize) buf h.blocks hr hq
      hne (by rw [Inv.position_split]; omega) (Nat.le_add_right _ _)
    rw [Inv.position_split, ← h.cur_of_lt hlt] at hloop
    refine ⟨{ b with
      nodes := nodes'
      cur := cursorAt b.nodes.length b.nodeSize (b.position + buf.length)
      position := b.position + buf.length
      dataSize := if b.position + buf.length > b.dataSize then b.position + buf.length
        else b.dataSize }, ?_, ?_, ?_, rfl, rfl, rfl, ?_, rfl⟩
    · simp only [write, hne, if_false, bind_run, get_run, modify_run, hadd, hderef, hremain, hloop,
        liftExcept_ok]
      rfl
    · exact {
        nodeSize_pos := h.nodeSize_pos
        blocks := hblocks
        nodes_pos := by simp only [hlength]; exact h.nodes_pos
        total := by simp only [hlength]; exact h.total
        position_le := by dsimp only; split_ifs <;> omega
        dataSize_le := by
          have := h.dataSize_le
          dsimp only
          split_ifs <;> omega
        cursor := by simp only [hlength] }
    · simp only [mem]
      rw [hcont, Inv.position_split]
    · dsimp only
      split_ifs <;> omega

/-- `write` is a `write` in the grown buffer. -/
theorem write_grown {fill : ℕ → ℕ → UInt8} {buf : List UInt8}
    (h : (addTotalSize fill buf.length b).Inv)
    (hfit : (addTotalSize fill buf.length b).position + buf.length
      ≤ (addTotalSize fill buf.length b).totalSize) :
    write fill buf b = write fill buf (addTotalSize fill buf.length b) := by
  by_cases hne : buf = []
  · subst hne
    rfl
  · simp only [write, hne, if_false, bind_run, get_run, modify_run, addTotalSize_fits h fill hfit]

/-- **`write`.** The buffer grows by whole nodes, and where they hold the request, the bytes at
    the cursor are overlaid, and the cursor ends after them. -/
theorem write_adds (h : b.Inv) (fill : ℕ → ℕ → UInt8) {buf : List UInt8}
    (hfit : b.position + buf.length ≤ b.totalSize + b.newNodes buf.length * b.nodeSize) :
    ∃ b' ext, write fill buf b = .ok () b' ∧ b'.Inv ∧
      ext.length = b.newNodes buf.length * b.nodeSize ∧
      b'.mem = overlay (b.mem ++ ext) b.position buf ∧ b'.nodeSize = b.nodeSize ∧
      b'.totalSize = b.totalSize + b.newNodes buf.length * b.nodeSize ∧
      b'.position = b.position + buf.length ∧
      b'.dataSize = max b.dataSize (b.position + buf.length) ∧ b'.baEndian = b.baEndian := by
  have hcover := (addTotalSize_room h fill buf.length).mpr hfit
  -- first the nodes that are missing, then a write that fits
  obtain ⟨c, ext, hadd, hc, hmem, hext, hnode, htotal, hdata, hpos, hend⟩ :=
    addTotalSize_adds h fill buf.length
  have hgrown := write_grown (by rw [hadd]; exact hc) hcover
  rw [hadd] at hcover hgrown
  obtain ⟨b', hwrite, hb', hmem', hnode', htotal', hpos', hdata', hend'⟩ := write_fits hc fill hcover
  refine ⟨b', ext, hgrown.trans hwrite, hb', hext, ?_, hnode'.trans hnode, htotal'.trans htotal, ?_,
    ?_, hend'.trans hend⟩
  · rw [hmem', hmem, hpos]
  · rw [hpos', hpos]
  · rw [hdata', hdata, hpos]

/-- For a request below `2 ^ 24` it always does, by as few nodes as hold the request. -/
theorem write_spec (h : b.Inv) (fill : ℕ → ℕ → UInt8) {buf : List UInt8}
    (hbuf : buf.length < 2 ^ 24) :
    ∃ b' ext, write fill buf b = .ok () b' ∧ b'.Inv ∧
      ext.length = b.growth buf.length * b.nodeSize ∧
      b'.mem = overlay (b.mem ++ ext) b.position buf ∧ b'.nodeSize = b.nodeSize ∧
      b'.position = b.position + buf.length ∧
      b'.dataSize = max b.dataSize (b.position + buf.length) ∧ b'.baEndian = b.baEndian := by
  have hfit := (growth_bounds h buf.length).1
  rw [← newNodes_eq_growth h hbuf] at hfit ⊢
  obtain ⟨b', ext, hwrite, hb', hext, hmem, hnode, -, hrest⟩ := write_adds h fill hfit
  exact ⟨b', ext, hwrite, hb', hext, hmem, hnode, hrest⟩

/-- **`read`.** A request inside the stored bytes returns them and advances the cursor. -/
theorem read_spec (h : b.Inv) {n : ℕ} (hn : n ≤ b.dataSize - b.position) :
    ∃ b', read n b = .ok (slice b.mem b.position n) b' ∧ b'.Inv ∧ b'.mem = b.mem ∧
      b'.nodeSize = b.nodeSize ∧ b'.totalSize = b.totalSize ∧ b'.dataSize = b.dataSize ∧
      b'.position = b.position + n ∧ b'.baEndian = b.baEndian := by
  by_cases hz : n = 0
  · subst hz
    refine ⟨b, ?_, h, rfl, rfl, rfl, rfl, rfl, rfl⟩
    rw [slice_zero]
    rfl
  · have hle := h.position_le
    have hdata := h.dataSize_le
    have hcap := h.total
    have hlt : b.position < b.totalSize := by omega
    -- the data ends inside the nodes, so there is one to start from
    obtain ⟨i, node, hderef, hremain⟩ := h.deref_cur hlt
    have hloop := readLoop_eq h.blocks h.nodeSize_pos b.nodes.length (b.position / b.nodeSize)
      (b.position % b.nodeSize) n (Nat.mod_lt _ h.nodeSize_pos) (h.div_lt hlt) (by omega)
      (by rw [Inv.position_split]; omega) (Nat.le_add_right _ _)
    rw [Inv.position_split, ← h.cur_of_lt hlt] at hloop
    refine ⟨{ b with
      cur := cursorAt b.nodes.length b.nodeSize (b.position + n)
      position := b.position + n }, ?_, ?_, rfl, rfl, rfl, rfl, rfl, rfl⟩
    · have hfit : ¬ n > b.getReadSize := by rw [h.getReadSize_eq]; omega
      simp only [read, hz, if_false, bind_run, get_run, hfit, hderef, hremain, hloop, liftExcept_ok]
      rfl
    · exact { h with
        position_le := by dsimp only; omega
        cursor := rfl }

/-- A longer request throws and changes nothing. -/
theorem read_short (h : b.Inv) {n : ℕ} (hn : b.dataSize - b.position < n) :
    read n b = .error b.readRangeError b := by
  have hz : n ≠ 0 := by omega
  have hlong : n > b.getReadSize := by rw [h.getReadSize_eq]; exact hn
  simp only [read, hz, if_false, bind_run, get_run, hlong, if_true, throw_run]

/-! ### Moving the cursor -/

/-- **`setPosition`.** A position inside the capacity becomes the cursor. -/
theorem setPosition_spec (h : b.Inv) (pos : ℕ) (hpos : pos ≤ b.totalSize) :
    ∃ b', setPosition pos b = .ok () b' ∧ b'.Inv ∧ b'.mem = b.mem ∧ b'.nodeSize = b.nodeSize ∧
      b'.totalSize = b.totalSize ∧ b'.dataSize = max b.dataSize pos ∧ b'.position = pos ∧
      b'.baEndian = b.baEndian := by
  -- the walk begins at the first node
  have hseek := seekLoop_eq h.blocks h.nodeSize_pos b.nodes.length 0 pos h.nodes_pos
    (by rw [Nat.zero_mul, Nat.zero_add, ← h.total]; exact hpos) (by omega)
  rw [Nat.zero_mul, Nat.zero_add] at hseek
  have hdata := h.dataSize_le
  refine ⟨{ b with
    position := pos
    cur := cursorAt b.nodes.length b.nodeSize pos
    dataSize := if pos > b.dataSize then pos else b.dataSize }, ?_, ?_, rfl, rfl, rfl, ?_, rfl, rfl⟩
  · have hle : ¬ pos > b.totalSize := by omega
    simp only [setPosition, bind_run, get_run, hle, if_false, hseek, liftExcept_ok]
    rfl
  · exact { h with
      position_le := by dsimp only; split_ifs <;> omega
      dataSize_le := by dsimp only; split_ifs <;> omega
      cursor := rfl }
  · dsimp only
    split_ifs <;> omega

/-- A position past the capacity throws and changes nothing. -/
theorem setPosition_past {pos : ℕ} (hpos : b.totalSize < pos) :
    setPosition pos b = .error (b.positionRangeError pos) b := by
  simp only [setPosition, bind_run, get_run, show pos > b.totalSize from hpos, if_true, throw_run]

/-! ### Looking at the stored bytes -/

/-- **`toString`.** The stored bytes from the cursor on. -/
theorem toString_spec (h : b.Inv) :
    b.toString = .ok (slice b.mem b.position (b.dataSize - b.position)) := by
  have hle := h.position_le
  have hdata := h.dataSize_le
  have hcap := h.total
  simp only [toString, wsub_of_le hle, pure, Except.pure]
  by_cases hz : b.dataSize - b.position = 0
  · rw [if_pos hz, hz, slice_zero]
  · have hlt : b.position < b.totalSize := by omega
    obtain ⟨i, node, hderef, hremain⟩ := h.deref_cur hlt
    have hloop := readLoop_eq h.blocks h.nodeSize_pos b.nodes.length (b.position / b.nodeSize)
      (b.position % b.nodeSize) (b.dataSize - b.position) (Nat.mod_lt _ h.nodeSize_pos)
      (h.div_lt hlt) (by omega) (by rw [Inv.position_split]; omega) (Nat.le_add_right _ _)
    rw [Inv.position_split, ← h.cur_of_lt hlt] at hloop
    rw [if_neg hz]
    simp only [readAt, hz, if_false, bind, Except.bind, wsub_of_le hle, gt_iff_lt, lt_irrefl,
      hderef, hremain, hloop, pure, Except.pure]
    rfl

/-- **`getReadBuffers`.** The segments are the stored bytes from the cursor on, as many as
    asked for and available. -/
theorem getReadBuffers_spec (h : b.Inv) (len : ℕ) :
    ∃ bufs, b.getReadBuffers len = .ok (min len (b.dataSize - b.position), bufs) ∧
      bufs.flatMap (segment b.nodes)
        = slice b.mem b.position (min len (b.dataSize - b.position)) := by
  have hle := h.position_le
  have hdata := h.dataSize_le
  have hcap := h.total
  -- the request is cut to the unread data
  have hmin : (if len > b.dataSize - b.position then b.dataSize - b.position else len)
      = min len (b.dataSize - b.position) := by
    split_ifs <;> omega
  simp only [getReadBuffers, wsub_of_le hle, hmin, pure, Except.pure, bind, Except.bind]
  by_cases hz : min len (b.dataSize - b.position) = 0
  · refine ⟨[], by rw [if_pos hz, hz], ?_⟩
    rw [hz, slice_zero]
    rfl
  · have hlt : b.position < b.totalSize := by omega
    obtain ⟨i, node, hderef, hremain⟩ := h.deref_cur hlt
    obtain ⟨bufs, hloop, hbufs⟩ := bufferLoop_eq h.blocks h.nodeSize_pos b.nodes.length
      (b.position / b.nodeSize) (b.position % b.nodeSize) (min len (b.dataSize - b.position))
      (Nat.mod_lt _ h.nodeSize_pos) (h.div_lt hlt) (by omega)
      (by rw [Inv.position_split]; omega) (Nat.le_add_right _ _)
    rw [Inv.position_split] at hbufs
    rw [← h.cur_of_lt hlt] at hloop
    refine ⟨bufs, ?_, hbufs⟩
    rw [if_neg hz, hderef]
    simp only [hremain, hloop]

/-- `getWriteBuffers` inside the capacity leaves the buffer as it is. -/
theorem getWriteBuffers_fits (h : b.Inv) (fill : ℕ → ℕ → UInt8) {len : ℕ}
    (hfit : b.position + len ≤ b.totalSize) :
    ∃ bufs, getWriteBuffers fill len b = .ok (len, bufs) b ∧
      bufs.flatMap (segment b.nodes) = slice b.mem b.position len := by
  by_cases hz : len = 0
  · subst hz
    refine ⟨[], rfl, ?_⟩
    rw [slice_zero]
    rfl
  -- nothing is added, so no segment is outside
  · have hadd := addTotalSize_fits h fill hfit
    have hcap := h.total
    have hlt : b.position < b.totalSize := by omega
    obtain ⟨i, node, hderef, hremain⟩ := h.deref_cur hlt
    obtain ⟨bufs, hloop, hbufs⟩ := bufferLoop_eq h.blocks h.nodeSize_pos b.nodes.length
      (b.position / b.nodeSize) (b.position % b.nodeSize) len (Nat.mod_lt _ h.nodeSize_pos)
      (h.div_lt hlt) (by omega) (by rw [Inv.position_split]; omega) (Nat.le_add_right _ _)
    rw [Inv.position_split] at hbufs
    rw [← h.cur_of_lt hlt] at hloop
    refine ⟨bufs, ?_, hbufs⟩
    simp only [getWriteBuffers, hz, if_false, bind_run, get_run, modify_run, hadd, hderef, hremain, hloop,
      liftExcept_ok]
    rfl

/-- `getWriteBuffers` is one in the grown buffer. -/
theorem getWriteBuffers_grown {fill : ℕ → ℕ → UInt8} {len : ℕ}
    (h : (addTotalSize fill len b).Inv)
    (hfit : (addTotalSize fill len b).position + len ≤ (addTotalSize fill len b).totalSize) :
    getWriteBuffers fill len b = getWriteBuffers fill len (addTotalSize fill len b) := by
  by_cases hz : len = 0
  · subst hz
    rfl
  · simp only [getWriteBuffers, hz, if_false, bind_run, get_run, modify_run,
      addTotalSize_fits h fill hfit]

/-- **`getWriteBuffers`.** The buffer grows as for a write of `len` bytes, and the segments
    are the `len` bytes from the cursor on. -/
theorem getWriteBuffers_spec (h : b.Inv) (fill : ℕ → ℕ → UInt8) {len : ℕ} (hlen : len < 2 ^ 24) :
    ∃ b' ext bufs, getWriteBuffers fill len b = .ok (len, bufs) b' ∧ b'.Inv ∧
      b'.mem = b.mem ++ ext ∧ ext.length = b.growth len * b.nodeSize ∧
      b'.nodeSize = b.nodeSize ∧ b'.dataSize = b.dataSize ∧ b'.position = b.position ∧
      b'.baEndian = b.baEndian ∧
      bufs.flatMap (segment b'.nodes) = slice b'.mem b.position len := by
  have hcover := addTotalSize_covers h fill hlen
  obtain ⟨c, ext, hadd, hc, hmem, hext, hnode, _, hdata, hpos, hend⟩ :=
    addTotalSize_spec h fill hlen
  have hgrown := getWriteBuffers_grown (by rw [hadd]; exact hc) hcover
  rw [hadd] at hcover hgrown
  obtain ⟨bufs, hget, hbufs⟩ := getWriteBuffers_fits hc fill hcover
  exact ⟨c, ext, bufs, hgrown.trans hget, hc, hmem, hext, hnode, hdata, hpos, hend,
    by rw [hbufs, hpos]⟩

end ByteArray

end LoNetfw.Util
