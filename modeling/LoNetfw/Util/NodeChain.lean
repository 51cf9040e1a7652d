import LoNetfw.Util.ByteArray

namespace LoNetfw.Util

open Basis

/-!
# `ByteArray` — what the loops over the node chain compute

One lemma per loop of `serializer.cpp`, for a chain whose nodes all have size `ns`
(`Blocks`).  Each says that the loop, started at offset `r` of node `q`, is one access to
the concatenation of the nodes at `q * ns + r`, and that it leaves the cursor at the node
of the position after it (`cursorAt`), null exactly at the end of the capacity.

* `writeLoop_eq`, `readLoop_eq`, `bufferLoop_eq`, `seekLoop_eq`.
-/

/-- Every node has size `ns` and holds `ns` bytes. -/
def Blocks (ns : ℕ) (nodes : List ByteArrayNode) : Prop :=
  ∀ node ∈ nodes, node.size = ns ∧ node.data.length = ns

/-- The concatenation of all node contents. -/
def contents (nodes : List ByteArrayNode) : List UInt8 := (nodes.map (·.data)).flatten

/-- The pointer to the node that holds position `p` of a chain of `count` nodes. -/
def cursorAt (count ns p : ℕ) : Option ℕ := if p / ns < count then some (p / ns) else none

variable {ns : ℕ} {nodes : List ByteArrayNode}

/-! ### Single nodes -/

/-- The blocks of a chain are of one length. -/
theorem Blocks.map_length (h : Blocks ns nodes) : ∀ d ∈ nodes.map (·.data), d.length = ns := by
  intro d hd
  obtain ⟨node, hnode, rfl⟩ := List.mem_map.mp hd
  exact (h node hnode).2

/-- The length of a chain is that of its blocks. -/
theorem Blocks.length_contents (h : Blocks ns nodes) :
    (contents nodes).length = nodes.length * ns := by
  rw [contents, length_flatten_of_forall h.map_length, List.length_map]

/-- Two chains of one node size in a row. -/
theorem Blocks.append {more : List ByteArrayNode} (h : Blocks ns nodes) (h' : Blocks ns more) :
    Blocks ns (nodes ++ more) := by
  intro node hnode
  rcases List.mem_append.mp hnode with hl | hr
  · exact h node hl
  · exact h' node hr

/-- What `addTotalSize` hangs on is a chain. -/
theorem blocks_new (ns count : ℕ) (fill : ℕ → ℕ → UInt8) :
    Blocks ns ((List.range count).map (fun i => ByteArrayNode.new ns (fill i))) := by
  intro node hnode
  obtain ⟨i, _, rfl⟩ := List.mem_map.mp hnode
  simp [ByteArrayNode.new]

/-- A node that exists can be followed. -/
theorem deref_some {q : ℕ} (hq : q < nodes.length) : deref nodes (some q) = .ok (q, nodes[q]) := by
  simp only [deref, List.getElem?_eq_getElem hq]

/-- A position inside a block belongs to its node. -/
theorem cursorAt_block {q r : ℕ} (hr : r < ns) (hq : q < nodes.length) :
    cursorAt nodes.length ns (q * ns + r) = some q := by
  have hdiv : (q * ns + r) / ns = q := by
    rw [Nat.mul_comm, Nat.mul_add_div (by omega), Nat.div_eq_of_lt hr, Nat.add_zero]
  rw [cursorAt, hdiv, if_pos hq]

/-- The next node is that of the next block's first position, null at the end. -/
theorem nextNode_eq (hns : 0 < ns) (q : ℕ) :
    nextNode nodes q = cursorAt nodes.length ns ((q + 1) * ns) := by
  rw [nextNode, cursorAt, Nat.mul_div_cancel _ hns]

/-- A copy out of a node is one out of the contents. -/
theorem load_eq (h : Blocks ns nodes) {q r n : ℕ} (hq : q < nodes.length) (hn : r + n ≤ ns) :
    nodes[q].load r n = .ok (slice (contents nodes) (q * ns + r) n) := by
  have hlen := (h _ (List.getElem_mem hq)).2
  have hflat := slice_flatten (L := nodes.map (·.data)) h.map_length (i := q) (by simpa using hq) hn
  rw [ByteArrayNode.load, if_pos (by omega), contents, hflat, List.getElem_map]

/-- Storing into node `q` is an overlay of the concatenation. -/
theorem store_eq (h : Blocks ns nodes) {q r : ℕ} {bs : List UInt8} (hq : q < nodes.length)
    (hn : r + bs.length ≤ ns) :
    ∃ node', nodes[q].store r bs = .ok node' ∧ Blocks ns (nodes.set q node') ∧
      contents (nodes.set q node') = overlay (contents nodes) (q * ns + r) bs := by
  obtain ⟨hsize, hlen⟩ := h _ (List.getElem_mem hq)
  have hflat := overlay_flatten (L := nodes.map (·.data)) h.map_length (i := q)
    (by simpa using hq) hn
  refine ⟨{ nodes[q] with data := overlay nodes[q].data r bs }, ?_, ?_, ?_⟩
  · rw [ByteArrayNode.store, if_pos (by omega)]
  · intro node hnode
    rcases List.mem_or_eq_of_mem_set hnode with hold | rfl
    · exact h node hold
    · exact ⟨hsize, by rw [length_overlay (by omega)]; exact hlen⟩
  · rw [contents, List.map_set, contents, ← hflat, List.getElem_map]

/-! ### Moving from node to node -/

/-- The cursor after an access that ends inside node `q` or exactly at its end. -/
theorem cursor_after (hns : 0 < ns) {q r n : ℕ} (hq : q < nodes.length) (hn : r + n ≤ ns) :
    (if ns = r + n then nextNode nodes q else some q)
      = cursorAt nodes.length ns (q * ns + r + n) := by
  by_cases hend : ns = r + n
  · have hpos : q * ns + r + n = (q + 1) * ns := by rw [Nat.succ_mul]; omega
    rw [if_pos hend, nextNode_eq hns, hpos]
  · rw [if_neg hend, Nat.add_assoc, cursorAt_block (by omega) hq]

/-- A longer access finds a next node, at the start of the next block. -/
theorem next_block {q r n : ℕ} (hr : r < ns) (hlong : ns - r < n)
    (hcap : q * ns + r + n ≤ nodes.length * ns) :
    q + 1 < nodes.length ∧ q * ns + r + (ns - r) = (q + 1) * ns + 0 := by
  have hsucc : (q + 1) * ns = q * ns + ns := Nat.succ_mul q ns
  have hlt : (q + 1) * ns < nodes.length * ns := by omega
  exact ⟨Nat.lt_of_mul_lt_mul_right hlt, by omega⟩

/-- An access beyond the capacity is longer than what is left of its block, and still is one from
    the start of the next block. -/
theorem past_block {q r n : ℕ} (hr : r < ns) (hq : q < nodes.length)
    (hshort : nodes.length * ns < q * ns + r + n) :
    ns - r < n ∧ nodes.length * ns < (q + 1) * ns + 0 + (n - (ns - r)) := by
  have hle : (q + 1) * ns ≤ nodes.length * ns := Nat.mul_le_mul_right ns hq
  have hsucc : (q + 1) * ns = q * ns + ns := Nat.succ_mul q ns
  exact ⟨by omega, by omega⟩

/-- Short of the last node there is a next one. -/
theorem nextNode_of_lt {q : ℕ} (hq : q + 1 < nodes.length) : nextNode nodes q = some (q + 1) :=
  if_pos hq

namespace ByteArray

/-- **`read` loop.** It returns the bytes of the concatenation at the position it starts
    from and stops at the node of the position after them. -/
theorem readLoop_eq (h : Blocks ns nodes) (hns : 0 < ns) :
    ∀ (fuel q r n : ℕ), r < ns → q < nodes.length → 0 < n →
      q * ns + r + n ≤ nodes.length * ns → nodes.length ≤ fuel + q →
      readLoop nodes fuel (some q) r (ns - r) (q * ns + r) n
        = .ok (slice (contents nodes) (q * ns + r) n,
            cursorAt nodes.length ns (q * ns + r + n), q * ns + r + n) := by
  intro fuel
  induction fuel with
  | zero => intro q r n _ hq _ _ hfuel; omega
  | succ fuel ih =>
    intro q r n hr hq hpos hcap hfuel
    have hsize := (h _ (List.getElem_mem hq)).1
    rw [readLoop, if_neg (by omega)]
    by_cases hfit : n ≤ ns - r
    · rw [if_pos hfit, deref_some hq]
      simp only [bind, Except.bind, load_eq h hq (show r + n ≤ ns by omega), hsize,
        cursor_after hns hq (show r + n ≤ ns by omega), pure, Except.pure]
    · -- the rest of node `q`, then the loop again from the start of node `q + 1`
      obtain ⟨hq', hnext⟩ := next_block (n := n) hr (by omega) hcap
      have hsize' := (h _ (List.getElem_mem hq')).1
      have hrest := ih (q + 1) 0 (n - (ns - r)) hns hq' (by omega)
        (by rw [← hnext]; omega) (by omega)
      have hall : q * ns + r + (ns - r) + (n - (ns - r)) = q * ns + r + n := by omega
      rw [Nat.sub_zero, ← hnext, hall] at hrest
      rw [if_neg hfit, deref_some hq]
      simp only [bind, Except.bind, load_eq h hq (show r + (ns - r) ≤ ns by omega),
        nextNode_of_lt hq', deref_some hq', hsize', hrest, slice_append, pure, Except.pure]
      rw [Nat.add_sub_cancel' (show ns - r ≤ n by omega)]

/-- **`write` loop.** It overlays the concatenation with the buffer at the position it
    starts from, keeps the block structure and stops at the node of the position after. -/
theorem writeLoop_eq (hns : 0 < ns) :
    ∀ (fuel : ℕ) (nodes : List ByteArrayNode) (q r : ℕ) (buf : List UInt8), Blocks ns nodes →
      r < ns → q < nodes.length → buf ≠ [] → q * ns + r + buf.length ≤ nodes.length * ns →
      nodes.length ≤ fuel + q →
      ∃ nodes', writeLoop fuel nodes (some q) r (ns - r) (q * ns + r) buf
          = .ok (nodes', cursorAt nodes.length ns (q * ns + r + buf.length),
              q * ns + r + buf.length) ∧
        Blocks ns nodes' ∧ nodes'.length = nodes.length ∧
        contents nodes' = overlay (contents nodes) (q * ns + r) buf := by
  intro fuel
  induction fuel with
  | zero => intro nodes q r buf _ _ hq _ _ hfuel; omega
  | succ fuel ih =>
    intro nodes q r buf h hr hq hne hcap hfuel
    have hsize := (h _ (List.getElem_mem hq)).1
    rw [writeLoop, if_neg hne]
    by_cases hfit : ns - r ≥ buf.length
    · obtain ⟨node', hstore, hblocks, hcont⟩ := store_eq h hq (show r + buf.length ≤ ns by omega)
      refine ⟨nodes.set q node', ?_, hblocks, List.length_set, hcont⟩
      rw [if_pos hfit, deref_some hq]
      simp only [bind, Except.bind, hstore, hsize, pure, Except.pure,
        cursor_after hns hq (show r + buf.length ≤ ns by omega)]
    · -- fill the rest of node `q`, then the loop again from the start of node `q + 1`
      have htake : (buf.take (ns - r)).length = ns - r := by rw [List.length_take]; omega
      have hdrop : (buf.drop (ns - r)).length = buf.length - (ns - r) := List.length_drop
      obtain ⟨hq', hnext⟩ := next_block (n := buf.length) hr (by omega) hcap
      obtain ⟨node', hstore, hblocks, hcont⟩ :=
        store_eq h hq (show r + (buf.take (ns - r)).length ≤ ns by omega)
      have hq'' : q + 1 < (nodes.set q node').length := by rw [List.length_set]; exact hq'
      have hsize' := (hblocks _ (List.getElem_mem hq'')).1
      obtain ⟨nodes', hloop, hblocks', hlen', hcont'⟩ := ih (nodes.set q node') (q + 1) 0
        (buf.drop (ns - r)) hblocks hns hq'' (by rw [← List.length_pos_iff, hdrop]; omega)
        (by rw [← hnext, hdrop, List.length_set]; omega) (by rw [List.length_set]; omega)
      have hall : q * ns + r + (ns - r) + (buf.drop (ns - r)).length = q * ns + r + buf.length := by
        omega
      rw [Nat.sub_zero, ← hnext, hall, List.length_set] at hloop
      refine ⟨nodes', ?_, hblocks', by rw [hlen', List.length_set], ?_⟩
      · rw [if_neg hfit, deref_some hq]
        simp only [bind, Except.bind, hstore, nextNode_of_lt hq', deref_some hq'', hsize', hloop]
      · have hfirst := overlay_overlay (contents nodes) (q * ns + r)
          (buf.take (ns - r)) (buf.drop (ns - r)) (by rw [h.length_contents]; omega)
        rw [htake, List.take_append_drop] at hfirst
        rw [hcont', hcont, ← hnext, hfirst]

/-- **Buffer loop.** The segments it returns are, one after the other, the bytes of the
    concatenation at the position it starts from. -/
theorem bufferLoop_eq (h : Blocks ns nodes) (hns : 0 < ns) :
    ∀ (fuel q r n : ℕ), r < ns → q < nodes.length → 0 < n →
      q * ns + r + n ≤ nodes.length * ns → nodes.length ≤ fuel + q →
      ∃ bufs, bufferLoop nodes fuel (some q) r (ns - r) n = .ok bufs ∧
        bufs.flatMap (segment nodes) = slice (contents nodes) (q * ns + r) n := by
  intro fuel
  induction fuel with
  | zero => intro q r n _ hq _ _ hfuel; omega
  | succ fuel ih =>
    intro q r n hr hq hpos hcap hfuel
    -- a segment inside a node is a slice of the whole
    have hseg : ∀ k, r + k ≤ ns →
        segment nodes ⟨q, r, k⟩ = slice (contents nodes) (q * ns + r) k := by
      intro k hk
      have hload := load_eq h hq hk
      rw [ByteArrayNode.load, if_pos (by rw [(h _ (List.getElem_mem hq)).2]; exact hk)] at hload
      simpa only [segment, List.getElem?_eq_getElem hq, Except.ok.injEq] using hload
    rw [bufferLoop, if_neg (by omega)]
    by_cases hfit : ns - r ≥ n
    · refine ⟨[⟨q, r, n⟩], ?_, ?_⟩
      · rw [if_pos hfit, deref_some hq]
        rfl
      · rw [List.flatMap_singleton, hseg n (by omega)]
    · obtain ⟨hq', hnext⟩ := next_block (n := n) hr (by omega) hcap
      have hsize' := (h _ (List.getElem_mem hq')).1
      obtain ⟨bufs, hloop, hbufs⟩ := ih (q + 1) 0 (n - (ns - r)) hns hq' (by omega)
        (by rw [← hnext]; omega) (by omega)
      rw [Nat.sub_zero] at hloop
      refine ⟨⟨q, r, ns - r⟩ :: bufs, ?_, ?_⟩
      · rw [if_neg hfit, deref_some hq]
        simp only [bind, Except.bind, nextNode_of_lt hq', deref_some hq', hsize', hloop, pure,
          Except.pure]
      · rw [List.flatMap_cons, hseg _ (by omega), hbufs, ← hnext, slice_append,
          Nat.add_sub_cancel' (show ns - r ≤ n by omega)]

/-- **`setPosition` loop.** Walking from node `q` with `pos` bytes to go finds the node of
    position `q * ns + pos`. -/
theorem seekLoop_eq (h : Blocks ns nodes) (hns : 0 < ns) :
    ∀ (fuel q pos : ℕ), q < nodes.length → q * ns + pos ≤ nodes.length * ns →
      nodes.length ≤ fuel + q →
      seekLoop nodes fuel (some q) pos = .ok (cursorAt nodes.length ns (q * ns + pos)) := by
  intro fuel
  induction fuel with
  | zero => intro q pos hq _ hfuel; omega
  | succ fuel ih =>
    intro q pos hq hcap hfuel
    have hsize := (h _ (List.getElem_mem hq)).1
    rw [seekLoop, deref_some hq]
    simp only [bind, Except.bind, hsize, pure, Except.pure]
    -- past this node: the loop goes on with the next one
    by_cases hlong : pos > ns
    · obtain ⟨hq', hnext⟩ := next_block (n := pos) (r := 0) hns (by omega) (by omega)
      have hsize' := (h _ (List.getElem_mem hq')).1
      have hsucc : (q + 1) * ns = q * ns + ns := Nat.succ_mul q ns
      rw [if_pos hlong, nextNode_of_lt hq', deref_some hq']
      simp only [hsize', wsub_of_le hlong.le]
      rw [ih (q + 1) (pos - ns) hq' (by omega) (by omega)]
      congr 2
      omega
    · rw [if_neg hlong]
      have hafter := cursor_after hns hq (show 0 + pos ≤ ns by omega)
      rw [Nat.zero_add, Nat.add_zero] at hafter
      rw [← hafter]
      -- at a node's end the cursor moves to the next one, or is null behind the last
      by_cases hend : pos = ns
      · rw [if_pos hend, if_pos hend.symm]
      · rw [if_neg hend, if_neg (fun he => hend he.symm)]

end ByteArray

end LoNetfw.Util
