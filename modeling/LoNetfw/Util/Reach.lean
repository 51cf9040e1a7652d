import LoNetfw.Util.Calls

namespace LoNetfw.Util

open Basis

/-!
# `ByteArray` — the reachable states

`Reachable` collects every state that calls of any size lead to, as long as none of them ran into
undefined behaviour, and with the bytes of the nodes overwritten at any time by whoever holds
segments from `getWriteBuffers`.

Without a bound on the sizes the binary32 quotient may allocate fewer nodes than a request needs.
Such a request walks off the chain, so no state follows it; every state that is reached satisfies
the invariant (`Reachable.inv`).

* `Keeps` — a fault, or a state with the invariant again; its rules follow those of `Safe`;
* `exec_keeps` — every call, with no bound on what it stores.
-/

namespace ByteArray

variable {b : ByteArray}

/-! ### Growing, with no bound on the request -/

/-- `addTotalSize` keeps the invariant, whatever the rounding gives. -/
theorem addTotalSize_inv (h : b.Inv) (fill : ℕ → ℕ → UInt8) (size : ℕ) :
    (addTotalSize fill size b).Inv ∧ (addTotalSize fill size b).nodeSize = b.nodeSize := by
  obtain ⟨_, _, rfl, hinv, -, -, hnode, -⟩ := addTotalSize_adds h fill size
  exact ⟨hinv, hnode⟩

/-! ### Requests that do not fit -/

variable {ns : ℕ} {nodes : List ByteArrayNode}

/-- The `write` loop walks off the chain when the buffer is longer than the capacity. -/
theorem writeLoop_short (hns : 0 < ns) :
    ∀ (fuel : ℕ) (nodes : List ByteArrayNode) (q r p : ℕ) (buf : List UInt8), Blocks ns nodes →
      r < ns → q < nodes.length → nodes.length * ns < q * ns + r + buf.length →
      ∃ e, writeLoop fuel nodes (some q) r (ns - r) p buf = .error e ∧ e.isFault = true := by
  intro fuel
  induction fuel with
  | zero =>
    intro nodes q r p buf _ hr hq hshort
    have hlong := (past_block hr hq hshort).1
    have hne : buf ≠ [] := List.ne_nil_of_length_pos (Nat.zero_lt_of_lt hlong)
    rw [writeLoop, if_neg hne]
    exact ⟨_, rfl, rfl⟩
  | succ fuel ih =>
    intro nodes q r p buf h hr hq hshort
    obtain ⟨hlong, hnext⟩ := past_block hr hq hshort
    have hne : buf ≠ [] := List.ne_nil_of_length_pos (Nat.zero_lt_of_lt hlong)
    have htake : (buf.take (ns - r)).length = ns - r := by rw [List.length_take]; omega
    obtain ⟨node', hstore, hblocks, -⟩ :=
      store_eq h hq (show r + (buf.take (ns - r)).length ≤ ns by omega)
    rw [writeLoop, if_neg hne, if_neg (Nat.not_le.mpr hlong), deref_some hq]
    simp only [bind, Except.bind, hstore]
    -- another node, or the end of the chain, where the next access faults
    by_cases hq' : q + 1 < nodes.length
    · have hq'' : q + 1 < (nodes.set q node').length := by rw [List.length_set]; exact hq'
      have hsize' := (hblocks _ (List.getElem_mem hq'')).1
      obtain ⟨e, hloop, he⟩ := ih (nodes.set q node') (q + 1) 0 (p + (ns - r))
        (buf.drop (ns - r)) hblocks hns hq'' (by rw [List.length_set, List.length_drop]; omega)
      rw [Nat.sub_zero] at hloop
      refine ⟨e, ?_, he⟩
      rw [nextNode_of_lt hq', deref_some hq'']
      simp only [hsize', hloop]
    · rw [nextNode, if_neg hq']
      exact ⟨_, rfl, rfl⟩

/-- The segment loop walks off the chain when more bytes are asked for than the capacity has. -/
theorem bufferLoop_short (h : Blocks ns nodes) (hns : 0 < ns) :
    ∀ (fuel q r n : ℕ), r < ns → q < nodes.length → nodes.length * ns < q * ns + r + n →
      ∃ e, bufferLoop nodes fuel (some q) r (ns - r) n = .error e ∧ e.isFault = true := by
  intro fuel
  induction fuel with
  | zero =>
    intro q r n hr hq hshort
    have hlong := (past_block hr hq hshort).1
    rw [bufferLoop, if_neg (by omega)]
    exact ⟨_, rfl, rfl⟩
  | succ fuel ih =>
    intro q r n hr hq hshort
    obtain ⟨hlong, hnext⟩ := past_block hr hq hshort
    rw [bufferLoop, if_neg (by omega), if_neg (by omega), deref_some hq]
    simp only [bind, Except.bind]
    -- behind the last node the loop follows a null pointer
    by_cases hq' : q + 1 < nodes.length
    · obtain ⟨e, hloop, he⟩ := ih (q + 1) 0 (n - (ns - r)) hns hq' (by omega)
      rw [Nat.sub_zero] at hloop
      refine ⟨e, ?_, he⟩
      rw [nextNode_of_lt hq', deref_some hq']
      simp only [(h _ (List.getElem_mem hq')).1, hloop]
    · rw [nextNode, if_neg hq']
      exact ⟨_, rfl, rfl⟩

/-- The grown buffer at the cursor, when the request does not fit into it. -/
theorem grown_short (h : b.Inv) {size : ℕ} (hshort : b.totalSize < b.position + size) :
    (b.cur = none) ∨ ∃ q, b.cur = some q ∧ q < b.nodes.length ∧
      q * b.nodeSize + b.position % b.nodeSize = b.position ∧
      b.nodes.length * b.nodeSize < q * b.nodeSize + b.position % b.nodeSize + size := by
  have hle := h.position_le.trans h.dataSize_le
  rcases Nat.lt_or_ge b.position b.totalSize with hlt | hge
  · refine .inr ⟨b.position / b.nodeSize, h.cur_of_lt hlt, h.div_lt hlt, Inv.position_split b, ?_⟩
    rw [Inv.position_split, ← h.total]
    exact hshort
  · exact .inl (h.cur_eq_none_iff.mpr (by omega))

/-- A `write` that the grown buffer cannot hold runs into a fault. -/
theorem write_short (h : b.Inv) (fill : ℕ → ℕ → UInt8) {buf : List UInt8}
    (hshort : (addTotalSize fill buf.length b).totalSize
      < (addTotalSize fill buf.length b).position + buf.length) :
    ∃ e, write fill buf b = .error e (addTotalSize fill buf.length b) ∧ e.isFault = true := by
  obtain ⟨hc, -⟩ := addTotalSize_inv h fill buf.length
  have hle := hc.position_le.trans hc.dataSize_le
  have hne : buf ≠ [] := by
    rintro rfl
    exact Nat.not_lt_of_le hle hshort
  -- the current node is null, or the loop leaves the last one
  rcases grown_short hc hshort with hcur | ⟨q, hcur, hq, -, hpast⟩
  · refine ⟨.nullNode, ?_, rfl⟩
    simp only [write, hne, if_false, bind_run, get_run, modify_run, hcur, deref]
    rfl
  · have hr := Nat.mod_lt (addTotalSize fill buf.length b).position hc.nodeSize_pos
    obtain ⟨e, hloop, he⟩ := writeLoop_short hc.nodeSize_pos
      (addTotalSize fill buf.length b).nodes.length _ q _
      (addTotalSize fill buf.length b).position buf hc.blocks hr hq hpast
    refine ⟨e, ?_, he⟩
    have hsize := (hc.blocks _ (List.getElem_mem hq)).1
    simp only [write, hne, if_false, bind_run, get_run, modify_run, hcur, deref_some hq,
      liftExcept_ok, hsize, wsub_of_le hr.le, hloop]
    rfl

/-- The same for `getWriteBuffers`. -/
theorem getWriteBuffers_short (h : b.Inv) (fill : ℕ → ℕ → UInt8) {len : ℕ}
    (hshort : (addTotalSize fill len b).totalSize < (addTotalSize fill len b).position + len) :
    ∃ e, getWriteBuffers fill len b = .error e (addTotalSize fill len b) ∧ e.isFault = true := by
  obtain ⟨hc, -⟩ := addTotalSize_inv h fill len
  have hle := hc.position_le.trans hc.dataSize_le
  have hz : len ≠ 0 := by omega
  -- the current node is null, or the loop leaves the last one
  rcases grown_short hc hshort with hcur | ⟨q, hcur, hq, -, hpast⟩
  · refine ⟨.nullNode, ?_, rfl⟩
    simp only [getWriteBuffers, hz, if_false, bind_run, get_run, modify_run, hcur, deref]
    rfl
  · have hr := Nat.mod_lt (addTotalSize fill len b).position hc.nodeSize_pos
    obtain ⟨e, hloop, he⟩ := bufferLoop_short hc.blocks hc.nodeSize_pos
      (addTotalSize fill len b).nodes.length q _ len hr hq hpast
    refine ⟨e, ?_, he⟩
    have hsize := (hc.blocks _ (List.getElem_mem hq)).1
    simp only [getWriteBuffers, hz, if_false, bind_run, get_run, modify_run, hcur,
      deref_some hq, liftExcept_ok, hsize, wsub_of_le hr.le, hloop]
    rfl

/-! ### Operations that keep the invariant or fault -/

/-- From the invariant to the invariant, unless the operation ends with a fault. -/
def Keeps {α : Type} (op : Op α) : Prop :=
  ∀ b : ByteArray, b.Inv → (∀ e, (outcome op b).1 = .error e → e.isFault = false) →
    (outcome op b).2.Inv ∧ (outcome op b).2.nodeSize = b.nodeSize

variable {α β : Type}

/-- A safe call keeps the invariant. -/
theorem Safe.keeps {op : Op α} (h : Safe op) : Keeps op :=
  fun b hb _ => ⟨(h b hb).1, (h b hb).2.1⟩

/-- Two calls that keep it, in turn. -/
theorem Keeps.bind {op : Op α} {f : α → Op β} (hop : Keeps op) (hf : ∀ a, Keeps (f a)) :
    Keeps (op >>= f) := by
  intro b hb hno
  cases hres : op b with
  | ok a b' =>
    have hbind : (op >>= f) b = f a b' := by simp only [bind_run, hres]
    have hsame : outcome (op >>= f) b = outcome (f a) b' := by rw [outcome, hbind, outcome]
    have hfirst := hop b hb (by rw [outcome_ok hres]; simp)
    rw [outcome_ok hres] at hfirst
    rw [hsame] at hno ⊢
    obtain ⟨hinv, hnode⟩ := hf a b' hfirst.1 hno
    exact ⟨hinv, hnode.trans hfirst.2⟩
  -- the second operation is not run
  | error e b' =>
    have hbind : (op >>= f) b = .error e b' := by simp only [bind_run, hres]
    rw [outcome_error hbind] at hno ⊢
    have hfirst := hop b hb (by
      rw [outcome_error hres]
      exact fun e' he' => hno e' (congrArg Except.error (Except.error.inj he')))
    rw [outcome_error hres] at hfirst
    exact hfirst

/-- An operation that grows the buffer and then succeeds in it or faults. -/
theorem Keeps.of_grown {op : Op α} (fill : ℕ → ℕ → UInt8) (size : ℕ)
    (h : ∀ b : ByteArray, b.Inv → (∃ a b', op b = .ok a b' ∧
        (b'.Inv ∧ b'.nodeSize = (addTotalSize fill size b).nodeSize)) ∨
      ∃ e b', op b = .error e b' ∧ e.isFault = true) : Keeps op := by
  intro b hb hno
  rcases h b hb with ⟨a, b', hop, hinv, hnode⟩ | ⟨e, b', hop, he⟩
  · rw [outcome_ok hop]
    exact ⟨hinv, hnode.trans (addTotalSize_inv hb fill size).2⟩
  · rw [outcome_error hop] at hno
    rw [hno e rfl] at he
    exact absurd he Bool.false_ne_true

/-- `write` of any length keeps it: where the nodes run out it faults half way. -/
theorem Keeps.write (fill : ℕ → ℕ → UInt8) (buf : List UInt8) : Keeps (ByteArray.write fill buf) := by
  refine Keeps.of_grown fill buf.length fun b hb => ?_
  by_cases hfit : b.position + buf.length ≤ b.totalSize + b.newNodes buf.length * b.nodeSize
  · obtain ⟨b', _, hwrite, hb', -, -, hnode, -⟩ := write_adds hb fill hfit
    exact .inl ⟨(), b', hwrite, hb', hnode.trans (addTotalSize_inv hb fill _).2.symm⟩
  · obtain ⟨e, hwrite, he⟩ := write_short hb fill
      (Nat.lt_of_not_le (mt (addTotalSize_room hb fill _).mp hfit))
    exact .inr ⟨e, _, hwrite, he⟩

/-- `getWriteBuffers` likewise. -/
theorem Keeps.getWriteBuffers (fill : ℕ → ℕ → UInt8) (len : ℕ) :
    Keeps (ByteArray.getWriteBuffers fill len) := by
  refine Keeps.of_grown fill len fun b hb => ?_
  obtain ⟨hc, -⟩ := addTotalSize_inv hb fill len
  by_cases hfit : (addTotalSize fill len b).position + len ≤ (addTotalSize fill len b).totalSize
  · obtain ⟨bufs, hget, -⟩ := getWriteBuffers_fits hc fill hfit
    exact .inl ⟨_, _, (getWriteBuffers_grown hc hfit).trans hget, hc, rfl⟩
  · obtain ⟨e, hget, he⟩ := getWriteBuffers_short hb fill (Nat.lt_of_not_le hfit)
    exact .inr ⟨e, _, hget, he⟩

/-! ### Calls -/

variable (host : Endian) (u : Unspecified)

/-- Every call of the buffer part keeps the invariant. -/
theorem execBuffer_keeps (c : BufferCall) : Keeps (execBuffer u c) := by
  cases c
  case write buf => exact (Keeps.write _ buf).bind fun _ => (Safe.pure _).keeps
  all_goals exact Safe.keeps (execBuffer_safe u _ (Nat.two_pow_pos 24))

/-- The typed writers: only the bytes of a string may be many. -/
theorem writeValue_keeps (k : Kind) (v : k.Carrier) : Keeps (writeValue host u k v) := by
  cases k
  case stringFInt16 | stringFInt32 | stringFInt64 =>
    exact (writeFixed_safe host u (by decide) _).keeps.bind fun _ => Keeps.write _ _
  case stringVInt => exact (writeUInt64_safe u _).keeps.bind fun _ => Keeps.write _ _
  all_goals exact Safe.keeps (writeValue_safe host u _ v (Nat.two_pow_pos 24))

/-- Every typed call keeps the invariant. -/
theorem exec_keeps (c : Call) : Keeps (exec host u c) := by
  cases c with
  | buffer c => exact execBuffer_keeps u c
  | getWriteBuffers len =>
    exact (Keeps.getWriteBuffers _ len).bind fun _ => (Safe.get.bind fun _ => Safe.pure _).keeps
  | setLittleEndian isLittle => exact Safe.keeps (exec_safe host u _ (Nat.two_pow_pos 24))
  | writeString data => exact (Keeps.write _ data).bind fun _ => (Safe.pure _).keeps
  | writeValue k v => exact (writeValue_keeps host u k v).bind fun _ => (Safe.pure _).keeps
  | readValue k => exact Safe.keeps (exec_safe host u _ (Nat.two_pow_pos 24))

/-! ### Reachable states -/

/-- The same nodes with other bytes in them. -/
def SameShape (nodes nodes' : List ByteArrayNode) : Prop :=
  nodes'.map (fun node => (node.size, node.data.length)) =
    nodes.map fun node => (node.size, node.data.length)

/-- The states of a `ByteArray` of node size `ns`. -/
inductive Reachable (ns : ℕ) : ByteArray → Prop
  | new (fill : ℕ → UInt8) : Reachable ns (new ns fill)
  | call {b : ByteArray} (v : Unspecified) (c : Call) (hb : Reachable ns b)
      (hno : ∀ e, (outcome (exec host v c) b).1 = .error e → e.isFault = false) :
      Reachable ns (outcome (exec host v c) b).2
  /-- Whoever holds segments of the buffer stores into them. -/
  | stored {b : ByteArray} (nodes' : List ByteArrayNode) (hb : Reachable ns b)
      (hsame : SameShape b.nodes nodes') : Reachable ns { b with nodes := nodes' }

/-- Storing into the nodes does not touch their shape. -/
theorem Inv.stored {nodes' : List ByteArrayNode} (h : b.Inv) (hsame : SameShape b.nodes nodes') :
    Inv { b with nodes := nodes' } := by
  have hlen : nodes'.length = b.nodes.length := by
    have := congrArg List.length hsame
    rwa [List.length_map, List.length_map] at this
  refine {
    nodeSize_pos := h.nodeSize_pos
    blocks := ?_
    nodes_pos := by dsimp only; rw [hlen]; exact h.nodes_pos
    total := by dsimp only; rw [hlen]; exact h.total
    position_le := h.position_le
    dataSize_le := h.dataSize_le
    cursor := by dsimp only; rw [hlen]; exact h.cursor }
  -- a node of the same shape is as long as the one it stands for
  intro node hnode
  have hmem : (node.size, node.data.length) ∈
      b.nodes.map fun node => (node.size, node.data.length) := by
    rw [← hsame]
    exact List.mem_map_of_mem hnode
  obtain ⟨old, hold, heq⟩ := List.mem_map.mp hmem
  obtain ⟨hsize, hdata⟩ := Prod.mk.inj heq
  rw [← hsize, ← hdata]
  exact h.blocks old hold

variable {host} in
/-- **Reachable states.**  Each of them satisfies the representation invariant. -/
theorem Reachable.inv {ns : ℕ} (hns : 1 ≤ ns) (h : Reachable host ns b) :
    b.Inv ∧ b.nodeSize = ns := by
  induction h with
  | new fill => exact ⟨new_inv hns fill, rfl⟩
  -- `hno`: the call has not run into undefined behaviour
  | call v c _ hno ih =>
    obtain ⟨hinv, hnode⟩ := exec_keeps host v c _ ih.1 hno
    exact ⟨hinv, hnode.trans ih.2⟩
  | stored nodes' _ hsame ih => exact ⟨ih.1.stored hsame, ih.2⟩

variable {host} in
/-- A call that stores fewer than `2 ^ 24` bytes leads to a reachable state. -/
theorem Reachable.small {ns : ℕ} (hns : 1 ≤ ns) (h : Reachable host ns b) (v : Unspecified) (c : Call)
    (hc : c.request < 2 ^ 24) : Reachable host ns (outcome (exec host v c) b).2 :=
  h.call v c (exec_safe host v c hc b (h.inv hns).1).2.2

end ByteArray

end LoNetfw.Util
