import LoNetfw.Util.Reach

namespace LoNetfw.Util

open Basis

/-!
# Full-length transfers between a socket and a `ByteArray`

`Stream::readF` and `writeF` repeat `SocketStream::read` and `write` until all bytes are through.
What the socket answers to each call is an input: the bytes that `recvmsg` stores into the segments,
the count that `sendmsg` accepts, or a result that is not positive.

* `readF_stores` — whatever the counts, receiving is one `write` of all bytes, in every member of the
  buffer;
* `readF_stops` — when a call fails, the data is that of a `write` of what came before;
* `writeF_sends`, `writeF_stops` — sending takes the bytes from the cursor on, in order.
-/

/-- What the socket answers to `recvmsg`: it stores bytes and returns their number, or it returns a
    result that is not positive. -/
inductive RecvReply
  | stored (bytes : List UInt8)
  | failed (ret : ℤ)
  deriving DecidableEq, Repr

/-- The kernel fills the segments with the received bytes, one after the other. -/
def scatter : List ByteArrayNode → List Iovec → List UInt8 → Except Exn (List ByteArrayNode)
  | nodes, _, [] => .ok nodes
  | _, [], _ :: _ => .error .outOfBounds
  | nodes, v :: vs, b :: bs => do
    let (i, node) ← deref nodes (some v.node)
    let node' ← node.store v.offset ((b :: bs).take v.len)
    scatter (nodes.set i node') vs ((b :: bs).drop v.len)

namespace SocketStream

/-- `SocketStream::read(buf, len)`. -/
def read (connected : Bool) (fill : ℕ → ℕ → UInt8) (reply : RecvReply) (len : ℕ) : Op ℤ := do
  if !connected then return -1
  let (_, iovecs) ← ByteArray.getWriteBuffers fill len
  match reply with
  | .failed ret => return ret
  | .stored bytes =>
    let b ← get
    let nodes ← ByteArray.liftExcept (scatter b.nodes iovecs bytes)
    set { b with nodes := nodes }
    if bytes.length > 0 then ByteArray.setPosition (b.position + bytes.length)
    return bytes.length

/-- `SocketStream::write(buf, len)`; the state on top of the buffer are the bytes that `sendmsg` has
    accepted, and `ret` is what it returns. -/
def write (connected : Bool) (ret : ℤ) (len : ℕ) : StateT (List UInt8) Op ℤ := do
  if !connected then return -1
  let b ← (get : Op ByteArray)
  let (_, iovecs) ← (ByteArray.liftExcept (b.getReadBuffers len) : Op _)
  if ret > 0 then
    modify (· ++ (iovecs.flatMap (segment b.nodes)).take ret.toNat)
    (ByteArray.setPosition (b.position + ret.toNat) : Op Unit)
  return ret

end SocketStream

namespace Stream

/-- The loop of the full-length transfers, over what the socket answers to each call: the value
    returned, or `none` while it waits for the next answer. -/
def transferF {m : Type → Type} [Monad m] {ρ : Type} (call : ρ → ℕ → m ℤ) (len : ℕ) :
    List ρ → ℕ → m (Option ℤ)
  | _, 0 => return some len
  | [], _ + 1 => return none
  | r :: rs, left + 1 => do
    let length ← call r (left + 1)
    if length ≤ 0 then return some length
    transferF call len rs (wsub (left + 1) length.toNat)

/-- `readF(buf, len)` over `SocketStream::read`. -/
def readF (fill : ℕ → ℕ → UInt8) (replies : List RecvReply) (len : ℕ) : Op (Option ℤ) :=
  transferF (SocketStream.read true fill) len replies len

/-- `writeF(buf, len)` over `SocketStream::write`. -/
def writeF (rets : List ℤ) (len : ℕ) : StateT (List UInt8) Op (Option ℤ) :=
  transferF (SocketStream.write true) len rets len

end Stream

/-! ### One buffer from its bytes -/

/-- Chains of nodes of one size are equal when their bytes are. -/
theorem nodes_ext {ns : ℕ} {L L' : List ByteArrayNode} (h : Blocks ns L) (h' : Blocks ns L')
    (hlen : L.length = L'.length) (hc : contents L = contents L') : L = L' := by
  induction L generalizing L' with
  | nil => exact (List.length_eq_zero_iff.mp hlen.symm).symm
  | cons node L ih =>
    cases L' with
    | nil => exact absurd hlen (Nat.succ_ne_zero _)
    | cons node' L' =>
      obtain ⟨hsize, hdata⟩ := h node List.mem_cons_self
      obtain ⟨hsize', hdata'⟩ := h' node' List.mem_cons_self
      simp only [contents, List.map_cons, List.flatten_cons] at hc
      -- nodes of one size are cut at the same places
      obtain ⟨hhead, htail⟩ := List.append_inj hc (hdata.trans hdata'.symm)
      have hnode : node = node' := by
        cases node
        cases node'
        simp only at hsize hsize' hhead
        rw [hsize, hsize', hhead]
      rw [hnode, ih (fun n hn => h n (List.mem_cons_of_mem _ hn))
        (fun n hn => h' n (List.mem_cons_of_mem _ hn)) (Nat.succ.inj hlen) htail]

namespace ByteArray

variable {b b' : ByteArray}

/-- The bytes, the counters and the byte order determine a buffer. -/
theorem Inv.ext (h : b.Inv) (h' : b'.Inv) (hmem : b.mem = b'.mem) (hns : b.nodeSize = b'.nodeSize)
    (hpos : b.position = b'.position) (hdata : b.dataSize = b'.dataSize)
    (hend : b.baEndian = b'.baEndian) : b = b' := by
  have htotal : b.totalSize = b'.totalSize := by rw [← h.length_mem, ← h'.length_mem, hmem]
  have hlen : b.nodes.length = b'.nodes.length := by
    rw [h.nodes_length, h'.nodes_length, htotal, hns]
  have hnodes : b.nodes = b'.nodes := nodes_ext h.blocks (by rw [hns]; exact h'.blocks) hlen hmem
  have hcur : b.cur = b'.cur := by rw [h.cursor, h'.cursor, hlen, hns, hpos]
  cases b
  cases b'
  simp only at hnodes hcur hns htotal hdata hpos hend
  rw [hnodes, hcur, hns, htotal, hdata, hpos, hend]

/-! ### Storing into segments -/

variable {ns : ℕ}

/-- Bytes that fit into the segments of a loop are stored at the position it started from. -/
theorem scatter_eq (hns : 0 < ns) {nodes : List ByteArrayNode} (h : Blocks ns nodes) :
    ∀ (fuel q r n : ℕ) (nodes' : List ByteArrayNode) (bytes : List UInt8), r < ns →
      q < nodes.length → 0 < n → q * ns + r + n ≤ nodes.length * ns → nodes.length ≤ fuel + q →
      Blocks ns nodes' → nodes'.length = nodes.length → bytes.length ≤ n →
      ∃ bufs nodes'', bufferLoop nodes fuel (some q) r (ns - r) n = .ok bufs ∧
        scatter nodes' bufs bytes = .ok nodes'' ∧ Blocks ns nodes'' ∧
        nodes''.length = nodes.length ∧
        contents nodes'' = overlay (contents nodes') (q * ns + r) bytes := by
  intro fuel
  induction fuel with
  -- each turn takes one node, so the nodes that are left bound the turns
  | zero => intro q r n _ _ _ hq _ _ hfuel; omega
  | succ fuel ih =>
    intro q r n nodes' bytes hr hq hpos hcap hfuel h' hlen hbytes
    have hq₁ : q < nodes'.length := by omega
    rw [bufferLoop, if_neg (by omega)]
    by_cases hfit : ns - r ≥ n
    · rw [if_pos hfit, deref_some hq]
      cases bytes with
      | nil => exact ⟨_, nodes', rfl, rfl, h', hlen, (overlay_nil _ _).symm⟩
      | cons x bytes =>
        obtain ⟨node', hstore, hblocks, hcont⟩ := store_eq h' hq₁
          (show r + (x :: bytes).length ≤ ns by omega)
        refine ⟨_, nodes'.set q node', rfl, ?_, hblocks, by rw [List.length_set, hlen], hcont⟩
        rw [scatter, deref_some hq₁, List.take_of_length_le hbytes, List.drop_of_length_le hbytes]
        simp only [bind, Except.bind, hstore]
        rw [scatter]
    · obtain ⟨hq', hnext⟩ := next_block (n := n) hr (by omega) hcap
      rw [if_neg hfit, deref_some hq]
      simp only [bind, Except.bind, nextNode_of_lt hq', deref_some hq',
        (h _ (List.getElem_mem hq')).1, pure, Except.pure]
      have hrec := fun nodes' bytes => ih (q + 1) 0 (n - (ns - r)) nodes' bytes hns hq' (by omega)
        (by rw [← hnext]; omega) (by omega)
      simp only [Nat.sub_zero] at hrec
      cases bytes with
      | nil =>
        obtain ⟨bufs, _, hloop, -⟩ := hrec nodes' [] h' hlen (Nat.zero_le _)
        exact ⟨_, nodes', by rw [hloop], rfl, h', hlen, (overlay_nil _ _).symm⟩
      | cons x bytes =>
        -- this segment is filled, the others take the rest
        have htake : ((x :: bytes).take (ns - r)).length ≤ ns - r := List.length_take_le _ _
        obtain ⟨node', hstore, hblocks, hcont⟩ := store_eq h' hq₁
          (show r + ((x :: bytes).take (ns - r)).length ≤ ns by omega)
        obtain ⟨bufs, nodes'', hloop, hscatter, hblocks', hlen', hcont'⟩ :=
          hrec (nodes'.set q node') ((x :: bytes).drop (ns - r)) hblocks
            (by rw [List.length_set, hlen]) (by rw [List.length_drop]; omega)
        refine ⟨_, nodes'', by rw [hloop], ?_, hblocks', hlen', ?_⟩
        · rw [scatter, deref_some hq₁]
          simp only [bind, Except.bind, hstore, hscatter]
        · rw [hcont', hcont, ← hnext]
          by_cases hall : (x :: bytes).length ≤ ns - r
          · rw [List.drop_of_length_le hall, overlay_nil, List.take_of_length_le hall]
          · have hfull : ((x :: bytes).take (ns - r)).length = ns - r := by
              rw [List.length_take]
              omega
            have hjoin := overlay_overlay (contents nodes') (q * ns + r) ((x :: bytes).take (ns - r))
              ((x :: bytes).drop (ns - r)) (by rw [h'.length_contents, hlen]; omega)
            rw [hfull, List.take_append_drop] at hjoin
            exact hjoin

end ByteArray

/-! ### Receiving -/

/-- `s` is `g` after `bytes` have been stored from its cursor on. -/
structure Stored (g : ByteArray) (bytes : List UInt8) (s : ByteArray) : Prop where
  inv : s.Inv
  mem : s.mem = overlay g.mem g.position bytes
  nodeSize : s.nodeSize = g.nodeSize
  totalSize : s.totalSize = g.totalSize
  position : s.position = g.position + bytes.length
  dataSize : s.dataSize = max g.dataSize (g.position + bytes.length)
  baEndian : s.baEndian = g.baEndian

variable {b g s s' : ByteArray}

/-- Nothing has arrived at first. -/
theorem Stored.refl (h : s.Inv) : Stored s [] s where
  inv := h
  mem := (overlay_nil _ _).symm
  nodeSize := rfl
  totalSize := rfl
  position := rfl
  dataSize := (Nat.max_eq_left h.position_le).symm
  baEndian := rfl

/-- Two transfers in turn store both pieces. -/
theorem Stored.trans {d c : List UInt8} (hg : g.Inv) (h : Stored g d s) (h' : Stored s c s') :
    Stored g (d ++ c) s' where
  inv := h'.inv
  mem := by
    have hle := h.inv.position_le.trans h.inv.dataSize_le
    rw [h.position, h.totalSize, ← hg.length_mem] at hle
    rw [h'.mem, h.mem, h.position, overlay_overlay _ _ _ _ ((Nat.le_add_right _ _).trans hle)]
  nodeSize := h'.nodeSize.trans h.nodeSize
  totalSize := h'.totalSize.trans h.totalSize
  position := by rw [h'.position, h.position, List.length_append, Nat.add_assoc]
  dataSize := by
    rw [h'.dataSize, h.dataSize, h.position, List.length_append]
    omega
  baEndian := h'.baEndian.trans h.baEndian

/-- The bytes stored determine the buffer. -/
theorem Stored.unique {c : List UInt8} (h : Stored g c s) (h' : Stored g c s') : s = s' :=
  h.inv.ext h'.inv (h.mem.trans h'.mem.symm) (h.nodeSize.trans h'.nodeSize.symm)
    (h.position.trans h'.position.symm) (h.dataSize.trans h'.dataSize.symm)
    (h.baEndian.trans h'.baEndian.symm)

/-- `write` stores its buffer. -/
theorem stored_write (h : g.Inv) (fill : ℕ → ℕ → UInt8) {buf : List UInt8}
    (hfit : g.position + buf.length ≤ g.totalSize) :
    ∃ s, ByteArray.write fill buf g = .ok () s ∧ Stored g buf s := by
  obtain ⟨s, hwrite, hinv, hmem, hnode, htotal, hpos, hdata, hend⟩ :=
    ByteArray.write_fits h fill hfit
  exact ⟨s, hwrite, hinv, hmem, hnode, htotal, hpos, hdata, hend⟩

namespace SocketStream

variable {fill : ℕ → ℕ → UInt8}

/-- One call that receives: it stores what it received. -/
theorem read_stored (h : s.Inv) {c : List UInt8} {left : ℕ} (hc : c ≠ []) (hle : c.length ≤ left)
    (hfit : s.position + left ≤ s.totalSize) :
    ∃ s', read true fill (.stored c) left s = .ok (c.length : ℤ) s' ∧ Stored s c s' := by
  have hpos : 0 < c.length := List.length_pos_iff.mpr hc
  have hcap := h.total
  have hlt : s.position < s.totalSize := by omega
  obtain ⟨i, node, hderef, hremain⟩ := h.deref_cur hlt
  obtain ⟨bufs, nodes', hloop, hscatter, hblocks, hlen, hcont⟩ := ByteArray.scatter_eq
    h.nodeSize_pos h.blocks s.nodes.length (s.position / s.nodeSize) (s.position % s.nodeSize) left
    s.nodes c (Nat.mod_lt _ h.nodeSize_pos) (h.div_lt hlt) (by omega)
    (by rw [ByteArray.Inv.position_split]; omega) (Nat.le_add_right _ _) h.blocks rfl hle
  rw [← h.cur_of_lt hlt] at hloop
  rw [ByteArray.Inv.position_split] at hcont
  have hget : ByteArray.getWriteBuffers fill left s = .ok (left, bufs) s := by
    have hz : left ≠ 0 := by omega
    simp only [ByteArray.getWriteBuffers, hz, if_false, ByteArray.bind_run, ByteArray.get_run,
      ByteArray.modify_run, ByteArray.addTotalSize_fits h fill hfit, hderef, hremain, hloop,
      ByteArray.liftExcept_ok]
    rfl
  -- the buffer once the kernel has stored the bytes
  have hinv : ByteArray.Inv { s with nodes := nodes' } := {
    nodeSize_pos := h.nodeSize_pos
    blocks := hblocks
    nodes_pos := by simp only [hlen]; exact h.nodes_pos
    total := by simp only [hlen]; exact h.total
    position_le := h.position_le
    dataSize_le := h.dataSize_le
    cursor := by simp only [hlen]; exact h.cursor }
  obtain ⟨s', hset, hinv', hmem', hnode', htotal', hdata', hpos', hend'⟩ :=
    ByteArray.setPosition_spec hinv (s.position + c.length) (by dsimp only; omega)
  refine ⟨s', ?_, hinv', hmem'.trans hcont, hnode', htotal', hpos', hdata', hend'⟩
  have hset' : ByteArray.setPosition (s.position + c.length) { s with nodes := nodes' } =
      .ok () s' := hset
  simp only [read, Bool.not_true, Bool.false_eq_true, if_false, ByteArray.bind_run, hget,
    ByteArray.get_run, hscatter, ByteArray.liftExcept_ok, gt_iff_lt, hpos, if_true]
  simp only [ByteArray.set_run, hset']
  rfl

/-- One call that fails: nothing but the capacity may have changed. -/
theorem read_failed (h : s.Inv) {ret : ℤ} {left : ℕ} (hfit : s.position + left ≤ s.totalSize) :
    read true fill (.failed ret) left s = .ok ret s := by
  obtain ⟨bufs, hget, -⟩ := ByteArray.getWriteBuffers_fits h fill hfit
  simp only [read, Bool.not_true, Bool.false_eq_true, if_false, ByteArray.bind_run, hget]
  rfl

/-- A call grows the buffer first. -/
theorem read_grown {reply : RecvReply} {len : ℕ} (h : (ByteArray.addTotalSize fill len b).Inv)
    (hfit : (ByteArray.addTotalSize fill len b).position + len
      ≤ (ByteArray.addTotalSize fill len b).totalSize) :
    read true fill reply len b = read true fill reply len (ByteArray.addTotalSize fill len b) := by
  simp only [read, Bool.not_true, Bool.false_eq_true, if_false, ByteArray.bind_run,
    ByteArray.getWriteBuffers_grown h hfit]

end SocketStream

namespace Stream

variable {fill : ℕ → ℕ → UInt8}

/-- One turn of the loop whose call returns a positive length. -/
theorem transferF_ok {ρ : Type} {call : ρ → ℕ → Op ℤ} {r : ρ} {rs : List ρ} {len left n : ℕ}
    (hleft : 0 < left) (hn : 0 < n) (hle : n ≤ left) (hcall : call r left s = .ok (n : ℤ) s') :
    transferF call len (r :: rs) left s = transferF call len rs (left - n) s' := by
  obtain ⟨left, rfl⟩ := Nat.exists_eq_succ_of_ne_zero hleft.ne'
  have hpos : ¬ (n : ℤ) ≤ 0 := by omega
  rw [transferF, ByteArray.bind_run, hcall]
  simp only [hpos, if_false]
  rw [Int.toNat_natCast, wsub_of_le hle]

/-- One turn whose call fails. -/
theorem transferF_failed {ρ : Type} {call : ρ → ℕ → Op ℤ} {r : ρ} {rs : List ρ} {len left : ℕ}
    {ret : ℤ} (hleft : 0 < left) (hret : ret ≤ 0) (hcall : call r left s = .ok ret s') :
    transferF call len (r :: rs) left s = .ok (some ret) s' := by
  obtain ⟨left, rfl⟩ := Nat.exists_eq_succ_of_ne_zero hleft.ne'
  rw [transferF, ByteArray.bind_run, hcall]
  simp only [hret, if_true]
  rfl

/-- A run of receiving calls inside the capacity stores all bytes. -/
theorem receive_run (fill : ℕ → ℕ → UInt8) (len : ℕ) (chunks : List (List UInt8))
    (hne : ∀ c ∈ chunks, c ≠ []) (h : s.Inv) {left : ℕ} (hle : chunks.flatten.length ≤ left)
    (hfit : s.position + left ≤ s.totalSize)
    (rest : List RecvReply) :
    ∃ s', Stored s chunks.flatten s' ∧
      transferF (SocketStream.read true fill) len (chunks.map .stored ++ rest) left s =
        transferF (SocketStream.read true fill) len rest (left - chunks.flatten.length) s' := by
  induction chunks generalizing s left with
  | nil => exact ⟨s, .refl h, rfl⟩
  | cons c chunks ih =>
    -- the capacity that `left` needs stays the same: the cursor moves as `left` shrinks
    have hc := hne c List.mem_cons_self
    have hpos : 0 < c.length := List.length_pos_iff.mpr hc
    rw [List.flatten_cons, List.length_append] at hle
    obtain ⟨s₁, hcall, hs₁⟩ := SocketStream.read_stored h hc (by omega) hfit
    obtain ⟨s', hs', hrun⟩ := ih (fun d hd => hne d (List.mem_cons_of_mem _ hd)) hs₁.inv
      (by omega : chunks.flatten.length ≤ left - c.length) (by rw [hs₁.position, hs₁.totalSize]; omega)
    refine ⟨s', hs₁.trans h hs', ?_⟩
    rw [List.map_cons, List.cons_append, transferF_ok (by omega) hpos (by omega) hcall, hrun,
      List.flatten_cons, List.length_append, Nat.sub_sub]

/-- The first call grows the buffer, whatever the socket answers. -/
theorem readF_grown {replies : List RecvReply} {len : ℕ} (hne : replies ≠ [])
    (h : (ByteArray.addTotalSize fill len b).Inv)
    (hfit : (ByteArray.addTotalSize fill len b).position + len
      ≤ (ByteArray.addTotalSize fill len b).totalSize) :
    readF fill replies len b = readF fill replies len (ByteArray.addTotalSize fill len b) := by
  cases len with
  | zero => rfl
  | succ len =>
    cases replies with
    | nil => exact absurd rfl hne
    | cons r rs =>
      rw [readF, transferF, ByteArray.bind_run, SocketStream.read_grown h hfit,
        ByteArray.bind_run]

/-- **`readF`.**  Over any positive counts that add up to `len`, it is one `write` of all bytes. -/
theorem readF_stores (h : b.Inv) (fill : ℕ → ℕ → UInt8) {len : ℕ} (hlen : 1 ≤ len)
    (hlt : len < 2 ^ 24) (chunks : List (List UInt8)) (hne : ∀ c ∈ chunks, c ≠ [])
    (hsum : chunks.flatten.length = len) :
    ∃ b', ByteArray.write fill chunks.flatten b = .ok () b' ∧
      readF fill (chunks.map .stored) len b = .ok (some (len : ℤ)) b' := by
  have hfit := ByteArray.addTotalSize_covers h fill hlt
  obtain ⟨hg, -⟩ := ByteArray.addTotalSize_inv h fill len
  obtain ⟨b', hwrite, hb'⟩ := stored_write hg fill (by rw [hsum]; exact hfit :
    (ByteArray.addTotalSize fill len b).position + chunks.flatten.length ≤ _)
  refine ⟨b', ?_, ?_⟩
  · rw [ByteArray.write_grown (by rw [hsum]; exact hg) (by rw [hsum]; exact hfit), hsum]
    exact hwrite
  · have hreplies : chunks.map RecvReply.stored ≠ [] := by
      intro hnil
      rw [List.map_eq_nil_iff.mp hnil, List.flatten_nil, List.length_nil] at hsum
      omega
    obtain ⟨s', hs', hrun⟩ := receive_run fill len chunks hne hg hsum.le hfit []
    rw [readF_grown hreplies hg hfit, readF]
    -- both end in the grown buffer with all bytes stored
    rw [List.append_nil, hsum, Nat.sub_self] at hrun
    rw [hrun, hs'.unique hb']
    rfl

/-- **`readF` that fails.**  The result of the failed call is returned, and the data is that of a
    `write` of the bytes before it. -/
theorem readF_stops (h : b.Inv) (fill : ℕ → ℕ → UInt8) {len : ℕ} (hlt : len < 2 ^ 24)
    (chunks : List (List UInt8)) (hne : ∀ c ∈ chunks, c ≠ []) (hsum : chunks.flatten.length < len)
    {ret : ℤ} (hret : ret ≤ 0) (rest : List RecvReply) :
    ∃ b' b'', ByteArray.write fill chunks.flatten b = .ok () b' ∧
      readF fill (chunks.map .stored ++ .failed ret :: rest) len b = .ok (some ret) b'' ∧
      b''.position = b'.position ∧ b''.dataSize = b'.dataSize ∧
      slice b''.mem 0 b''.dataSize = slice b'.mem 0 b'.dataSize := by
  have hfit := ByteArray.addTotalSize_covers h fill hlt
  obtain ⟨hg, -⟩ := ByteArray.addTotalSize_inv h fill len
  obtain ⟨g, ext, hadd, -, hmem, -, -, -, hdata, hpos, -⟩ := ByteArray.addTotalSize_spec h fill hlt
  -- what has been received is what one write would have stored
  obtain ⟨b', ext', hwrite, -, -, hmem', -, hpos', hdata', -⟩ :=
    ByteArray.write_spec h fill (show chunks.flatten.length < 2 ^ 24 by omega)
  obtain ⟨s', hs', hrun⟩ := receive_run fill len chunks hne hg hsum.le hfit
    (.failed ret :: rest)
  refine ⟨b', s', hwrite, ?_, ?_, ?_, ?_⟩
  · rw [readF_grown (by simp) hg hfit, readF, hrun]
    refine transferF_failed (by omega) hret (SocketStream.read_failed hs'.inv ?_)
    rw [hs'.position, hs'.totalSize]
    omega
  · rw [hs'.position, hpos', hadd, hpos]
  · rw [hs'.dataSize, hdata', hadd, hpos, hdata]
  -- up to the end of the data the added nodes make no difference
  · have hd : b.dataSize ≤ b.mem.length := by
      rw [h.length_mem]
      exact h.dataSize_le
    rw [hs'.mem, hs'.dataSize, hadd, hmem, hpos, hdata, hmem', hdata',
      slice_overlay_prefix h.position_le hd, slice_overlay_prefix h.position_le hd]

end Stream

/-! ### Sending -/

/-- `s` is `g` with the cursor `n` bytes further on. -/
structure Advanced (g : ByteArray) (n : ℕ) (s : ByteArray) : Prop where
  inv : s.Inv
  mem : s.mem = g.mem
  dataSize : s.dataSize = g.dataSize
  position : s.position = g.position + n

section Wire

variable {α β : Type} (wire : List UInt8)

/-- Two calls on the buffer and the other end of the wire, in turn. -/
theorem wire_bind (op : StateT (List UInt8) Op α) (f : α → StateT (List UInt8) Op β) :
    (op >>= f) wire = (op wire >>= fun r => f r.1 r.2) := rfl

/-- A call that touches the buffer alone. -/
theorem wire_lift (op : Op α) :
    (liftM op : StateT (List UInt8) Op α) wire = (op >>= fun a => pure (a, wire)) := rfl

/-- A call that returns at once. -/
theorem wire_pure (a : α) : (pure a : StateT (List UInt8) Op α) wire = pure (a, wire) := rfl

/-- A call that changes the other end. -/
theorem wire_modify (g : List UInt8 → List UInt8) :
    (modify g : StateT (List UInt8) Op PUnit) wire = pure (⟨⟩, g wire) := rfl

end Wire

/-- One call that sends: the socket takes the bytes from the cursor on. -/
theorem SocketStream.write_sent (h : s.Inv) {n left : ℕ} (hn : 0 < n) (hle : n ≤ left)
    (hleft : left ≤ s.dataSize - s.position) (wire : List UInt8) :
    ∃ s', write true (n : ℤ) left wire s =
        .ok ((n : ℤ), wire ++ slice s.mem s.position n) s' ∧ Advanced s n s' := by
  have hdata := h.dataSize_le
  obtain ⟨bufs, hget, hbufs⟩ := ByteArray.getReadBuffers_spec h left
  obtain ⟨s', hset, hinv, hmem, -, -, hdata', hpos, -⟩ :=
    ByteArray.setPosition_spec h (s.position + n) (by omega)
  refine ⟨s', ?_, hinv, hmem, by rw [hdata']; omega, hpos⟩
  have hpos' : (0 : ℤ) < n := by omega
  have htake : (bufs.flatMap (segment s.nodes)).take n = slice s.mem s.position n := by
    rw [hbufs, Nat.min_eq_left hleft, slice, slice, List.take_take, Nat.min_eq_left hle]
  simp only [write, Bool.not_true, Bool.false_eq_true, if_false, gt_iff_lt, hpos', if_true]
  rw [Int.toNat_natCast]
  simp only [wire_bind, wire_lift, wire_pure, wire_modify, ByteArray.bind_run, ByteArray.get_run,
    ByteArray.pure_run, hget, ByteArray.liftExcept_ok, htake, hset]

/-- One call that fails: the socket takes nothing. -/
theorem SocketStream.write_failed (h : s.Inv) {ret : ℤ} (hret : ret ≤ 0) (left : ℕ)
    (wire : List UInt8) : write true ret left wire s = .ok (ret, wire) s := by
  obtain ⟨bufs, hget, -⟩ := ByteArray.getReadBuffers_spec h left
  have hneg : ¬ (0 : ℤ) < ret := by omega
  simp only [write, Bool.not_true, Bool.false_eq_true, if_false, gt_iff_lt, hneg]
  simp only [wire_bind, wire_lift, wire_pure, ByteArray.bind_run, ByteArray.get_run,
    ByteArray.pure_run, hget, ByteArray.liftExcept_ok]

namespace Stream

/-- A run of sending calls takes the bytes from the cursor on. -/
theorem send_run (len : ℕ) (counts : List ℕ) (hpos : ∀ n ∈ counts, 0 < n) (h : s.Inv) {left : ℕ}
    (hle : counts.sum ≤ left) (hleft : left ≤ s.dataSize - s.position) (wire : List UInt8)
    (rest : List ℤ) :
    ∃ s', Advanced s counts.sum s' ∧
      transferF (SocketStream.write true) len (counts.map (fun n : ℕ => (n : ℤ)) ++ rest) left wire s =
        transferF (SocketStream.write true) len rest (left - counts.sum)
          (wire ++ slice s.mem s.position counts.sum) s' := by
  -- each call sends its part and moves the position behind it
  induction counts generalizing s left wire with
  | nil =>
    refine ⟨s, ⟨h, rfl, rfl, rfl⟩, ?_⟩
    rw [List.sum_nil, slice_zero, List.append_nil]
    rfl
  | cons n counts ih =>
    have hn := hpos n List.mem_cons_self
    rw [List.sum_cons] at hle
    obtain ⟨s₁, hcall, hs₁⟩ := SocketStream.write_sent h hn (by omega : n ≤ left) hleft wire
    obtain ⟨s', hs', hrun⟩ := ih (fun m hm => hpos m (List.mem_cons_of_mem _ hm)) hs₁.inv
      (by omega : counts.sum ≤ left - n) (by rw [hs₁.position, hs₁.dataSize]; omega)
      (wire ++ slice s.mem s.position n)
    refine ⟨s', ⟨hs'.inv, hs'.mem.trans hs₁.mem, hs'.dataSize.trans hs₁.dataSize, ?_⟩, ?_⟩
    · rw [hs'.position, hs₁.position, List.sum_cons, Nat.add_assoc]
    · rw [hs₁.mem, hs₁.position, List.append_assoc, slice_append, Nat.sub_sub] at hrun
      rw [List.sum_cons, ← hrun, List.map_cons, List.cons_append]
      obtain ⟨left, rfl⟩ := Nat.exists_eq_succ_of_ne_zero (show left ≠ 0 by omega)
      have hneg : ¬ (n : ℤ) ≤ 0 := by omega
      rw [transferF]
      simp only [wire_bind, ByteArray.bind_run, hcall, hneg, if_false]
      rw [Int.toNat_natCast, wsub_of_le (by omega)]

/-- **`writeF`.**  Over any positive counts that add up to `len`, the socket takes the `len` bytes
    from the cursor on, in order, and the cursor moves behind them. -/
theorem writeF_sends (h : b.Inv) {len : ℕ} (hlen : len ≤ b.getReadSize) (counts : List ℕ)
    (hpos : ∀ n ∈ counts, 0 < n) (hsum : counts.sum = len) (wire : List UInt8) :
    ∃ b', writeF (counts.map fun n : ℕ => (n : ℤ)) len wire b =
        .ok (some (len : ℤ), wire ++ slice b.mem b.position len) b' ∧ Advanced b len b' := by
  rw [h.getReadSize_eq] at hlen
  obtain ⟨b', hb', hrun⟩ := send_run len counts hpos h hsum.le hlen wire []
  rw [hsum] at hb' hrun
  refine ⟨b', ?_, hb'⟩
  rw [List.append_nil, Nat.sub_self] at hrun
  rw [writeF, hrun]
  rfl

/-- **`writeF` that fails.**  The result of the failed call is returned; what was taken before are the
    bytes from the cursor on. -/
theorem writeF_stops (h : b.Inv) {len : ℕ} (hlen : len ≤ b.getReadSize) (counts : List ℕ)
    (hpos : ∀ n ∈ counts, 0 < n) (hsum : counts.sum < len) {ret : ℤ} (hret : ret ≤ 0)
    (rest : List ℤ) (wire : List UInt8) :
    ∃ b', writeF (counts.map (fun n : ℕ => (n : ℤ)) ++ ret :: rest) len wire b =
        .ok (some ret, wire ++ slice b.mem b.position counts.sum) b' ∧
      Advanced b counts.sum b' := by
  rw [h.getReadSize_eq] at hlen
  obtain ⟨b', hb', hrun⟩ := send_run len counts hpos h hsum.le hlen wire (ret :: rest)
  refine ⟨b', ?_, hb'⟩
  have hfail := SocketStream.write_failed hb'.inv hret (len - counts.sum)
    (wire ++ slice b.mem b.position counts.sum)
  obtain ⟨left, hleft⟩ := Nat.exists_eq_succ_of_ne_zero (show len - counts.sum ≠ 0 by omega)
  rw [hleft] at hrun hfail
  rw [writeF, hrun, transferF]
  simp only [wire_bind, ByteArray.bind_run, hfail, hret, if_true]
  rfl

/-- **Full-length transfers.**  From every reachable buffer, for every length and every sequence of
    counts: `readF` is one `write` of the received bytes, and when a call fails before the last one
    its result is returned and the data is that of a `write` of what came before; `writeF` hands
    the bytes from the cursor on to the socket in order, up to a call that fails. -/
theorem transfers {host : Endian} {ns : ℕ} (hns : 1 ≤ ns) (hb : ByteArray.Reachable host ns b)
    (fill : ℕ → ℕ → UInt8) :
    (∀ len, 1 ≤ len → len < 2 ^ 24 → ∀ chunks : List (List UInt8), (∀ c ∈ chunks, c ≠ []) →
      (chunks.flatten.length = len → ∃ b', ByteArray.write fill chunks.flatten b = .ok () b' ∧
        readF fill (chunks.map .stored) len b = .ok (some (len : ℤ)) b') ∧
      (chunks.flatten.length < len → ∀ ret ≤ 0, ∀ rest, ∃ b' b'',
        ByteArray.write fill chunks.flatten b = .ok () b' ∧
        readF fill (chunks.map .stored ++ .failed ret :: rest) len b = .ok (some ret) b'' ∧
        b''.position = b'.position ∧ b''.dataSize = b'.dataSize ∧
        slice b''.mem 0 b''.dataSize = slice b'.mem 0 b'.dataSize)) ∧
    ∀ len ≤ b.getReadSize, ∀ counts : List ℕ, (∀ n ∈ counts, 0 < n) →
      (counts.sum = len → ∃ b', writeF (counts.map fun n : ℕ => (n : ℤ)) len [] b =
          .ok (some (len : ℤ), slice b.mem b.position len) b' ∧ Advanced b len b') ∧
      (counts.sum < len → ∀ ret ≤ 0, ∀ rest, ∃ b',
        writeF (counts.map (fun n : ℕ => (n : ℤ)) ++ ret :: rest) len [] b =
          .ok (some ret, slice b.mem b.position counts.sum) b' ∧ Advanced b counts.sum b') := by
  obtain ⟨h, -⟩ := hb.inv hns
  refine ⟨?_, ?_⟩
  · intro len hlen hlt chunks hne
    exact ⟨readF_stores h fill hlen hlt chunks hne,
      fun hsum ret hret rest => readF_stops h fill hlt chunks hne hsum hret rest⟩
  · intro len hlen counts hpos
    exact ⟨fun hsum => writeF_sends h hlen counts hpos hsum [],
      fun hsum ret hret rest => writeF_stops h hlen counts hpos hsum hret rest []⟩

/-- A fresh buffer with nodes of two bytes receives five bytes in pieces of three and two. -/
theorem transfers_twoBytes : ∃ b', ByteArray.write (fun _ _ => 0) [1, 2, 3, 4, 5]
      (ByteArray.new 2 fun _ => 0) = .ok () b' ∧
    readF (fun _ _ => 0) [.stored [1, 2, 3], .stored [4, 5]] 5 (ByteArray.new 2 fun _ => 0) =
      .ok (some 5) b' :=
  ((transfers (by decide) (.new fun _ => 0 : ByteArray.Reachable .little 2 _) fun _ _ => 0).1 5
    (by decide) (by decide) [[1, 2, 3], [4, 5]] (by decide)).1 (by decide)

end Stream

end LoNetfw.Util
