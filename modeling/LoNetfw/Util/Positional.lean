import LoNetfw.Util.Reach

namespace LoNetfw.Util

open Basis

/-!
# `ByteArray` — reading at a position

The overloads of `read` and `getReadBuffers` with a position are `const`: they start somewhere else
than at the cursor and leave it where it is.  Both mix the two positions up.

* `read(buf, n, p)` starts in the node of `m_position` at the offset that `p` has in its own node;
  `readAt_iff` says when these are nevertheless the bytes at `p`.
* `getReadBuffers(bufs, len, p)` takes only the size of the first node from `m_cur`, which is null at
  the end of the capacity; `getReadBuffersAt_iff` says when it gathers the bytes at `p`.

In both the range check subtracts unsigned numbers, so a position behind the data passes it.
-/

namespace ByteArray

variable {ns : ℕ} {nodes : List ByteArrayNode} {b : ByteArray}

/-! ### The `read` loop outside of the capacity -/

/-- Only faults, no exception of the source. -/
def OnlyFaults {α : Type} (x : Except Exn α) : Prop := ∀ e, x = .error e → e.isFault = true

/-- A walk that returns does not throw. -/
theorem OnlyFaults.ok {α : Type} (a : α) : OnlyFaults (.ok a) := nofun

/-- A walk that reaches a fault does not throw. -/
theorem OnlyFaults.error {α : Type} {e : Exn} (h : e.isFault = true) :
    OnlyFaults (.error e : Except Exn α) := by
  intro e' he'
  rw [← Except.error.inj he']
  exact h

/-- Two walks in turn do not throw. -/
theorem OnlyFaults.bind {α β : Type} {x : Except Exn α} {f : α → Except Exn β} (hx : OnlyFaults x)
    (hf : ∀ a, OnlyFaults (f a)) : OnlyFaults (x >>= f) := by
  cases x with
  | ok a => exact hf a
  | error e => exact OnlyFaults.error (hx e rfl)

/-- A walk whose result is mapped does not throw. -/
theorem OnlyFaults.map {α β : Type} {x : Except Exn α} (hx : OnlyFaults x) (f : α → β) :
    OnlyFaults (x.map f) := by
  cases x with
  | ok a => exact OnlyFaults.ok _
  | error e => exact OnlyFaults.error (hx e rfl)

/-- Following `m_next` faults at worst. -/
theorem onlyFaults_deref (cur : Option ℕ) : OnlyFaults (deref nodes cur) := by
  unfold deref
  split
  · exact OnlyFaults.error rfl
  · split
    · exact OnlyFaults.error rfl
    · exact OnlyFaults.ok _

/-- A copy out of a node faults at worst. -/
theorem onlyFaults_load (node : ByteArrayNode) (r n : ℕ) : OnlyFaults (node.load r n) := by
  unfold ByteArrayNode.load
  split
  · exact OnlyFaults.ok _
  · exact OnlyFaults.error rfl

/-- The loop throws no exception of the source. -/
theorem onlyFaults_readLoop (fuel : ℕ) (cur : Option ℕ) (r m p n : ℕ) :
    OnlyFaults (readLoop nodes fuel cur r m p n) := by
  induction fuel generalizing cur r m p n with
  | zero =>
    unfold readLoop
    split
    · exact OnlyFaults.ok _
    · exact OnlyFaults.error rfl
  | succ fuel ih =>
    -- all bytes read, the last node, or a node and the rest
    unfold readLoop
    split
    · exact OnlyFaults.ok _
    split
    · exact (onlyFaults_deref cur).bind fun _ =>
        (onlyFaults_load _ _ _).bind fun _ => OnlyFaults.ok _
    · exact (onlyFaults_deref cur).bind fun _ => (onlyFaults_load _ _ _).bind fun _ =>
        (onlyFaults_deref _).bind fun _ => (ih _ _ _ _ _).bind fun _ => OnlyFaults.ok _

/-- The bytes do not depend on the position that is counted along. -/
theorem readLoop_position (fuel : ℕ) (cur : Option ℕ) (r m p p' n : ℕ) :
    (readLoop nodes fuel cur r m p n).map (·.1) = (readLoop nodes fuel cur r m p' n).map (·.1) := by
  induction fuel generalizing cur r m p p' n with
  | zero =>
    rw [readLoop, readLoop]
    split <;> rfl
  | succ fuel ih =>
    rw [readLoop, readLoop]
    split
    · rfl
    simp only [bind, Except.bind, pure, Except.pure]
    cases deref nodes cur with
    | error e => split <;> rfl
    | ok a =>
      simp only
      split
      · cases a.2.load r n <;> rfl
      · cases a.2.load r m with
        | error e => rfl
        | ok chunk =>
          cases deref nodes (nextNode nodes a.1) with
          | error e => rfl
          | ok after =>
            -- the same rest, behind the same chunk
            have hrest := ih (nextNode nodes a.1) 0 after.2.size (p + m) (p' + m) (n - m)
            revert hrest
            simp only
            cases readLoop nodes fuel (nextNode nodes a.1) 0 after.2.size (p + m) (n - m) <;>
              cases readLoop nodes fuel (nextNode nodes a.1) 0 after.2.size (p' + m) (n - m) <;>
              simp [Except.map]

/-- It walks off the chain when more bytes are asked for than the capacity has. -/
theorem readLoop_short (h : Blocks ns nodes) (hns : 0 < ns) :
    ∀ (fuel q r p n : ℕ), r < ns → q < nodes.length → nodes.length * ns < q * ns + r + n →
      ∃ e, readLoop nodes fuel (some q) r (ns - r) p n = .error e := by
  intro fuel
  induction fuel with
  | zero =>
    intro q r p n hr hq hshort
    have hlong := (past_block hr hq hshort).1
    rw [readLoop, if_neg (by omega)]
    exact ⟨_, rfl⟩
  | succ fuel ih =>
    intro q r p n hr hq hshort
    obtain ⟨hlong, hnext⟩ := past_block hr hq hshort
    rw [readLoop, if_neg (by omega), if_neg (by omega), deref_some hq]
    simp only [bind, Except.bind, load_eq h hq (show r + (ns - r) ≤ ns by omega)]
    -- behind the last node the loop follows a null pointer
    by_cases hq' : q + 1 < nodes.length
    · obtain ⟨e, hloop⟩ := ih (q + 1) 0 (p + (ns - r)) (n - (ns - r)) hns hq' (by omega)
      rw [Nat.sub_zero] at hloop
      refine ⟨e, ?_⟩
      rw [nextNode_of_lt hq', deref_some hq']
      simp only [(h _ (List.getElem_mem hq')).1, hloop]
    · rw [nextNode, if_neg hq']
      exact ⟨_, rfl⟩

/-! ### `read` at a position -/

/-- What `read(buf, n, p) const` is for. -/
def ReadsAt (b : ByteArray) (n p : ℕ) : Prop :=
  if n = 0 then b.readAt n p = .ok []
  else if p + n ≤ b.dataSize then b.readAt n p = .ok (slice b.mem p n)
  else ∃ what, b.readAt n p = .error (.runtimeError what)

/-- Where the read starts: the node of the cursor, at the offset of `p` in its node. -/
def readStart (b : ByteArray) (p : ℕ) : ℕ :=
  b.position / b.nodeSize * b.nodeSize + p % b.nodeSize

/-- Past the range check, with the cursor at the end of the capacity. -/
theorem readAt_null (h : b.Inv) {n p : ℕ} (hn : n ≠ 0) (hcheck : ¬ n > wsub b.dataSize p)
    (hend : b.position = b.totalSize) : b.readAt n p = .error .nullNode := by
  simp only [readAt, hn, if_false, hcheck, h.cur_eq_none_iff.mpr hend, deref]
  rfl

/-- Past the range check, with a cursor. -/
theorem readAt_loop (h : b.Inv) {n p : ℕ} (hn : n ≠ 0) (hcheck : ¬ n > wsub b.dataSize p)
    (hlt : b.position < b.totalSize) :
    b.readAt n p = (readLoop b.nodes b.nodes.length (some (b.position / b.nodeSize))
      (p % b.nodeSize) (b.nodeSize - p % b.nodeSize) p n).map (·.1) := by
  have hr := Nat.mod_lt p h.nodeSize_pos
  have hq := h.div_lt hlt
  have hsize := (h.blocks _ (List.getElem_mem hq)).1
  rw [readAt, if_neg hn, if_neg hcheck, h.cur_of_lt hlt, deref_some hq]
  simp only [bind, Except.bind, hsize, wsub_of_le hr.le]
  cases readLoop b.nodes b.nodes.length (some (b.position / b.nodeSize)) (p % b.nodeSize)
    (b.nodeSize - p % b.nodeSize) p n <;> rfl

/-- It returns exactly when the bytes from `readStart` on lie inside of the capacity. -/
theorem readAt_ok_iff (h : b.Inv) {n p : ℕ} (hn : n ≠ 0) (hcheck : ¬ n > wsub b.dataSize p)
    (bytes : List UInt8) :
    b.readAt n p = .ok bytes ↔ b.position < b.totalSize ∧ b.readStart p + n ≤ b.totalSize ∧
      slice b.mem (b.readStart p) n = bytes := by
  have hle := h.position_le.trans h.dataSize_le
  have hr := Nat.mod_lt p h.nodeSize_pos
  -- with the buffer at its end the current node is null
  rcases Nat.lt_or_ge b.position b.totalSize with hlt | hge
  · have hq := h.div_lt hlt
    rw [readAt_loop h hn hcheck hlt, readLoop_position _ _ _ _ p (b.readStart p), readStart]
    -- the loop reads from the current node, not from that of `p`
    by_cases hfit : b.position / b.nodeSize * b.nodeSize + p % b.nodeSize + n ≤ b.totalSize
    · rw [readLoop_eq h.blocks h.nodeSize_pos b.nodes.length (b.position / b.nodeSize)
        (p % b.nodeSize) n hr hq (Nat.pos_of_ne_zero hn) (by rw [← h.total]; exact hfit)
        (Nat.le_add_right _ _)]
      exact ⟨fun heq => ⟨hlt, hfit, Except.ok.inj heq⟩, fun heq => congrArg Except.ok heq.2.2⟩
    · obtain ⟨e, hloop⟩ := readLoop_short h.blocks h.nodeSize_pos b.nodes.length
        (b.position / b.nodeSize) (p % b.nodeSize)
        (b.position / b.nodeSize * b.nodeSize + p % b.nodeSize) n hr hq (by rw [← h.total]; omega)
      rw [hloop]
      exact iff_of_false nofun fun hwin => hfit hwin.2.1
  · rw [readAt_null h hn hcheck (by omega)]
    exact iff_of_false nofun fun hwin => absurd hwin.1 (by omega)

/-- Past the range check the read throws nothing. -/
theorem readAt_onlyFaults (h : b.Inv) {n p : ℕ} (hn : n ≠ 0) (hcheck : ¬ n > wsub b.dataSize p) :
    OnlyFaults (b.readAt n p) := by
  have hle := h.position_le.trans h.dataSize_le
  rcases Nat.lt_or_ge b.position b.totalSize with hlt | hge
  · rw [readAt_loop h hn hcheck hlt]
    exact (onlyFaults_readLoop _ _ _ _ _ _).map _
  · rw [readAt_null h hn hcheck (by omega)]
    exact OnlyFaults.error rfl

/-- **`read` at a position.**  In every reachable state it does what it is for, exactly when nothing
    is asked for, when the range check sees that the range leaves the data (which it does not for
    most positions behind the data), or when the bytes from `readStart` on are in the capacity and
    the same as those at `p`. -/
theorem readAt_iff {host : Endian} (hns : 1 ≤ ns) (hb : Reachable host ns b) (n p : ℕ) :
    ReadsAt b n p ↔ n = 0 ∨ (p ≤ b.dataSize ∧ b.dataSize < p + n) ∨
      2 ^ 64 + b.dataSize < p + n ∨
      (p + n ≤ b.dataSize ∧ b.position < b.totalSize ∧ b.readStart p + n ≤ b.totalSize ∧
        slice b.mem (b.readStart p) n = slice b.mem p n) := by
  obtain ⟨h, -⟩ := hb.inv hns
  by_cases hn : n = 0
  · rw [ReadsAt, if_pos hn]
    exact iff_of_true (by rw [readAt, if_pos hn]; rfl) (.inl hn)
  rw [ReadsAt, if_neg hn]
  by_cases hfit : p + n ≤ b.dataSize
  · have hcheck : ¬ n > wsub b.dataSize p := by rw [wsub_of_le (by omega)]; omega
    rw [if_pos hfit, readAt_ok_iff h hn hcheck]
    constructor
    · exact fun hwin => .inr (.inr (.inr ⟨hfit, hwin⟩))
    · rintro (h0 | ⟨-, hout⟩ | hout | ⟨-, hwin⟩)
      · exact absurd h0 hn
      · exact absurd hfit (by omega)
      · exact absurd hfit (by omega)
      · exact hwin
  rw [if_neg hfit]
  by_cases hcheck : n > wsub b.dataSize p
  · have hthrow : b.readAt n p = .error b.readRangeError := by
      rw [readAt, if_neg hn, if_pos hcheck]
      rfl
    refine iff_of_true ⟨_, hthrow⟩ ?_
    by_cases hle : p ≤ b.dataSize
    · omega
    · rw [wsub_of_lt (by omega)] at hcheck
      omega
  · -- behind the data and past the check: no exception
    refine iff_of_false ?_ ?_
    · rintro ⟨what, hthrow⟩
      exact absurd (readAt_onlyFaults h hn hcheck _ hthrow) Bool.false_ne_true
    · by_cases hle : p ≤ b.dataSize
      · rw [wsub_of_le hle] at hcheck
        omega
      · rw [wsub_of_lt (by omega)] at hcheck
        omega

/-- Five bytes in nodes of two, the cursor back at the start. -/
def fiveBytes : ByteArray where
  nodes := [⟨[1, 2], 2⟩, ⟨[3, 4], 2⟩, ⟨[5, 0], 2⟩]
  cur := some 0
  nodeSize := 2
  totalSize := 6
  dataSize := 5
  position := 0
  baEndian := .big

/-- The sample buffer is a run's. -/
theorem fiveBytes_reachable : Reachable .little 2 fiveBytes := by
  have hnew : Reachable .little 2 (new 2 fun _ => 0) := .new _
  have hwrite := hnew.small (by decide) default (.buffer (.write [1, 2, 3, 4, 5])) (by decide)
  have hseek := hwrite.small (by decide) default (.buffer (.setPosition 0)) (by decide)
  have heq : (outcome (exec .little default (.buffer (.setPosition 0)))
      (outcome (exec .little default (.buffer (.write [1, 2, 3, 4, 5]))) (new 2 fun _ => 0)).2).2 =
        fiveBytes := by
    decide +kernel
  rwa [heq] at hseek

/-- Reading the third byte with the cursor at the start returns the first one. -/
theorem readAt_otherNode : Reachable .little 2 fiveBytes ∧ fiveBytes.readAt 1 2 = .ok [1] ∧
    slice fiveBytes.mem 2 1 = [3] ∧ ¬ ReadsAt fiveBytes 1 2 := by
  refine ⟨fiveBytes_reachable, by decide, by decide, ?_⟩
  rw [ReadsAt, if_neg (by decide), if_pos (by decide)]
  decide

/-- Two bytes from its start. -/
theorem readAt_iff_fiveBytes : ReadsAt fiveBytes 2 0 :=
  (readAt_iff (by decide) fiveBytes_reachable 2 0).mpr (.inr (.inr (.inr (by decide))))

/-! ### `getReadBuffers` at a position -/

/-- What `getReadBuffers(bufs, len, p)` is for. -/
def GathersAt (b : ByteArray) (len p : ℕ) : Prop :=
  ∃ bufs, b.getReadBuffersAt len p = .ok (min len (b.dataSize - p), bufs) ∧
    bufs.flatMap (segment b.nodes) = slice b.mem p (min len (b.dataSize - p))

/-- The first loop walks `count` nodes on, as long as there are so many. -/
theorem skipLoop_eq (count q : ℕ) (hq : q + count < nodes.length) :
    skipLoop nodes count (some q) = .ok (some (q + count)) := by
  induction count generalizing q with
  | zero => rfl
  | succ count ih =>
    rw [skipLoop, deref_some (by omega)]
    simp only [bind, Except.bind]
    rw [nextNode_of_lt (by omega), ih (q + 1) (by omega), Nat.add_assoc, Nat.add_comm 1 count]

/-- The position is inside of the data, and the cursor is a node. -/
theorem getReadBuffersAt_inside (h : b.Inv) {len p : ℕ} (hlen : len ≠ 0) (hp : p < b.dataSize)
    (hlt : b.position < b.totalSize) : GathersAt b len p := by
  have hdata := h.dataSize_le
  have hcap := h.total
  have hns := h.nodeSize_pos
  have hmin : (if len > b.dataSize - p then b.dataSize - p else len) = min len (b.dataSize - p) := by
    split_ifs <;> omega
  have hpos : 0 < min len (b.dataSize - p) := by omega
  have hq := h.div_lt hlt
  have hp' : p / b.nodeSize < b.nodes.length := by
    rw [Nat.div_lt_iff_lt_mul hns, ← hcap]
    omega
  -- the node and the offset of `p`
  have hsplit : p / b.nodeSize * b.nodeSize + p % b.nodeSize = p := by
    rw [Nat.mul_comm]
    exact Nat.div_add_mod p b.nodeSize
  have hr := Nat.mod_lt p hns
  obtain ⟨bufs, hloop, hbufs⟩ := bufferLoop_eq h.blocks hns b.nodes.length (p / b.nodeSize)
    (p % b.nodeSize) (min len (b.dataSize - p)) hr hp' hpos (by rw [hsplit]; omega)
    (Nat.le_add_right _ _)
  rw [hsplit] at hbufs
  refine ⟨bufs, ?_, hbufs⟩
  -- the walk to it starts at the first node
  have hskip : skipLoop b.nodes (p / b.nodeSize) (some 0) = .ok (some (0 + p / b.nodeSize)) :=
    skipLoop_eq _ _ (by omega)
  rw [Nat.zero_add] at hskip
  simp only [getReadBuffersAt, wsub_of_le hp.le, hmin, bind, Except.bind]
  rw [if_neg hpos.ne', h.cur_of_lt hlt, deref_some hq]
  simp only [(h.blocks _ (List.getElem_mem hq)).1, wsub_of_le hr.le, hskip, hloop, pure, Except.pure]

/-- **`getReadBuffers` at a position.**  In every reachable state it does what it is for, exactly
    when nothing is asked for, or the position is the end of the data, or lies before it and the
    cursor is not at the end of the capacity. -/
theorem getReadBuffersAt_iff {host : Endian} (hns : 1 ≤ ns) (hb : Reachable host ns b) (len p : ℕ)
    (hp : p < 2 ^ 64) :
    GathersAt b len p ↔ len = 0 ∨ p = b.dataSize ∨
      (p < b.dataSize ∧ b.position ≠ b.totalSize) := by
  obtain ⟨h, -⟩ := hb.inv hns
  have hle := h.position_le.trans h.dataSize_le
  -- nothing is left after the clamp
  have hnone : (if len > wsub b.dataSize p then wsub b.dataSize p else len) = 0 →
      b.getReadBuffersAt len p = .ok (0, []) := by
    intro hz
    simp only [getReadBuffersAt, hz, if_true]
    rfl
  have hempty : min len (b.dataSize - p) = 0 → b.getReadBuffersAt len p = .ok (0, []) →
      GathersAt b len p := by
    intro hmin hget
    refine ⟨[], by rw [hmin, hget], ?_⟩
    rw [hmin, slice_zero]
    rfl
  by_cases hlen : len = 0
  · refine iff_of_true (hempty (by omega) (hnone ?_)) (.inl hlen)
    split_ifs <;> omega
  rcases Nat.lt_trichotomy p b.dataSize with hlt | heq | hgt
  · by_cases hend : b.position = b.totalSize
    · -- the remainder is taken from a null node
      have hfail : b.getReadBuffersAt len p = .error .nullNode := by
        have hpos : (if len > b.dataSize - p then b.dataSize - p else len) ≠ 0 := by
          split_ifs <;> omega
        simp only [getReadBuffersAt, wsub_of_le hlt.le, hpos, if_false,
          h.cur_eq_none_iff.mpr hend, deref]
        rfl
      refine iff_of_false ?_ (by omega)
      rintro ⟨bufs, hget, -⟩
      rw [hfail] at hget
      exact absurd hget (by simp)
    · exact iff_of_true (getReadBuffersAt_inside h hlen hlt (by omega)) (.inr (.inr ⟨hlt, hend⟩))
  · refine iff_of_true (hempty (by omega) (hnone ?_)) (.inr (.inl heq))
    rw [wsub_of_le heq.le]
    split_ifs <;> omega
  · -- the clamp wraps, so something is asked for behind the data
    have hpos : (if len > wsub b.dataSize p then wsub b.dataSize p else len) ≠ 0 := by
      rw [wsub_of_lt hgt]
      split_ifs <;> omega
    refine iff_of_false ?_ (by omega)
    rintro ⟨bufs, hget, -⟩
    simp only [getReadBuffersAt, hpos, if_false, bind, Except.bind, pure, Except.pure] at hget
    have hzero : min len (b.dataSize - p) = 0 := by omega
    rw [hzero] at hget
    split at hget
    · exact absurd hget (by simp)
    · split at hget
      · exact absurd hget (by simp)
      · split at hget
        · exact absurd hget (by simp)
        · exact hpos (Prod.mk.inj (Except.ok.inj hget)).1

/-- Two bytes that fill the only node, the cursor behind them. -/
def fullNode : ByteArray where
  nodes := [⟨[1, 2], 2⟩]
  cur := none
  nodeSize := 2
  totalSize := 2
  dataSize := 2
  position := 2
  baEndian := .big

/-- A buffer whose only node is full is a run's. -/
theorem fullNode_reachable : Reachable .little 2 fullNode := by
  have hnew : Reachable .little 2 (new 2 fun _ => 0) := .new _
  exact hnew.small (by decide) default (.buffer (.write [1, 2])) (by decide)

/-- Gathering these bytes from position 0 dereferences the null cursor. -/
theorem getReadBuffersAt_nullCursor : Reachable .little 2 fullNode ∧
    fullNode.getReadBuffersAt 2 0 = .error .nullNode ∧ ¬ GathersAt fullNode 2 0 := by
  have hnull : fullNode.getReadBuffersAt 2 0 = .error .nullNode := by decide
  refine ⟨fullNode_reachable, hnull, ?_⟩
  rintro ⟨bufs, hget, -⟩
  rw [hnull] at hget
  exact nomatch hget

/-- Two bytes from the middle of the second node. -/
theorem getReadBuffersAt_iff_fiveBytes : GathersAt fiveBytes 2 3 :=
  (getReadBuffersAt_iff (by decide) fiveBytes_reachable 2 3 (by decide)).mpr
    (.inr (.inr (by decide)))

end ByteArray

end LoNetfw.Util
