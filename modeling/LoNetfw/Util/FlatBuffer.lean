import LoNetfw.Util.Calls

namespace LoNetfw.Util

open Basis

/-!
# `ByteArray` refines a flat byte buffer with one cursor

`FlatBuffer` is what the component is for: one array of bytes, the number of bytes stored
and a cursor.  `FlatStep` says what each untyped call does to it, in terms of slices and
overlays only; growing by whole nodes is the one trace of the representation, and the bytes
it adds are arbitrary.

* `flat b` — the flat view of a `ByteArray`: the concatenation of its nodes;
* `execBuffer_flatStep` — each call on a `ByteArray` is the flat call on its view;
* `refines_flatBuffer` — so any sequence of calls is a run of the flat buffer with the same
  results.
-/

/-- A flat buffer with a cursor. -/
structure FlatBuffer where
  mem : List UInt8
  dataSize : ℕ
  pos : ℕ

/-- The least number of bytes that is at least `need` and fills whole nodes of size `ns`. -/
def wholeNodes (ns need : ℕ) : ℕ := (need + ns - 1) / ns * ns

/-- A call ends with one of the exceptions of the source. -/
def Throws (r : Except Exn Output) : Prop := ∃ what, r = .error (.runtimeError what)

/-- One call on a flat buffer whose memory grows in nodes of size `ns`: its result and the
    buffer after it. -/
def FlatStep (ns : ℕ) (s : FlatBuffer) : BufferCall → Except Exn Output → FlatBuffer → Prop
  | .write buf, r, s' =>
    r = .ok .unit ∧ ∃ ext : List UInt8,
      ext.length = wholeNodes ns (s.pos + buf.length - s.mem.length) ∧
      s'.mem = overlay (s.mem ++ ext) s.pos buf ∧
      s'.pos = s.pos + buf.length ∧ s'.dataSize = max s.dataSize s'.pos
  | .read n, r, s' =>
    if n > s.dataSize - s.pos then Throws r ∧ s' = s
    else r = .ok (.bytes (slice s.mem s.pos n)) ∧ s' = { s with pos := s.pos + n }
  | .setPosition p, r, s' =>
    if p > s.mem.length then Throws r ∧ s' = s
    else r = .ok .unit ∧ s' = { s with pos := p, dataSize := max s.dataSize p }
  | .clear, r, s' => r = .ok .unit ∧ s' = ⟨s.mem.take ns, 0, 0⟩
  | .size, r, s' => r = .ok (.nat s.dataSize) ∧ s' = s
  | .getReadSize, r, s' => r = .ok (.nat (s.dataSize - s.pos)) ∧ s' = s
  | .toString, r, s' => r = .ok (.bytes (slice s.mem s.pos (s.dataSize - s.pos))) ∧ s' = s
  | .getReadBuffers len, r, s' =>
    r = .ok (.segments (min len (s.dataSize - s.pos))
      (slice s.mem s.pos (min len (s.dataSize - s.pos)))) ∧ s' = s

/-- A sequence of calls on a flat buffer: their results and the buffer after them. -/
def FlatRun (ns : ℕ) : FlatBuffer → List BufferCall → List (Except Exn Output) → FlatBuffer → Prop
  | s, [], rs, s' => rs = [] ∧ s' = s
  | _, _ :: _, [], _ => False
  | s, c :: cs, r :: rs, s' => ∃ t, FlatStep ns s c r t ∧ FlatRun ns t cs rs s'

namespace ByteArray

/-- The flat view of a `ByteArray`. -/
def flat (b : ByteArray) : FlatBuffer := ⟨b.mem, b.dataSize, b.position⟩

variable {b : ByteArray}

/-- The chain grows by the whole nodes that the request needs. -/
theorem growth_mul (h : b.Inv) (n : ℕ) :
    b.growth n * b.nodeSize = wholeNodes b.nodeSize (b.position + n - b.mem.length) := by
  rw [h.length_mem, growth, wholeNodes]
  by_cases hfit : b.position + n ≤ b.totalSize
  · have hns := h.nodeSize_pos
    rw [if_pos hfit, Nat.sub_eq_zero_of_le hfit, Nat.zero_add,
      Nat.div_eq_of_lt (show b.nodeSize - 1 < b.nodeSize by omega)]
  · rw [if_neg hfit]

/-- **One call.** It has the effect of the flat call on the flat view. -/
theorem execBuffer_flatStep (h : b.Inv) (u : Unspecified) (c : BufferCall)
    (hreq : c.request < 2 ^ 24) :
    FlatStep b.nodeSize b.flat c (outcome (execBuffer u c) b).1
      (outcome (execBuffer u c) b).2.flat := by
  -- call by call: what the nodes hold in a row is the memory of the flat buffer
  cases c with
  | write buf =>
    obtain ⟨b', ext, hwrite, _, hext, hmem, _, hpos, hdata, _⟩ := write_spec h u.fill hreq
    have hexec : execBuffer u (.write buf) b = .ok .unit b' := by
      simp only [execBuffer, bind_run, hwrite]
      rfl
    rw [outcome_ok hexec]
    refine ⟨rfl, ext, hext.trans (growth_mul h _), hmem, hpos, ?_⟩
    show b'.dataSize = max b.dataSize b'.position
    rw [hdata, hpos]
  | read n =>
    -- more than is left: the call throws, and nothing moves
    by_cases hlong : n > b.flat.dataSize - b.flat.pos
    · have hexec : execBuffer u (.read n) b = .error b.readRangeError b := by
        simp only [execBuffer, bind_run, read_short h hlong]
      rw [outcome_error hexec, FlatStep, if_pos hlong]
      exact ⟨⟨_, rfl⟩, rfl⟩
    · obtain ⟨b', hread, _, hmem, _, _, hdata, hpos, _⟩ := read_spec h (Nat.le_of_not_lt hlong)
      have hexec : execBuffer u (.read n) b = .ok (.bytes (slice b.mem b.position n)) b' := by
        simp only [execBuffer, bind_run, hread]
        rfl
      rw [outcome_ok hexec, FlatStep, if_neg hlong]
      exact ⟨rfl, by rw [flat, hmem, hdata, hpos]; rfl⟩
  | setPosition p =>
    -- behind the last node: the call throws
    by_cases hpast : p > b.flat.mem.length
    · have hexec : execBuffer u (.setPosition p) b = .error (b.positionRangeError p) b := by
        have hlt : b.totalSize < p := by rw [← h.length_mem]; exact hpast
        simp only [execBuffer, bind_run, setPosition_past hlt]
      rw [outcome_error hexec, FlatStep, if_pos hpast]
      exact ⟨⟨_, rfl⟩, rfl⟩
    · obtain ⟨b', hset, _, hmem, _, _, hdata, hpos, _⟩ :=
        setPosition_spec h p (by rw [← h.length_mem]; exact Nat.le_of_not_lt hpast)
      have hexec : execBuffer u (.setPosition p) b = .ok .unit b' := by
        simp only [execBuffer, bind_run, hset]
        rfl
      rw [outcome_ok hexec, FlatStep, if_neg hpast]
      exact ⟨rfl, by rw [flat, hmem, hdata, hpos]; rfl⟩
  | clear =>
    have hexec : execBuffer u .clear b = .ok .unit b.clear := rfl
    rw [outcome_ok hexec]
    exact ⟨rfl, by rw [flat, clear_mem h]; rfl⟩
  | size => exact ⟨rfl, rfl⟩
  | getReadSize =>
    have hexec : execBuffer u .getReadSize b = .ok (.nat b.getReadSize) b := rfl
    rw [outcome_ok hexec]
    exact ⟨by rw [h.getReadSize_eq]; rfl, rfl⟩
  | toString =>
    have hexec : execBuffer u .toString b
        = .ok (.bytes (slice b.mem b.position (b.dataSize - b.position))) b := by
      simp only [execBuffer, bind_run, get_run, toString_spec h, liftExcept_ok]
      rfl
    rw [outcome_ok hexec]
    exact ⟨rfl, rfl⟩
  | getReadBuffers len =>
    obtain ⟨bufs, hbufs, hseg⟩ := getReadBuffers_spec h len
    have hexec : execBuffer u (.getReadBuffers len) b
        = .ok (.segments (min len (b.dataSize - b.position)) (bufs.flatMap (segment b.nodes))) b := by
      simp only [execBuffer, bind_run, get_run, hbufs, liftExcept_ok]
      rfl
    rw [outcome_ok hexec, hseg]
    exact ⟨rfl, rfl⟩

/-- The simulation carried along a sequence of calls, from any state with the invariant. -/
theorem runOps_flatRun (h : b.Inv) (calls : List (Unspecified × BufferCall))
    (hreq : ∀ c ∈ calls, c.2.request < 2 ^ 24) :
    FlatRun b.nodeSize b.flat (calls.map Prod.snd)
      (runOps b (calls.map (fun c => execBuffer c.1 c.2))).1
      (runOps b (calls.map (fun c => execBuffer c.1 c.2))).2.flat := by
  induction calls generalizing b with
  | nil => exact ⟨rfl, rfl⟩
  | cons c calls ih =>
    have hc := hreq c (by simp)
    obtain ⟨hinv, hnode, _⟩ := execBuffer_safe c.1 c.2 hc b h
    have hrest := ih hinv (fun c' hc' => hreq c' (by simp [hc']))
    rw [hnode] at hrest
    exact ⟨_, execBuffer_flatStep h c.1 c.2 hc, hrest⟩

/-- **Refinement.** Any sequence of untyped calls on a fresh `ByteArray`, each storing fewer
    than `2 ^ 24` bytes, returns what the flat buffer returns and leaves its flat view in the
    state of the flat buffer.  The flat buffer starts with one node of unspecified bytes. -/
theorem refines_flatBuffer (ns : ℕ) (hns : 1 ≤ ns) (fill : ℕ → UInt8)
    (calls : List (Unspecified × BufferCall)) (hreq : ∀ c ∈ calls, c.2.request < 2 ^ 24) :
    FlatRun ns ⟨(List.range ns).map fill, 0, 0⟩ (calls.map Prod.snd)
      (runOps (new ns fill) (calls.map (fun c => execBuffer c.1 c.2))).1
      (runOps (new ns fill) (calls.map (fun c => execBuffer c.1 c.2))).2.flat := by
  have hflat : (new ns fill).flat = ⟨(List.range ns).map fill, 0, 0⟩ := by
    simp [flat, mem, contents, new, ByteArrayNode.new]
  have hrun := runOps_flatRun (new_inv hns fill) calls hreq
  rw [hflat] at hrun
  exact hrun

/-- Nodes of three bytes: a write over the boundary, back to the start, and a read. -/
theorem refines_flatBuffer_three_bytes :
    FlatRun 3 ⟨[0, 0, 0], 0, 0⟩ [.write [1, 2, 3, 4], .setPosition 0, .read 4]
      (runOps (new 3 (fun _ => 0))
        (([(default, .write [1, 2, 3, 4]), (default, .setPosition 0), (default, .read 4)] :
          List (Unspecified × BufferCall)).map (fun c => execBuffer c.1 c.2))).1
      (runOps (new 3 (fun _ => 0))
        (([(default, .write [1, 2, 3, 4]), (default, .setPosition 0), (default, .read 4)] :
          List (Unspecified × BufferCall)).map (fun c => execBuffer c.1 c.2))).2.flat :=
  refines_flatBuffer 3 (by decide) (fun _ => 0)
    [(default, .write [1, 2, 3, 4]), (default, .setPosition 0), (default, .read 4)] (by decide)

end ByteArray

end LoNetfw.Util
