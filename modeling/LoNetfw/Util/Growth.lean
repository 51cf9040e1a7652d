import LoNetfw.Util.Reach

namespace LoNetfw.Util

open Basis

/-!
# `ByteArray` — whether a growth provides the requested room

`addTotalSize` rounds its node count up, but the quotient it rounds up is a binary32 one.  Both
operands and the quotient are rounded to 24 bits first, so the count can be too small.

* `provides_iff` — in every reachable state, exactly which requests find their room;
* `enough_of_lt` — those below `2 ^ 24` do;
* `overrun` — with a node size of one, the first that does not has `2 ^ 24 + 2` bytes.
-/

namespace ByteArray

variable {b : ByteArray} {ns : ℕ}

/-- What `addTotalSize(size)` is called for: room at the cursor, so that the `write` or
    `getWriteBuffers` behind it stays on the chain. -/
structure Provides (fill : ℕ → ℕ → UInt8) (b : ByteArray) (size : ℕ) : Prop where
  room : size ≤ (addTotalSize fill size b).getRemainSize
  write : ∀ buf : List UInt8, buf.length = size → ∀ e b', write fill buf b = .error e b' →
    e.isFault = false
  buffers : ∀ e b', getWriteBuffers fill size b = .error e b' → e.isFault = false

/-- The bytes of a request that lie past the capacity. -/
def missing (b : ByteArray) (size : ℕ) : ℕ := b.position + size - b.totalSize

/-- The exact quotient of the rounded operands. -/
def quotient (b : ByteArray) (size : ℕ) : ℚ := round32 (b.missing size) / round32 b.nodeSize

/-- The bytes past the capacity need at most one node, or the quotient is rounded above the number
    of nodes that they fill. -/
def Enough (b : ByteArray) (size : ℕ) : Prop :=
  b.missing size ≤ b.nodeSize ∨
    AboveMidpoint (b.quotient size) ((b.missing size - 1) / b.nodeSize : ℕ)

/-- The quotient is not rounded above the number of nodes that they need. -/
def NotMore (b : ByteArray) (size : ℕ) : Prop :=
  b.missing size = 0 ∨
    ¬ AboveMidpoint (b.quotient size) ((b.missing size - 1) / b.nodeSize + 1 : ℕ)

/-! ### The number of nodes -/

/-- Both counts for a request past the capacity. -/
theorem counts_of_lt (h : b.Inv) {size : ℕ} (hlt : b.totalSize < b.position + size) :
    0 < b.missing size ∧ b.growth size = (b.missing size - 1) / b.nodeSize + 1 ∧
      b.newNodes size = newNodeCount (b.missing size) b.nodeSize := by
  refine ⟨by rw [missing]; omega, ?_, if_neg (Nat.not_le_of_lt hlt)⟩
  rw [growth, if_neg (Nat.not_le_of_lt hlt), ← Nat.add_div_right _ h.nodeSize_pos, missing]
  congr 1
  omega

/-- The request fits into the grown buffer when no node is missing. -/
theorem covers_iff (h : b.Inv) (size : ℕ) :
    b.position + size ≤ b.totalSize + b.newNodes size * b.nodeSize ↔
      b.growth size ≤ b.newNodes size := by
  obtain ⟨hcover, hleast⟩ := growth_bounds h size
  constructor
  · intro hfit
    by_contra hlt
    -- one node less than the least number leaves a byte out
    have hmul : b.newNodes size * b.nodeSize ≤ (b.growth size - 1) * b.nodeSize :=
      Nat.mul_le_mul_right _ (by omega)
    have := hleast (by omega)
    omega
  · intro hle
    have := Nat.mul_le_mul_right b.nodeSize hle
    omega

/-- Enough nodes come when the rounded quotient is not below the exact one. -/
theorem growth_le_newNodes_iff (h : b.Inv) (size : ℕ) :
    b.growth size ≤ b.newNodes size ↔ b.Enough size := by
  rcases Nat.lt_or_ge b.totalSize (b.position + size) with hlt | hfit
  · obtain ⟨hpos, hgrowth, hnew⟩ := counts_of_lt h hlt
    rw [hgrowth, hnew, Nat.succ_le_iff]
    by_cases hone : b.missing size ≤ b.nodeSize
    · -- one node is needed, and some node is added
      rw [Nat.div_eq_of_lt (by omega)]
      exact iff_of_true (newNodeCount_pos hpos h.nodeSize_pos) (.inl hone)
    · have hm : 0 < (b.missing size - 1) / b.nodeSize := Nat.div_pos (by omega) h.nodeSize_pos
      rw [newNodeCount, lt_ceil_div32_iff hpos h.nodeSize_pos hm, Enough, or_iff_right hone, quotient]
  · have hzero : b.growth size = 0 := if_pos hfit
    rw [hzero]
    exact iff_of_true (Nat.zero_le _) (.inl (by rw [missing]; omega))

/-- Not too many nodes come when the rounded quotient is not above the exact one. -/
theorem newNodes_le_growth_iff (h : b.Inv) (size : ℕ) :
    b.newNodes size ≤ b.growth size ↔ b.NotMore size := by
  rcases Nat.lt_or_ge b.totalSize (b.position + size) with hlt | hfit
  · obtain ⟨hpos, hgrowth, hnew⟩ := counts_of_lt h hlt
    rw [hgrowth, hnew, ← Nat.not_lt, newNodeCount,
      lt_ceil_div32_iff hpos h.nodeSize_pos (Nat.succ_pos _), NotMore, or_iff_right hpos.ne', quotient]
  · have hzero : b.newNodes size = 0 := if_pos hfit
    rw [hzero]
    exact iff_of_true (Nat.zero_le _) (.inl (by rw [missing]; omega))

/-- The growth adds as few nodes as hold the request. -/
theorem newNodes_eq_growth_iff (h : b.Inv) (size : ℕ) :
    b.newNodes size = b.growth size ↔ b.Enough size ∧ b.NotMore size := by
  rw [← growth_le_newNodes_iff h, ← newNodes_le_growth_iff h, and_comm]
  exact le_antisymm_iff

/-- Requests below `2 ^ 24` find their room. -/
theorem enough_of_lt (h : b.Inv) {size : ℕ} (hsize : size < 2 ^ 24) : b.Enough size := by
  rw [← growth_le_newNodes_iff h, newNodes_eq_growth h hsize]

/-- The room in the grown buffer. -/
theorem room_iff (h : b.Inv) (fill : ℕ → ℕ → UInt8) (size : ℕ) :
    (addTotalSize fill size b).position + size ≤ (addTotalSize fill size b).totalSize ↔
      b.Enough size := by
  rw [addTotalSize_room h, covers_iff h, growth_le_newNodes_iff h]

/-! ### The growth and what follows it -/

/-- Enough nodes give room for every byte asked for. -/
theorem provides_of_enough (h : b.Inv) (fill : ℕ → ℕ → UInt8) {size : ℕ} (hsize : b.Enough size) :
    Provides fill b size := by
  obtain ⟨hc, -⟩ := addTotalSize_inv h fill size
  have hroom := (room_iff h fill size).mpr hsize
  refine ⟨?_, ?_, ?_⟩
  · rw [hc.getRemainSize_eq]
    omega
  · rintro buf rfl e b' hwrite
    obtain ⟨_, _, hok, -⟩ := write_adds h fill ((addTotalSize_room h fill _).mp hroom)
    rw [hok] at hwrite
    exact nomatch hwrite
  · intro e b' hget
    obtain ⟨_, hok, -⟩ := getWriteBuffers_fits hc fill hroom
    rw [getWriteBuffers_grown hc hroom, hok] at hget
    exact nomatch hget

/-- **Growth.**  In every reachable state a request finds its room exactly when it exceeds the
    capacity by at most one node, or the rounded quotient is above the nodes it fills. -/
theorem provides_iff {host : Endian} (hns : 1 ≤ ns) (hb : Reachable host ns b)
    (fill : ℕ → ℕ → UInt8) (size : ℕ) : Provides fill b size ↔ b.Enough size := by
  obtain ⟨h, -⟩ := hb.inv hns
  refine ⟨fun hprov => ?_, provides_of_enough h fill⟩
  obtain ⟨hc, -⟩ := addTotalSize_inv h fill size
  have hle := hc.position_le.trans hc.dataSize_le
  have hroom := hprov.room
  rw [hc.getRemainSize_eq] at hroom
  apply (room_iff h fill size).mp
  omega

/-- Ten bytes in nodes of four. -/
theorem provides_iff_tenBytes : Provides (fun _ _ => 0) (new 4 fun _ => 0) 10 :=
  (provides_iff (by decide) (.new _ : Reachable .little 4 _) _ 10).mpr
    (enough_of_lt (new_inv (by decide) _) (by decide))

/-! ### A request that is one node short -/

/-- The binade of the first integer that binary32 cannot hold. -/
theorem log_twoPow24_succ : Int.log 2 ((2 ^ 24 + 1 : ℕ) : ℚ) = 24 := by
  have hlog : Nat.log 2 (2 ^ 24 + 1) = 24 := by
    apply Nat.log_eq_of_pow_le_of_lt_pow <;> decide
  rw [Int.log_natCast, hlog]
  rfl

/-- The first integer with 25 significant bits is rounded down. -/
theorem round32_twoPow24_succ : round32 ((2 ^ 24 + 1 : ℕ) : ℚ) = 2 ^ 24 := by
  have hu : ulp32 ((2 ^ 24 + 1 : ℕ) : ℚ) = 2 := by
    rw [ulp32, log_twoPow24_succ]
    norm_num
  have hround : roundEven (((2 ^ 24 + 1 : ℕ) : ℚ) / 2) = 2 ^ 23 := by
    have hfloor : ⌊((2 ^ 24 + 1 : ℕ) : ℚ) / 2⌋ = 2 ^ 23 := by
      rw [Int.floor_eq_iff]
      constructor <;> norm_num
    rw [roundEven, hfloor]
    norm_num
  rw [round32, hu, hround]
  norm_num

/-- There the quotient is rounded down, and one node is missing. -/
theorem not_enough_twoPow24 : ¬ (new 1 fun _ => 0).Enough (2 ^ 24 + 2) := by
  have hlog : Int.log 2 ((2 ^ 24 : ℕ) : ℚ) = 24 := by
    rw [Int.log_natCast, Nat.log_pow (by decide)]
    rfl
  -- at 2²⁴ neighbouring floats are 2 apart
  have hu : ulp32 ((2 ^ 24 : ℕ) : ℚ) = 2 := by
    rw [ulp32, hlog]
    norm_num
  have hfloor : ⌊((2 ^ 24 : ℕ) : ℚ) / 2⌋ = 2 ^ 23 := by
    rw [Int.floor_eq_iff]
    constructor <;> norm_num
  have hone : round32 ((1 : ℕ) : ℚ) = (1 : ℕ) := round32_natCast (by decide) (by decide)
  have hpast : (new 1 fun _ => 0).missing (2 ^ 24 + 2) = 2 ^ 24 + 1 := by
    simp only [missing, new, Nat.zero_add, Nat.add_one_sub_one]
  have hnode : (new 1 fun _ => 0).nodeSize = 1 := rfl
  rw [Enough, quotient, hpast, hnode, Nat.add_sub_cancel, Nat.div_one]
  -- 2²⁴ + 1 is a midpoint, which goes to the even neighbour below
  rintro (hle | hmid)
  · exact absurd hle (by decide)
  · rw [AboveMidpoint, round32_twoPow24_succ, hone, hu, hfloor] at hmid
    norm_num at hmid

/-- **Overrun.**  On a fresh buffer of node size one, `2 ^ 24 + 2` bytes are one node more than the
    growth adds. -/
theorem overrun : Reachable .little 1 (new 1 fun _ => 0) ∧
    ¬ Provides (fun _ _ => 0) (new 1 fun _ => 0) (2 ^ 24 + 2) ∧
    ∀ buf : List UInt8, buf.length = 2 ^ 24 + 2 →
      ∃ e b', write (fun _ _ => 0) buf (new 1 fun _ => 0) = .error e b' ∧ e.isFault = true := by
  have h : (new 1 fun _ => 0).Inv := new_inv (by decide) _
  have hshort : (addTotalSize (fun _ _ => 0) (2 ^ 24 + 2) (new 1 fun _ => 0)).totalSize
      < (addTotalSize (fun _ _ => 0) (2 ^ 24 + 2) (new 1 fun _ => 0)).position + (2 ^ 24 + 2) :=
    Nat.lt_of_not_le fun hfit => not_enough_twoPow24 ((room_iff h _ _).mp hfit)
  -- the write runs behind the node that was not added
  have hfault : ∀ buf : List UInt8, buf.length = 2 ^ 24 + 2 →
      ∃ e b', write (fun _ _ => 0) buf (new 1 fun _ => 0) = .error e b' ∧ e.isFault = true := by
    intro buf hbuf
    rw [← hbuf] at hshort
    obtain ⟨e, hwrite, he⟩ := write_short h (fun _ _ => 0) hshort
    exact ⟨e, _, hwrite, he⟩
  refine ⟨.new _, fun hprov => ?_, hfault⟩
  obtain ⟨e, b', hwrite, he⟩ := hfault (List.replicate (2 ^ 24 + 2) 0) List.length_replicate
  rw [hprov.write _ List.length_replicate e b' hwrite] at he
  exact Bool.false_ne_true he

end ByteArray

end LoNetfw.Util
