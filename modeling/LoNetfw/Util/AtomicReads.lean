import LoNetfw.Util.Readers

namespace LoNetfw.Util

open Basis

/-!
# `ByteArray` — typed reads that fail

A typed reader throws when the data ends inside of its value.  Whether the buffer is then as before
depends on where it ends: `read` checks the range before it moves, but a compressed integer is read
byte by byte, and the length of a string before its bytes.

* `AtomicOn` — the unread bytes on which a failed read leaves the buffer as it was;
* `short_iff` — on exactly these no reader stops for want of data after it has taken a byte;
* `failsAtomically_iff` — the same about the buffer, in every reachable state.
-/

namespace ByteArray

variable {b : ByteArray}

/-- A read that throws because the data is incomplete leaves the buffer as it was. -/
def FailsAtomically (host : Endian) (k : Kind) (b : ByteArray) : Prop :=
  ∀ b', readValue host k b = .error b'.readRangeError b' → b' = b

/-- A compressed integer of at most `m` bytes ends in the data. -/
def VarintEnds (m : ℕ) (bs : List UInt8) : Prop := m ≤ bs.length ∨ ∃ c ∈ bs, c < 128

/-- The bytes of a string are there, or there are more than any string has. -/
def BodyThere (len left : ℕ) : Prop := stringMaxSize < len ∨ len ≤ left

/-- A string behind a length of `n` bytes: the length is cut off, or the string is there. -/
def FixedThere (e : Endian) (n : ℕ) (bs : List UInt8) : Prop :=
  bs.length < n ∨ BodyThere (ofMemory e n (bs.take n)).toNat (bs.length - n)

/-- The unread bytes on which a failed read of a kind changes nothing. -/
def AtomicOn (e : Endian) : Kind → List UInt8 → Prop
  | .int32, bs | .uint32, bs => bs = [] ∨ VarintEnds 5 bs
  | .int64, bs | .uint64, bs => bs = [] ∨ VarintEnds 10 bs
  | .stringFInt16, bs => FixedThere e 2 bs
  | .stringFInt32, bs => FixedThere e 4 bs
  | .stringFInt64, bs => FixedThere e 8 bs
  | .stringVInt, bs =>
    bs = [] ∨ (VarintEnds 10 bs ∧
      ∀ len n, uint64Front bs = (.ok len, n) → BodyThere len.toNat (bs.length - n))
  | .fInt8, _ | .fUInt8, _ | .fInt16, _ | .fUInt16, _ | .fInt32, _ | .fUInt32, _ | .fInt64, _
  | .fUInt64, _ | .float, _ | .double, _ => True

/-! ### Where the readers stop -/

variable {bs : List UInt8} {n m : ℕ} {e : Endian}

/-- A string's body ends early exactly when it is neither too long nor there, and nothing of it
    is taken. -/
theorem bodyFront_short_iff {len : ℕ} :
    bodyFront len bs = (.error .short, m) ↔ ¬ BodyThere len bs.length ∧ m = 0 := by
  rw [bodyFront, BodyThere]
  split_ifs with hmax
  · refine iff_of_false ?_ fun h => h.1 (.inl hmax)
    intro h
    exact absurd (Except.error.inj (Prod.mk.inj h).1) (by decide)
  · rw [takeFront_short_iff, or_iff_right hmax, Nat.not_le]

/-- The loop stops when all bytes that are left, fewer than it would take, announce another one. -/
theorem varintFront_short_iff {w : ℕ} (cnts : List ℕ) (data : BitVec w) :
    varintFront w cnts data bs = (.error .short, m) ↔
      bs.length < cnts.length ∧ (∀ c ∈ bs, ¬ c < 128) ∧ m = bs.length := by
  -- byte by byte: each one with its high bit set asks for another
  induction cnts generalizing data bs m with
  | nil => exact iff_of_false nofun fun h => absurd h.1 (Nat.not_lt_zero _)
  | cons cnt cnts ih =>
    rw [varintFront, Front.bind_eq_error_iff]
    cases bs with
    | nil =>
      constructor
      · rintro (h | ⟨a, k, m, h, -⟩)
        · exact ⟨Nat.zero_lt_succ _, nofun, (Prod.mk.inj h).2.symm⟩
        · exact absurd (Prod.mk.inj h).1 nofun
      · rintro ⟨-, -, rfl⟩
        exact .inl rfl
    | cons c rest =>
      constructor
      · rintro (h | ⟨a, k, m', h, hrest, rfl⟩)
        · exact absurd (Prod.mk.inj h).1 nofun
        · obtain ⟨ha, rfl⟩ := Prod.mk.inj h
          cases ha
          split_ifs at hrest with hc
          · exact absurd (Prod.mk.inj hrest).1 nofun
          · obtain ⟨hlen, hall, rfl⟩ := (ih _).mp hrest
            refine ⟨Nat.succ_lt_succ hlen, ?_, Nat.add_comm _ _⟩
            exact List.forall_mem_cons.mpr ⟨hc, hall⟩
      · rintro ⟨hlen, hall, rfl⟩
        obtain ⟨hc, hall⟩ := List.forall_mem_cons.mp hall
        refine .inr ⟨c, 1, rest.length, rfl, ?_, Nat.add_comm _ _⟩
        rw [if_neg hc]
        exact (ih _).mpr ⟨Nat.lt_of_succ_lt_succ hlen, hall, rfl⟩

/-- A loop that returns has taken a byte. -/
theorem varintFront_takes {w cnt : ℕ} {cnts : List ℕ} {data x : BitVec w}
    (h : varintFront w (cnt :: cnts) data bs = (.ok x, m)) : 0 < m := by
  rw [varintFront, Front.bind_eq_ok_iff] at h
  obtain ⟨a, k, m', hbyte, -, rfl⟩ := h
  cases bs with
  | nil => exact absurd (Prod.mk.inj hbyte).1 nofun
  | cons c rest =>
    rw [← (Prod.mk.inj hbyte).2]
    omega

/-- A compressed integer leaves the buffer as it was when there is nothing to read, or it ends. -/
theorem varint_atomic_iff {w : ℕ} (cnts : List ℕ) (data : BitVec w) :
    (∀ n, varintFront w cnts data bs = (.error .short, n) → n = 0) ↔
      bs = [] ∨ VarintEnds cnts.length bs := by
  constructor
  · intro h
    by_contra hcut
    rw [not_or, VarintEnds, not_or, not_exists, Nat.not_le] at hcut
    -- no byte ends the integer, so all of them are taken
    have hzero := h bs.length ((varintFront_short_iff cnts data).mpr
      ⟨hcut.2.1, fun c hc hlt => hcut.2.2 c ⟨hc, hlt⟩, rfl⟩)
    exact hcut.1 (List.length_eq_zero_iff.mp hzero)
  · intro h n hshort
    obtain ⟨hlen, hall, rfl⟩ := (varintFront_short_iff cnts data).mp hshort
    rcases h with rfl | hends | ⟨c, hc, hlt⟩
    · rfl
    · omega
    · exact absurd hlt (hall c hc)

/-- A string behind its length: the reader of the length must leave the buffer as it was, and the
    bytes must be there once it returns. -/
theorem string_atomic_iff {α : Type} {p : Front Stop UInt8 α} {len : α → ℕ}
    (hp : ∀ a k, p bs = (.ok a, k) → 0 < k) :
    (∀ n, (p.bind fun a => bodyFront (len a)) bs = (.error .short, n) → n = 0) ↔
      (∀ n, p bs = (.error .short, n) → n = 0) ∧
        ∀ a k, p bs = (.ok a, k) → BodyThere (len a) (bs.length - k) := by
  constructor
  · intro h
    refine ⟨fun n hn => h n (Front.bind_eq_error_iff.mpr (.inl hn)), fun a k ha => ?_⟩
    by_contra hcut
    -- the body stops at its first byte, and the length before it has been taken
    have hzero := h k (Front.bind_eq_error_iff.mpr (.inr ⟨a, k, 0, ha,
      bodyFront_short_iff.mpr ⟨by rwa [List.length_drop], rfl⟩, rfl⟩))
    exact (hp a k ha).ne' hzero
  · rintro ⟨hcount, hbody⟩ n hn
    rcases Front.bind_eq_error_iff.mp hn with hn | ⟨a, k, m, ha, hcut, -⟩
    · exact hcount n hn
    · have hthere := hbody a k ha
      rw [← List.length_drop] at hthere
      exact absurd hthere (bodyFront_short_iff.mp hcut).1

/-- Fixed-width integers stop before they take anything. -/
theorem fixed_atomic (e : Endian) (bs : List UInt8) (n : ℕ) :
    ∀ m, fixedFront e n bs = (.error .short, m) → m = 0 :=
  fun _ h => (fixedFront_short_iff.mp h).2

/-- A 32-bit varint fails without moving when there is no byte, or when it does not fail. -/
theorem uint32_atomic_iff (bs : List UInt8) :
    (∀ n, uint32Front bs = (.error .short, n) → n = 0) ↔ bs = [] ∨ VarintEnds 5 bs := by
  simp only [uint32Front, Front.map_eq_error_iff]
  exact varint_atomic_iff (varintShifts 32) 0

/-- A 64-bit varint fails without moving when there is no byte, or when it does not fail. -/
theorem uint64_atomic_iff (bs : List UInt8) :
    (∀ n, uint64Front bs = (.error .short, n) → n = 0) ↔ bs = [] ∨ VarintEnds 10 bs := by
  simp only [uint64Front, Front.map_eq_error_iff]
  exact varint_atomic_iff (varintShifts 64) 0

/-- The strings behind a fixed-width length. -/
theorem fixedString_atomic_iff {α : Type} (e : Endian) {n : ℕ} (hn : 0 < n) (g : BitVec (8 * n) → α)
    (len : α → ℕ) (hlen : ∀ x, len (g x) = x.toNat) (bs : List UInt8) :
    (∀ m, (((fixedFront e n).map g).bind fun x => bodyFront (len x)) bs = (.error .short, m) →
      m = 0) ↔ FixedThere e n bs := by
  have htakes : ∀ a k, (fixedFront e n).map g bs = (.ok a, k) → 0 < k := by
    intro a k ha
    obtain ⟨x, hx, -⟩ := Front.map_eq_ok_iff.mp ha
    rw [← (fixedFront_ok_iff.mp hx).2.2]
    exact hn
  rw [string_atomic_iff htakes]
  constructor
  · rintro ⟨-, hbody⟩
    -- the length is there or it is not; only then the body is asked for
    rcases Nat.lt_or_ge bs.length n with hlt | hle
    · exact .inl hlt
    · have hread : fixedFront e n bs = (.ok (ofMemory e n (bs.take n)), n) :=
        fixedFront_ok_iff.mpr ⟨hle, rfl, rfl⟩
      have hthere := hbody _ n (Front.map_eq_ok_iff.mpr ⟨_, hread, rfl⟩)
      rw [hlen] at hthere
      exact .inr hthere
  · intro hthere
    refine ⟨fun m hm => fixed_atomic e bs n m (Front.map_eq_error_iff.mp hm), fun a k ha => ?_⟩
    obtain ⟨x, hx, rfl⟩ := Front.map_eq_ok_iff.mp ha
    obtain ⟨hle, rfl, rfl⟩ := fixedFront_ok_iff.mp hx
    rw [hlen]
    exact hthere.resolve_left (Nat.not_lt_of_le hle)

/-- **Where failed reads change nothing.** -/
theorem short_iff (host e : Endian) (k : Kind) (bs : List UInt8) :
    (∀ n, valueFront host e k bs = (.error .short, n) → n = 0) ↔ AtomicOn e k bs := by
  cases k
  case fInt8 | fUInt8 | fInt16 | fUInt16 | fInt32 | fUInt32 | fInt64 | fUInt64 | float | double =>
    refine iff_of_true (fun m hm => ?_) trivial
    exact fixed_atomic _ bs _ m (Front.map_eq_error_iff.mp hm)
  case uint32 => exact uint32_atomic_iff bs
  case uint64 => exact uint64_atomic_iff bs
  case int32 =>
    simp only [valueFront, Front.map_eq_error_iff]
    exact uint32_atomic_iff bs
  case int64 =>
    simp only [valueFront, Front.map_eq_error_iff]
    exact uint64_atomic_iff bs
  case stringFInt16 =>
    exact fixedString_atomic_iff e (n := 2) (by decide) UInt16.ofBitVec UInt16.toNat (fun _ => rfl) bs
  case stringFInt32 =>
    exact fixedString_atomic_iff e (n := 4) (by decide) UInt32.ofBitVec UInt32.toNat (fun _ => rfl) bs
  case stringFInt64 =>
    exact fixedString_atomic_iff e (n := 8) (by decide) UInt64.ofBitVec UInt64.toNat (fun _ => rfl) bs
  case stringVInt =>
    have htakes : ∀ a k, uint64Front bs = (.ok a, k) → 0 < k := by
      intro a k ha
      obtain ⟨x, hx, -⟩ := Front.map_eq_ok_iff.mp ha
      exact varintFront_takes hx
    refine (string_atomic_iff htakes).trans ?_
    rw [uint64_atomic_iff, or_and_right, AtomicOn]
    -- nothing returns on no bytes
    refine or_congr_left ⟨And.left, fun hnil => ⟨hnil, fun a k ha => ?_⟩⟩
    subst hnil
    exact absurd (Prod.mk.inj ha).1 nofun

/-! ### In the buffer -/

/-- On a well-formed buffer the reader's conduct is read off the unread bytes. -/
theorem failsAtomically_of_inv (host : Endian) (k : Kind) (h : b.Inv) :
    FailsAtomically host k b ↔ AtomicOn b.baEndian k b.unread := by
  rw [← short_iff host]
  have hrun := (readValue_follows host b.baEndian k).run b h rfl
  constructor
  · intro hatomic n hn
    rw [hn] at hrun
    exact (advance_eq_self_iff h).mp (hatomic _ hrun)
  · intro hshort b' hb'
    rw [hrun] at hb'
    cases hp : valueFront host b.baEndian k b.unread with
    | mk r n =>
      rw [hp] at hb'
      cases r with
      | ok a => exact nomatch hb'
      | error s =>
        obtain ⟨hexn, hstate⟩ := EStateM.Result.error.inj hb'
        cases s with
        | short => rw [← hstate, hshort n hp, advance_zero h]
        -- `length_error` of `resize`, not an incomplete value
        | tooLong => exact nomatch hexn

/-! ### Nodes of size zero

A buffer of node size zero never stores a byte: in the source the number of new nodes is infinite,
and here the quotient by zero is zero, and the cursor is null.
-/

/-- The state of a buffer of node size zero. -/
structure Blank (b : ByteArray) : Prop where
  nodeSize : b.nodeSize = 0
  totalSize : b.totalSize = 0
  dataSize : b.dataSize = 0
  position : b.position = 0

/-- With nodes of size zero the quotient is infinite or not a number, and no node is made. -/
theorem newNodeCount_zero (size : ℕ) : newNodeCount size 0 = 0 := by
  have hzero : round32 0 = 0 := by simp [round32, roundEven]
  rw [newNodeCount, div32, Nat.cast_zero, hzero, div_zero, hzero, Nat.ceil_zero]

/-- A buffer without nodes has nothing to read. -/
theorem Blank.getReadSize (h : Blank b) : b.getReadSize = 0 := by
  rw [ByteArray.getReadSize, h.dataSize, h.position, wsub_of_le (le_refl 0)]

/-- Every read of a blank buffer throws. -/
theorem Blank.read (h : Blank b) {n : ℕ} (hn : 0 < n) : read n b = .error b.readRangeError b := by
  have hlong : n > b.getReadSize := by
    rw [h.getReadSize]
    exact hn
  simp only [ByteArray.read, hn.ne', if_false, bind_run, get_run, hlong, if_true, throw_run]

/-- A growth leaves the cursor null. -/
theorem Blank.addTotalSize_cur (h : Blank b) (fill : ℕ → ℕ → UInt8) {size : ℕ} (hsize : 0 < size) :
    (addTotalSize fill size b).cur = none := by
  have hremain : b.getRemainSize = 0 := by
    rw [getRemainSize, h.totalSize, h.position, wsub_of_le (le_refl 0)]
  have hcount : newNodeCount (size - 0) b.nodeSize = 0 := by rw [h.nodeSize, newNodeCount_zero]
  rw [addTotalSize, if_neg hsize.ne', hremain]
  simp only [hcount]
  rw [if_neg (by omega)]
  rfl

/-- Every write to a blank buffer goes through a null node. -/
theorem Blank.write (h : Blank b) (fill : ℕ → ℕ → UInt8) {buf : List UInt8} (hbuf : buf ≠ []) :
    write fill buf b = .error .nullNode (addTotalSize fill buf.length b) := by
  simp only [ByteArray.write, hbuf, if_false, bind_run, get_run, modify_run,
    h.addTotalSize_cur fill (List.length_pos_iff.mpr hbuf), deref]
  rfl

/-- `getWriteBuffers` of a blank buffer goes through a null node. -/
theorem Blank.getWriteBuffers (h : Blank b) (fill : ℕ → ℕ → UInt8) {len : ℕ} (hlen : 0 < len) :
    getWriteBuffers fill len b = .error .nullNode (addTotalSize fill len b) := by
  simp only [ByteArray.getWriteBuffers, hlen.ne', if_false, bind_run, get_run, modify_run,
    h.addTotalSize_cur fill hlen, deref]
  rfl

/-- The fixed-width readers throw before they move. -/
theorem Blank.readFixed (h : Blank b) (host : Endian) {n : ℕ} (hn : 0 < n) :
    readRaw host n b = .error b.readRangeError b ∧ readFixed host n b = .error b.readRangeError b := by
  have hraw : readRaw host n b = .error b.readRangeError b := by
    simp only [readRaw, bind_run, h.read hn]
  exact ⟨hraw, by simp only [ByteArray.readFixed, bind_run, hraw]⟩

/-- The varint loop throws at its first byte. -/
theorem Blank.readVarint (h : Blank b) (host : Endian) {w cnt : ℕ} (cnts : List ℕ) (data : BitVec w) :
    readVarintLoop host w (cnt :: cnts) data b = .error b.readRangeError b := by
  simp only [readVarintLoop, readFUInt8, bind_run, (h.readFixed host Nat.one_pos).1]

/-- Every typed reader throws at once. -/
theorem Blank.readValue (h : Blank b) (host : Endian) (k : Kind) :
    readValue host k b = .error b.readRangeError b := by
  have hraw : ∀ {n : ℕ}, 0 < n → readRaw host n b = .error b.readRangeError b :=
    fun hn => (h.readFixed host hn).1
  have hfixed : ∀ {n : ℕ}, 0 < n → ByteArray.readFixed host n b = .error b.readRangeError b :=
    fun hn => (h.readFixed host hn).2
  have huint32 : readUInt32 host b = .error b.readRangeError b := by
    rw [readUInt32, bind_run]
    simp only [show varintShifts 32 = [0, 7, 14, 21, 28] from rfl, h.readVarint]
  have huint64 : readUInt64 host b = .error b.readRangeError b := by
    rw [readUInt64, bind_run]
    simp only [show varintShifts 64 = [0, 7, 14, 21, 28, 35, 42, 49, 56, 63] from rfl, h.readVarint]
  -- the kinds fall into those that read the same first bytes
  cases k
  case fInt8 | fUInt8 =>
    simp only [ByteArray.readValue, readFInt8, readFUInt8, bind_run, hraw Nat.one_pos]
  case fInt16 | fUInt16 | stringFInt16 =>
    simp only [ByteArray.readValue, readFInt16, readFUInt16, readStringFInt16, bind_run,
      hfixed Nat.two_pos]
  case fInt32 | fUInt32 | float | stringFInt32 =>
    simp only [ByteArray.readValue, readFInt32, readFUInt32, readFloat, readStringFInt32, bind_run,
      hfixed (show 0 < 4 by decide)]
  case fInt64 | fUInt64 | double | stringFInt64 =>
    simp only [ByteArray.readValue, readFInt64, readFUInt64, readDouble, readStringFInt64, bind_run,
      hfixed (show 0 < 8 by decide)]
  case uint32 => exact huint32
  case uint64 => exact huint64
  case int32 => simp only [ByteArray.readValue, readInt32, bind_run, huint32]
  case int64 => simp only [ByteArray.readValue, readInt64, bind_run, huint64]
  case stringVInt => simp only [ByteArray.readValue, readStringVInt, bind_run, huint64]

/-- Every typed writer dereferences the null cursor. -/
theorem Blank.writeValue (h : Blank b) (host : Endian) (u : Unspecified) (k : Kind) (v : k.Carrier) :
    ∃ b', writeValue host u k v b = .error .nullNode b' := by
  -- every kind stores at least one byte first
  have hraw : ∀ {n : ℕ}, 0 < n → ∀ x, ∃ b', writeRaw host u.fill n x b = .error .nullNode b' :=
    fun {n} hn x => ⟨_, h.write u.fill (by
      rw [← List.length_pos_iff, length_toMemory]
      exact hn)⟩
  have hfixed : ∀ {n : ℕ}, 0 < n → ∀ x, ∃ b', writeFixed host u.fill n x b = .error .nullNode b' :=
    fun hn _ => hraw hn _
  have hvarint : ∀ {w k : ℕ} (n : BitVec w), w ≤ 7 * (k + 1) → ∃ b', (do
      let buf ← liftExcept (Varint.encodeInto (k + 1) n)
      ByteArray.write u.fill buf) b = .error .nullNode b' := by
    intro w k n hw
    have hne : Varint.encode n ≠ [] := by
      rw [Varint.encode]
      split_ifs <;> exact List.cons_ne_nil _ _
    refine ⟨addTotalSize u.fill (Varint.encode n).length b, ?_⟩
    rw [Varint.encodeInto_eq n hw, bind_run, liftExcept_ok]
    exact h.write u.fill hne
  -- a string is written behind its length
  have hstring : ∀ {op : Op Unit} (s : List UInt8), (∃ b', op b = .error .nullNode b') →
      ∃ b', (do op; ByteArray.write u.fill s) b = .error .nullNode b' := by
    rintro op s ⟨b', hop⟩
    exact ⟨b', by rw [bind_run, hop]⟩
  cases k
  case fInt8 | fUInt8 => exact hraw Nat.one_pos _
  case fInt16 | fUInt16 => exact hfixed Nat.two_pos _
  case fInt32 | fUInt32 | float => exact hfixed (show 0 < 4 by decide) _
  case fInt64 | fUInt64 | double => exact hfixed (show 0 < 8 by decide) _
  case int32 | uint32 => exact hvarint (k := 4) _ (by decide)
  case int64 | uint64 => exact hvarint (k := 9) _ (by decide)
  case stringFInt16 => exact hstring v (hfixed Nat.two_pos _)
  case stringFInt32 => exact hstring v (hfixed (show 0 < 4 by decide) _)
  case stringFInt64 => exact hstring v (hfixed (show 0 < 8 by decide) _)
  case stringVInt => exact hstring v (hvarint (k := 9) _ (by decide))

/-- `setPosition(0)` keeps a buffer blank, and any other position is refused. -/
theorem Blank.setPosition (h : Blank b) (u : Unspecified) :
    Blank (outcome (execBuffer u (.setPosition 0)) b).2 := by
  have hfit : ¬ 0 > b.totalSize := Nat.not_lt_zero _
  -- the walk is over nodes of size zero, and the state stays blank wherever it ends
  cases hseek : seekLoop b.nodes b.nodes.length (some 0) 0 with
  | error x =>
    have heq : execBuffer u (.setPosition 0) b = .error x b := by
      simp only [execBuffer, ByteArray.setPosition, bind_run, get_run, hfit, if_false, hseek]
      rfl
    rw [outcome_error heq]
    exact h
  | ok cur =>
    have heq : execBuffer u (.setPosition 0) b = .ok .unit { b with
        position := 0
        cur := cur
        dataSize := if 0 > b.dataSize then 0 else b.dataSize } := by
      simp only [execBuffer, ByteArray.setPosition, bind_run, get_run, hfit, if_false, hseek,
        liftExcept_ok]
      rfl
    rw [outcome_ok heq]
    exact ⟨h.nodeSize, h.totalSize, by simp only [h.dataSize, ite_self], rfl⟩

/-- A call that fails ends the block. -/
theorem outcome_bind_error {α β : Type} {op : Op α} {f : α → Op β} {x : Exn} {b' : ByteArray}
    (h : op b = .error x b') : outcome (op >>= f) b = (.error x, b') :=
  outcome_error (by rw [bind_run, h])

/-- No call makes such a buffer a different one, unless it faults. -/
theorem Blank.exec (h : Blank b) (host : Endian) (u : Unspecified) (c : Call)
    (hno : ∀ x, (outcome (ByteArray.exec host u c) b).1 = .error x → x.isFault = false) :
    Blank (outcome (ByteArray.exec host u c) b).2 := by
  -- a call that runs into the null cursor is excluded
  have hnull : ∀ {b'}, outcome (ByteArray.exec host u c) b = (.error .nullNode, b') →
      Blank (outcome (ByteArray.exec host u c) b).2 := by
    intro b' heq
    have hfault := hno .nullNode (by rw [heq])
    exact absurd hfault (by decide)
  cases c with
  | writeValue k v =>
    obtain ⟨b', hwrite⟩ := h.writeValue host u k v
    exact hnull (outcome_bind_error hwrite)
  | readValue k =>
    have heq : outcome (ByteArray.exec host u (.readValue k)) b = (.error b.readRangeError, b) :=
      outcome_bind_error (h.readValue host k)
    rw [heq]
    exact h
  | setLittleEndian isLittle => exact { h with }
  | writeString data =>
    by_cases hne : data = []
    · subst hne
      exact h
    · exact hnull (outcome_bind_error (h.write u.fill hne))
  | getWriteBuffers len =>
    rcases Nat.eq_zero_or_pos len with rfl | hlen
    · exact h
    · exact hnull (outcome_bind_error (h.getWriteBuffers u.fill hlen))
  | buffer c =>
    cases c with
    | write buf =>
      by_cases hne : buf = []
      · subst hne
        exact h
      · exact hnull (outcome_bind_error (h.write u.fill hne))
    | read n =>
      rcases Nat.eq_zero_or_pos n with rfl | hn
      · exact h
      · have heq : outcome (ByteArray.exec host u (.buffer (.read n))) b =
            (.error b.readRangeError, b) := outcome_bind_error (h.read hn)
        rw [heq]
        exact h
    | setPosition pos =>
      rcases Nat.eq_zero_or_pos pos with rfl | hpos
      · exact h.setPosition u
      · have heq : outcome (ByteArray.exec host u (.buffer (.setPosition pos))) b =
            (.error (b.positionRangeError pos), b) :=
          outcome_bind_error (setPosition_past (by rw [h.totalSize]; exact hpos))
        rw [heq]
        exact h
    | clear => exact ⟨h.nodeSize, h.nodeSize, rfl, rfl⟩
    | size => exact h
    | getReadSize => exact h
    | toString =>
      have hnone : b.toString = .ok [] := by
        simp only [ByteArray.toString, h.dataSize, h.position, wsub_of_le (le_refl 0), Nat.sub_self]
        rfl
      have heq : outcome (ByteArray.exec host u (.buffer .toString)) b = (.ok (.bytes []), b) := by
        apply outcome_ok
        simp only [ByteArray.exec, execBuffer, bind_run, get_run, hnone, liftExcept_ok]
        rfl
      rw [heq]
      exact h
    | getReadBuffers len =>
      have hnone : b.getReadBuffers len = .ok (0, []) := by
        have hlen : (if len > 0 then 0 else len) = 0 := by split_ifs <;> omega
        simp only [ByteArray.getReadBuffers, h.dataSize, h.position, wsub_of_le (le_refl 0),
          Nat.sub_self, hlen]
        rfl
      have heq : outcome (ByteArray.exec host u (.buffer (.getReadBuffers len))) b =
          (.ok (.segments 0 []), b) := by
        apply outcome_ok
        simp only [ByteArray.exec, execBuffer, bind_run, get_run, hnone, liftExcept_ok]
        rfl
      rw [heq]
      exact h

/-- No call gets a buffer with nodes of size zero any data. -/
theorem Reachable.blank {host : Endian} (h : Reachable host 0 b) : Blank b := by
  induction h with
  | new fill => exact ⟨rfl, rfl, rfl, rfl⟩
  | call v c _ hno ih => exact ih.exec host v c hno
  | stored nodes' _ _ ih => exact { ih with }

/-- **Failed typed reads.**  In every reachable state, of any node size, a typed read that throws
    because the data is incomplete leaves the buffer as it was exactly on the unread bytes of
    `AtomicOn`. -/
theorem failsAtomically_iff {host : Endian} {ns : ℕ} (hb : Reachable host ns b) (k : Kind) :
    FailsAtomically host k b ↔ AtomicOn b.baEndian k b.unread := by
  rcases Nat.eq_zero_or_pos ns with rfl | hns
  · -- nothing is stored, and every reader throws at once
    have hblank := hb.blank
    have hunread : b.unread = [] := by
      rw [unread, hblank.dataSize, hblank.position, Nat.sub_self, slice_zero]
    refine iff_of_true ?_ ?_
    · intro b' hb'
      rw [hblank.readValue host k] at hb'
      exact (EStateM.Result.error.inj hb').2.symm
    · rw [hunread, ← short_iff host]
      intro n hn
      have hwithin := (readValue_follows host b.baEndian k).within []
      rw [hn] at hwithin
      exact Nat.le_zero.mp hwithin
  · exact failsAtomically_of_inv host k (hb.inv hns).1

/-- One unread byte that announces another one. -/
def cutVarint : ByteArray where
  nodes := [⟨[128, 0, 0, 0], 4⟩]
  cur := some 0
  nodeSize := 4
  totalSize := 4
  dataSize := 1
  position := 0
  baEndian := .big

/-- The sample buffer is a run's. -/
theorem cutVarint_reachable : Reachable .little 4 cutVarint := by
  have hnew : Reachable .little 4 (new 4 fun _ => 0) := .new _
  have hwritten := hnew.small (by decide) default (.buffer (.write [128])) (by decide)
  exact hwritten.small (by decide) default (.buffer (.setPosition 0)) (by decide)

/-- A string whose length was cut off. -/
theorem failsAtomically_iff_cutVarint : FailsAtomically .little .fUInt16 cutVarint :=
  (failsAtomically_iff cutVarint_reachable .fUInt16).mpr trivial

/-- Reading it as a compressed integer throws with the byte consumed. -/
theorem readUInt32_consumes : Reachable .little 4 cutVarint ∧
    readValue .little .uint32 cutVarint =
      .error { cutVarint with position := 1 }.readRangeError { cutVarint with position := 1 } ∧
    ¬ FailsAtomically .little .uint32 cutVarint := by
  have hrun : readValue .little .uint32 cutVarint =
      .error { cutVarint with position := 1 }.readRangeError { cutVarint with position := 1 } := rfl
  refine ⟨cutVarint_reachable, hrun, fun hatomic => ?_⟩
  have hpos := congrArg ByteArray.position (hatomic _ hrun)
  exact absurd hpos (by decide)

end ByteArray

end LoNetfw.Util
