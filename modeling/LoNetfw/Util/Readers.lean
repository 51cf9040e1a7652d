import LoNetfw.Basis.Front
import LoNetfw.Util.Stream

namespace LoNetfw.Util

open Basis

/-!
# `ByteArray` — the typed readers as readers of the unread bytes

What a typed reader does depends on the unread bytes and the byte order alone.  `Follows` says that
an operation is a `Front` reader of these bytes: it returns the same value, or throws where that one
stops, and moves the cursor by the number of bytes taken and changes nothing else.

* `advance` — the buffer with the cursor further on;
* `valueFront` — the reader of each kind;
* `readValue_follows` — every typed reader follows it.
-/

/-- Why a typed reader stops: the data ends, or the string cannot be as long as announced. -/
inductive Stop
  | short
  | tooLong
  deriving DecidableEq, Repr

namespace ByteArray

/-- The stored bytes from the cursor on. -/
def unread (b : ByteArray) : List UInt8 := slice b.mem b.position (b.dataSize - b.position)

/-- The buffer with the cursor `n` bytes further on. -/
def advance (b : ByteArray) (n : ℕ) : ByteArray :=
  { b with
    cur := cursorAt b.nodes.length b.nodeSize (b.position + n)
    position := b.position + n }

variable {b : ByteArray}

/-! ### Moving over unread bytes -/

/-- The unread bytes are those from the cursor to the end of the data. -/
theorem length_unread (h : b.Inv) : b.unread.length = b.dataSize - b.position := by
  have hle := h.position_le
  have hdata := h.dataSize_le
  rw [unread, length_slice (by rw [h.length_mem]; omega)]

/-- A cursor inside the data is a good one. -/
theorem advance_inv (h : b.Inv) {n : ℕ} (hn : n ≤ b.unread.length) : (b.advance n).Inv := by
  have hle := h.position_le
  rw [length_unread h] at hn
  exact { h with
    position_le := by dsimp only [advance]; omega
    cursor := rfl }

/-- By nothing the cursor does not move. -/
theorem advance_zero (h : b.Inv) : b.advance 0 = b := by
  rw [advance, Nat.add_zero, ← h.cursor]

/-- Two moves are one. -/
theorem advance_advance (b : ByteArray) (m n : ℕ) :
    (b.advance m).advance n = b.advance (m + n) := by
  simp only [advance, Nat.add_assoc]

/-- What is left after a move. -/
theorem unread_advance (b : ByteArray) (n : ℕ) : (b.advance n).unread = b.unread.drop n := by
  rw [unread, unread, slice, slice, List.drop_take, List.drop_drop]
  congr 1
  exact Nat.sub_add_eq b.dataSize b.position n

/-- The cursor moves only over bytes. -/
theorem advance_eq_self_iff {n : ℕ} (h : b.Inv) : b.advance n = b ↔ n = 0 := by
  constructor
  · intro heq
    have hpos : b.position + n = b.position := congrArg ByteArray.position heq
    omega
  · rintro rfl
    exact advance_zero h

/-- `read` is a move over the bytes it returns. -/
theorem read_advance (h : b.Inv) {n : ℕ} (hn : n ≤ b.unread.length) :
    read n b = .ok (b.unread.take n) (b.advance n) := by
  have hinv := advance_inv h hn
  have htake : slice b.mem b.position n = b.unread.take n := by
    rw [length_unread h] at hn
    rw [unread, slice, slice, List.take_take, Nat.min_eq_left hn]
  rw [length_unread h] at hn
  obtain ⟨b', hread, hb', hmem, hnode, -, hdata, hpos, hend⟩ := read_spec h hn
  rw [hread, htake, hb'.ext hinv hmem hnode hpos hdata hend]

/-! ### Following a reader of the unread bytes -/

/-- What is thrown where a reader stops. -/
def stopExn : Stop → ByteArray → Exn
  | .short, b => b.readRangeError
  | .tooLong, _ => .lengthError

/-- The operation that returns or throws what a reader says. -/
def finish {α : Type} (b : ByteArray) : Except Stop α × ℕ → EStateM.Result Exn ByteArray α
  | (.ok a, n) => .ok a (b.advance n)
  | (.error s, n) => .error (stopExn s (b.advance n)) (b.advance n)

/-- In byte order `e` the operation is the reader `p` of the unread bytes. -/
structure Follows {α : Type} (e : Endian) (op : Op α) (p : Front Stop UInt8 α) : Prop where
  within : p.Within
  run : ∀ b : ByteArray, b.Inv → b.baEndian = e → op b = finish b (p b.unread)

namespace Follows

variable {α β : Type} {e : Endian}

/-- Returning follows the reader that takes nothing. -/
theorem pure (a : α) : Follows e (Pure.pure a) (Front.pure a) where
  within := .pure a
  run := by
    intro b hb _
    change EStateM.Result.ok a b = .ok a (b.advance 0)
    rw [advance_zero hb]

/-- Two calls in turn follow the readers in turn. -/
theorem bind {op : Op α} {f : α → Op β} {p : Front Stop UInt8 α} {q : α → Front Stop UInt8 β}
    (hop : Follows e op p) (hf : ∀ a, Follows e (f a) (q a)) :
    Follows e (op >>= f) (p.bind q) where
  within := hop.within.bind fun a => (hf a).within
  run := by
    intro b hb he
    have hwithin := hop.within b.unread
    rw [bind_run, hop.run b hb he, Front.bind]
    cases hp : p b.unread with
    | mk r n =>
      rw [hp] at hwithin
      cases r with
      | error s => rfl
      | ok a =>
        -- the second reader starts on what the first has left
        have hrest := (hf a).run (b.advance n) (advance_inv hb hwithin) he
        rw [unread_advance] at hrest
        simp only [finish, hrest]
        cases hq : q a (b.unread.drop n) with
        | mk r' m => cases r' <;> simp only [advance_advance]

/-- A mapped result follows the mapped reader. -/
theorem map {op : Op α} {f : α → Op β} {p : Front Stop UInt8 α} {g : α → β} (hop : Follows e op p)
    (hf : ∀ a, f a = Pure.pure (g a)) : Follows e (op >>= f) (p.map g) :=
  hop.bind fun a => by
    rw [hf a]
    exact Follows.pure (g a)

end Follows

/-! ### The readers -/

variable (host e : Endian)

/-- `read(buf, n)`. -/
def takeFront (n : ℕ) : Front Stop UInt8 (List UInt8) := fun bs =>
  if n ≤ bs.length then (.ok (bs.take n), n) else (.error .short, 0)

/-- A fixed-width integer in the byte order `e`. -/
def fixedFront (n : ℕ) : Front Stop UInt8 (BitVec (8 * n)) := (takeFront n).map (ofMemory e n)

def byteFront : Front Stop UInt8 UInt8
  | [] => (.error .short, 0)
  | c :: _ => (.ok c, 1)

/-- The loop over the shifts, on the unread bytes. -/
def varintFront (w : ℕ) : List ℕ → BitVec w → Front Stop UInt8 (BitVec w)
  | [], data => Front.pure data
  | cnt :: cnts, data => byteFront.bind fun tmp =>
    if tmp < 0b10000000 then Front.pure (data ||| (BitVec.ofNat w tmp.toNat <<< cnt))
    else varintFront w cnts (data ||| (BitVec.ofNat w (tmp &&& 0b01111111).toNat <<< cnt))

def uint32Front : Front Stop UInt8 UInt32 := (varintFront 32 (varintShifts 32) 0).map .ofBitVec

def uint64Front : Front Stop UInt8 UInt64 := (varintFront 64 (varintShifts 64) 0).map .ofBitVec

/-- `res.resize(len); read(&res[0], len)`. -/
def bodyFront (len : ℕ) : Front Stop UInt8 (List UInt8) := fun bs =>
  if len > stringMaxSize then (.error .tooLong, 0) else takeFront len bs

/-- The typed reader of a kind, on the unread bytes. -/
def valueFront : (k : Kind) → Front Stop UInt8 k.Carrier
  | .fInt8 => (fixedFront host 1).map fun x => ⟨⟨x⟩⟩
  | .fUInt8 => (fixedFront host 1).map fun x => ⟨x⟩
  | .fInt16 => (fixedFront e 2).map fun x => ⟨⟨x⟩⟩
  | .fUInt16 => (fixedFront e 2).map fun x => ⟨x⟩
  | .fInt32 => (fixedFront e 4).map fun x => ⟨⟨x⟩⟩
  | .fUInt32 | .float => (fixedFront e 4).map fun x => ⟨x⟩
  | .fInt64 => (fixedFront e 8).map fun x => ⟨⟨x⟩⟩
  | .fUInt64 | .double => (fixedFront e 8).map fun x => ⟨x⟩
  | .int32 => uint32Front.map fun x => ⟨⟨ZigZag.decode x.toBitVec⟩⟩
  | .uint32 => uint32Front
  | .int64 => uint64Front.map fun x => ⟨⟨ZigZag.decode x.toBitVec⟩⟩
  | .uint64 => uint64Front
  | .stringFInt16 => ((fixedFront e 2).map UInt16.ofBitVec).bind fun x => bodyFront x.toNat
  | .stringFInt32 => ((fixedFront e 4).map UInt32.ofBitVec).bind fun x => bodyFront x.toNat
  | .stringFInt64 => ((fixedFront e 8).map UInt64.ofBitVec).bind fun x => bodyFront x.toNat
  | .stringVInt => uint64Front.bind fun x => bodyFront x.toNat

/-- `read` follows `takeFront`. -/
theorem read_follows (n : ℕ) : Follows e (read n) (takeFront n) where
  within := by
    intro bs
    rw [takeFront]
    split_ifs with hn
    · exact hn
    · exact Nat.zero_le _
  run := by
    intro b hb _
    rw [takeFront]
    split_ifs with hn
    · rw [read_advance hb hn]
      rfl
    · rw [length_unread hb, Nat.not_le] at hn
      rw [read_short hb hn, finish, advance_zero hb]
      rfl

/-- The raw reader follows `fixedFront` in the host's order. -/
theorem readRaw_follows (n : ℕ) : Follows e (readRaw host n) (fixedFront host n) :=
  (read_follows e n).map fun _ => rfl

/-- With the swap the reader follows `fixedFront` in the buffer's order. -/
theorem readFixed_follows (n : ℕ) : Follows e (readFixed host n) (fixedFront e n) where
  within := (readRaw_follows e e n).within
  run := by
    intro b hb he
    rw [readFixed, bind_run, (readRaw_follows host e n).run b hb he, fixedFront, fixedFront,
      Front.map, Front.map, Front.bind, Front.bind, takeFront]
    split_ifs with hn
    · have hlen : (b.unread.take n).length = n := List.length_take_of_le hn
      have hswap := swapFor_ofMemory host e n hlen
      simp only [finish, Front.pure, bind_run, get_run]
      -- the swap is decided by the byte order after the read, which a read keeps
      rw [show (b.advance (n + 0)).baEndian = e from he, hswap]
      rfl
    · rfl

/-- The reader of one byte follows `byteFront`. -/
theorem readFUInt8_follows : Follows e (readFUInt8 host) byteFront where
  within := by
    intro bs
    cases bs with
    | nil => exact Nat.zero_le _
    | cons c bs => exact Nat.succ_le_succ (Nat.zero_le _)
  run := by
    intro b hb he
    rw [readFUInt8, bind_run, (readRaw_follows host e 1).run b hb he]
    cases hbs : b.unread with
    | nil => rfl
    | cons c bs =>
      -- one byte is the same in both orders
      have hbyte : ofMemory host 1 [c] = c.toBitVec := by
        apply BitVec.eq_of_toNat_eq
        cases host <;> simp [ofMemory, ofLE]
      have hfront : fixedFront host 1 (c :: bs) = (.ok c.toBitVec, 1) := by
        rw [← hbyte]
        rfl
      rw [hfront]
      rfl

/-- The varint loop, by induction on the shifts. -/
theorem readVarintLoop_follows (w : ℕ) (cnts : List ℕ) (data : BitVec w) :
    Follows e (readVarintLoop host w cnts data) (varintFront w cnts data) := by
  induction cnts generalizing data with
  | nil => exact .pure data
  | cons cnt cnts ih =>
    apply (readFUInt8_follows host e).bind
    intro tmp
    split
    · exact .pure _
    · exact ih _

/-- The string's body: `resize` throws before anything is read. -/
theorem readStringBody_follows (len : ℕ) : Follows e (readStringBody len) (bodyFront len) where
  within := by
    intro bs
    rw [bodyFront]
    split_ifs
    · exact Nat.zero_le _
    · exact (read_follows e len).within bs
  run := by
    intro b hb he
    rw [readStringBody, bodyFront]
    split_ifs
    · rw [bind_run, throw_run, finish, advance_zero hb]
      rfl
    · exact (read_follows e len).run b hb he

/-- **Typed readers.**  Each of them follows its reader of the unread bytes. -/
theorem readValue_follows (k : Kind) : Follows e (readValue host k) (valueFront host e k) := by
  have huint32 : Follows e (readUInt32 host) uint32Front :=
    (readVarintLoop_follows host e 32 _ _).map fun _ => rfl
  have huint64 : Follows e (readUInt64 host) uint64Front :=
    (readVarintLoop_follows host e 64 _ _).map fun _ => rfl
  cases k
  case fInt8 | fUInt8 => exact (readRaw_follows host e 1).map fun _ => rfl
  case fInt16 | fUInt16 | fInt32 | fUInt32 | fInt64 | fUInt64 | float | double =>
    exact (readFixed_follows host e _).map fun _ => rfl
  case uint32 => exact huint32
  case uint64 => exact huint64
  case int32 => exact huint32.map fun _ => rfl
  case int64 => exact huint64.map fun _ => rfl
  case stringFInt16 | stringFInt32 | stringFInt64 =>
    exact ((readFixed_follows host e _).map fun _ => rfl).bind fun _ => readStringBody_follows e _
  case stringVInt => exact huint64.bind fun _ => readStringBody_follows e _

/-! ### Where the readers stop, and what they return -/

variable {bs : List UInt8} {n m : ℕ} {e}

/-- `takeFront` stops short without taking anything. -/
theorem takeFront_short_iff : takeFront n bs = (.error .short, m) ↔ bs.length < n ∧ m = 0 := by
  rw [takeFront]
  split_ifs with hn
  · exact iff_of_false nofun (by omega)
  · rw [Prod.mk.injEq]
    constructor
    · rintro ⟨-, rfl⟩
      exact ⟨by omega, rfl⟩
    · rintro ⟨-, rfl⟩
      exact ⟨rfl, rfl⟩

/-- `takeFront` succeeds with all it was asked for. -/
theorem takeFront_ok_iff {xs : List UInt8} :
    takeFront n bs = (.ok xs, m) ↔ n ≤ bs.length ∧ bs.take n = xs ∧ n = m := by
  rw [takeFront]
  split_ifs with hn
  · rw [Prod.mk.injEq, Except.ok.injEq, and_iff_right hn]
  · exact iff_of_false nofun fun h => hn h.1

/-- A fixed-width reader stops short without taking anything. -/
theorem fixedFront_short_iff : fixedFront e n bs = (.error .short, m) ↔ bs.length < n ∧ m = 0 := by
  rw [fixedFront, Front.map_eq_error_iff, takeFront_short_iff]

/-- A fixed-width reader's value is that of the bytes. -/
theorem fixedFront_ok_iff {x : BitVec (8 * n)} :
    fixedFront e n bs = (.ok x, m) ↔ n ≤ bs.length ∧ ofMemory e n (bs.take n) = x ∧ n = m := by
  rw [fixedFront, Front.map_eq_ok_iff]
  constructor
  · rintro ⟨xs, hxs, rfl⟩
    obtain ⟨hn, rfl, hm⟩ := takeFront_ok_iff.mp hxs
    exact ⟨hn, rfl, hm⟩
  · rintro ⟨hn, rfl, hm⟩
    exact ⟨_, takeFront_ok_iff.mpr ⟨hn, rfl, hm⟩, rfl⟩

/-- A body that is read is not too long, and there. -/
theorem bodyFront_ok_iff {len : ℕ} {s : List UInt8} :
    bodyFront len bs = (.ok s, m) ↔
      len ≤ stringMaxSize ∧ len ≤ bs.length ∧ bs.take len = s ∧ len = m := by
  rw [bodyFront]
  split_ifs with hmax
  · exact iff_of_false nofun fun h => Nat.not_le_of_lt hmax h.1
  · rw [takeFront_ok_iff, and_iff_right (Nat.le_of_not_lt hmax)]

end ByteArray

end LoNetfw.Util
