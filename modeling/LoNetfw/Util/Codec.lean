import LoNetfw.Util.ByteArray

namespace LoNetfw.Util

open Basis

/-!
# Integer codecs — memory representation, `byteswap`, `ZigZag` and `Varint`

The integer transformations of `util/endian.h` and `util/serializer.cpp`.  The members of
each family (`encode16/32/64`, `byteswap` of two, four or eight bytes) differ only in the
width, so each family is one definition on `BitVec w`.

* `getLsbD_byteswap` — where a bit of an integer is after a swap;
* `toMemory_swapFor`, `swapFor_ofMemory` — swapping on a host of the other byte order
  stores, and reads back, the bytes in the order the buffer asks for;
* `ZigZag.decode_encode` — decoding inverts encoding at every positive width;
* `Varint.encode_cons`, `Varint.encode_last` — the two cases of the encoding loop in
  terms of the encoded number.
-/

/-! ### Integers in memory -/

/-- The bytes of an integer of `n` bytes in the memory of a host of byte order `e`. -/
def toMemory (e : Endian) (n : ℕ) (x : BitVec (8 * n)) : List UInt8 :=
  match e with
  | .little => toLE n x.toNat
  | .big => (toLE n x.toNat).reverse

/-- The integer that these bytes are in the memory of a host of byte order `e`. -/
def ofMemory (e : Endian) (n : ℕ) (bs : List UInt8) : BitVec (8 * n) :=
  match e with
  | .little => BitVec.ofNat _ (ofLE bs)
  | .big => BitVec.ofNat _ (ofLE bs.reverse)

/-- `byteswap`: the same bytes in the opposite order. -/
def byteswap {n : ℕ} (x : BitVec (8 * n)) : BitVec (8 * n) :=
  BitVec.ofNat _ (ofLE (toLE n x.toNat).reverse)

/-- `(m_ba_endian == LON_ENDIAN) ? data : util::byteswap(data)` on a host of byte order
    `host`. -/
def swapFor (host ba : Endian) {n : ℕ} (x : BitVec (8 * n)) : BitVec (8 * n) :=
  if ba = host then x else byteswap x

/-- An integer of `n` bytes takes `n` bytes. -/
@[simp] theorem length_toMemory (e : Endian) (n : ℕ) (x : BitVec (8 * n)) :
    (toMemory e n x).length = n := by
  cases e <;> simp [toMemory]

/-- Bytes against bits. -/
theorem pow_256 (n : ℕ) : 256 ^ n = 2 ^ (8 * n) := by
  rw [Nat.pow_mul]

/-- A stored integer is read back. -/
theorem ofMemory_toMemory (e : Endian) (n : ℕ) (x : BitVec (8 * n)) :
    ofMemory e n (toMemory e n x) = x := by
  have hx : ofLE (toLE n x.toNat) = x.toNat := by
    rw [ofLE_toLE, pow_256, Nat.mod_eq_of_lt x.isLt]
  cases e with
  | little => simp only [ofMemory, toMemory, hx, BitVec.ofNat_toNat, BitVec.setWidth_eq]
  | big =>
    simp only [ofMemory, toMemory, List.reverse_reverse, hx, BitVec.ofNat_toNat, BitVec.setWidth_eq]

/-- The bytes of a swapped integer are the bytes of the integer, reversed. -/
theorem toLE_byteswap {n : ℕ} (x : BitVec (8 * n)) :
    toLE n (byteswap x).toNat = (toLE n x.toNat).reverse := by
  have hlen : (toLE n x.toNat).reverse.length = n := by simp
  have hlt := ofLE_lt (toLE n x.toNat).reverse
  rw [hlen, pow_256] at hlt
  rw [byteswap, BitVec.toNat_ofNat, Nat.mod_eq_of_lt hlt]
  have h := toLE_ofLE (toLE n x.toNat).reverse
  rwa [hlen] at h

/-- The swap makes up for the host's order: the buffer's order stands in memory. -/
theorem toMemory_swapFor (host ba : Endian) {n : ℕ} (x : BitVec (8 * n)) :
    toMemory host n (swapFor host ba x) = toMemory ba n x := by
  unfold swapFor
  by_cases h : ba = host
  · rw [if_pos h, h]
  · rw [if_neg h]
    cases host <;> cases ba <;> simp_all [toMemory, toLE_byteswap]

/-- Stored bytes are those of the integer read. -/
theorem toMemory_ofMemory (e : Endian) {n : ℕ} {bs : List UInt8} (h : bs.length = n) :
    toMemory e n (ofMemory e n bs) = bs := by
  subst h
  have hle := toLE_ofLE bs
  have hlt := ofLE_lt bs
  have hle' := toLE_ofLE bs.reverse
  have hlt' := ofLE_lt bs.reverse
  rw [pow_256] at hlt hlt'
  rw [List.length_reverse] at hle' hlt'
  cases e with
  | little => simp only [toMemory, ofMemory, BitVec.toNat_ofNat, Nat.mod_eq_of_lt hlt, hle]
  | big =>
    simp only [toMemory, ofMemory, BitVec.toNat_ofNat, Nat.mod_eq_of_lt hlt', hle',
      List.reverse_reverse]

/-- Reading in the host's order and swapping is reading in the buffer's. -/
theorem swapFor_ofMemory (host ba : Endian) (n : ℕ) {bs : List UInt8} (h : bs.length = n) :
    swapFor host ba (ofMemory host n bs) = ofMemory ba n bs := by
  -- both sides have the same bytes on a host of byte order `ba`
  subst h
  have hsame : toMemory ba bs.length (swapFor host ba (ofMemory host bs.length bs)) = bs := by
    have hflip : swapFor host ba (ofMemory host bs.length bs)
        = swapFor ba host (ofMemory host bs.length bs) := by
      unfold swapFor
      by_cases he : ba = host
      · rw [if_pos he, if_pos he.symm]
      · rw [if_neg he, if_neg (fun h => he h.symm)]
    rw [hflip, toMemory_swapFor, toMemory_ofMemory host rfl]
  rw [← ofMemory_toMemory ba _ (swapFor host ba (ofMemory host bs.length bs)), hsame]

/-! ### The bits of a swapped integer -/

/-- A swap moves the bits of a byte together. -/
theorem getLsbD_byteswap {n : ℕ} (x : BitVec (8 * n)) {i : ℕ} (hi : i < 8 * n) :
    (byteswap x).getLsbD i = x.getLsbD (8 * (n - 1 - i / 8) + i % 8) := by
  have hrev : (toLE n x.toNat).reverse.getD (i / 8) 0 = (toLE n x.toNat).getD (n - 1 - i / 8) 0 := by
    rw [List.getD_eq_getElem?_getD, List.getD_eq_getElem?_getD,
      List.getElem?_reverse (by rw [length_toLE]; omega), length_toLE]
  rw [byteswap, BitVec.getLsbD_ofNat, decide_eq_true hi, Bool.true_and, testBit_ofLE, hrev,
    testBit_toLE (by omega) (by omega)]
  rfl

/-- Reversing the bytes commutes with `&`. -/
theorem byteswap_and {n : ℕ} (x y : BitVec (8 * n)) :
    byteswap (x &&& y) = byteswap x &&& byteswap y := by
  apply BitVec.eq_of_getLsbD_eq
  intro i hi
  rw [BitVec.getLsbD_and, getLsbD_byteswap _ hi, getLsbD_byteswap _ hi, getLsbD_byteswap _ hi,
    BitVec.getLsbD_and]

/-- Reversing the bytes commutes with `|`. -/
theorem byteswap_or {n : ℕ} (x y : BitVec (8 * n)) :
    byteswap (x ||| y) = byteswap x ||| byteswap y := by
  apply BitVec.eq_of_getLsbD_eq
  intro i hi
  rw [BitVec.getLsbD_or, getLsbD_byteswap _ hi, getLsbD_byteswap _ hi, getLsbD_byteswap _ hi,
    BitVec.getLsbD_or]

/-- Reversing the bytes commutes with `~`. -/
theorem byteswap_not {n : ℕ} (x : BitVec (8 * n)) : byteswap (~~~ x) = ~~~ byteswap x := by
  apply BitVec.eq_of_getLsbD_eq
  intro i hi
  rw [BitVec.getLsbD_not, getLsbD_byteswap _ hi, getLsbD_byteswap _ hi, BitVec.getLsbD_not,
    decide_eq_true hi, decide_eq_true (by omega)]

/-- Reversing twice changes nothing. -/
@[simp] theorem byteswap_byteswap {n : ℕ} (x : BitVec (8 * n)) : byteswap (byteswap x) = x := by
  apply BitVec.eq_of_getLsbD_eq
  intro i hi
  rw [getLsbD_byteswap _ hi, getLsbD_byteswap _ (by omega)]
  congr 1
  omega

/-- `byteswapToBigEndian` on a host of byte order `host`. -/
def byteswapToBigEndian (host : Endian) {n : ℕ} (x : BitVec (8 * n)) : BitVec (8 * n) :=
  match host with
  | .little => byteswap x
  | .big => x

section BigEndian

variable (host : Endian) {n : ℕ} (x y : BitVec (8 * n))

/-- From network order back to host order. -/
@[simp] theorem byteswapToBigEndian_involutive :
    byteswapToBigEndian host (byteswapToBigEndian host x) = x := by
  cases host with
  | little => exact byteswap_byteswap x
  | big => rfl

/-- `byteswapToBigEndian`, a swap or nothing, commutes with `&`. -/
theorem byteswapToBigEndian_and :
    byteswapToBigEndian host (x &&& y) = byteswapToBigEndian host x &&& byteswapToBigEndian host y := by
  cases host with
  | little => exact byteswap_and x y
  | big => rfl

/-- `byteswapToBigEndian` commutes with `|`. -/
theorem byteswapToBigEndian_or :
    byteswapToBigEndian host (x ||| y) = byteswapToBigEndian host x ||| byteswapToBigEndian host y := by
  cases host with
  | little => exact byteswap_or x y
  | big => rfl

/-- `byteswapToBigEndian` commutes with `~`. -/
theorem byteswapToBigEndian_not :
    byteswapToBigEndian host (~~~x) = ~~~byteswapToBigEndian host x := by
  cases host with
  | little => exact byteswap_not x
  | big => rfl

end BigEndian

/-! ### ZigZag -/

namespace ZigZag

/-- `encode16/32/64`: `(n << 1) ^ (n >> (w - 1))` with the arithmetic shift. -/
def encode {w : ℕ} (n : BitVec w) : BitVec w := (n <<< 1) ^^^ n.sshiftRight (w - 1)

/-- `decode16/32/64`: `(n >> 1) ^ -(n & 1)`. -/
def decode {w : ℕ} (n : BitVec w) : BitVec w := (n >>> 1) ^^^ (-(n &&& 1#w))

/-- `-(n & 1)` is all ones or zero, by the low bit. -/
theorem neg_and_one {w : ℕ} (n : BitVec w) :
    -(n &&& 1#w) = if n.getLsbD 0 then BitVec.allOnes w else 0#w := by
  rw [BitVec.and_one_eq_setWidth_ofBool_getLsbD]
  cases n.getLsbD 0 with
  | false => simp
  | true =>
    rcases Nat.eq_zero_or_pos w with rfl | hw
    · exact BitVec.eq_of_zero_length rfl
    · have hone : BitVec.setWidth w (BitVec.ofBool true) = 1#w := by
        apply BitVec.eq_of_toNat_eq
        simp
      rw [hone, BitVec.neg_one_eq_allOnes, if_pos rfl]

/-- Bit `i` of an arithmetic shift by the whole width is the sign bit. -/
theorem getLsbD_sshiftRight_sign {w i : ℕ} (n : BitVec w) (hi : i < w) :
    (n.sshiftRight (w - 1)).getLsbD i = n.msb := by
  rw [BitVec.getLsbD_sshiftRight]
  rcases Nat.eq_zero_or_pos i with rfl | hpos
  · simp only [hi.not_ge, decide_false, Bool.not_false, Bool.true_and, Nat.add_zero, ite_self,
      BitVec.msb_eq_getLsbD_last]
  · have hge : ¬ (w - 1 + i < w) := by omega
    simp only [hi.not_ge, decide_false, Bool.not_false, Bool.true_and, if_neg hge]

/-- **Round trip.** Decoding inverts encoding. -/
theorem decode_encode {w : ℕ} (n : BitVec w) : decode (encode n) = n := by
  apply BitVec.eq_of_getLsbD_eq
  intro i hi
  have hlow : (encode n).getLsbD 0 = n.msb := by
    rw [encode, BitVec.getLsbD_xor, getLsbD_sshiftRight_sign n (by omega),
      BitVec.getLsbD_shiftLeft]
    simp
  have hmask : (-(encode n &&& 1#w)).getLsbD i = n.msb := by
    rw [neg_and_one, hlow]
    cases n.msb <;> simp [hi]
  rw [decode, BitVec.getLsbD_xor, hmask, BitVec.getLsbD_ushiftRight]
  by_cases hlast : 1 + i < w
  · -- below the top bit the shifted code is `n` with the sign bit mixed in
    rw [encode, BitVec.getLsbD_xor, getLsbD_sshiftRight_sign n hlast, BitVec.getLsbD_shiftLeft]
    simp [hlast]
  · have htop : i = w - 1 := by omega
    rw [BitVec.getLsbD_of_ge _ _ (by omega), Bool.false_xor, htop, BitVec.msb_eq_getLsbD_last]

end ZigZag

/-! ### Varint -/

namespace Varint

/-- `encode16/32/64`: the bytes written to the buffer. -/
def encode {w : ℕ} (n : BitVec w) : List UInt8 :=
  if n.toNat > 127 then
    UInt8.ofNat ((n &&& 127#w) ||| 128#w).toNat :: encode (n >>> 7)
  else [UInt8.ofNat n.toNat]
termination_by n.toNat
decreasing_by
  rw [BitVec.toNat_ushiftRight, Nat.shiftRight_eq_div_pow]
  omega

/-- Encoding into a local buffer of `cap` bytes. -/
def encodeInto {w : ℕ} (cap : ℕ) (n : BitVec w) : Except Exn (List UInt8) :=
  if (encode n).length ≤ cap then .ok (encode n) else .error .outOfBounds

/-- The loop ends on a value of at most seven bits. -/
theorem encode_last {w : ℕ} {n : BitVec w} (h : n.toNat < 128) :
    encode n = [UInt8.ofNat n.toNat] := by
  rw [encode, if_neg (by omega)]

/-- A longer value gives its low seven bits with the top bit set, then the rest. -/
theorem encode_cons {w : ℕ} {n : BitVec w} (h : 128 ≤ n.toNat) :
    encode n = UInt8.ofNat (n.toNat % 128 + 128) :: encode (n >>> 7) := by
  have hn := n.isLt
  -- a value from 128 on needs a word of eight bits at least
  have hw : 8 ≤ w := by
    by_contra hlt
    have : 2 ^ w ≤ 2 ^ 7 := Nat.pow_le_pow_right (by decide) (by omega)
    omega
  have hpow : 2 ^ 8 ≤ 2 ^ w := Nat.pow_le_pow_right (by decide) hw
  have h127 : (127#w).toNat = 2 ^ 7 - 1 := by
    rw [BitVec.toNat_ofNat]
    exact Nat.mod_eq_of_lt (by omega)
  have h128 : (128#w).toNat = 2 ^ 7 := by
    rw [BitVec.toNat_ofNat]
    exact Nat.mod_eq_of_lt (by omega)
  have hbyte : ((n &&& 127#w) ||| 128#w).toNat = n.toNat % 128 + 128 := by
    rw [BitVec.toNat_or, BitVec.toNat_and, h127, h128, Nat.and_two_pow_sub_one_eq_mod,
      Nat.or_comm]
    have hadd := Nat.two_pow_add_eq_or_of_lt (Nat.mod_lt n.toNat (by decide : 0 < 2 ^ 7)) 1
    rw [Nat.mul_one] at hadd
    rw [← hadd, Nat.add_comm]
  rw [encode, if_pos (by omega), hbyte]

/-- A shift by seven bits divides by 128. -/
theorem toNat_shift {w : ℕ} (n : BitVec w) : (n >>> 7).toNat = n.toNat / 128 := by
  rw [BitVec.toNat_ushiftRight, Nat.shiftRight_eq_div_pow]

/-- A value below `128 ^ (k + 1)` takes `k + 1` bytes at most. -/
theorem length_encode_le {w k : ℕ} {n : BitVec w} (h : n.toNat < 128 ^ (k + 1)) :
    (encode n).length ≤ k + 1 := by
  induction k generalizing n with
  | zero =>
    rw [encode_last (by omega)]
    rfl
  | succ k ih =>
    by_cases hlast : n.toNat < 128
    · rw [encode_last hlast]
      simp
    · rw [encode_cons (by omega), List.length_cons]
      have hrest : (n >>> 7).toNat < 128 ^ (k + 1) := by
        rw [toNat_shift, Nat.div_lt_iff_lt_mul (by decide)]
        exact h
      have := ih hrest
      omega

/-- A word of `7 * (k + 1)` bits is below `128 ^ (k + 1)`. -/
theorem toNat_lt_pow {w k : ℕ} (n : BitVec w) (h : w ≤ 7 * (k + 1)) :
    n.toNat < 128 ^ (k + 1) := by
  rw [show (128 : ℕ) = 2 ^ 7 from rfl, ← Nat.pow_mul]
  exact lt_of_lt_of_le n.isLt (Nat.pow_le_pow_right (by decide) h)

/-- The buffers of the writers are long enough: five bytes at 32 bits, ten at 64. -/
theorem encodeInto_eq {w k : ℕ} (n : BitVec w) (h : w ≤ 7 * (k + 1)) :
    encodeInto (k + 1) n = .ok (encode n) :=
  if_pos (length_encode_le (toNat_lt_pow n h))

end Varint

end LoNetfw.Util
