import LoNetfw.Util.Readers
import LoNetfw.Util.WireFormat
import Mathlib.Data.Nat.Size

namespace LoNetfw.Util

open Basis

/-!
# `Varint` as a code

The encodings of the 32-bit and of the 64-bit numbers as sets of words: how long they are, how one
sees where a word ends, and what the readers make of a word with anything behind it.

* `Varint.length_encode` — one byte for each seven bits, at least one;
* `Varint.delimited_encode`, `Delimited.eq_of_isPrefixOf` — the top bit says where a word ends, so
  no word is a proper prefix of another;
* `ZigZag.toNat_encode` — the magnitude of an `int` is half of its code;
* `VarintCode`, `varint_code` — all of it about a writer and its reader.
-/

/-! ### Words with a last letter -/

/-- All letters but the last one have the property `p`. -/
def Delimited {β : Type} (p : β → Prop) (w : List β) : Prop :=
  ∃ init last, w = init ++ [last] ∧ (∀ b ∈ init, p b) ∧ ¬ p last

/-- A byte that goes on, in front of a word. -/
theorem Delimited.cons {β : Type} {p : β → Prop} {b : β} {w : List β} (hb : p b)
    (hw : Delimited p w) : Delimited p (b :: w) := by
  obtain ⟨init, last, rfl, hinit, hlast⟩ := hw
  exact ⟨b :: init, last, rfl, List.forall_mem_cons.mpr ⟨hb, hinit⟩, hlast⟩

/-- Such words are no proper prefixes of each other. -/
theorem Delimited.eq_of_isPrefixOf {β : Type} {p : β → Prop} {v w : List β} (hv : Delimited p v)
    (hw : Delimited p w) (h : v <+: w) : v = w := by
  obtain ⟨init, last, rfl, -, hlast⟩ := hv
  obtain ⟨init', last', rfl, hinit', -⟩ := hw
  obtain ⟨rest, hrest⟩ := h
  rcases List.eq_nil_or_concat rest with rfl | ⟨rest, b, rfl⟩
  · rw [← hrest, List.append_nil]
  · -- otherwise the last letter of `v` is not the last one of `w`
    rw [List.concat_eq_append, ← List.append_assoc] at hrest
    obtain ⟨hinit, -⟩ := List.append_inj' hrest rfl
    have hmem : last ∈ init' := by
      rw [← hinit]
      simp
    exact absurd (hinit' last hmem) hlast

/-! ### The encodings -/

namespace Varint

variable {w : ℕ}

/-- A varint ends at its first byte below 128. -/
theorem delimited_encode (n : BitVec w) : Delimited (fun b : UInt8 => 128 ≤ b) (encode n) := by
  -- on the value: seven bits less with each byte
  induction h : n.toNat using Nat.strongRecOn generalizing n with
  | ind k ih =>
    subst h
    by_cases hlast : n.toNat < 128
    · rw [encode_last hlast]
      refine ⟨[], UInt8.ofNat n.toNat, rfl, List.forall_mem_nil _, ?_⟩
      show ¬ 128 ≤ UInt8.ofNat n.toNat
      rw [UInt8.le_iff_toNat_le, UInt8.toNat_ofNat']
      show ¬ 128 ≤ n.toNat % 2 ^ 8
      omega
    · rw [encode_cons (Nat.le_of_not_lt hlast)]
      apply Delimited.cons
      · rw [UInt8.le_iff_toNat_le, UInt8.toNat_ofNat']
        show 128 ≤ (n.toNat % 128 + 128) % 2 ^ 8
        omega
      · exact ih (n >>> 7).toNat (by rw [toNat_shift]; omega) (n >>> 7) rfl

/-- The number of bytes in terms of the number. -/
theorem length_encode_spec (n : BitVec w) :
    ∃ k, (encode n).length = k + 1 ∧ n.toNat < 128 ^ (k + 1) ∧ (k = 0 ∨ 128 ^ k ≤ n.toNat) := by
  -- on the value: seven bits less with each byte
  induction h : n.toNat using Nat.strongRecOn generalizing n with
  | ind m ih =>
    subst h
    by_cases hlast : n.toNat < 128
    · refine ⟨0, ?_, by omega, Or.inl rfl⟩
      rw [encode_last hlast]
      rfl
    · obtain ⟨k, hk, hlt, hle⟩ :=
        ih (n >>> 7).toNat (by rw [toNat_shift]; omega) (n >>> 7) rfl
      rw [toNat_shift] at hlt hle
      refine ⟨k + 1, ?_, ?_, Or.inr ?_⟩
      · rw [encode_cons (Nat.le_of_not_lt hlast), List.length_cons, hk]
      · exact (Nat.div_lt_iff_lt_mul (by decide)).mp hlt
      · rcases hle with rfl | hle
        · exact Nat.le_of_not_lt hlast
        · exact (Nat.le_div_iff_mul_le (by decide)).mp hle

/-- **The length.** One byte for each seven bits of the number, at least one. -/
theorem length_encode (n : BitVec w) :
    (encode n).length = max 1 ((n.toNat.size + 6) / 7) := by
  obtain ⟨k, hk, hlt, hle⟩ := length_encode_spec n
  rw [show (128 : ℕ) = 2 ^ 7 from rfl, ← Nat.pow_mul] at hlt hle
  have hsize : n.toNat.size ≤ 7 * (k + 1) := Nat.size_le.mpr hlt
  have hlow : k = 0 ∨ 7 * k < n.toNat.size := hle.imp_right Nat.lt_size.mpr
  omega

/-- Two numbers with one varint are the same. -/
theorem encode_injective {m n : BitVec w} (h : encode m = encode n) : m = n := by
  induction hm : m.toNat using Nat.strongRecOn generalizing m n with
  | ind k ih =>
    subst hm
    apply BitVec.eq_of_toNat_eq
    -- the first byte tells whether it is the last one
    by_cases hsmall : m.toNat < 128
    · by_cases hsmall' : n.toNat < 128
      · rw [encode_last hsmall, encode_last hsmall'] at h
        have hbyte := congrArg UInt8.toNat (List.cons.inj h).1
        rw [UInt8.toNat_ofNat', UInt8.toNat_ofNat'] at hbyte
        omega
      · rw [encode_last hsmall, encode_cons (Nat.le_of_not_lt hsmall')] at h
        have hbyte := congrArg UInt8.toNat (List.cons.inj h).1
        rw [UInt8.toNat_ofNat', UInt8.toNat_ofNat'] at hbyte
        omega
    · by_cases hsmall' : n.toNat < 128
      · rw [encode_last hsmall', encode_cons (Nat.le_of_not_lt hsmall)] at h
        have hbyte := congrArg UInt8.toNat (List.cons.inj h).1
        rw [UInt8.toNat_ofNat', UInt8.toNat_ofNat'] at hbyte
        omega
      · rw [encode_cons (Nat.le_of_not_lt hsmall), encode_cons (Nat.le_of_not_lt hsmall')] at h
        obtain ⟨hhead, htail⟩ := List.cons.inj h
        have hbyte := congrArg UInt8.toNat hhead
        rw [UInt8.toNat_ofNat', UInt8.toNat_ofNat'] at hbyte
        have hrest := ih (m >>> 7).toNat (by rw [toNat_shift]; omega) htail rfl
        have hshift := congrArg BitVec.toNat hrest
        rw [toNat_shift, toNat_shift] at hshift
        omega

/-- A larger number does not take fewer bytes. -/
theorem length_encode_mono {m n : BitVec w} (h : m.toNat ≤ n.toNat) :
    (encode m).length ≤ (encode n).length := by
  have hsize := Nat.size_le_size h
  rw [length_encode, length_encode]
  omega

end Varint

/-! ### Magnitudes -/

namespace ZigZag

variable {w : ℕ}

/-- The sign, over all bits. -/
theorem sshiftRight_sign (n : BitVec w) :
    n.sshiftRight (w - 1) = if n.msb then BitVec.allOnes w else 0#w := by
  apply BitVec.eq_of_getLsbD_eq
  intro i hi
  rw [getLsbD_sshiftRight_sign n hi]
  cases n.msb with
  | false => exact BitVec.getLsbD_zero.symm
  | true => exact (BitVec.getLsbD_allOnes.trans (decide_eq_true hi)).symm

/-- Magnitudes come in order, each negative number before its opposite. -/
theorem toNat_encode (n : BitVec w) :
    (encode n).toNat = if n.toInt < 0 then 2 * n.toInt.natAbs - 1 else 2 * n.toInt.natAbs := by
  have hn := n.isLt
  rw [encode, sshiftRight_sign, BitVec.toInt_eq_msb_cond]
  cases hmsb : n.msb with
  | false =>
    have hhalf := BitVec.msb_eq_false_iff_two_mul_lt.mp hmsb
    rw [if_neg Bool.false_ne_true, if_neg Bool.false_ne_true, BitVec.xor_zero,
      BitVec.toNat_shiftLeft, if_neg (by omega), Nat.shiftLeft_eq, Nat.mod_eq_of_lt (by omega)]
    omega
  -- a negative number has the odd codes
  | true =>
    have hhalf := BitVec.msb_eq_true_iff_two_mul_ge.mp hmsb
    have hmod : n.toNat * 2 ^ 1 % 2 ^ w = 2 * n.toNat - 2 ^ w := by
      rw [Nat.mod_eq_sub_mod (by omega), Nat.mod_eq_of_lt (by omega)]
      omega
    rw [if_pos rfl, if_pos rfl, BitVec.xor_allOnes, BitVec.toNat_not, BitVec.toNat_shiftLeft,
      Nat.shiftLeft_eq, hmod]
    split <;> omega

/-- Zig-zag keeps the order of absolute values. -/
theorem toNat_encode_lt {m n : BitVec w} (h : m.toInt.natAbs < n.toInt.natAbs) :
    (encode m).toNat < (encode n).toNat := by
  rw [toNat_encode, toNat_encode]
  split <;> split <;> omega

end ZigZag

/-! ### Writers and readers -/

namespace ByteArray

/-- A writer with a buffer of `cap` bytes, and its reader: the numbers of `w` bits and their
    words. -/
structure VarintCode {w : ℕ} {α : Type} (fill : ℕ → ℕ → UInt8) (cap : ℕ) (ofBits : BitVec w → α)
    (writer : α → Op Unit) (reader : Op α) : Prop where
  /-- `⌈bits / 7⌉` bytes, at least one. -/
  length : ∀ n : BitVec w, (Varint.encode n).length = max 1 ((n.toNat.size + 6) / 7)
  length_le : ∀ n : BitVec w, (Varint.encode n).length ≤ cap
  /-- The word is what is written, and all stores to the buffer are inside. -/
  writes : ∀ (n : BitVec w) (b : ByteArray), writer (ofBits n) b = write fill (Varint.encode n) b
  delimited : ∀ n : BitVec w, Delimited (fun b : UInt8 => 128 ≤ b) (Varint.encode n)
  prefixFree : ∀ m n : BitVec w, Varint.encode m <+: Varint.encode n → m = n
  /-- The reader takes the word and no byte of what is behind it. -/
  reads : ∀ (n : BitVec w) (b : ByteArray) (rest : List UInt8), b.Inv →
    b.unread = Varint.encode n ++ rest →
    reader b = .ok (ofBits n) (b.advance (Varint.encode n).length) ∧
      (b.advance (Varint.encode n).length).unread = rest
  zigzag : ∀ m n : BitVec w, m.toInt.natAbs < n.toInt.natAbs →
    (Varint.encode (ZigZag.encode m)).length ≤ (Varint.encode (ZigZag.encode n)).length

/-- What is unread begins with these bytes. -/
theorem holds_of_unread {b : ByteArray} (h : b.Inv) {bs rest : List UInt8}
    (hunread : b.unread = bs ++ rest) : b.Holds bs := by
  have hle := h.position_le
  have hlen := length_unread h
  rw [hunread, List.length_append] at hlen
  refine ⟨by omega, ?_⟩
  have htake := congrArg (List.take bs.length) hunread
  rw [List.take_left, unread, slice, List.take_take, Nat.min_eq_left (by omega)] at htake
  exact htake

/-- The loop reads a varint back whatever follows it. -/
theorem readVarintLoop_unread (host : Endian) {w k : ℕ} (hw : (w + 6) / 7 = k + 1) (n : BitVec w)
    {b : ByteArray} (h : b.Inv) {rest : List UInt8} (hunread : b.unread = Varint.encode n ++ rest) :
    readVarintLoop host w (varintShifts w) 0 b = .ok n (b.advance (Varint.encode n).length) := by
  obtain ⟨b', hread, hb', -⟩ :=
    readVarint_reads n hw b h rfl (holds_of_unread h hunread)
  -- a typed reader does nothing but advance
  have hfollows := (readVarintLoop_follows host b.baEndian w (varintShifts w) 0).run b h rfl
  rw [hread] at hfollows ⊢
  cases hfront : varintFront w (varintShifts w) 0 b.unread with
  | mk r m =>
    rw [hfront] at hfollows
    cases r with
    | error s => cases hfollows
    | ok a =>
      obtain ⟨rfl, rfl⟩ := EStateM.Result.ok.inj hfollows
      have hpos : b.position + m = b.position + (Varint.encode n).length := hb'.position
      rw [Nat.add_left_cancel hpos]

/-- A writer and its reader for every width of more than 0 bits. -/
theorem varintCode_of_reads {w k : ℕ} {α : Type} (host : Endian) (fill : ℕ → ℕ → UInt8)
    {ofBits : BitVec w → α} {writer : α → Op Unit} {reader : Op α} (hw : (w + 6) / 7 = k + 1)
    (hwriter : ∀ n, writer (ofBits n) = (do
      let buf ← liftExcept (Varint.encodeInto (k + 1) n)
      write fill buf))
    (hreader : reader = ofBits <$> readVarintLoop host w (varintShifts w) 0) :
    VarintCode fill (k + 1) ofBits writer reader where
  length := Varint.length_encode
  length_le n := Varint.length_encode_le (Varint.toNat_lt_pow n (by omega))
  writes n b := by
    rw [hwriter, Varint.encodeInto_eq n (by omega)]
    rfl
  delimited := Varint.delimited_encode
  -- two codes that both end where their high bit is clear cannot be one longer than the other
  prefixFree m n h := Varint.encode_injective
    ((Varint.delimited_encode m).eq_of_isPrefixOf (Varint.delimited_encode n) h)
  reads n b rest h hunread := by
    refine ⟨?_, ?_⟩
    · rw [hreader]
      show EStateM.map _ _ b = _
      rw [EStateM.map, readVarintLoop_unread host hw n h hunread]
    · rw [unread_advance, hunread, List.drop_left]
  zigzag m n h := Varint.length_encode_mono (ZigZag.toNat_encode_lt h).le

/-- **The varint code.** The two writers with their readers, on machines of both byte orders. -/
theorem varint_code (host : Endian) (fill : ℕ → ℕ → UInt8) :
    VarintCode fill 5 UInt32.ofBitVec (writeUInt32 fill) (readUInt32 host) ∧
      VarintCode fill 10 UInt64.ofBitVec (writeUInt64 fill) (readUInt64 host) := by
  constructor
  · exact varintCode_of_reads (k := 4) host fill (by decide) (fun _ => rfl) rfl
  · exact varintCode_of_reads (k := 9) host fill (by decide) (fun _ => rfl) rfl

end ByteArray

end LoNetfw.Util
