import LoNetfw.Util.Calls

namespace LoNetfw.Util

open Basis

/-!
# The wire format — typed values written are typed values read

A list of typed values, each written in a byte order of its own, is read back by the
matching readers in the same order.  The argument never looks into the node chain:

* `Wrote b b' bs` — the state `b'` is `b` after storing `bs` at the cursor; two such steps
  are one (`Wrote.trans`);
* `Reads e op bs v` — at a cursor that stands before `bs`, in byte order `e`, the reader
  `op` returns `v` and consumes exactly `bs`; readers compose (`Reads.bind`);
* `Encodes e w r bs v` — the writer `w` stores `bs` and the reader `r` reads `bs` as `v`,
  with one lemma per family of typed members;
* `wire_roundtrip` — the round trip of a list of values at any cursor position.
-/

namespace ByteArray

/-! ### Storing at the cursor -/

/-- `b'` is `b` after storing `bs` at the cursor. -/
structure Wrote (b b' : ByteArray) (bs : List UInt8) : Prop where
  inv : b'.Inv
  mem : ∃ ext, b.position + bs.length ≤ (b.mem ++ ext).length ∧
    b'.mem = overlay (b.mem ++ ext) b.position bs
  position : b'.position = b.position + bs.length
  dataSize : b'.dataSize = max b.dataSize (b.position + bs.length)

variable {b b' b'' : ByteArray} {as bs : List UInt8}

/-- A `write` of fewer than 2²⁴ bytes returns, and puts them behind the data. -/
theorem wrote_of_write (h : b.Inv) (fill : ℕ → ℕ → UInt8) (hbs : bs.length < 2 ^ 24) :
    ∃ b', write fill bs b = .ok () b' ∧ Wrote b b' bs := by
  obtain ⟨b', ext, hwrite, hinv, hext, hmem, _, hpos, hdata, _⟩ := write_spec h fill hbs
  have hfit := (growth_bounds h bs.length).1
  refine ⟨b', hwrite, hinv, ⟨ext, ?_, hmem⟩, hpos, hdata⟩
  rw [List.length_append, h.length_mem, hext]
  exact hfit

/-- Nothing is written at first. -/
theorem Wrote.refl (h : b.Inv) : Wrote b b [] where
  inv := h
  mem := by
    have hle := h.position_le.trans h.dataSize_le
    exact ⟨[], by simpa [h.length_mem] using hle, by simp⟩
  position := rfl
  dataSize := (Nat.max_eq_left h.position_le).symm

/-- Storing `as` and then `bs` is storing `as ++ bs`. -/
theorem Wrote.trans (h : Wrote b b' as) (h' : Wrote b' b'' bs) : Wrote b b'' (as ++ bs) where
  inv := h'.inv
  mem := by
    obtain ⟨ext, hfit, hmem⟩ := h.mem
    obtain ⟨ext', hfit', hmem'⟩ := h'.mem
    refine ⟨ext ++ ext', ?_, ?_⟩
    · rw [hmem, h.position, List.length_append, length_overlay hfit] at hfit'
      rw [← List.append_assoc, List.length_append, List.length_append]
      omega
    · rw [hmem', hmem, h.position, ← overlay_append_left hfit, List.append_assoc]
      exact overlay_overlay _ _ _ _ (by rw [← List.append_assoc, List.length_append]; omega)
  position := by rw [h'.position, h.position, List.length_append, Nat.add_assoc]
  dataSize := by
    rw [h'.dataSize, h.dataSize, h.position, List.length_append]
    omega

/-! ### Reading at the cursor -/

/-- `b'` is `b` after consuming `n` bytes. -/
structure Consumed (b b' : ByteArray) (n : ℕ) : Prop where
  inv : b'.Inv
  mem : b'.mem = b.mem
  dataSize : b'.dataSize = b.dataSize
  position : b'.position = b.position + n

/-- The stored bytes at the cursor start with `bs`. -/
def Holds (b : ByteArray) (bs : List UInt8) : Prop :=
  b.position + bs.length ≤ b.dataSize ∧ slice b.mem b.position bs.length = bs

/-- In byte order `e`, before `bs`, the reader `op` returns `v` and consumes `bs`. -/
def Reads {α : Type} (e : Endian) (op : Op α) (bs : List UInt8) (v : α) : Prop :=
  ∀ b : ByteArray, b.Inv → b.baEndian = e → b.Holds bs →
    ∃ b', op b = .ok v b' ∧ Consumed b b' bs.length ∧ b'.baEndian = e

/-- Two reads in turn. -/
theorem Consumed.trans {m n : ℕ} (h : Consumed b b' m) (h' : Consumed b' b'' n) :
    Consumed b b'' (m + n) where
  inv := h'.inv
  mem := h'.mem.trans h.mem
  dataSize := h'.dataSize.trans h.dataSize
  position := by rw [h'.position, h.position, Nat.add_assoc]

/-- What stands after the first part of the stored bytes. -/
theorem Holds.split (h : b.Inv) (hold : b.Holds (as ++ bs)) :
    b.Holds as ∧ (∀ {b'}, Consumed b b' as.length → b'.Holds bs) := by
  obtain ⟨hfit, hslice⟩ := hold
  have hdata := h.dataSize_le
  rw [List.length_append] at hfit hslice
  rw [← slice_append] at hslice
  obtain ⟨hfirst, hsecond⟩ := List.append_inj hslice
    (length_slice (by rw [h.length_mem]; omega))
  refine ⟨⟨by omega, hfirst⟩, fun {b'} hb' => ⟨?_, ?_⟩⟩
  · rw [hb'.position, hb'.dataSize]
    omega
  · rw [hb'.position, hb'.mem]
    exact hsecond

/-- The stored bytes are where they were stored. -/
theorem Wrote.slice_eq (h : Wrote b b' bs) : slice b'.mem b.position bs.length = bs := by
  obtain ⟨ext, hfit, hmem⟩ := h.mem
  rw [hmem]
  exact slice_overlay (by omega)

/-- Going back to where they begin. -/
theorem Wrote.rewind (h : Wrote b b' bs) :
    ∃ c, setPosition b.position b' = .ok () c ∧ c.Inv ∧ c.Holds bs ∧ c.position = b.position ∧
      c.baEndian = b'.baEndian := by
  have hle := h.inv.position_le.trans h.inv.dataSize_le
  have hpos := h.position
  have hdata := h.dataSize
  obtain ⟨c, hset, hinv, hmem, -, -, hdata', hpos', hend⟩ :=
    setPosition_spec h.inv b.position (by omega)
  refine ⟨c, hset, hinv, ⟨?_, ?_⟩, hpos', hend⟩
  · rw [hpos', hdata']
    omega
  · rw [hpos', hmem]
    exact h.slice_eq

namespace Reads

variable {α β : Type} {e : Endian}

/-- Returning takes no bytes. -/
theorem pure (v : α) : Reads e (Pure.pure v) [] v := by
  intro b hb he _
  exact ⟨b, rfl, ⟨hb, rfl, rfl, rfl⟩, he⟩

/-- Two readers in turn take what each takes. -/
theorem bind {op : Op α} {f : α → Op β} {a : α} {v : β} (hop : Reads e op as a)
    (hf : Reads e (f a) bs v) : Reads e (op >>= f) (as ++ bs) v := by
  intro b hb he hold
  obtain ⟨hfirst, hrest⟩ := hold.split hb
  obtain ⟨b', hb', hc, he'⟩ := hop b hb he hfirst
  obtain ⟨b'', hb'', hc', he''⟩ := hf b' hc.inv he' (hrest hc)
  refine ⟨b'', ?_, ?_, he''⟩
  · simp only [bind_run, hb']
    exact hb''
  · rw [List.length_append]
    exact hc.trans hc'

/-- A reader followed by a computation that reads nothing more. -/
theorem map {op : Op α} {f : α → Op β} {a : α} {v : β} (hop : Reads e op bs a)
    (hf : f a = Pure.pure v) : Reads e (op >>= f) bs v := by
  have hrest : Reads e (f a) [] v := by rw [hf]; exact pure v
  have h := hop.bind hrest
  rwa [List.append_nil] at h

/-- `read` takes the bytes it returns. -/
theorem read (e : Endian) (bs : List UInt8) : Reads e (ByteArray.read bs.length) bs bs := by
  intro b hb he hold
  have hfit := hold.1
  obtain ⟨b', hread, hinv, hmem, _, _, hdata, hpos, hend⟩ :=
    read_spec hb (n := bs.length) (by omega)
  rw [hold.2] at hread
  exact ⟨b', hread, ⟨hinv, hmem, hdata, hpos⟩, hend.trans he⟩

/-- What a reader takes from the byte order of the buffer. -/
theorem baEndian (g : Endian → α) :
    Reads e (do let b ← get; return g b.baEndian) [] (g e) := by
  intro b hb he _
  refine ⟨b, ?_, ⟨hb, rfl, rfl, rfl⟩, he⟩
  rw [← he]
  rfl

/-- A length, and then the bytes of a string. -/
theorem string {op : Op α} {len : α → ℕ} {a : α} {s : List UInt8} (hop : Reads e op bs a)
    (hlen : len a = s.length) (hs : s.length < 2 ^ 24) :
    Reads e (do readStringBody (len (← op))) (bs ++ s) s := by
  have hbody : readStringBody (len a) = ByteArray.read s.length := by
    have hmax : ¬ s.length > stringMaxSize := by
      have : (2 : ℕ) ^ 24 ≤ stringMaxSize := by decide
      omega
    rw [hlen, readStringBody, if_neg hmax]
  apply hop.bind
  rw [hbody]
  exact Reads.read e s

end Reads

/-! ### Fixed-width integers -/

variable {host e : Endian}

/-- The bytes at the cursor as an integer in the memory of the host. -/
theorem readRaw_reads (host e : Endian) {n : ℕ} (hbs : bs.length = n) :
    Reads e (readRaw host n) bs (ofMemory host n bs) := by
  subst hbs
  exact (Reads.read e bs).map rfl

/-- A fixed-width integer is read back. -/
theorem readFixed_reads (n : ℕ) (x : BitVec (8 * n)) :
    Reads e (readFixed host n) (toMemory e n x) x := by
  have hraw := readRaw_reads host e (length_toMemory e n x)
  have hswap : swapFor host e (ofMemory host n (toMemory e n x)) = x := by
    rw [swapFor_ofMemory host e n (length_toMemory e n x), ofMemory_toMemory]
  have h := hraw.bind (f := fun data => do let b ← get; return swapFor host b.baEndian data)
    (Reads.baEndian (fun ba => swapFor host ba (ofMemory host n (toMemory e n x))))
  rw [List.append_nil, hswap] at h
  exact h

/-- One byte has no byte order. -/
theorem readRaw_reads_one (host e : Endian) (x : BitVec (8 * 1)) :
    Reads e (readRaw host 1) (toMemory host 1 x) x := by
  have h := readRaw_reads host e (length_toMemory host 1 x)
  rwa [ofMemory_toMemory] at h

/-! ### Varints -/

/-- `data | (low bits << cnt)` adds bits above those that `data` has. -/
theorem toNat_or_shiftLeft {w c m : ℕ} {d : BitVec w} (hd : d.toNat < 2 ^ c)
    (hm : m * 2 ^ c < 2 ^ w) :
    (d ||| (BitVec.ofNat w m <<< c)).toNat = d.toNat + m * 2 ^ c := by
  have hmw : m < 2 ^ w := lt_of_le_of_lt (Nat.le_mul_of_pos_right m (Nat.two_pow_pos c)) hm
  rw [BitVec.toNat_or, BitVec.toNat_shiftLeft, BitVec.toNat_ofNat, Nat.mod_eq_of_lt hmw,
    Nat.shiftLeft_eq, Nat.mod_eq_of_lt hm, Nat.or_comm, ← Nat.shiftLeft_eq,
    ← Nat.shiftLeft_add_eq_or_of_lt hd, Nat.shiftLeft_eq, Nat.add_comm]

/-- A byte is read back. -/
theorem readFUInt8_reads (x : UInt8) : Reads e (readFUInt8 host) [x] x := by
  have hmem : toMemory host 1 x.toBitVec = [x] := by
    have hbyte : UInt8.ofNat (x.toBitVec.toNat % 256) = x := by
      rw [Nat.mod_eq_of_lt x.toBitVec.isLt]
      exact UInt8.ofNat_toNat
    cases host <;> simp only [toMemory, toLE, hbyte, List.reverse_cons, List.reverse_nil,
      List.nil_append]
  have h := readRaw_reads_one host e x.toBitVec
  rw [hmem] at h
  exact h.map rfl

/-- The reader's loop ends on a byte without the top bit. -/
theorem readVarintLoop_last (host e : Endian) {w : ℕ} (c : ℕ) (cs : List ℕ) (d : BitVec w) {m : ℕ}
    (hm : m < 128) :
    Reads e (readVarintLoop host w (c :: cs) d) [UInt8.ofNat m]
      (d ||| (BitVec.ofNat w m <<< c)) := by
  have hbyte : (UInt8.ofNat m).toNat = m := by rw [UInt8.toNat_ofNat']; omega
  apply (readFUInt8_reads (UInt8.ofNat m)).map
  rw [if_pos (by rw [UInt8.lt_iff_toNat_lt, hbyte]; exact hm), hbyte]

/-- On a byte with the top bit it takes the low seven bits and goes on. -/
theorem readVarintLoop_more {w c : ℕ} (cs : List ℕ) (d : BitVec w) {m : ℕ} (hm : m < 128)
    {v : BitVec w}
    (hrest : Reads e (readVarintLoop host w cs (d ||| (BitVec.ofNat w m <<< c))) bs v) :
    Reads e (readVarintLoop host w (c :: cs) d) (UInt8.ofNat (m + 128) :: bs) v := by
  have hbyte : (UInt8.ofNat (m + 128)).toNat = m + 128 := by rw [UInt8.toNat_ofNat']; omega
  have hlow : (UInt8.ofNat (m + 128) &&& 0b01111111).toNat = m := by
    rw [UInt8.toNat_and, hbyte]
    show (m + 128) &&& (2 ^ 7 - 1) = m
    rw [Nat.and_two_pow_sub_one_eq_mod]
    omega
  show Reads e _ ([UInt8.ofNat (m + 128)] ++ bs) v
  apply (readFUInt8_reads (UInt8.ofNat (m + 128))).bind
  rw [if_neg (by rw [UInt8.lt_iff_toNat_lt, hbyte]; show ¬ m + 128 < 128; omega), hlow]
  exact hrest

/-- The reader's loop from shift `c` on: it adds the encoded rest, shifted by `c`. -/
theorem readVarintLoop_reads (host e : Endian) {w : ℕ} :
    ∀ (m c : ℕ) (d n : BitVec w), d.toNat < 2 ^ c → n.toNat * 2 ^ c < 2 ^ w →
      n.toNat < 128 ^ (m + 1) →
      Reads e (readVarintLoop host w (List.range' c (m + 1) 7) d) (Varint.encode n)
        (BitVec.ofNat w (d.toNat + n.toNat * 2 ^ c)) := by
  -- the induction is on the number of bytes the loop may still read
  intro m
  induction m with
  | zero =>
    intro c d n hd hn hlt
    have hsmall : n.toNat < 128 := by omega
    have h := readVarintLoop_last host e c [] d hsmall
    rw [Varint.encode_last hsmall, ← toNat_or_shiftLeft hd hn, BitVec.ofNat_toNat,
      BitVec.setWidth_eq]
    exact h
  | succ m ih =>
    intro c d n hd hn hlt
    by_cases hsmall : n.toNat < 128
    · have h := readVarintLoop_last host e c (List.range' (c + 7) (m + 1) 7) d hsmall
      rw [Varint.encode_last hsmall, ← toNat_or_shiftLeft hd hn, BitVec.ofNat_toNat,
        BitVec.setWidth_eq]
      exact h
    · have hmod := Nat.mod_lt n.toNat (by decide : 0 < 128)
      have hsplit := Nat.div_add_mod n.toNat 128
      have hpow : 2 ^ (c + 7) = 128 * 2 ^ c := by rw [Nat.pow_add, Nat.mul_comm]
      have hparts : n.toNat * 2 ^ c = n.toNat / 128 * 2 ^ (c + 7) + n.toNat % 128 * 2 ^ c := by
        rw [hpow, ← Nat.mul_assoc, ← Nat.add_mul]
        congr 1
        omega
      have hlow : n.toNat % 128 * 2 ^ c < 2 ^ w := by omega
      have hd' := toNat_or_shiftLeft hd hlow
      have hd'' : (d ||| (BitVec.ofNat w (n.toNat % 128) <<< c)).toNat < 2 ^ (c + 7) := by
        have hle : n.toNat % 128 * 2 ^ c ≤ 127 * 2 ^ c := Nat.mul_le_mul_right _ (by omega)
        rw [hd', hpow]
        omega
      have hrest := ih (c + 7) _ (n >>> 7) hd''
        (by rw [Varint.toNat_shift]; omega)
        (by rw [Varint.toNat_shift, Nat.div_lt_iff_lt_mul (by decide)]; exact hlt)
      have hsum : d.toNat + n.toNat * 2 ^ c
          = (d ||| (BitVec.ofNat w (n.toNat % 128) <<< c)).toNat
            + (n >>> 7).toNat * 2 ^ (c + 7) := by
        rw [hd', Varint.toNat_shift]
        omega
      rw [Varint.encode_cons (by omega), hsum]
      exact readVarintLoop_more _ d hmod hrest

/-- The compressed readers read what the compressed writers store. -/
theorem readVarint_reads {w m : ℕ} (n : BitVec w) (hm : (w + 6) / 7 = m + 1) :
    Reads e (readVarintLoop host w (varintShifts w) 0) (Varint.encode n) n := by
  have h := readVarintLoop_reads host e m 0 0 n (by simp)
    (by rw [Nat.pow_zero, Nat.mul_one]; exact n.isLt) (Varint.toNat_lt_pow n (by omega))
  have hval : BitVec.ofNat w ((0 : BitVec w).toNat + n.toNat * 2 ^ 0) = n := by simp
  rw [hval] at h
  rw [varintShifts, hm]
  exact h

/-! ### Writers and their readers -/

/-- A fixed-width integer is stored in the byte order of the buffer. -/
theorem writeFixed_eq (fill : ℕ → ℕ → UInt8) {n : ℕ} (x : BitVec (8 * n)) (b : ByteArray) :
    writeFixed host fill n x b = write fill (toMemory b.baEndian n x) b := by
  show write fill (toMemory host n (swapFor host b.baEndian x)) b = _
  rw [toMemory_swapFor]

/-- In byte order `e` the writer `w` stores bytes that the reader `r` reads as `v`. -/
def Encodes {α : Type} (e : Endian) (w : Op Unit) (r : Op α) (v : α) : Prop :=
  ∃ bs, (∀ b : ByteArray, b.Inv → b.baEndian = e → ∃ b', w b = .ok () b' ∧ Wrote b b' bs) ∧
    Reads e r bs v

namespace Encodes

variable {α β : Type} {w : Op Unit} {r : Op α} {fill : ℕ → ℕ → UInt8}

/-- The reader may convert what it has read. -/
theorem map {f : α → Op β} {a : α} {v : β} (h : Encodes e w r a) (hf : f a = pure v) :
    Encodes e w (r >>= f) v := by
  obtain ⟨bs, hw, hr⟩ := h
  exact ⟨bs, hw, hr.map hf⟩

/-- A byte is encoded as itself. -/
theorem byte (x : BitVec (8 * 1)) : Encodes e (writeRaw host fill 1 x) (readRaw host 1) x :=
  ⟨toMemory host 1 x, fun _ hb _ => wrote_of_write hb fill (by rw [length_toMemory]; decide),
    readRaw_reads_one host e x⟩

/-- A fixed-width integer has an encoding that is read back. -/
theorem fixed {n : ℕ} (hn : n < 2 ^ 24) (x : BitVec (8 * n)) :
    Encodes e (writeFixed host fill n x) (readFixed host n) x := by
  refine ⟨toMemory e n x, fun b hb he => ?_, readFixed_reads n x⟩
  rw [writeFixed_eq, he]
  exact wrote_of_write hb fill (by rw [length_toMemory]; exact hn)

/-- A varint has an encoding that is read back. -/
theorem varint {w k : ℕ} (n : BitVec w) (hw : (w + 6) / 7 = k + 1) (hk : k + 1 < 2 ^ 24) :
    Encodes e (do
      let buf ← liftExcept (Varint.encodeInto (k + 1) n)
      write fill buf) (readVarintLoop host w (varintShifts w) 0) n := by
  have hlen := Varint.length_encode_le (n := n) (k := k) (Varint.toNat_lt_pow n (by omega))
  rw [Varint.encodeInto_eq n (by omega)]
  exact ⟨Varint.encode n, fun b hb _ => wrote_of_write hb fill (by omega), readVarint_reads n hw⟩

/-- The varint of 32 bits. -/
theorem uint32 (x : UInt32) : Encodes e (writeUInt32 fill x) (readUInt32 host) x :=
  (varint (k := 4) x.toBitVec rfl (by decide)).map rfl

/-- The varint of 64 bits. -/
theorem uint64 (x : UInt64) : Encodes e (writeUInt64 fill x) (readUInt64 host) x :=
  (varint (k := 9) x.toBitVec rfl (by decide)).map rfl

/-- A length prefix and then the bytes of a string. -/
theorem string {len : α → ℕ} {a : α} {s : List UInt8} (h : Encodes e w r a)
    (hlen : len a = s.length) (hs : s.length < 2 ^ 24) :
    Encodes e (do w; write fill s) (do readStringBody (len (← r))) s := by
  obtain ⟨bs, hw, hr⟩ := h
  refine ⟨bs ++ s, fun b hb he => ?_, hr.string hlen hs⟩
  obtain ⟨b', hb', hwrote⟩ := hw b hb he
  obtain ⟨b'', hb'', hwrote'⟩ := wrote_of_write hwrote.inv fill hs
  refine ⟨b'', ?_, hwrote.trans hwrote'⟩
  simp only [bind_run, hb']
  exact hb''

end Encodes

/-! ### Lists of values -/

/-- The kinds whose values the format keeps: integers, compressed integers, and strings
    with a length prefix of four or eight bytes or a compressed one. -/
def wireKind : Kind → Bool
  | .float | .double | .stringFInt16 => false
  | .fInt8 | .fUInt8 | .fInt16 | .fUInt16 | .fInt32 | .fUInt32 | .fInt64 | .fUInt64
  | .int32 | .uint32 | .int64 | .uint64 | .stringFInt32 | .stringFInt64 | .stringVInt => true

/-- The length of a string fits its prefix. -/
theorem toNat_ofNat_length {s : List UInt8} (h : s.length < 2 ^ 24) :
    (UInt64.ofNat s.length).toNat = s.length := by
  rw [UInt64.toNat_ofNat']
  exact Nat.mod_eq_of_lt (lt_trans h (by decide))

/-- **One value.** In either byte order the reader of its kind reads what its writer
    stores. -/
theorem writeValue_encodes (e host : Endian) (u : Unspecified) (k : Kind) (v : k.Carrier)
    (hwire : wireKind k = true) (hlen : k.stringLength v < 2 ^ 24) :
    Encodes e (writeValue host u k v) (readValue host k) v := by
  cases k
  -- these three are not of the wire format
  case float | double | stringFInt16 => exact absurd hwire (by decide)
  case fInt8 | fUInt8 => exact (Encodes.byte _).map rfl
  case fInt16 | fUInt16 | fInt32 | fUInt32 | fInt64 | fUInt64 =>
    exact (Encodes.fixed (by decide) _).map rfl
  case uint32 => exact Encodes.uint32 v
  case uint64 => exact Encodes.uint64 v
  -- zigzag first, then the variable length
  case int32 =>
    refine (Encodes.uint32 ⟨ZigZag.encode v.toBitVec⟩).map ?_
    rw [ZigZag.decode_encode]
    rfl
  case int64 =>
    refine (Encodes.uint64 ⟨ZigZag.encode v.toBitVec⟩).map ?_
    rw [ZigZag.decode_encode]
    rfl
  case stringFInt32 =>
    -- the length fits in its field
    have hcount : (UInt32.ofNat (List.length v)).toNat = List.length v := by
      rw [UInt32.toNat_ofNat']
      exact Nat.mod_eq_of_lt (lt_trans hlen (by decide))
    have hfixed : Encodes e (writeFUInt32 host u.fill (UInt32.ofNat (List.length v)))
        (readFUInt32 host) (UInt32.ofNat (List.length v)) := (Encodes.fixed (by decide) _).map rfl
    exact hfixed.string hcount hlen
  case stringFInt64 =>
    have hfixed : Encodes e (writeFUInt64 host u.fill (UInt64.ofNat (List.length v)))
        (readFUInt64 host) (UInt64.ofNat (List.length v)) := (Encodes.fixed (by decide) _).map rfl
    exact hfixed.string (toNat_ofNat_length hlen) hlen
  case stringVInt => exact (Encodes.uint64 _).string (toNat_ofNat_length hlen) hlen

/-- A typed value and the byte order chosen before it is written and read. -/
structure Item where
  isLittle : Bool
  kind : Kind
  value : kind.Carrier

/-- Write items, choosing the byte order of each with `setLittleEndian`. -/
def writeItems (host : Endian) : List (Unspecified × Item) → Op Unit
  | [] => return ()
  | (u, item) :: items => do
    modify (setLittleEndian item.isLittle)
    writeValue host u item.kind item.value
    writeItems host items

/-- Read values of the given byte orders and kinds. -/
def readItems (host : Endian) : List (Bool × Kind) → Op (List Item)
  | [] => return []
  | (isLittle, k) :: rest => do
    modify (setLittleEndian isLittle)
    let v ← readValue host k
    let items ← readItems host rest
    return ⟨isLittle, k, v⟩ :: items

/-- The items are stored as bytes that are read back as the items. -/
theorem writeItems_encodes (host : Endian) (items : List (Unspecified × Item))
    (hitems : ∀ it ∈ items,
      wireKind it.2.kind = true ∧ it.2.kind.stringLength it.2.value < 2 ^ 24)
    (h : b.Inv) :
    ∃ b' bs, writeItems host items b = .ok () b' ∧ Wrote b b' bs ∧
      ∀ c : ByteArray, c.Inv → c.Holds bs →
        ∃ c', readItems host (items.map (fun it => (it.2.isLittle, it.2.kind))) c
            = .ok (items.map Prod.snd) c' ∧ Consumed c c' bs.length := by
  induction items generalizing b with
  | nil =>
    exact ⟨b, [], rfl, Wrote.refl h, fun c hc _ => ⟨c, rfl, hc, rfl, rfl, rfl⟩⟩
  | cons it items ih =>
    obtain ⟨u, item⟩ := it
    obtain ⟨hwire, hlen⟩ := hitems (u, item) (by simp)
    obtain ⟨bs, hw, hr⟩ := writeValue_encodes (if item.isLittle then .little else .big) host u
      item.kind item.value hwire hlen
    obtain ⟨b₁, hb₁, hwrote⟩ := hw _ (setLittleEndian_inv h item.isLittle) rfl
    obtain ⟨b₂, rest, hb₂, hwrote', hread⟩ :=
      ih (fun it hit => hitems it (List.mem_cons_of_mem _ hit)) hwrote.inv
    -- choosing the byte order moves neither the bytes nor the cursor
    have hfirst : Wrote b b₁ bs := { hwrote with }
    refine ⟨b₂, bs ++ rest, ?_, hfirst.trans hwrote', fun c hc hold => ?_⟩
    · simp only [writeItems, bind_run, modify_run, hb₁]
      exact hb₂
    · obtain ⟨hholds, hafter⟩ := hold.split hc
      obtain ⟨c₁, hc₁, hcons, _⟩ := hr _ (setLittleEndian_inv hc item.isLittle) rfl hholds
      have hcons' : Consumed c c₁ bs.length := { hcons with }
      obtain ⟨c₂, hc₂, hcons''⟩ := hread c₁ hcons.inv (hafter hcons')
      refine ⟨c₂, ?_, ?_⟩
      · simp only [List.map_cons, readItems, bind_run, modify_run, hc₁, hc₂]
        rfl
      · rw [List.length_append]
        exact hcons'.trans hcons''

/-- The round trip from any state with the invariant. -/
theorem roundtrip_of_inv (host : Endian) (items : List (Unspecified × Item))
    (hitems : ∀ it ∈ items,
      wireKind it.2.kind = true ∧ it.2.kind.stringLength it.2.value < 2 ^ 24)
    (h : b.Inv) :
    ∃ b₁ b₂ b₃, writeItems host items b = .ok () b₁ ∧ setPosition b.position b₁ = .ok () b₂ ∧
      readItems host (items.map (fun it => (it.2.isLittle, it.2.kind))) b₂
        = .ok (items.map Prod.snd) b₃ ∧ b₃.position = b₁.position := by
  obtain ⟨b₁, bs, hwrite, hwrote, hread⟩ := writeItems_encodes host items hitems h
  obtain ⟨b₂, hset, hinv, hholds, hpos, -⟩ := hwrote.rewind
  obtain ⟨b₃, hread₃, hcons⟩ := hread b₂ hinv hholds
  exact ⟨b₁, b₂, b₃, hwrite, hset, hread₃, by rw [hcons.position, hpos, hwrote.position]⟩

/-- **Wire-format round trip.** On any buffer that calls can build, items written at the
    cursor and read back from there with the same byte orders are the items, and the cursor
    ends where the writing ended. -/
theorem wire_roundtrip (host : Endian) (ns : ℕ) (hns : 1 ≤ ns) (fill : ℕ → UInt8)
    (calls : List (Unspecified × Call)) (hreq : ∀ c ∈ calls, c.2.request < 2 ^ 24)
    (items : List (Unspecified × Item))
    (hitems : ∀ it ∈ items,
      wireKind it.2.kind = true ∧ it.2.kind.stringLength it.2.value < 2 ^ 24) :
    ∃ b₁ b₂ b₃,
      writeItems host items (runOps (new ns fill) (calls.map (fun c => exec host c.1 c.2))).2
        = .ok () b₁ ∧
      setPosition (runOps (new ns fill) (calls.map (fun c => exec host c.1 c.2))).2.position b₁
        = .ok () b₂ ∧
      readItems host (items.map (fun it => (it.2.isLittle, it.2.kind))) b₂
        = .ok (items.map Prod.snd) b₃ ∧
      b₃.position = b₁.position := by
  -- no call before leaves the invariant
  have hsafe : ∀ op ∈ calls.map (fun c => exec host c.1 c.2), Safe op := by
    intro op hop
    obtain ⟨c, hc, rfl⟩ := List.mem_map.mp hop
    exact exec_safe host c.1 c.2 (hreq c hc)
  exact roundtrip_of_inv host items hitems (runOps_safe hsafe (new_inv hns fill)).1

/-- Nodes of two bytes, cursor at one: a swapped 16-bit integer, a negative compressed one
    and a string, each over a node boundary. -/
theorem wire_roundtrip_two_bytes :
    ∃ b₁ b₂ b₃,
      writeItems .little
          [(default, ⟨false, .fUInt16, 0x1234⟩), (default, ⟨true, .int32, -300⟩),
            (default, ⟨true, .stringVInt, [0, 65, 0]⟩)]
          (runOps (new 2 (fun _ => 0)) (([(default, .buffer (.setPosition 1))] :
            List (Unspecified × Call)).map (fun c => exec .little c.1 c.2))).2 = .ok () b₁ ∧
      setPosition (runOps (new 2 (fun _ => 0)) (([(default, .buffer (.setPosition 1))] :
            List (Unspecified × Call)).map (fun c => exec .little c.1 c.2))).2.position b₁
          = .ok () b₂ ∧
      readItems .little [(false, .fUInt16), (true, .int32), (true, .stringVInt)] b₂
        = .ok [⟨false, .fUInt16, 0x1234⟩, ⟨true, .int32, -300⟩, ⟨true, .stringVInt, [0, 65, 0]⟩] b₃ ∧
      b₃.position = b₁.position :=
  wire_roundtrip .little 2 (by decide) (fun _ => 0) _ (by decide)
    [(default, ⟨false, .fUInt16, 0x1234⟩), (default, ⟨true, .int32, -300⟩),
      (default, ⟨true, .stringVInt, [0, 65, 0]⟩)] (by decide)

end ByteArray

end LoNetfw.Util
