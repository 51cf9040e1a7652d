import LoNetfw.Basis.BitPattern
import LoNetfw.Util.FileIo
import LoNetfw.Util.Readers
import LoNetfw.Util.WireFormat
import Mathlib.Tactic.IntervalCases

namespace LoNetfw.Util

open Basis

/-!
# The kinds that the wire format does not keep

`writeStringFInt16` narrows the length of the string to 16 bits and then stores all of its bytes.
`writeFloat` and `writeDouble` hand the value to an integer writer, which converts it, while their
readers take the stored integer for a bit pattern.

* `stringFInt16_iff` — which strings are read back, with any data behind them;
* `float_iff` — which finite non-negative values below `2 ^ 32` and `2 ^ 64` are: zero.
-/

namespace ByteArray

variable {b b' : ByteArray} {ns : ℕ} {host : Endian}

/-! ### What a write that returns has stored -/

/-- A `write` that returns has put its bytes behind the data. -/
theorem wrote_of_ok (h : b.Inv) {fill : ℕ → ℕ → UInt8} {bs : List UInt8}
    (hwrite : write fill bs b = .ok () b') : Wrote b b' bs ∧ b'.baEndian = b.baEndian := by
  by_cases hfit : b.position + bs.length ≤ b.totalSize + b.newNodes bs.length * b.nodeSize
  · obtain ⟨c, ext, hc, hinv, hext, hmem, -, -, hpos, hdata, hend⟩ := write_adds h fill hfit
    rw [hc] at hwrite
    obtain ⟨-, rfl⟩ := EStateM.Result.ok.inj hwrite
    refine ⟨⟨hinv, ⟨ext, ?_, hmem⟩, hpos, hdata⟩, hend⟩
    rw [List.length_append, hext, h.length_mem]
    exact hfit
  · -- otherwise the write would have faulted
    obtain ⟨e, hfault, -⟩ := write_short h fill
      (Nat.lt_of_not_le (mt (addTotalSize_room h fill _).mp hfit))
    rw [hfault] at hwrite
    exact nomatch hwrite

/-- All chunks of a value are put behind the data. -/
theorem writeChunks_wrote (chunks : List ((ℕ → ℕ → UInt8) × List UInt8)) (h : b.Inv)
    (hwrite : writeChunks chunks b = .ok () b') :
    Wrote b b' (chunks.flatMap (·.2)) ∧ b'.baEndian = b.baEndian := by
  induction chunks generalizing b with
  | nil =>
    obtain ⟨-, rfl⟩ := EStateM.Result.ok.inj hwrite
    exact ⟨.refl h, rfl⟩
  | cons head chunks ih =>
    obtain ⟨fill, chunk⟩ := head
    rw [writeChunks, bind_run] at hwrite
    -- a chunk that fails ends the writing
    cases hfirst : write fill chunk b with
    | error e c =>
      rw [hfirst] at hwrite
      exact absurd hwrite (by simp)
    | ok a c =>
      rw [hfirst] at hwrite
      obtain ⟨hchunk, hend⟩ := wrote_of_ok h hfirst
      obtain ⟨hrest, hend'⟩ := ih hchunk.inv hwrite
      exact ⟨hchunk.trans hrest, hend'.trans hend⟩

/-! ### Strings with a 16-bit length -/

/-- The string is stored with a prefix that is its length and, whatever is written behind it, read
    back up to where it ends. -/
def KeepsString16 (host : Endian) (fill : ℕ → ℕ → UInt8) (s : List UInt8) (b : ByteArray) : Prop :=
  ∃ b₁, writeStringFInt16 host fill s b = .ok () b₁ ∧
    (ofMemory b.baEndian 2 (slice b₁.mem b.position 2)).toNat = s.length ∧
    ∀ chunks b₂, writeChunks chunks b₁ = .ok () b₂ →
      ∃ b₃ b₄, setPosition b.position b₂ = .ok () b₃ ∧ readStringFInt16 host b₃ = .ok s b₄ ∧
        b₄.position = b₁.position

/-- What `writeStringFInt16` stores when both of its writes return. -/
theorem writeStringFInt16_wrote (h : b.Inv) {fill : ℕ → ℕ → UInt8} {s : List UInt8}
    (hwrite : writeStringFInt16 host fill s b = .ok () b') :
    Wrote b b' (toMemory b.baEndian 2 (UInt16.ofNat s.length).toBitVec ++ s) ∧
      b'.baEndian = b.baEndian := by
  have hcount : writeFUInt16 host fill (UInt16.ofNat s.length) b =
      write fill (toMemory b.baEndian 2 (UInt16.ofNat s.length).toBitVec) b := writeFixed_eq fill _ b
  rw [writeStringFInt16, bind_run, hcount] at hwrite
  cases hfirst : write fill (toMemory b.baEndian 2 (UInt16.ofNat s.length).toBitVec) b with
  | error e c =>
    rw [hfirst] at hwrite
    exact nomatch hwrite
  | ok a c =>
    rw [hfirst] at hwrite
    obtain ⟨hlength, hend⟩ := wrote_of_ok h hfirst
    obtain ⟨hbytes, hend'⟩ := wrote_of_ok hlength.inv hwrite
    exact ⟨hlength.trans hbytes, hend'.trans hend⟩

/-- A string that is read has fewer than `2 ^ 16` bytes. -/
theorem length_of_readStringFInt16 (h : b.Inv) {s : List UInt8}
    (hread : readStringFInt16 host b = .ok s b') : s.length < 2 ^ 16 := by
  have hrun := (readValue_follows host b.baEndian .stringFInt16).run b h rfl
  change readStringFInt16 host b = _ at hrun
  rw [hread] at hrun
  cases hp : valueFront host b.baEndian .stringFInt16 b.unread with
  | mk r n =>
    rw [hp] at hrun
    cases r with
    | error x => exact nomatch hrun
    | ok s' =>
      obtain ⟨rfl, -⟩ := EStateM.Result.ok.inj hrun
      -- it has as many bytes as the prefix says, and that is a 16-bit number
      obtain ⟨len, k, m, -, hbody, -⟩ := Front.bind_eq_ok_iff.mp hp
      obtain ⟨-, -, rfl, -⟩ := bodyFront_ok_iff.mp hbody
      exact lt_of_le_of_lt (List.length_take_le _ _) len.toNat_lt

/-- A string that is kept has fewer than 2¹⁶ bytes: a longer one comes back short. -/
theorem KeepsString16.length_lt (h : b.Inv) {fill : ℕ → ℕ → UInt8} {s : List UInt8}
    (hkeeps : KeepsString16 host fill s b) : s.length < 2 ^ 16 := by
  obtain ⟨b₁, hwrite, -, hback⟩ := hkeeps
  -- with nothing written behind it
  obtain ⟨b₃, b₄, hset, hread, -⟩ := hback [] b₁ rfl
  obtain ⟨hwrote, -⟩ := writeStringFInt16_wrote h hwrite
  obtain ⟨c, hset', hinv, -⟩ := hwrote.rewind
  rw [hset] at hset'
  obtain ⟨-, rfl⟩ := EStateM.Result.ok.inj hset'
  exact length_of_readStringFInt16 hinv hread

/-- **Strings with a 16-bit length.**  In every reachable state such a string is kept exactly when its
    length fits into the prefix. -/
theorem stringFInt16_iff (hns : 1 ≤ ns) (hb : Reachable host ns b) (fill : ℕ → ℕ → UInt8)
    (s : List UInt8) : KeepsString16 host fill s b ↔ s.length < 2 ^ 16 := by
  obtain ⟨h, -⟩ := hb.inv hns
  constructor
  · exact KeepsString16.length_lt h
  · intro hs
    have hlen : (UInt16.ofNat s.length).toNat = s.length := by
      rw [UInt16.toNat_ofNat']
      exact Nat.mod_eq_of_lt hs
    have hsmall : s.length < 2 ^ 24 := lt_trans hs (by decide)
    have htwo : (toMemory b.baEndian 2 (UInt16.ofNat s.length).toBitVec).length < 2 ^ 24 := by
      rw [length_toMemory]
      decide
    obtain ⟨c, hlength, hwrote⟩ := wrote_of_write h fill htwo
    obtain ⟨b₁, hbytes, -⟩ := wrote_of_write hwrote.inv fill hsmall
    have hwrite : writeStringFInt16 host fill s b = .ok () b₁ := by
      have hcount : writeFUInt16 host fill (UInt16.ofNat s.length) b = .ok () c :=
        (writeFixed_eq fill _ b).trans hlength
      rw [writeStringFInt16, bind_run, hcount]
      exact hbytes
    obtain ⟨hstored, hend⟩ := writeStringFInt16_wrote h hwrite
    refine ⟨b₁, hwrite, ?_, fun chunks b₂ hchunks => ?_⟩
    · -- the first two of the stored bytes
      have hall := hstored.slice_eq
      rw [List.length_append, length_toMemory, ← slice_append] at hall
      have hcap := hstored.inv.position_le.trans hstored.inv.dataSize_le
      have hpos := hstored.position
      rw [List.length_append, length_toMemory] at hpos
      obtain ⟨hfirst, -⟩ := List.append_inj hall (by
        rw [length_toMemory]
        exact length_slice (by rw [hstored.inv.length_mem]; omega))
      rw [hfirst, ofMemory_toMemory]
      exact hlen
    · obtain ⟨hbehind, hend'⟩ := writeChunks_wrote chunks hstored.inv hchunks
      obtain ⟨b₃, hset, hinv, hholds, hpos, hend''⟩ := (hstored.trans hbehind).rewind
      -- the string is in front of what is behind it
      obtain ⟨hstring, -⟩ := hholds.split hinv
      have hcount : Reads b.baEndian (readFUInt16 host)
          (toMemory b.baEndian 2 (UInt16.ofNat s.length).toBitVec) (UInt16.ofNat s.length) :=
        (readFixed_reads 2 _).map rfl
      obtain ⟨b₄, hread, hcons, -⟩ :=
        hcount.string hlen hsmall b₃ hinv (by rw [hend'', hend', hend]) hstring
      refine ⟨b₃, b₄, hset, hread, ?_⟩
      rw [hcons.position, hpos, hstored.position]

/-- Three bytes behind their length. -/
theorem stringFInt16_iff_threeBytes :
    KeepsString16 .little (fun _ _ => 0) [1, 2, 3] (new 4 fun _ => 0) :=
  (stringFInt16_iff (by decide) (.new _) _ _).mpr (by decide)

/-- A string of `2 ^ 16` bytes is not kept. -/
theorem long_string_not_kept : Reachable .little 4 (new 4 fun _ => 0) ∧
    ¬ KeepsString16 .little (fun _ _ => 0) (List.replicate (2 ^ 16) 0) (new 4 fun _ => 0) := by
  refine ⟨.new _, fun hkeeps => ?_⟩
  have hlt := hkeeps.length_lt (new_inv (by decide) _)
  rw [List.length_replicate] at hlt
  exact lt_irrefl _ hlt

/-! ### Floating-point values -/

/-- What is written and read back from where it was written is the same. -/
def RoundTrips (host : Endian) (u : Unspecified) (k : Kind) (v : k.Carrier) (b : ByteArray) : Prop :=
  ∃ b₁ b₂ b₃, writeValue host u k v b = .ok () b₁ ∧ setPosition b.position b₁ = .ok () b₂ ∧
    readValue host k b₂ = .ok v b₃

/-- A kind that stores a fixed-width integer returns what becomes of that integer. -/
theorem roundTrips_iff_of_fixed (h : b.Inv) {u : Unspecified} {k : Kind} {v : k.Carrier} {n : ℕ}
    (hn : n < 2 ^ 24) {x : BitVec (8 * n)} {g : BitVec (8 * n) → k.Carrier}
    (hwrite : writeValue host u k v = writeFixed host u.fill n x)
    (hread : readValue host k = readFixed host n >>= fun y => pure (g y)) :
    RoundTrips host u k v b ↔ g x = v := by
  have hlen : (toMemory b.baEndian n x).length < 2 ^ 24 := by rwa [length_toMemory]
  obtain ⟨b₁, hstore, hwrote⟩ := wrote_of_write h u.fill hlen
  obtain ⟨-, hend⟩ := wrote_of_ok h hstore
  obtain ⟨b₂, hset, hinv, hholds, -, hend'⟩ := hwrote.rewind
  -- the stored word is read back whatever the value was; only `g` decides
  have hreads : Reads b.baEndian (readValue host k) (toMemory b.baEndian n x) (g x) := by
    rw [hread]
    exact (readFixed_reads n x).map rfl
  obtain ⟨b₃, hback, -⟩ := hreads b₂ hinv (hend'.trans hend) hholds
  have hwrite₁ : writeValue host u k v b = .ok () b₁ := by
    rw [hwrite, writeFixed_eq]
    exact hstore
  constructor
  · rintro ⟨c₁, c₂, c₃, hc₁, hc₂, hc₃⟩
    obtain ⟨-, rfl⟩ := EStateM.Result.ok.inj (hwrite₁.symm.trans hc₁)
    obtain ⟨-, rfl⟩ := EStateM.Result.ok.inj (hset.symm.trans hc₂)
    exact (EStateM.Result.ok.inj (hback.symm.trans hc₃)).1
  · rintro rfl
    exact ⟨b₁, b₂, b₃, hwrite₁, hset, hback⟩

variable {v : ℚ}

/-- The pattern of a float is its own conversion only if it is zero. -/
theorem floor_eq_float_iff {x : UInt32} (hv : valueIeee 8 23 x.toNat = some v) (hpos : 0 ≤ v)
    (hlt : v < 2 ^ 32) : ⌊v⌋₊ = x.toNat ↔ x = 0 := by
  rw [← UInt32.toNat_inj]
  apply floor_eq_pattern_iff (w := 32) rfl (by decide) (by decide) _ hv hpos hlt
  intro k m hk hm
  have hunit : unitIeee 8 23 = 150 := rfl
  have hk' : k < 9 := by omega
  rw [hunit]
  interval_cases k <;> omega

/-- Only zero is its own pattern, for a double as for a float. -/
theorem floor_eq_double_iff {x : UInt64} (hv : valueIeee 11 52 x.toNat = some v) (hpos : 0 ≤ v)
    (hlt : v < 2 ^ 64) : ⌊v⌋₊ = x.toNat ↔ x = 0 := by
  rw [← UInt64.toNat_inj]
  apply floor_eq_pattern_iff (w := 64) rfl (by decide) (by decide) _ hv hpos hlt
  intro k m hk hm
  have hunit : unitIeee 11 52 = 1075 := rfl
  have hk' : k < 12 := by omega
  rw [hunit]
  interval_cases k <;> omega

/-- Of the numbers from 0 on that the conversion can hold, a `float` keeps zero alone. -/
theorem roundTrips_float_iff (h : b.Inv) (u : Unspecified) {x : UInt32}
    (hv : valueIeee 8 23 x.toNat = some v) (hpos : 0 ≤ v) (hlt : v < 2 ^ 32) :
    RoundTrips host u .float x b ↔ x = 0 := by
  have hfloor : ⌊v⌋₊ < 2 ^ 32 := (Nat.floor_lt hpos).mpr (by exact_mod_cast hlt)
  have hwrite : writeValue host u .float x =
      writeFixed host u.fill 4 (UInt32.ofNat ⌊v⌋₊).toBitVec := by
    simp only [writeValue, writeFloat, truncIeee_of_value hv hpos, if_pos hfloor, writeFUInt32]
  rw [roundTrips_iff_of_fixed h (by decide) hwrite rfl, ← floor_eq_float_iff hv hpos hlt]
  -- what is read back is the integer that was written
  show UInt32.ofNat ⌊v⌋₊ = x ↔ _
  rw [← UInt32.toNat_inj, UInt32.toNat_ofNat', Nat.mod_eq_of_lt hfloor]

/-- Of the numbers from 0 on that the conversion can hold, a `double` keeps zero alone. -/
theorem roundTrips_double_iff (h : b.Inv) (u : Unspecified) {x : UInt64}
    (hv : valueIeee 11 52 x.toNat = some v) (hpos : 0 ≤ v) (hlt : v < 2 ^ 64) :
    RoundTrips host u .double x b ↔ x = 0 := by
  have hfloor : ⌊v⌋₊ < 2 ^ 64 := (Nat.floor_lt hpos).mpr (by exact_mod_cast hlt)
  have hwrite : writeValue host u .double x =
      writeFixed host u.fill 8 (UInt64.ofNat ⌊v⌋₊).toBitVec := by
    simp only [writeValue, writeDouble, truncIeee_of_value hv hpos, if_pos hfloor, writeFUInt64]
  rw [roundTrips_iff_of_fixed h (by decide) hwrite rfl, ← floor_eq_double_iff hv hpos hlt]
  show UInt64.ofNat ⌊v⌋₊ = x ↔ _
  rw [← UInt64.toNat_inj, UInt64.toNat_ofNat', Nat.mod_eq_of_lt hfloor]

/-- **Floating-point values.**  In every reachable state, of all finite non-negative values below
    `2 ^ 32` and `2 ^ 64`, the pattern that is read back is the one that was written exactly for the
    pattern of all zeros. -/
theorem float_iff (hns : 1 ≤ ns) (hb : Reachable host ns b) (u : Unspecified) :
    (∀ (x : UInt32) (v : ℚ), valueIeee 8 23 x.toNat = some v → 0 ≤ v → v < 2 ^ 32 →
      (RoundTrips host u .float x b ↔ x = 0)) ∧
    (∀ (x : UInt64) (v : ℚ), valueIeee 11 52 x.toNat = some v → 0 ≤ v → v < 2 ^ 64 →
      (RoundTrips host u .double x b ↔ x = 0)) := by
  obtain ⟨h, -⟩ := hb.inv hns
  exact ⟨fun x v hv hpos hlt => roundTrips_float_iff h u hv hpos hlt,
    fun x v hv hpos hlt => roundTrips_double_iff h u hv hpos hlt⟩

/-- Zero is kept. -/
theorem float_iff_zero : RoundTrips .little default .float 0 (new 4 fun _ => 0) :=
  ((float_iff (by decide) (.new _) default).1 0 0 (valueIeee_zero (by decide) 23) (le_refl 0)
    (by norm_num)).mpr rfl

/-- The pattern of `1.0f`. -/
theorem valueIeee_one : valueIeee 8 23 (0x3f800000 : UInt32).toNat = some 1 := by
  have hfield : fieldIeee 8 23 (0x3f800000 : UInt32).toNat = 127 := by decide
  have hsig : significandIeee 8 23 (0x3f800000 : UInt32).toNat = 2 ^ 23 := by decide
  have hunit : unitIeee 8 23 = 150 := rfl
  rw [valueIeee, hfield, if_neg (by decide), if_neg (by decide), magnitudeIeee, hfield, hsig, hunit]
  norm_num

/-- It is not read back. -/
theorem one_not_kept : Reachable .little 4 (new 4 fun _ => 0) ∧
    ¬ RoundTrips .little default .float 0x3f800000 (new 4 fun _ => 0) := by
  refine ⟨.new _, fun htrip => ?_⟩
  have hzero := (roundTrips_float_iff (new_inv (by decide) _) default valueIeee_one (by decide)
    (by norm_num)).mp htrip
  exact absurd hzero (by decide)

end ByteArray

end LoNetfw.Util
