import LoNetfw.Net.Address

namespace LoNetfw.Net

open Basis Util

/-!
# `IPv6Address` — subnet arithmetic

The three subnet functions of `IPv6Address`.  Each treats the byte with the end of the prefix by
a mask of `createMask<uint8_t>`; `broadcastAddress` fills the bytes behind it, `subnetMask` those
before it, and `networkAddress` neither.  No function checks the prefix length, which is also
the index of that byte.

* `value`, `value_eq_iff` — the 16 bytes as one number, compared byte by byte;
* `fill_ok`, `broadcastAddress_ok`, `networkAddress_ok`, `subnetMask_ok` — the bytes that each
  function stores;
* `out_of_bounds` — from 128 bits on every function leaves the array;
* `ipv6_subnet_iff` — the inputs for which each function is right.
-/

/-- The bytes of an `in6_addr`. -/
abbrev In6Addr := Vector UInt8 16

/-- `sockaddr_in6`. -/
structure SockaddrIn6 where
  family : ℕ
  port : BitVec (8 * 2)
  flowinfo : BitVec 32
  addr : In6Addr
  scopeId : BitVec 32
  deriving DecidableEq, Repr

namespace IPv6Address

/-- `AF_INET6`. -/
def afInet6 : ℕ := 10

/-- `IPv6Address(address, port)` on a host of byte order `host`. -/
def new (host : Endian) (address : In6Addr) (port : BitVec (8 * 2)) : SockaddrIn6 where
  family := afInet6
  port := byteswapToBigEndian host port
  flowinfo := 0
  addr := address
  scopeId := 0

def getPort (host : Endian) (x : SockaddrIn6) : BitVec (8 * 2) := byteswapToBigEndian host x.port

/-- Undefined behaviour of the subnet functions. -/
inductive ByteFault
  | mask (f : MaskFault)
  | outOfBounds (index : ℕ)
  deriving DecidableEq, Repr

/-- `createMask<uint8_t>(bits)`. -/
def createMask8 (bits : ℕ) : Except ByteFault UInt8 :=
  match createMask 1 bits with
  | .ok m => .ok (.ofBitVec m)
  | .error f => .error (.mask f)

/-- An assignment to one byte. -/
def assign (addr : In6Addr) (i : ℕ) (f : UInt8 → UInt8) : Except ByteFault In6Addr :=
  if h : i < 16 then .ok (addr.set i (f (addr.get ⟨i, h⟩)) h) else .error (.outOfBounds i)

/-- A loop that stores `0xff` in the bytes with these indices. -/
def fill : List ℕ → In6Addr → Except ByteFault In6Addr
  | [], addr => .ok addr
  | i :: rest, addr => do
    let addr ← assign addr i fun _ => 0xff
    fill rest addr

/-- `broadcastAddress(prefix_len)`; `none` would be a null pointer. -/
def broadcastAddress (x : SockaddrIn6) (prefixLen : ℕ) : Except ByteFault (Option SockaddrIn6) := do
  let mask ← createMask8 (prefixLen % 8)
  let addr ← assign x.addr (prefixLen / 8) fun b => b ||| mask
  let addr ← fill (List.range' (prefixLen / 8 + 1) (16 - (prefixLen / 8 + 1))) addr
  return some { x with addr := addr }

/-- `networkAddress(prefix_len)`. -/
def networkAddress (x : SockaddrIn6) (prefixLen : ℕ) : Except ByteFault (Option SockaddrIn6) := do
  let mask ← createMask8 (prefixLen % 8)
  let addr ← assign x.addr (prefixLen / 8) fun b => b &&& mask
  return some { x with addr := addr }

/-- `subnetMask(prefix_len)`. -/
def subnetMask (x : SockaddrIn6) (prefixLen : ℕ) : Except ByteFault (Option SockaddrIn6) := do
  let mask ← createMask8 (prefixLen % 8)
  let addr ← assign (Vector.replicate 16 0) (prefixLen / 8) fun _ => ~~~mask
  let addr ← fill (List.range (prefixLen / 8)) addr
  return some { family := afInet6, port := x.port, flowinfo := 0, addr := addr, scopeId := 0 }

/-! ### The address as a number -/

/-- The 128-bit number in network byte order. -/
def value (addr : In6Addr) : BitVec (8 * 16) := ofMemory .big 16 addr.toList

/-- A bit of the address is a bit of one of its bytes, the last byte being the lowest. -/
theorem getLsbD_value (addr : In6Addr) {i : ℕ} (hi : i < 8 * 16) :
    (value addr).getLsbD i = (addr.get ⟨15 - i / 8, by omega⟩).toBitVec.getLsbD (i % 8) := by
  have hrev : addr.toList.reverse.getD (i / 8) 0 = addr.get ⟨15 - i / 8, by omega⟩ := by
    rw [List.getD_eq_getElem?_getD, List.getElem?_reverse (by rw [Vector.length_toList]; omega),
      Vector.length_toList, Vector.getElem?_toList, Vector.getElem?_eq_getElem (by omega)]
    rfl
  unfold value ofMemory
  rw [BitVec.getLsbD_ofNat, decide_eq_true hi, Bool.true_and, testBit_ofLE, hrev]
  exact BitVec.testBit_toNat _

/-- The first byte is the highest one. -/
theorem getLsbD_value_byte (addr : In6Addr) (j : Fin 16) {k : ℕ} (hk : k < 8) :
    (value addr).getLsbD (8 * (15 - j) + k) = (addr.get j).toBitVec.getLsbD k := by
  have hj := j.isLt
  have hdiv : 15 - (8 * (15 - (j : ℕ)) + k) / 8 = j := by omega
  have hmod : (8 * (15 - (j : ℕ)) + k) % 8 = k := by omega
  rw [getLsbD_value addr (by omega), hmod]
  congr 3
  exact Fin.ext hdiv

/-- A number is compared with an address byte by byte. -/
theorem value_eq_iff {addr : In6Addr} {v : BitVec (8 * 16)} :
    value addr = v ↔ ∀ (j : Fin 16) (k : ℕ), k < 8 →
      (addr.get j).toBitVec.getLsbD k = v.getLsbD (8 * (15 - j) + k) := by
  constructor
  · rintro rfl j k hk
    exact (getLsbD_value_byte addr j hk).symm
  · intro h
    apply BitVec.eq_of_getLsbD_eq
    intro i hi
    rw [getLsbD_value addr hi, h _ _ (Nat.mod_lt i (by decide))]
    congr 1
    show 8 * (15 - (15 - i / 8)) + i % 8 = i
    omega

/-! ### The bytes that are stored -/

variable {x : SockaddrIn6} {p : ℕ}

/-- The mask of the host bits of the boundary byte. -/
def hostMask (p : ℕ) : UInt8 := .ofBitVec (~~~prefixMask (8 * 1) (p % 8))

/-- A mask of one byte is never undefined behaviour. -/
theorem createMask8_eq (p : ℕ) : createMask8 (p % 8) = .ok (hostMask p) := by
  have hlt := Nat.mod_lt p (by decide : 0 < 8)
  unfold createMask8
  rw [createMask_eq (by omega), if_pos (by omega)]
  rfl

/-- The bits of the byte that the prefix cuts. -/
theorem getLsbD_hostMask {k : ℕ} (hk : k < 8) :
    (hostMask p).toBitVec.getLsbD k = decide (k < 8 - p % 8) := by
  have hbit : (~~~prefixMask (8 * 1) (p % 8)).getLsbD k = decide (k < 8 - p % 8) := by
    rw [BitVec.getLsbD_not, getLsbD_prefixMask (by omega), decide_eq_true (by omega : k < 8 * 1),
      Bool.true_and, ← decide_not]
    congr 1
    exact propext Nat.not_le
  exact hbit

/-- An assignment to a byte inside the address. -/
theorem assign_ok {addr : In6Addr} {i : ℕ} (h : i < 16) (f : UInt8 → UInt8) :
    assign addr i f = .ok (addr.set i (f (addr.get ⟨i, h⟩)) h) := dif_pos h

/-- An assignment to a byte outside of it. -/
theorem assign_error {addr : In6Addr} {i : ℕ} (h : 16 ≤ i) (f : UInt8 → UInt8) :
    assign addr i f = .error (.outOfBounds i) := dif_neg (Nat.not_lt_of_le h)

/-- A byte after an assignment. -/
theorem get_set {addr : In6Addr} {i : ℕ} (h : i < 16) (b : UInt8) (j : Fin 16) :
    (addr.set i b h).get j = if i = j then b else addr.get j :=
  Vector.getElem_set ..

/-- The loop stores `0xff` in the bytes of its list and keeps the others. -/
theorem fill_ok {indices : List ℕ} (h : ∀ i ∈ indices, i < 16) (addr : In6Addr) :
    ∃ filled, fill indices addr = .ok filled ∧
      ∀ j : Fin 16, filled.get j = if (j : ℕ) ∈ indices then 0xff else addr.get j := by
  -- the loop sets one byte after the other, all of them inside the address
  induction indices generalizing addr with
  | nil => exact ⟨addr, rfl, fun j => (if_neg List.not_mem_nil).symm⟩
  | cons i rest ih =>
    have hi := h i List.mem_cons_self
    obtain ⟨filled, hfill, hget⟩ :=
      ih (fun i hi => h i (List.mem_cons_of_mem _ hi)) (addr.set i 0xff hi)
    refine ⟨filled, ?_, ?_⟩
    · rw [fill, assign_ok hi]
      exact hfill
    · intro j
      rw [hget, get_set]
      by_cases hrest : (j : ℕ) ∈ rest
      · rw [if_pos hrest, if_pos (List.mem_cons_of_mem _ hrest)]
      · by_cases hij : i = j
        · rw [if_neg hrest, if_pos hij, if_pos (hij ▸ List.mem_cons_self)]
        · rw [if_neg hrest, if_neg hij, if_neg]
          rw [List.mem_cons, not_or]
          exact ⟨fun hji => hij hji.symm, hrest⟩

/-- The bytes of the broadcast address: the host bits of the cut byte are set, and all bytes behind
    it. -/
theorem broadcastAddress_ok (hp : p < 128) :
    ∃ addr, broadcastAddress x p = .ok (some { x with addr := addr }) ∧
      ∀ j : Fin 16, addr.get j =
        if p / 8 < j then 0xff
        else if p / 8 = j then x.addr.get j ||| hostMask p else x.addr.get j := by
  have hi : p / 8 < 16 := by omega
  -- the byte that the prefix cuts is set first, then those behind it
  obtain ⟨addr, hfill, hget⟩ := @fill_ok (List.range' (p / 8 + 1) (16 - (p / 8 + 1)))
    (by intro i hi; rw [List.mem_range'_1] at hi; omega)
    (x.addr.set (p / 8) (x.addr.get ⟨p / 8, hi⟩ ||| hostMask p) hi)
  refine ⟨addr, ?_, ?_⟩
  · unfold broadcastAddress
    rw [createMask8_eq]
    show (assign _ _ _ >>= _) = _
    rw [assign_ok hi]
    show (fill _ _ >>= _) = _
    rw [hfill]
    rfl
  · intro j
    have hj := j.isLt
    -- behind the cut byte, at it, before it
    simp only [hget, get_set, List.mem_range'_1]
    by_cases hlt : p / 8 < j
    · rw [if_pos (by omega), if_pos hlt]
    · rw [if_neg (by omega), if_neg hlt]
      split
      · next heq =>
        have hfin : (⟨p / 8, hi⟩ : Fin 16) = j := Fin.ext heq
        rw [hfin]
      · rfl

/-- The bytes of the network address: only the cut byte is masked. -/
theorem networkAddress_ok (hp : p < 128) :
    ∃ addr, networkAddress x p = .ok (some { x with addr := addr }) ∧
      ∀ j : Fin 16, addr.get j =
        if p / 8 = j then x.addr.get j &&& hostMask p else x.addr.get j := by
  have hi : p / 8 < 16 := by omega
  refine ⟨x.addr.set (p / 8) (x.addr.get ⟨p / 8, hi⟩ &&& hostMask p) hi, ?_, ?_⟩
  · unfold networkAddress
    rw [createMask8_eq]
    show (assign _ _ _ >>= _) = _
    rw [assign_ok hi]
    rfl
  · intro j
    rw [get_set]
    split
    · next heq =>
      have hfin : (⟨p / 8, hi⟩ : Fin 16) = j := Fin.ext heq
      rw [hfin]
    · rfl

/-- The bytes of the mask, and an address without port, flow and scope. -/
theorem subnetMask_ok (hp : p < 128) :
    ∃ addr, subnetMask x p = .ok (some ⟨afInet6, x.port, 0, addr, 0⟩) ∧
      ∀ j : Fin 16, addr.get j =
        if j < p / 8 then 0xff else if p / 8 = j then ~~~hostMask p else 0 := by
  have hi : p / 8 < 16 := by omega
  obtain ⟨addr, hfill, hget⟩ := @fill_ok (List.range (p / 8))
    (by intro i hi; rw [List.mem_range] at hi; omega)
    ((Vector.replicate 16 0).set (p / 8) (~~~hostMask p) hi)
  refine ⟨addr, ?_, ?_⟩
  · unfold subnetMask
    rw [createMask8_eq]
    show (assign _ _ _ >>= _) = _
    rw [assign_ok hi]
    show (fill _ _ >>= _) = _
    rw [hfill]
    rfl
  · intro j
    have hzero : (Vector.replicate 16 (0 : UInt8)).get j = 0 := Vector.getElem_replicate ..
    simp only [hget, get_set, List.mem_range, hzero]

/-- From 128 bits on the boundary byte is behind the array. -/
theorem out_of_bounds (hp : 128 ≤ p) :
    broadcastAddress x p = .error (.outOfBounds (p / 8)) ∧
    networkAddress x p = .error (.outOfBounds (p / 8)) ∧
    subnetMask x p = .error (.outOfBounds (p / 8)) := by
  have hi : 16 ≤ p / 8 := by omega
  refine ⟨?_, ?_, ?_⟩
  · unfold broadcastAddress
    rw [createMask8_eq]
    show (assign _ _ _ >>= _) = _
    rw [assign_error hi]
    rfl
  · unfold networkAddress
    rw [createMask8_eq]
    show (assign _ _ _ >>= _) = _
    rw [assign_error hi]
    rfl
  · unfold subnetMask
    rw [createMask8_eq]
    show (assign _ _ _ >>= _) = _
    rw [assign_error hi]
    rfl

/-! ### Subnets -/

/-- The host bits: none before the boundary byte, all of them behind it. -/
theorem getLsbD_not_mask (j : Fin 16) {k : ℕ} (hk : k < 8) (hp : p < 128) :
    (~~~prefixMask (8 * 16) p).getLsbD (8 * (15 - j) + k) =
      if p / 8 < j then true else if p / 8 = j then (hostMask p).toBitVec.getLsbD k else false := by
  have hj := j.isLt
  rw [BitVec.getLsbD_not, getLsbD_prefixMask (by omega), getLsbD_hostMask hk,
    decide_eq_true (by omega : 8 * (15 - (j : ℕ)) + k < 8 * 16), Bool.true_and, ← decide_not]
  split_ifs with hbehind hat
  · rw [decide_eq_true_iff]
    omega
  · congr 1
    exact propext (by omega)
  · rw [decide_eq_false_iff_not]
    omega

/-- The bits of a prefix mask, byte by byte. -/
theorem getLsbD_mask (j : Fin 16) {k : ℕ} (hk : k < 8) (hp : p < 128) :
    (prefixMask (8 * 16) p).getLsbD (8 * (15 - j) + k) =
      if p / 8 < j then false
      else if p / 8 = j then !(hostMask p).toBitVec.getLsbD k else true := by
  have hj := j.isLt
  have hnot := getLsbD_not_mask j hk hp
  rw [BitVec.getLsbD_not, decide_eq_true (by omega : 8 * (15 - (j : ℕ)) + k < 8 * 16),
    Bool.true_and] at hnot
  rw [← Bool.not_not (BitVec.getLsbD _ _), hnot]
  split_ifs <;> rfl

/-- All bits of `0xff` are set. -/
theorem getLsbD_ones {k : ℕ} (hk : k < 8) : (0xff : UInt8).toBitVec.getLsbD k = true :=
  (BitVec.getLsbD_allOnes (v := 8)).trans (decide_eq_true hk)

/-- The call returns an object with this address. -/
def Gives (r : Except ByteFault (Option SockaddrIn6)) (a : BitVec (8 * 16)) : Prop :=
  ∃ y, r = .ok (some y) ∧ value y.addr = a

/-- A result gives an address when its value is that address. -/
theorem gives_ok {y : SockaddrIn6} {a : BitVec (8 * 16)} :
    Gives (.ok (some y)) a ↔ value y.addr = a := by
  unfold Gives
  simp only [Except.ok.injEq, Option.some.injEq, exists_eq_left']

/-- A fault gives no address. -/
theorem not_gives_error {e : ByteFault} {a : BitVec (8 * 16)} : ¬ Gives (.error e) a := by
  rintro ⟨y, hy, -⟩
  exact absurd hy (by simp)

/-- The broadcast address is right as long as there is a boundary byte. -/
theorem broadcastRight_iff :
    Gives (broadcastAddress x p) (value x.addr ||| ~~~prefixMask (8 * 16) p) ↔ p < 128 := by
  by_cases hp : p < 128
  · apply iff_of_true _ hp
    obtain ⟨addr, hok, hget⟩ := broadcastAddress_ok (x := x) hp
    -- byte by byte, and in each byte bit by bit
    rw [hok, gives_ok, value_eq_iff]
    intro j k hk
    rw [BitVec.getLsbD_or, getLsbD_value_byte _ _ hk, getLsbD_not_mask j hk hp, hget]
    split_ifs
    · rw [Bool.or_true]
      exact getLsbD_ones hk
    · exact BitVec.getLsbD_or
    · exact (Bool.or_false _).symm
  · apply iff_of_false _ hp
    -- from 128 bits on the write misses the address
    rw [(out_of_bounds (Nat.le_of_not_lt hp)).1]
    exact not_gives_error

/-- So is the subnet mask. -/
theorem maskRight_iff : Gives (subnetMask x p) (prefixMask (8 * 16) p) ↔ p < 128 := by
  by_cases hp : p < 128
  · apply iff_of_true _ hp
    obtain ⟨addr, hok, hget⟩ := subnetMask_ok (x := x) hp
    rw [hok, gives_ok, value_eq_iff]
    intro j k hk
    rw [getLsbD_mask j hk hp, hget]
    -- zero behind the cut byte, the complement of the host mask in it, ones before it
    by_cases hbehind : p / 8 < j
    · rw [if_pos hbehind, if_neg (by omega), if_neg (by omega)]
      exact BitVec.getLsbD_zero
    · rw [if_neg hbehind]
      by_cases hat : p / 8 = j
      · rw [if_pos hat, if_neg (by omega), if_pos hat]
        exact BitVec.getLsbD_not.trans (by rw [decide_eq_true hk, Bool.true_and])
      · rw [if_neg hat, if_neg hat, if_pos (by omega)]
        exact getLsbD_ones hk
  · apply iff_of_false _ hp
    rw [(out_of_bounds (Nat.le_of_not_lt hp)).2.2]
    exact not_gives_error

/-- The bytes from the boundary on are zero. -/
def HostBytesZero (addr : In6Addr) (p : ℕ) : Prop := ∀ j : Fin 16, p / 8 ≤ j → addr.get j = 0

/-- The network address keeps the host bits of the boundary byte in place of the others, and all
    bytes behind it; it is right if there is nothing to keep. -/
theorem networkRight_iff :
    Gives (networkAddress x p) (value x.addr &&& prefixMask (8 * 16) p) ↔
      p < 128 ∧ HostBytesZero x.addr p := by
  by_cases hp : p < 128
  · obtain ⟨addr, hok, hget⟩ := networkAddress_ok (x := x) hp
    rw [hok, gives_ok, value_eq_iff, and_iff_right hp]
    simp only [BitVec.getLsbD_and, hget]
    constructor
    · intro h j hj
      apply UInt8.toBitVec_inj.mp
      apply BitVec.eq_of_getLsbD_eq
      intro k hk
      have hbit := h j k hk
      rw [getLsbD_value_byte _ _ hk, getLsbD_mask j hk hp] at hbit
      have hzero : (x.addr.get j).toBitVec.getLsbD k = false := by
        by_cases hbehind : p / 8 < j
        · rwa [if_pos hbehind, Bool.and_false, if_neg (by omega)] at hbit
        · have hat : p / 8 = j := by omega
          rw [if_neg hbehind, if_pos hat, if_pos hat, UInt8.toBitVec_and,
            BitVec.getLsbD_and] at hbit
          -- a bit that agrees with the mask and with its complement
          cases hx : (x.addr.get j).toBitVec.getLsbD k
          · rfl
          · rw [hx, Bool.true_and, Bool.true_and] at hbit
            exact absurd hbit.symm (Bool.not_ne_self _)
      rw [hzero]
      exact BitVec.getLsbD_zero.symm
    · intro h j k hk
      rw [getLsbD_value_byte _ _ hk, getLsbD_mask j hk hp]
      by_cases hbefore : j < p / 8
      · rw [if_neg (by omega), if_neg (by omega), if_neg (by omega), Bool.and_true]
      · have hzero : (x.addr.get j).toBitVec.getLsbD k = false := by
          rw [h j (by omega)]
          exact BitVec.getLsbD_zero
        rw [hzero, Bool.false_and]
        split
        · rw [UInt8.toBitVec_and, BitVec.getLsbD_and, hzero, Bool.false_and]
        · exact hzero
  · apply iff_of_false _ (fun h => hp h.1)
    rw [(out_of_bounds (Nat.le_of_not_lt hp)).2.1]
    exact not_gives_error

/-- The arithmetic of the subnet of an address with a prefix of `p` bits; longer prefixes are
    rejected. -/
structure SubnetRight (x : SockaddrIn6) (p : ℕ) : Prop where
  network : p ≤ 128 → Gives (networkAddress x p) (value x.addr &&& prefixMask (8 * 16) p)
  broadcast : p ≤ 128 → Gives (broadcastAddress x p) (value x.addr ||| ~~~prefixMask (8 * 16) p)
  mask : p ≤ 128 → Gives (subnetMask x p) (prefixMask (8 * 16) p)
  rejected : 128 < p → networkAddress x p = .ok none ∧ broadcastAddress x p = .ok none ∧
    subnetMask x p = .ok none

/-- **IPv6 subnets, exactly.** For every address and every prefix length: the broadcast address
    and the subnet mask are right exactly below 128 bits; the network address only if moreover
    all bytes from the boundary byte on are zero, and then all of the subnet arithmetic is right.
    No other length is rejected. -/
theorem ipv6_subnet_iff (x : SockaddrIn6) (p : ℕ) :
    (Gives (broadcastAddress x p) (value x.addr ||| ~~~prefixMask (8 * 16) p) ↔ p < 128) ∧
    (Gives (subnetMask x p) (prefixMask (8 * 16) p) ↔ p < 128) ∧
    (Gives (networkAddress x p) (value x.addr &&& prefixMask (8 * 16) p) ↔
      p < 128 ∧ HostBytesZero x.addr p) ∧
    (SubnetRight x p ↔ p < 128 ∧ HostBytesZero x.addr p) := by
  refine ⟨broadcastRight_iff, maskRight_iff, networkRight_iff, ?_⟩
  constructor
  · intro h
    -- beyond 128 bits the code writes outside where it should give null
    rcases Nat.lt_or_ge 128 p with hlong | hshort
    · have hnull := (h.rejected hlong).1
      rw [(out_of_bounds (Nat.le_of_lt hlong)).2.1] at hnull
      exact absurd hnull (by simp)
    · exact networkRight_iff.mp (h.network hshort)
  · intro h
    exact {
      network := fun _ => networkRight_iff.mpr h
      broadcast := fun _ => broadcastRight_iff.mpr h.1
      mask := fun _ => maskRight_iff.mpr h.1
      rejected := fun hlong => absurd h.1 (by omega) }

/-- 24 bits of 2408:871a:2100:186c::ff:b07e:3fbc. -/
theorem network_address_wrong :
    ¬ ∀ (x : SockaddrIn6) (p : ℕ), SubnetRight x p := by
  intro h
  have hnet := (h (new .little #v[0x24, 0x08, 0x87, 0x1a, 0x21, 0x00, 0x18, 0x6c, 0, 0, 0, 0xff,
    0xb0, 0x7e, 0x3f, 0xbc] 8080) 24).network (by decide)
  have hbyte := (networkRight_iff.mp hnet).2 3 (by decide)
  exact absurd hbyte (by decide)

end IPv6Address

end LoNetfw.Net
