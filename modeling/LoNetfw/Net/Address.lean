import LoNetfw.Basis.PrefixMask
import LoNetfw.Util.Codec

namespace LoNetfw.Net

open Basis Util

/-!
# `IPv4Address` — subnet arithmetic

`createMask` of `net/address.h` and the three subnet functions of `IPv4Address`.  The address
and the port are stored in network byte order; the mask is computed in host order and swapped.

* `createMask_eq` — the mask covers the host bits, unless the shift or the subtraction is
  undefined behaviour;
* `address_and`, `address_or`, `address_not` — swapped words combine as the words do;
* `broadcastRight_iff`, `maskRight_iff`, `networkRight_iff` — the inputs for which each function
  gives the word of the subnet: the last one keeps the host bits of the address;
* `subnet_arithmetic_iff` — the three functions together.
-/

/-- Undefined behaviour of `createMask`. -/
inductive MaskFault
  | wideShift
  | signedOverflow
  deriving DecidableEq, Repr

/-- `createMask<T>(bits)` for a `T` of `bytes` bytes. -/
def createMask (bytes bits : ℕ) : Except MaskFault (BitVec (8 * bytes)) :=
  -- the count is a `size_t`, but what is shifted is an `int`
  let count := wsub (8 * bytes) bits
  if 32 ≤ count then .error .wideShift
  -- `1 << 31` is not an `int` value, nor is one below it
  else if 2 ^ 31 ≤ 2 ^ count then .error .signedOverflow
  else .ok (BitVec.ofNat _ (2 ^ count - 1))

/-- `sockaddr_in`: `sin_port` and `sin_addr.s_addr` are in network byte order. -/
structure SockaddrIn where
  family : ℕ
  port : BitVec (8 * 2)
  addr : BitVec (8 * 4)
  deriving DecidableEq, Repr

namespace IPv4Address

/-- `AF_INET`. -/
def afInet : ℕ := 2

section Functions

variable (host : Endian)

/-- `IPv4Address(address, port)`. -/
def new (address : BitVec (8 * 4)) (port : BitVec (8 * 2)) : SockaddrIn where
  family := afInet
  port := byteswapToBigEndian host port
  addr := byteswapToBigEndian host address

/-- The address in host order, as `insert` prints it. -/
def address (x : SockaddrIn) : BitVec (8 * 4) := byteswapToBigEndian host x.addr

def getPort (x : SockaddrIn) : BitVec (8 * 2) := byteswapToBigEndian host x.port

/-- `broadcastAddress(prefix_len)`; `none` is a null pointer. -/
def broadcastAddress (x : SockaddrIn) (prefixLen : ℕ) : Except MaskFault (Option SockaddrIn) :=
  if prefixLen > 32 then .ok none
  else do
    let mask ← createMask 4 prefixLen
    return some { x with addr := x.addr ||| byteswapToBigEndian host mask }

/-- `networkAddress(prefix_len)`. -/
def networkAddress (x : SockaddrIn) (prefixLen : ℕ) : Except MaskFault (Option SockaddrIn) :=
  if prefixLen > 32 then .ok none
  else do
    let mask ← createMask 4 prefixLen
    return some { x with addr := x.addr &&& byteswapToBigEndian host mask }

/-- `subnetMask(prefix_len)`, which does not check its argument. -/
def subnetMask (x : SockaddrIn) (prefixLen : ℕ) : Except MaskFault SockaddrIn := do
  let mask ← createMask 4 prefixLen
  return { family := afInet, port := x.port, addr := ~~~byteswapToBigEndian host mask }

end Functions

end IPv4Address

/-! ### The mask -/

/-- The mask of the host bits, where the width leaves `int` room for it. -/
theorem createMask_eq {bytes bits : ℕ} (h : bits ≤ 8 * bytes) :
    createMask bytes bits =
      if 8 * bytes - bits < 31 then .ok (~~~prefixMask (8 * bytes) bits)
      else .error (if 8 * bytes - bits = 31 then .signedOverflow else .wideShift) := by
  unfold createMask
  rw [wsub_of_le h, not_prefixMask]
  simp only [Nat.pow_le_pow_iff_right (by decide : 1 < 2)]
  split_ifs <;> first | rfl | omega

namespace IPv4Address

variable {host : Endian} {x : SockaddrIn} {p : ℕ}

/-- From length 2 on the shift stays inside the type, and the mask is that of the host part. -/
theorem createMask_of_two_le (hp : 2 ≤ p) (hp' : p ≤ 32) :
    createMask 4 p = .ok (~~~prefixMask (8 * 4) p) := by
  rw [createMask_eq (by omega), if_pos (by omega)]

/-- Below two bits the mask is undefined behaviour. -/
theorem createMask_of_lt_two (hp : p < 2) : ∃ e, createMask 4 p = .error e := by
  rw [createMask_eq (by omega), if_neg (by omega)]
  exact ⟨_, rfl⟩

/-! ### Words in network order -/

/-- Setting bits in the stored word sets them in the address, on either host. -/
theorem address_or (m : BitVec (8 * 4)) :
    address host { x with addr := x.addr ||| byteswapToBigEndian host m } = address host x ||| m := by
  unfold address
  rw [byteswapToBigEndian_or, byteswapToBigEndian_involutive]

/-- Clearing bits in the stored word clears them in the address, on either host. -/
theorem address_and (m : BitVec (8 * 4)) :
    address host { x with addr := x.addr &&& byteswapToBigEndian host m } = address host x &&& m := by
  unfold address
  rw [byteswapToBigEndian_and, byteswapToBigEndian_involutive]

/-- The complement of a stored word is stored as the complement. -/
theorem address_not (family : ℕ) (port : BitVec (8 * 2)) (m : BitVec (8 * 4)) :
    address host ⟨family, port, ~~~byteswapToBigEndian host m⟩ = ~~~m := by
  unfold address
  rw [byteswapToBigEndian_not, byteswapToBigEndian_involutive]

/-! ### The three functions -/

/-- The stored word of the broadcast address: the host bits are set. -/
theorem broadcastAddress_eq (hp : 2 ≤ p) (hp' : p ≤ 32) :
    broadcastAddress host x p = .ok (some
      { x with addr := x.addr ||| byteswapToBigEndian host (~~~prefixMask (8 * 4) p) }) := by
  unfold broadcastAddress
  rw [if_neg (Nat.not_lt_of_le hp'), createMask_of_two_le hp hp']
  rfl

/-- The stored word of the network address: the mask is the complement of what it should be. -/
theorem networkAddress_eq (hp : 2 ≤ p) (hp' : p ≤ 32) :
    networkAddress host x p = .ok (some
      { x with addr := x.addr &&& byteswapToBigEndian host (~~~prefixMask (8 * 4) p) }) := by
  unfold networkAddress
  rw [if_neg (Nat.not_lt_of_le hp'), createMask_of_two_le hp hp']
  rfl

/-- The stored word of the mask. -/
theorem subnetMask_eq (hp : 2 ≤ p) (hp' : p ≤ 32) :
    subnetMask host x p
      = .ok ⟨afInet, x.port, ~~~byteswapToBigEndian host (~~~prefixMask (8 * 4) p)⟩ := by
  unfold subnetMask
  rw [createMask_of_two_le hp hp']
  rfl

/-- The call returns an object with this address and port. -/
def Gives (host : Endian) (r : Except MaskFault (Option SockaddrIn)) (a : BitVec (8 * 4))
    (port : BitVec (8 * 2)) : Prop :=
  ∃ y, r = .ok (some y) ∧ address host y = a ∧ getPort host y = port

/-- A result gives an address when both of its fields do. -/
theorem gives_ok {y : SockaddrIn} {a : BitVec (8 * 4)} {port : BitVec (8 * 2)} :
    Gives host (.ok (some y)) a port ↔ address host y = a ∧ getPort host y = port := by
  unfold Gives
  simp only [Except.ok.injEq, Option.some.injEq, exists_eq_left']

/-- A fault gives no address. -/
theorem not_gives_error {e : MaskFault} {a : BitVec (8 * 4)} {port : BitVec (8 * 2)} :
    ¬ Gives host (.error e) a port := by
  rintro ⟨y, hy, -⟩
  exact absurd hy (by simp)

/-- The broadcast address is right for every address, from two bits on. -/
theorem broadcastRight_iff (hp' : p ≤ 32) :
    Gives host (broadcastAddress host x p) (address host x ||| ~~~prefixMask (8 * 4) p)
      (getPort host x) ↔ 2 ≤ p := by
  by_cases hp : 2 ≤ p
  · rw [broadcastAddress_eq hp hp', gives_ok, address_or]
    exact iff_of_true ⟨rfl, rfl⟩ hp
  · obtain ⟨e, he⟩ := createMask_of_lt_two (Nat.lt_of_not_le hp)
    apply iff_of_false _ hp
    unfold broadcastAddress
    rw [if_neg (Nat.not_lt_of_le hp'), he]
    exact not_gives_error

/-- So is the subnet mask. -/
theorem maskRight_iff (hp' : p ≤ 32) :
    Gives host ((subnetMask host x p).map some) (prefixMask (8 * 4) p) (getPort host x) ↔
      2 ≤ p := by
  by_cases hp : 2 ≤ p
  · rw [subnetMask_eq hp hp']
    apply iff_of_true _ hp
    apply gives_ok.mpr
    rw [address_not, BitVec.not_not]
    exact ⟨rfl, rfl⟩
  · obtain ⟨e, he⟩ := createMask_of_lt_two (Nat.lt_of_not_le hp)
    apply iff_of_false _ hp
    unfold subnetMask
    rw [he]
    exact not_gives_error

/-- The network address has the host bits of the address in place of the others. -/
theorem networkRight_iff (hp' : p ≤ 32) :
    Gives host (networkAddress host x p) (address host x &&& prefixMask (8 * 4) p)
      (getPort host x) ↔ 2 ≤ p ∧ address host x = 0 := by
  by_cases hp : 2 ≤ p
  · rw [networkAddress_eq hp hp', gives_ok, address_and, and_not_eq_and_iff]
    constructor
    · exact fun h => ⟨hp, h.1⟩
    · exact fun h => ⟨h.2, rfl⟩
  · obtain ⟨e, he⟩ := createMask_of_lt_two (Nat.lt_of_not_le hp)
    apply iff_of_false _ (fun h => hp h.1)
    unfold networkAddress
    rw [if_neg (Nat.not_lt_of_le hp'), he]
    exact not_gives_error

/-! ### Subnets -/

/-- What a call returns, seen as an address. -/
def addressOf (host : Endian) (r : Except MaskFault (Option SockaddrIn)) :
    Except MaskFault (Option (BitVec (8 * 4))) :=
  r.map (Option.map (address host))

/-- The arithmetic of the subnet of an address with a prefix of `p` bits. -/
structure SubnetRight (host : Endian) (x : SockaddrIn) (p : ℕ) : Prop where
  network : Gives host (networkAddress host x p) (address host x &&& prefixMask (8 * 4) p)
    (getPort host x)
  broadcast : Gives host (broadcastAddress host x p) (address host x ||| ~~~prefixMask (8 * 4) p)
    (getPort host x)
  mask : Gives host ((subnetMask host x p).map some) (prefixMask (8 * 4) p) (getPort host x)
  /-- The address lies between the two. -/
  between : ∀ n b, networkAddress host x p = .ok (some n) → broadcastAddress host x p = .ok (some b) →
    address host n ≤ address host x ∧ address host x ≤ address host b
  /-- All addresses of the subnet share the two. -/
  shared : ∀ y, address host y &&& prefixMask (8 * 4) p = address host x &&& prefixMask (8 * 4) p →
    addressOf host (networkAddress host y p) = addressOf host (networkAddress host x p) ∧
    addressOf host (broadcastAddress host y p) = addressOf host (broadcastAddress host x p)

/-- The subnet of a single address. -/
theorem subnetRight_of_zero (hx : address host x = 0) : SubnetRight host x 32 where
  network := (networkRight_iff (Nat.le_refl 32)).mpr ⟨by decide, hx⟩
  broadcast := (broadcastRight_iff (Nat.le_refl 32)).mpr (by decide)
  mask := (maskRight_iff (Nat.le_refl 32)).mpr (by decide)
  between := by
    intro n b hn hb
    rw [networkAddress_eq (by decide) (Nat.le_refl 32), Except.ok.injEq, Option.some.injEq] at hn
    rw [broadcastAddress_eq (by decide) (Nat.le_refl 32), Except.ok.injEq, Option.some.injEq] at hb
    subst hn hb
    rw [address_and, address_or]
    exact ⟨and_le_self _ _, self_le_or _ _⟩
  shared := by
    intro y hy
    -- the subnet has no other address
    have hall : prefixMask (8 * 4) 32 = BitVec.allOnes (8 * 4) := prefixMask_self _
    rw [hall, BitVec.and_allOnes, BitVec.and_allOnes] at hy
    simp only [networkAddress_eq (by decide : 2 ≤ 32) (Nat.le_refl 32),
      broadcastAddress_eq (by decide : 2 ≤ 32) (Nat.le_refl 32), addressOf, Except.map, Option.map_some,
      address_and, address_or, hy, and_self]

/-- A network address with host bits is not shared: the address 0.0.0.1 keeps its own. -/
theorem not_shared_of_lt (hp : 2 ≤ p) (hp' : p < 32) (hx : address host x = 0) :
    ¬ SubnetRight host x p := by
  intro h
  -- 0.0.0.1 is in the subnet of 0.0.0.0, as its only bit is a host bit
  have hone : address host (new host 1 0) = 1 := byteswapToBigEndian_involutive host 1
  have hmask : (1#(8 * 4)) &&& prefixMask (8 * 4) p = 0#(8 * 4) := one_and_prefixMask hp'
  have hnet := (h.shared (new host 1 0) (by rw [hone, hx]; exact hmask.trans BitVec.zero_and.symm)).1
  simp only [networkAddress_eq hp (Nat.le_of_lt hp'), addressOf, Except.map, Option.map_some,
    address_and, hone, hx, Except.ok.injEq, Option.some.injEq] at hnet
  rw [show (1 : BitVec (8 * 4)) &&& ~~~prefixMask (8 * 4) p = 1 from and_not_of_and_eq_zero hmask] at hnet
  exact absurd hnet (by simp)

/-- **IPv4 subnets, exactly.** For every address and prefix length up to 32, on a host of either
    byte order: the broadcast address and the subnet mask are the words they should be, with
    the port, exactly from two bits on, as fewer bits are undefined behaviour; the network
    address only if moreover the address is 0.0.0.0; and all of the subnet arithmetic is right
    exactly for that address and 32 bits. -/
theorem subnet_arithmetic_iff (host : Endian) (x : SockaddrIn) (p : ℕ) (hp : p ≤ 32) :
    (Gives host (broadcastAddress host x p) (address host x ||| ~~~prefixMask (8 * 4) p)
      (getPort host x) ↔ 2 ≤ p) ∧
    (Gives host ((subnetMask host x p).map some) (prefixMask (8 * 4) p) (getPort host x) ↔ 2 ≤ p) ∧
    (Gives host (networkAddress host x p) (address host x &&& prefixMask (8 * 4) p)
      (getPort host x) ↔ 2 ≤ p ∧ address host x = 0) ∧
    (SubnetRight host x p ↔ p = 32 ∧ address host x = 0) := by
  refine ⟨broadcastRight_iff hp, maskRight_iff hp, networkRight_iff hp, ?_⟩
  constructor
  · intro h
    -- the three results are right together only for the whole word, and address 0
    obtain ⟨htwo, hx⟩ := (networkRight_iff hp).mp h.network
    refine ⟨?_, hx⟩
    by_contra hne
    exact not_shared_of_lt htwo (Nat.lt_of_le_of_ne hp hne) hx h
  · rintro ⟨rfl, hx⟩
    exact subnetRight_of_zero hx

/-- The prefix of 24 bits of 0.0.0.0: the network address is right, but not for all addresses of
    the subnet. -/
theorem subnet_arithmetic_iff_unspecified :
    Gives .little (networkAddress .little (new .little 0 8080) 24) 0 8080 ∧
    ¬ SubnetRight .little (new .little 0 8080) 24 := by
  obtain ⟨-, -, hnet, hall⟩ := subnet_arithmetic_iff .little (new .little 0 8080) 24 (by decide)
  exact ⟨hnet.mpr ⟨by decide, by decide⟩, fun h => absurd (hall.mp h).1 (by decide)⟩

/-- The network address of 127.0.0.1 with 24 bits is 0.0.0.1. -/
theorem loopback_network_wrong :
    ¬ ∀ (host : Endian) (x : SockaddrIn) (p : ℕ), p ≤ 32 → SubnetRight host x p := by
  intro h
  have hnet := (h .little (new .little 0x7f000001 8080) 24 (by decide)).network
  exact absurd ((networkRight_iff (by decide)).mp hnet).2 (by decide)

end IPv4Address

end LoNetfw.Net
