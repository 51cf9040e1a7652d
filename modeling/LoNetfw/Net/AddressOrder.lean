import LoNetfw.Basis.ByteOrder
import LoNetfw.Net.Address
import LoNetfw.Net.HostService
import LoNetfw.Net.Ipv6Address
import LoNetfw.Net.Socket
import LoNetfw.Util.Yaml

namespace LoNetfw.Net

open Basis Util

/-!
# `Address` — comparison, and `UnixAddress`

The three operators compare the bytes of the `sockaddr` with `memcmp`, up to the length that the
object reports.

* `AddressBytes` — what `getAddr` and `getAddrLen` give;
* `operatorLt_iff`, `operatorEq_iff` — the order of the byte strings, and their equality;
* `address_order` — this is a total order, in which IPv4 addresses come by port and then by number
  on every host, and before all IPv6 addresses;
* `UnixAddress.unix_path` — the paths that fit, the texts they are printed as, and which of them
  are equal.
-/

/-- The memory behind `getAddr()`, and `getAddrLen()`. -/
structure AddressBytes where
  mem : List UInt8
  len : ℕ
  inside : len ≤ mem.length

namespace AddressBytes

def operatorLt (x val : AddressBytes) : Bool :=
  match memcmp (min x.len val.len) x.mem val.mem with
  | .lt => true
  | .gt => false
  | .eq => decide (x.len < val.len)

def operatorEq (x val : AddressBytes) : Bool :=
  x.len == val.len && memcmp x.len x.mem val.mem == .eq

def operatorNe (x val : AddressBytes) : Bool := !x.operatorEq val

/-- The bytes that count. -/
def bytes (x : AddressBytes) : List UInt8 := x.mem.take x.len

variable {x y : AddressBytes}

/-- The bytes that are compared are as many as `getAddrLen` says. -/
theorem length_bytes : x.bytes.length = x.len := by
  unfold bytes
  rw [List.length_take, Nat.min_eq_left x.inside]

/-- `memcmp` looks at no byte behind the length. -/
theorem memcmp_bytes {n : ℕ} (hx : n ≤ x.len) (hy : n ≤ y.len) :
    memcmp n x.mem y.mem = memcmp n x.bytes y.bytes := (memcmp_take hx hy x.mem y.mem).symm

/-- `operator<` is the lexicographic order of the bytes. -/
theorem operatorLt_iff : x.operatorLt y = true ↔ byteKey x.bytes < byteKey y.bytes := by
  rw [← memcmp_lt_iff, length_bytes, length_bytes]
  unfold operatorLt
  rw [memcmp_bytes (Nat.min_le_left _ _) (Nat.min_le_right _ _)]
  cases memcmp (min x.len y.len) x.bytes y.bytes <;> simp

/-- `operator==` is equality of the bytes. -/
theorem operatorEq_iff : x.operatorEq y = true ↔ x.bytes = y.bytes := by
  unfold operatorEq
  rw [Bool.and_eq_true, beq_iff_eq, beq_iff_eq]
  constructor
  · rintro ⟨hlen, heq⟩
    rw [memcmp_bytes le_rfl hlen.le, ← length_bytes] at heq
    exact (memcmp_eq_iff (by rw [length_bytes, length_bytes, hlen])).mp heq
  · intro h
    have hlen : x.len = y.len := by rw [← length_bytes, ← length_bytes, h]
    refine ⟨hlen, ?_⟩
    rw [memcmp_bytes le_rfl hlen.le, ← length_bytes]
    exact (memcmp_eq_iff (by rw [length_bytes, length_bytes, hlen])).mpr h

end AddressBytes

/-! ### Addresses of the two families -/

/-- The integer in network byte order. -/
theorem toMemory_byteswapToBigEndian (host : Endian) {n : ℕ} (x : BitVec (8 * n)) :
    toMemory host n (byteswapToBigEndian host x) = toMemory .big n x := by
  have hswap : byteswapToBigEndian host x = swapFor host .big x := by
    cases host <;> rfl
  rw [hswap, toMemory_swapFor]

/-- In network byte order integers are ordered as numbers. -/
theorem toMemory_big_lt_iff {n : ℕ} {x y : BitVec (8 * n)} :
    byteKey (toMemory .big n x) < byteKey (toMemory .big n y) ↔ x.toNat < y.toNat := by
  have hvalue : ∀ z : BitVec (8 * n), ofLE (toMemory .big n z).reverse = z.toNat := by
    intro z
    show ofLE (toLE n z.toNat).reverse.reverse = z.toNat
    rw [List.reverse_reverse, ofLE_toLE, pow_256, Nat.mod_eq_of_lt z.isLt]
  rw [← hvalue x, ← hvalue y]
  exact lt_iff_ofLE (by rw [length_toMemory, length_toMemory])

/-- A word is determined by its bytes in memory. -/
theorem toMemory_inj {e : Endian} {n : ℕ} {x y : BitVec (8 * n)} :
    toMemory e n x = toMemory e n y ↔ x = y := by
  constructor
  · intro h
    rw [← ofMemory_toMemory e n x, h, ofMemory_toMemory]
  · rintro rfl
    rfl

/-- `sockaddr_in`; `sin_zero` is zero. -/
def IPv4Address.memory (host : Endian) (x : SockaddrIn) : List UInt8 :=
  toMemory host 2 (BitVec.ofNat _ x.family) ++ (toMemory host 2 x.port ++
    (toMemory host 4 x.addr ++ List.replicate 8 0))

/-- `sizeof(sockaddr_in)`. -/
theorem IPv4Address.length_memory (host : Endian) (x : SockaddrIn) :
    (memory host x).length = 16 := by
  unfold memory
  simp only [List.length_append, length_toMemory, List.length_replicate]

def IPv4Address.addressBytes (host : Endian) (x : SockaddrIn) : AddressBytes where
  mem := memory host x
  len := 16
  inside := (length_memory host x).ge

/-- `sockaddr_in6`. -/
def IPv6Address.memory (host : Endian) (x : SockaddrIn6) : List UInt8 :=
  toMemory host 2 (BitVec.ofNat _ x.family) ++ (toMemory host 2 x.port ++
    (toMemory host 4 x.flowinfo ++ (x.addr.toList ++ toMemory host 4 x.scopeId)))

/-- `sizeof(sockaddr_in6)`. -/
theorem IPv6Address.length_memory (host : Endian) (x : SockaddrIn6) :
    (memory host x).length = 28 := by
  unfold memory
  simp only [List.length_append, length_toMemory, Vector.length_toList]

def IPv6Address.addressBytes (host : Endian) (x : SockaddrIn6) : AddressBytes where
  mem := memory host x
  len := 28
  inside := (length_memory host x).ge

variable (host : Endian)

/-- The bytes of a new object: only the family depends on the host. -/
theorem IPv4Address.bytes_new (address : BitVec (8 * 4)) (port : BitVec (8 * 2)) :
    (addressBytes host (new host address port)).bytes =
      toMemory host 2 (BitVec.ofNat _ afInet) ++ (toMemory .big 2 port ++
        (toMemory .big 4 address ++ List.replicate 8 0)) := by
  rw [← toMemory_byteswapToBigEndian host port, ← toMemory_byteswapToBigEndian host address]
  exact List.take_of_length_le (length_memory host (new host address port)).le

/-- The bytes of a new object: the flow information and the scope are zero. -/
theorem IPv6Address.bytes_new (address : In6Addr) (port : BitVec (8 * 2)) :
    (addressBytes host (new host address port)).bytes =
      toMemory host 2 (BitVec.ofNat _ afInet6) ++ (toMemory .big 2 port ++
        (toMemory host 4 0 ++ (toMemory .big 16 (value address) ++ toMemory host 4 0))) := by
  have haddr : toMemory .big 16 (value address) = address.toList :=
    toMemory_ofMemory .big Vector.length_toList
  rw [← toMemory_byteswapToBigEndian host port, haddr]
  exact List.take_of_length_le (length_memory host (new host address port)).le

/-- An IPv4 object for an address and a port. -/
abbrev IPv4Address.object (address : BitVec (8 * 4)) (port : BitVec (8 * 2)) : AddressBytes :=
  addressBytes host (new host address port)

/-- An IPv6 object. -/
abbrev IPv6Address.object (address : In6Addr) (port : BitVec (8 * 2)) : AddressBytes :=
  addressBytes host (new host address port)

/-- No object is before itself. -/
theorem not_byteKey_lt_self (w : List UInt8) : ¬ byteKey w < byteKey w := lt_irrefl _

/-- A family below another one on either host. -/
theorem family_lt : byteKey (toMemory host 2 (BitVec.ofNat _ IPv4Address.afInet)) <
    byteKey (toMemory host 2 (BitVec.ofNat _ IPv6Address.afInet6)) := by
  cases host <;> decide

/-- Strings of one part each that are ordered by it, with the same part before them. -/
theorem lt_append_left_iff {u x y : List UInt8} :
    byteKey (u ++ x) < byteKey (u ++ y) ↔ byteKey x < byteKey y := by
  rw [lt_append_iff rfl]
  exact ⟨fun h => (h.resolve_left (not_byteKey_lt_self u)).2, fun h => Or.inr ⟨rfl, h⟩⟩

/-- **Comparison.**  `<` is the lexicographic order of the bytes and `==` their equality, so that
    `<` is a strict total order.  Addresses of one family come by port, then by number, and IPv4
    addresses before IPv6 addresses, on either host. -/
theorem address_order (host : Endian) :
    (∀ x y : AddressBytes, (x.operatorLt y = true ↔ byteKey x.bytes < byteKey y.bytes) ∧
      (x.operatorEq y = true ↔ x.bytes = y.bytes) ∧
      (x.operatorNe y = true ↔ x.operatorLt y = true ∨ y.operatorLt x = true)) ∧
    (∀ a b p q, (IPv4Address.object host a p).operatorLt (IPv4Address.object host b q) = true ↔
      p.toNat < q.toNat ∨ p = q ∧ a.toNat < b.toNat) ∧
    (∀ a b p q, (IPv6Address.object host a p).operatorLt (IPv6Address.object host b q) = true ↔
      p.toNat < q.toNat ∨
        p = q ∧ (IPv6Address.value a).toNat < (IPv6Address.value b).toNat) ∧
    ∀ a b p q,
      (IPv4Address.object host a p).operatorLt (IPv6Address.object host b q) = true := by
  -- words of one size have as many bytes, so a difference in the first field decides
  have hlen : ∀ {n : ℕ} {e : Endian} (x y : BitVec (8 * n)),
      (toMemory e n x).length = (toMemory e n y).length := by
    intro n e x y
    rw [length_toMemory, length_toMemory]
  refine ⟨fun x y => ⟨AddressBytes.operatorLt_iff, AddressBytes.operatorEq_iff, ?_⟩, ?_, ?_, ?_⟩
  · have hne : x.operatorNe y = true ↔ ¬ x.bytes = y.bytes := by
      unfold AddressBytes.operatorNe
      rw [← AddressBytes.operatorEq_iff, Bool.not_eq_true, Bool.not_eq_true']
    rw [hne, AddressBytes.operatorLt_iff, AddressBytes.operatorLt_iff, ← byteKey_inj]
    exact ne_iff_lt_or_gt
  · intro a b p q
    rw [AddressBytes.operatorLt_iff, IPv4Address.bytes_new, IPv4Address.bytes_new,
      lt_append_left_iff, lt_append_iff (hlen p q), lt_append_iff (hlen a b), toMemory_big_lt_iff,
      toMemory_big_lt_iff, toMemory_inj]
    -- the zero bytes behind the address never decide
    have hzeros := not_byteKey_lt_self (List.replicate 8 0)
    tauto
  · intro a b p q
    rw [AddressBytes.operatorLt_iff, IPv6Address.bytes_new, IPv6Address.bytes_new,
      lt_append_left_iff, lt_append_iff (hlen p q), lt_append_left_iff,
      lt_append_iff (hlen (IPv6Address.value a) (IPv6Address.value b)), toMemory_big_lt_iff,
      toMemory_big_lt_iff, toMemory_inj]
    have hscope := not_byteKey_lt_self (toMemory host 4 0)
    tauto
  · intro a b p q
    rw [AddressBytes.operatorLt_iff, IPv4Address.bytes_new, IPv6Address.bytes_new,
      lt_append_iff (hlen _ _)]
    -- the families differ, and nothing behind them is looked at
    exact Or.inl (family_lt host)

/-! ### `UnixAddress` -/

namespace UnixAddress

/-- `m_addr_len` for a path, as a `socklen_t`. -/
def addrLen (path : List UInt8) : ℕ :=
  let len := (path.length + 1) % 2 ^ 32
  if path.head? = some 0 then (len + (2 ^ 32 - 1)) % 2 ^ 32 else len

/-- `sockaddr_un` after the first `len` bytes of the path have been copied. -/
def memory (path : List UInt8) (len : ℕ) : List UInt8 :=
  toMemory host 2 (BitVec.ofNat _ afUnix) ++
    ((path ++ [0]).take len ++ List.replicate (108 - len) 0)

/-- No more is reported than the path and the zero byte behind it. -/
theorem addrLen_le (path : List UInt8) : addrLen path ≤ path.length + 1 := by
  unfold addrLen
  dsimp only
  split
  · omega
  · exact Nat.mod_le _ _

/-- The structure holds the family and all the bytes that are reported. -/
theorem length_memory (path : List UInt8) :
    2 + addrLen path ≤ (memory host path (addrLen path)).length := by
  have hle := addrLen_le path
  unfold memory
  rw [List.length_append, List.length_append, length_toMemory, List.length_take,
    List.length_append, List.length_singleton]
  omega

def object (path : List UInt8) : AddressBytes where
  mem := memory host path (addrLen path)
  len := 2 + addrLen path
  inside := length_memory host path

/-- `UnixAddress(path)`; `none` is the exception. -/
def create (path : List UInt8) : Option AddressBytes :=
  if 108 < addrLen path then none else some (object host path)

/-- `insert(os)`; two bytes of the `sockaddr_un` are before the path. -/
def insert (x : AddressBytes) : List UInt8 :=
  if 2 < x.len ∧ x.mem[2]? = some 0 then [92, 48] ++ (x.mem.drop 3).take (x.len - 3)
  else Address.cString x.mem 2

/-- The part of the path that counts: with a zero byte in front its length is its own, and else
    the zero byte behind it belongs to it. -/
def name (path : List UInt8) : List UInt8 := if path.head? = some 0 then path else path ++ [0]

variable {path q : List UInt8}

/-- Its length is what `addrLen` says. -/
theorem length_name (h : path.length + 1 < 2 ^ 32) : (name path).length = addrLen path := by
  unfold name addrLen
  dsimp only
  split
  · next hhead =>
    have hne : path ≠ [] := fun h => absurd hhead (by simp [h])
    have hpos := List.length_pos_iff.mpr hne
    omega
  · rw [List.length_append, List.length_singleton, Nat.mod_eq_of_lt h]

/-- Of a path and its zero byte the name is the part below the length. -/
theorem take_addrLen (h : path.length + 1 < 2 ^ 32) :
    (path ++ [0]).take (addrLen path) = name path := by
  rw [← length_name h]
  unfold name
  split
  · exact List.take_left
  · exact List.take_length

/-- Two paths have one name if they are equal, or if one is empty and the other a zero byte. -/
theorem name_inj : name path = name q ↔
    path = q ∨ path = [] ∧ q = [0] ∨ path = [0] ∧ q = [] := by
  -- with a zero byte in front of one only, the other is empty
  have hone : ∀ {u v : List UInt8}, u.head? = some 0 → v.head? ≠ some 0 →
      (u = v ++ [0] ↔ u = [0] ∧ v = []) := by
    intro u v hu hv
    constructor
    · rintro rfl
      cases v with
      | nil => exact ⟨rfl, rfl⟩
      | cons b v => exact absurd hu hv
    · rintro ⟨rfl, rfl⟩
      rfl
  unfold name
  by_cases hp : path.head? = some 0
  · rw [if_pos hp]
    have hpne : path ≠ [] := fun h => absurd hp (by simp [h])
    by_cases hq : q.head? = some 0
    · rw [if_pos hq]
      have hqne : q ≠ [] := fun h => absurd hq (by simp [h])
      simp [hpne, hqne]
    · rw [if_neg hq, hone hp hq]
      have hne : path ≠ q := fun h => hq (h ▸ hp)
      simp [hne, hpne]
  · rw [if_neg hp]
    by_cases hq : q.head? = some 0
    · rw [if_pos hq, eq_comm, hone hq hp]
      have hne : path ≠ q := fun h => hp (h ▸ hq)
      have hqne : q ≠ [] := fun h => absurd hq (by simp [h])
      simp [hne, hqne, and_comm]
    · rw [if_neg hq, List.append_left_inj]
      have hpne : path ≠ [0] := fun h => absurd rfl (h ▸ hp)
      have hqne : q ≠ [0] := fun h => absurd rfl (h ▸ hq)
      simp [hpne, hqne]

/-- What is created has the family and the name in front. -/
theorem of_create (h : path.length + 1 < 2 ^ 32) {x : AddressBytes}
    (hx : create host path = some x) :
    x.len = 2 + (name path).length ∧ ∃ rest, x.mem =
      toMemory host 2 (BitVec.ofNat _ afUnix) ++ (name path ++ rest) := by
  unfold create at hx
  split at hx
  · exact absurd hx (by simp)
  · cases hx
    refine ⟨congrArg (2 + ·) (length_name h).symm, List.replicate (108 - addrLen path) 0, ?_⟩
    show memory host path (addrLen path) = _
    unfold memory
    rw [take_addrLen h]

/-- The bytes of an object of a path that fits. -/
theorem bytes_of_create (h : path.length + 1 < 2 ^ 32) {x : AddressBytes}
    (hx : create host path = some x) :
    x.bytes = toMemory host 2 (BitVec.ofNat _ afUnix) ++ name path := by
  obtain ⟨hlen, rest, hmem⟩ := of_create host h hx
  unfold AddressBytes.bytes
  rw [hmem, hlen, ← List.append_assoc]
  exact List.take_left' (by rw [List.length_append, length_toMemory])

/-- What is read stops at the zero byte behind the path. -/
theorem takeWhile_append_zero (w r : List UInt8) :
    (w ++ 0 :: r).takeWhile (· != 0) = w.takeWhile (· != 0) := by
  induction w with
  | nil => rfl
  | cons b w ih => rw [List.cons_append, List.takeWhile_cons, List.takeWhile_cons, ih]

/-- An abstract name is printed with `\\0` for its first byte, and any other path up to its first
    zero. -/
theorem insert_of_create (h : path.length + 1 < 2 ^ 32) {x : AddressBytes}
    (hx : create host path = some x) :
    insert x = if path.head? = some 0 ∨ path = [] then 92 :: 48 :: path.tail
      else path.takeWhile (· != 0) := by
  obtain ⟨hlen, rest, hmem⟩ := of_create host h hx
  obtain ⟨f, g, hfamily⟩ := List.length_eq_two.mp (length_toMemory host 2 (BitVec.ofNat _ afUnix))
  rw [hfamily] at hmem
  unfold insert Address.cString
  rw [hlen, hmem]
  -- the empty path gets the one zero byte of a path that begins with zero
  cases path with
  | nil => simp [name]
  | cons b path =>
    by_cases hb : b = 0
    · subst hb
      -- an abstract path: `operator<<` prints what is behind its zero
      have hlen : 2 + (path.length + 1) - 3 = path.length := by omega
      simp [name, hlen]
    -- a path of the file system ends at its first zero
    · have hcut := takeWhile_append_zero (b :: path) rest
      simpa [name, hb] using hcut

/-- **Paths.**  A path fits if its name has at most 108 bytes; the object prints an abstract path,
    and the empty one, behind `"\0"`, and any other up to its first zero byte; two objects are
    equal exactly if their paths are, or if these are the empty path and a single zero byte. -/
theorem unix_path (host : Endian) {path q : List UInt8} (h : path.length + 1 < 2 ^ 32)
    (hq : q.length + 1 < 2 ^ 32) :
    (create host path = none ↔ 108 < (name path).length) ∧
    ∀ x, create host path = some x →
      insert x = (if path.head? = some 0 ∨ path = [] then 92 :: 48 :: path.tail
        else path.takeWhile (· != 0)) ∧
      ∀ y, create host q = some y → (x.operatorEq y = true ↔
        path = q ∨ path = [] ∧ q = [0] ∨ path = [0] ∧ q = []) := by
  refine ⟨?_, fun x hx => ⟨insert_of_create host h hx, fun y hy => ?_⟩⟩
  · rw [length_name h]
    unfold create
    split
    · next hlong => exact iff_of_true rfl hlong
    · next hfits => exact iff_of_false (by simp) hfits
  -- the bytes are the family and the name, so the names decide
  · rw [AddressBytes.operatorEq_iff, bytes_of_create host h hx, bytes_of_create host hq hy,
      List.append_right_inj, name_inj]

/-- The objects for a path with a zero byte in front and for one without. -/
theorem unix_path_two :
    insert (object .little [0, 97]) = [92, 48, 97] ∧
      ((object .little [0, 97]).operatorEq (object .little [97]) = true ↔ False) := by
  have hfirst : create .little [0, 97] = some (object .little [0, 97]) := if_neg (by decide)
  have hsecond : create .little [97] = some (object .little [97]) := if_neg (by decide)
  have h := @unix_path .little [0, 97] [97] (by decide) (by decide)
  refine ⟨(h.2 _ hfirst).1, ((h.2 _ hfirst).2 _ hsecond).trans (iff_false_intro (by decide))⟩

end UnixAddress

end LoNetfw.Net
