import LoNetfw.Basis.BitCount
import LoNetfw.Basis.Multimap
import LoNetfw.Basis.StepSystem
import LoNetfw.Net.Address
import LoNetfw.Net.Ipv6Address
import LoNetfw.Util.LexicalCast

namespace LoNetfw.Net

open Basis Util

/-!
# `Address::getInterfaceAddresses`

The addresses of the interfaces of a host, each with the length of its subnet prefix: `countBytes`
counts the bits of the netmask, and what is found goes through a multimap from the names.

* `countBytes_eq` — the loop counts the bits that are set;
* `prefixLen_inet`, `prefixLen_inet6` — for a netmask it gives the length of the prefix, on either
  host;
* `interface_addresses` — the addresses of one interface, in the order of the kernel; an entry
  without an address, or without a netmask where one is read, ends the program;
* `netmask_back_iff` — the lengths for which `subnetMask` gives the netmask back.
-/

/-- `countBytes(val)`. -/
def countBytes {w : ℕ} (val : BitVec w) : ℕ :=
  if val = 0 then 0 else countBytes (val &&& (val - 1)) + 1
termination_by val.toNat
decreasing_by
  rename_i h
  exact and_pred_lt h

/-- One turn of the loop for each bit that is set. -/
theorem countBytes_eq {w : ℕ} (val : BitVec w) : countBytes val = (ones val).card := by
  fun_induction countBytes val with
  | case1 => rw [ones_zero, Finset.card_empty]
  | case2 val h ih =>
    obtain ⟨k, hk, hones⟩ := ones_and_pred h
    rw [ih, hones, Finset.card_erase_add_one hk]

/-- What `ifa_addr` points to, by its family, and `ifa_netmask`, which may be null. -/
inductive IfAddr
  | inet (x : SockaddrIn) (hx : x.family = IPv4Address.afInet) (netmask : Option (BitVec (8 * 4)))
  | inet6 (x : SockaddrIn6) (hx : x.family = IPv6Address.afInet6) (netmask : Option In6Addr)
  | other (family : ℕ) (h : family ≠ IPv4Address.afInet ∧ family ≠ IPv6Address.afInet6)
  deriving DecidableEq

/-- `struct ifaddrs`; `ifa_addr` may be null. -/
structure IfAddrs where
  name : Text
  addr : Option IfAddr
  deriving DecidableEq

/-- The code reads through a null `ifa_addr` or `ifa_netmask`. -/
inductive IfAddrFault
  | nullPointer
  deriving DecidableEq, Repr

/-- The objects that `Address::create` makes for the two families. -/
inductive IPAddress
  | ipv4 (x : SockaddrIn)
  | ipv6 (x : SockaddrIn6)
  deriving DecidableEq

namespace Address

/-- `AF_UNSPEC`. -/
def afUnspec : ℤ := 0

/-- `ifa_addr->sa_family`. -/
def saFamily : IfAddr → ℤ
  | .inet x _ _ => x.family
  | .inet6 x _ _ => x.family
  | .other family _ => family

/-- `a` and `prefix_len` after the `switch`; no address is added for other families. -/
def found : IfAddr → Except IfAddrFault (Option (IPAddress × ℕ))
  | .inet x _ (some netmask) => .ok (some (.ipv4 x, countBytes netmask))
  | .inet6 x _ (some netmask) =>
    .ok (some (.ipv6 x, (List.finRange 16).foldl
      (fun prefixLen i => prefixLen + countBytes (netmask.get i).toBitVec) 0))
  | .inet _ _ none | .inet6 _ _ none => .error .nullPointer
  | .other _ _ => .ok none

/-- `std::multimap<std::string, std::pair<Address::Ptr, uint32_t>>`. -/
abbrev Interfaces := Multimap fun e : Text × (IPAddress × ℕ) => textKey e.1

/-- One turn of the loop over the list. -/
def addInterface (family : ℤ) (addrs : Interfaces) (next : IfAddrs) :
    Except IfAddrFault Interfaces :=
  match next.addr with
  -- `ifa_addr->sa_family`, in the test or in the `switch`
  | none => .error .nullPointer
  | some addr =>
    if family ≠ afUnspec ∧ family ≠ saFamily addr then .ok addrs
    else
      match found addr with
      | .ok (some a) => .ok (addrs.insert (next.name, a))
      | .ok none => .ok addrs
      | .error e => .error e

/-- `getInterfaceAddresses(addrs, family)` for what `getifaddrs` lists; `none` is its error. -/
def getInterfaces (ifaddrs : Option (List IfAddrs)) (addrs : Interfaces) (family : ℤ) :
    Except IfAddrFault (Bool × Interfaces) :=
  match ifaddrs with
  | none => .ok (false, addrs)
  | some list => (list.foldlM (addInterface family) addrs).map fun addrs => (true, addrs)

/-- `getInterfaceAddresses(addrs, _interface, family)`. -/
def getInterfaceAddresses (host : Endian) (ifaddrs : Option (List IfAddrs))
    (addrs : List (IPAddress × ℕ)) (interface : Text) (family : ℤ) :
    Except IfAddrFault (Bool × List (IPAddress × ℕ)) :=
  if interface = [] ∨ interface = [42] then
    let addrs :=
      if family = afUnspec ∨ family = IPv4Address.afInet then
        addrs ++ [(.ipv4 (IPv4Address.new host 0 0), 0)]
      else addrs
    let addrs :=
      if family = afUnspec ∨ family = IPv6Address.afInet6 then
        addrs ++ [(.ipv6 (IPv6Address.new host (Vector.replicate 16 0) 0), 0)]
      else addrs
    .ok (true, addrs)
  else
    (getInterfaces ifaddrs .empty family).map fun
      | (false, _) => (false, addrs)
      | (true, results) => (true, addrs ++ (results.equalRange (textKey interface)).map Prod.snd)

/-! ### The range of an interface -/

/-- The family is asked for. -/
def Wanted (family : ℤ) (addr : IfAddr) : Prop := family = afUnspec ∨ family = saFamily addr

instance (family : ℤ) : DecidablePred (Wanted family) :=
  fun _ => inferInstanceAs (Decidable (_ ∨ _))

/-- The pointers that the loop reads through are not null: `ifa_addr`, and `ifa_netmask` for an
    address of a wanted family that has a netmask. -/
def Readable (family : ℤ) (next : IfAddrs) : Prop :=
  match next.addr with
  | none => False
  | some addr => Wanted family addr → ∃ a, found addr = .ok a

/-- What one entry adds to the multimap. -/
def contribution (family : ℤ) (next : IfAddrs) : Option (IPAddress × ℕ) :=
  match next.addr with
  | none => none
  | some addr =>
    if Wanted family addr then
      match found addr with
      | .ok a => a
      | .error _ => none
    else none

/-- What one entry contributes to the addresses of an interface. -/
def ofInterface (interface : Text) (family : ℤ) (next : IfAddrs) : Option (IPAddress × ℕ) :=
  if next.name = interface then contribution family next else none

/-- The loop without its faults. -/
def addFound (family : ℤ) (addrs : Interfaces) (next : IfAddrs) : Interfaces :=
  match contribution family next with
  | some a => addrs.insert (next.name, a)
  | none => addrs

/-- An entry that can be read is added if its family fits. -/
theorem addInterface_ok {family : ℤ} {next : IfAddrs} (h : Readable family next)
    (addrs : Interfaces) : addInterface family addrs next = .ok (addFound family addrs next) := by
  unfold Readable at h
  unfold addInterface addFound contribution
  cases haddr : next.addr with
  | none =>
    rw [haddr] at h
    exact h.elim
  | some addr =>
    rw [haddr] at h
    dsimp only
    -- the family filter skips an entry before its netmask is read
    by_cases hwanted : Wanted family addr
    · have hskip : ¬(family ≠ afUnspec ∧ family ≠ saFamily addr) := by
        rintro ⟨hunspec, hother⟩
        exact hwanted.elim hunspec hother
      obtain ⟨a, ha⟩ := h hwanted
      rw [if_neg hskip, if_pos hwanted, ha]
      cases a <;> rfl
    · rw [if_pos (not_or.mp hwanted), if_neg hwanted]

/-- Any other entry is dereferenced all the same. -/
theorem addInterface_error {family : ℤ} {next : IfAddrs} (h : ¬ Readable family next)
    (addrs : Interfaces) : addInterface family addrs next = .error .nullPointer := by
  unfold Readable at h
  unfold addInterface
  cases haddr : next.addr with
  -- the family is read through the null address
  | none => rfl
  | some addr =>
    rw [haddr] at h
    obtain ⟨hwanted, hnull⟩ := Classical.not_imp.mp h
    -- an entry that is not skipped has its netmask read
    have hskip : ¬(family ≠ afUnspec ∧ family ≠ saFamily addr) := by
      rintro ⟨hunspec, hother⟩
      exact hwanted.elim hunspec hother
    dsimp only
    rw [if_neg hskip]
    cases hfound : found addr with
    | ok a => exact absurd ⟨a, hfound⟩ hnull
    | error e => cases e; rfl

/-- **Step.** An entry of the list is added to the range of its name. -/
theorem equalRange_addFound (family : ℤ) (addrs : Interfaces) (next : IfAddrs)
    (interface : Text) :
    ((addFound family addrs next).equalRange (textKey interface)).map Prod.snd =
      (addrs.equalRange (textKey interface)).map Prod.snd ++
        (ofInterface interface family next).toList := by
  unfold addFound ofInterface
  cases contribution family next with
  | none => simp
  | some a =>
    dsimp only
    rw [Multimap.equalRange_insert, List.map_append, List.filter_cons]
    by_cases hname : next.name = interface
    · simp [hname]
    · simp [hname, textKey_injective.eq_iff]

/-- **Run.** The range of a name after the whole list. -/
theorem equalRange_foldl (family : ℤ) (interface : Text) (list : List IfAddrs)
    (addrs : Interfaces) :
    ((list.foldl (addFound family) addrs).equalRange (textKey interface)).map Prod.snd =
      (addrs.equalRange (textKey interface)).map Prod.snd ++
        list.filterMap (ofInterface interface family) := by
  induction list generalizing addrs with
  | nil => simp
  | cons next list ih =>
    rw [List.foldl_cons, ih, equalRange_addFound, List.append_assoc]
    congr 1
    rw [List.filterMap_cons]
    cases ofInterface interface family next <;> rfl

/-- **Interface addresses.**  Under a name, and when no entry makes the loop read through a null
    pointer, `getInterfaceAddresses` adds exactly the addresses of that interface with a wanted
    family, in the order of the kernel's list, and nothing if the list cannot be read.  One entry of
    any interface that has such a null pointer ends the program. -/
theorem interface_addresses (host : Endian) (ifaddrs : Option (List IfAddrs))
    (addrs : List (IPAddress × ℕ)) (interface : Text) (family : ℤ) (hempty : interface ≠ [])
    (hall : interface ≠ [42]) :
    ((∀ next ∈ ifaddrs.getD [], Readable family next) →
      getInterfaceAddresses host ifaddrs addrs interface family =
        .ok (ifaddrs.isSome,
          addrs ++ (ifaddrs.getD []).filterMap (ofInterface interface family))) ∧
    ((∃ next ∈ ifaddrs.getD [], ¬ Readable family next) →
      getInterfaceAddresses host ifaddrs addrs interface family = .error .nullPointer) := by
  unfold getInterfaceAddresses
  rw [if_neg (not_or.mpr ⟨hempty, hall⟩)]
  cases ifaddrs with
  -- `getifaddrs` has failed
  | none => exact ⟨fun _ => by simp [getInterfaces, Except.map], fun ⟨_, hnext, _⟩ => by cases hnext⟩
  | some list =>
    refine ⟨fun hread => ?_, fun ⟨next, hnext, hnull⟩ => ?_⟩
    -- the entries of the interface come back in the order of the kernel's list
    · have hrange := equalRange_foldl family interface list .empty
      have hnil : ((Multimap.empty : Interfaces).equalRange (textKey interface)).map Prod.snd = [] :=
        rfl
      rw [hnil, List.nil_append] at hrange
      have hfold : list.foldlM (addInterface family) .empty =
          .ok (list.foldl (addFound family) .empty) :=
        foldlM_eq_foldl (fun next hnext => addInterface_ok (hread next hnext)) _
      rw [getInterfaces, hfold]
      show Except.ok (true, addrs ++ _) = _
      rw [hrange]
      rfl
    -- the first null pointer ends the walk, whatever has been found by then
    · obtain ⟨e, he⟩ := foldlM_error (f := addInterface family) (P := Readable family)
        (fun _ h addrs => ⟨_, addInterface_ok h addrs⟩)
        (fun _ h addrs => ⟨_, addInterface_error h addrs⟩) hnext hnull .empty
      cases e
      rw [Option.getD_some] at he
      rw [getInterfaces, he]
      rfl

/-- The loopback interface of two, with two bits in its netmask. -/
theorem interface_addresses_loopback :
    getInterfaceAddresses .big
        (some [⟨ascii "eth0", some (.other 17 (by decide))⟩,
          ⟨ascii "lo", some (.inet (IPv4Address.new .big 0x7f000001 0) rfl (some 0xc0000000))⟩,
          ⟨ascii "eth0", some (.inet (IPv4Address.new .big 0x0a000001 0) rfl (some 0xffffff00))⟩])
        [] (ascii "lo") afUnspec =
      .ok (true, [(.ipv4 (IPv4Address.new .big 0x7f000001 0), 2)]) := by
  rw [(interface_addresses _ _ _ _ _ (by decide) (by decide)).1 (by simp [Readable, found])]
  have hcount : countBytes (0xc0000000 : BitVec (8 * 4)) = 2 := by
    rw [countBytes_eq]
    decide
  show Except.ok (true, [(IPAddress.ipv4 (IPv4Address.new .big 0x7f000001 0),
    countBytes (0xc0000000 : BitVec (8 * 4)))]) = _
  rw [hcount]

end Address

/-! ### Netmasks -/

/-- The bits of a swapped word are counted as well. -/
theorem card_ones_byteswap {n : ℕ} (x : BitVec (8 * n)) :
    (ones (byteswap x)).card = (ones x).card := by
  have hplace : ∀ {y : BitVec (8 * n)} {i : ℕ}, i ∈ ones (byteswap y) →
      8 * (n - 1 - i / 8) + i % 8 ∈ ones y := by
    intro y i hi
    rw [mem_ones] at hi ⊢
    rwa [← getLsbD_byteswap y (BitVec.lt_of_getLsbD hi)]
  have hback : ∀ i < 8 * n,
      8 * (n - 1 - (8 * (n - 1 - i / 8) + i % 8) / 8) + (8 * (n - 1 - i / 8) + i % 8) % 8 = i := by
    intro i hi
    omega
  -- the swap moves the bits by an involution of their places
  apply Finset.card_nbij' (fun i => 8 * (n - 1 - i / 8) + i % 8)
    (fun i => 8 * (n - 1 - i / 8) + i % 8)
  · exact fun i hi => hplace hi
  · intro i hi
    apply hplace
    rw [byteswap_byteswap]
    exact hi
  · exact fun i hi => hback i (BitVec.lt_of_getLsbD (mem_ones.mp hi))
  · exact fun i hi => hback i (BitVec.lt_of_getLsbD (mem_ones.mp hi))

/-- The prefix of an IPv4 netmask, on either host. -/
theorem prefixLen_inet (host : Endian) {p : ℕ} (hp : p ≤ 32) :
    countBytes (byteswapToBigEndian host (prefixMask (8 * 4) p)) = p := by
  rw [countBytes_eq]
  cases host with
  | little =>
    show (ones (byteswap (prefixMask (8 * 4) p))).card = p
    rw [card_ones_byteswap, card_ones_prefixMask hp]
  | big => exact card_ones_prefixMask hp

/-- The bits of an IPv6 netmask are counted byte by byte. -/
theorem prefixLen_inet6 (netmask : In6Addr) :
    (List.finRange 16).foldl
        (fun prefixLen i => prefixLen + countBytes (netmask.get i).toBitVec) 0 =
      (ones (IPv6Address.value netmask)).card := by
  have hbyte : ∀ (j : Fin 16) (k : ℕ), k < 8 → (netmask.get (Fin.revPerm j)).toBitVec.getLsbD k =
      (IPv6Address.value netmask).getLsbD (8 * j + k) := by
    intro j k hk
    have hrev : 15 - ((Fin.revPerm j : Fin 16) : ℕ) = j := by
      rw [Fin.revPerm_apply, Fin.val_rev]
      omega
    rw [← IPv6Address.getLsbD_value_byte netmask (Fin.revPerm j) hk, hrev]
  have hfold : ∀ (f : Fin 16 → ℕ) (l : List (Fin 16)) (n : ℕ),
      l.foldl (fun prefixLen i => prefixLen + f i) n = n + (l.map f).sum := by
    intro f l n
    induction l generalizing n with
    | nil => rfl
    | cons i l ih => rw [List.foldl_cons, ih, List.map_cons, List.sum_cons, Nat.add_assoc]
  rw [hfold, Nat.zero_add, ← Fin.sum_univ_def, card_ones_eq_sum hbyte,
    Equiv.sum_comp Fin.revPerm fun j => (ones (netmask.get j).toBitVec).card]
  exact Finset.sum_congr rfl fun j _ => countBytes_eq _

/-- The value of an address determines its bytes. -/
theorem IPv6Address.value_inj {a b : In6Addr} (h : value a = value b) : a = b := by
  apply Vector.ext
  intro i hi
  apply UInt8.toBitVec_inj.mp
  apply BitVec.eq_of_getLsbD_eq
  intro k hk
  exact (value_eq_iff.mp h ⟨i, hi⟩ k hk).trans (getLsbD_value_byte b ⟨i, hi⟩ hk)

/-- **Netmasks.**  For a netmask that is a prefix, its length is listed, and `subnetMask` gives the
    netmask back for an IPv4 prefix of two bits or more and an IPv6 prefix of less than 128. -/
theorem netmask_back_iff (host : Endian) {p q : ℕ} (hp : p ≤ 32) (hq : q ≤ 128)
    {m : BitVec (8 * 4)} (hm : byteswapToBigEndian host m = prefixMask (8 * 4) p) {n : In6Addr}
    (hn : IPv6Address.value n = prefixMask (8 * 16) q) {x : SockaddrIn} {y : SockaddrIn6}
    (hx : x.family = IPv4Address.afInet) (hy : y.family = IPv6Address.afInet6) :
    Address.found (.inet x hx (some m)) = .ok (some (.ipv4 x, p)) ∧
    Address.found (.inet6 y hy (some n)) = .ok (some (.ipv6 y, q)) ∧
    ((∃ z, IPv4Address.subnetMask host x p = .ok z ∧ z.addr = m) ↔ 2 ≤ p) ∧
    ((∃ z, IPv6Address.subnetMask y q = .ok (some z) ∧ z.addr = n) ↔ q < 128) := by
  refine ⟨?_, ?_, ?_, ?_⟩
  · have hmask : m = byteswapToBigEndian host (prefixMask (8 * 4) p) := by
      rw [← hm, byteswapToBigEndian_involutive]
    unfold Address.found
    dsimp only
    rw [hmask, prefixLen_inet host hp]
  · unfold Address.found
    dsimp only
    rw [prefixLen_inet6, hn, card_ones_prefixMask hq]
  · constructor
    · rintro ⟨z, hz, -⟩
      by_contra hlt
      obtain ⟨e, he⟩ := IPv4Address.createMask_of_lt_two (Nat.lt_of_not_le hlt)
      unfold IPv4Address.subnetMask at hz
      rw [he] at hz
      exact absurd hz (by simp [bind, Except.bind])
    · intro h
      refine ⟨_, IPv4Address.subnetMask_eq h hp, ?_⟩
      show ~~~byteswapToBigEndian host (~~~prefixMask (8 * 4) p) = m
      rw [byteswapToBigEndian_not, BitVec.not_not, ← hm, byteswapToBigEndian_involutive]
  · rw [← IPv6Address.maskRight_iff (x := y)]
    constructor
    · rintro ⟨z, hz, rfl⟩
      exact ⟨z, hz, hn⟩
    · rintro ⟨z, hz, hvalue⟩
      exact ⟨z, hz, IPv6Address.value_inj (hvalue.trans hn.symm)⟩

/-- The netmask of a network of eight bits, and the IPv6 netmask without a bit. -/
theorem netmask_back_loopback :
    Address.found (.inet (IPv4Address.new .big 0x7f000001 0) rfl (some 0xff000000)) =
      .ok (some (.ipv4 (IPv4Address.new .big 0x7f000001 0), 8)) ∧
    (∃ z, IPv4Address.subnetMask .big (IPv4Address.new .big 0x7f000001 0) 8 = .ok z ∧
      z.addr = 0xff000000) ∧
    ∃ z, IPv6Address.subnetMask (IPv6Address.new .big (Vector.replicate 16 0) 0) 0 = .ok (some z) ∧
      z.addr = Vector.replicate 16 0 := by
  have h := netmask_back_iff .big (p := 8) (q := 0) (m := 0xff000000)
    (n := Vector.replicate 16 0) (x := IPv4Address.new .big 0x7f000001 0)
    (y := IPv6Address.new .big (Vector.replicate 16 0) 0) (by decide) (by decide) (by decide)
    (by decide) rfl rfl
  exact ⟨h.1, h.2.2.1.mpr (by decide), h.2.2.2.mpr (by decide)⟩

end LoNetfw.Net
