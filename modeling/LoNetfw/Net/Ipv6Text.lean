import LoNetfw.Basis.Ipv6Text
import LoNetfw.Net.IpAddress
import LoNetfw.Net.Ipv6Address
import LoNetfw.Util.LexicalCast

namespace LoNetfw.Net

open Basis Basis.Ipv6Text Util UriParser UriGrammar
open scoped Computability

/-!
# `IPv6Address` — the text form

`insert` prints the eight groups of an address in one pass.  A flag says whether the `"::"` has been
printed; before that, zeros are left out, and the group behind them puts it.

* `IPv6Address.insert` — the loop and what is printed around it;
* `Printed`, `printed_step` — what is printed after some of the groups;
* `insert_eq` — the text of the groups, in brackets, and the port;
* `ipv6_text_faithful` — it is one of RFC 4291, is read back as the same address, and with the port
  tells the addresses apart.
-/

namespace IPv6Address

/-- `addr[i]`: two bytes of the address as an integer of the host. -/
def word (host : Endian) (addr : In6Addr) (i : ℕ) : BitVec (8 * 2) :=
  ofMemory host 2 ((addr.toList.drop (2 * i)).take 2)

/-- The value of a group, as it is printed. -/
def group (host : Endian) (addr : In6Addr) (i : ℕ) : ℕ :=
  (byteswapToBigEndian host (word host addr i)).toNat

/-- One turn of the loop: what is printed, and `use_zeros`. -/
def insertStep (host : Endian) (addr : In6Addr) (s : List UInt8 × Bool) (i : ℕ) :
    List UInt8 × Bool :=
  if word host addr i = 0 ∧ s.2 = false then s
  else
    let first := i ≠ 0 ∧ word host addr (i - 1) = 0 ∧ s.2 = false
    let os := if first then s.1 ++ [58] else s.1
    let os := if i ≠ 0 then os ++ [58] else os
    (os ++ hexText (group host addr i), s.2 || decide first)

/-- `insert(os)`, for a stream that prints decimal numbers. -/
def insert (host : Endian) (x : SockaddrIn6) : List UInt8 :=
  let port := byteswapToBigEndian host x.port
  let s := (List.range 8).foldl (insertStep host x.addr) ([91], false)
  let os := if s.2 = false ∧ word host x.addr 7 = 0 then s.1 ++ [58, 58] else s.1
  os ++ 93 :: 58 :: natText port.toNat

/-! ### The groups -/

variable (host : Endian) (addr : In6Addr)

/-- Zero is zero in either byte order. -/
theorem byteswapToBigEndian_zero : byteswapToBigEndian host (0 : BitVec (8 * 2)) = 0 := by
  cases host <;> decide

/-- The word in memory is zero exactly when the group is. -/
theorem word_eq_zero_iff (i : ℕ) : word host addr i = 0 ↔ group host addr i = 0 := by
  have hzero : group host addr i = 0 ↔ byteswapToBigEndian host (word host addr i) = 0 :=
    BitVec.toNat_inj (y := 0)
  rw [hzero]
  constructor
  · intro h
    rw [h, byteswapToBigEndian_zero]
  · intro h
    rw [← byteswapToBigEndian_involutive host (word host addr i), h, byteswapToBigEndian_zero]

/-- The groups do not depend on the host. -/
theorem groupBytes_group {i : ℕ} (hi : i < 8) :
    groupBytes (group host addr i) = (addr.toList.drop (2 * i)).take 2 := by
  have hlen : ((addr.toList.drop (2 * i)).take 2).length = 2 := by
    rw [List.length_take, List.length_drop, Vector.length_toList]
    omega
  -- on either host the group has its first byte high
  have hbig : byteswapToBigEndian host (word host addr i) =
      ofMemory .big 2 ((addr.toList.drop (2 * i)).take 2) := by
    rw [← swapFor_ofMemory host .big 2 hlen]
    cases host <;> rfl
  obtain ⟨a, b, hab⟩ := List.length_eq_two.mp hlen
  have ha := a.toNat_lt
  have hb := b.toNat_lt
  have hvalue : group host addr i = 256 * a.toNat + b.toNat := by
    unfold group
    rw [hbig, hab]
    show (b.toNat + 256 * (a.toNat + 256 * 0)) % 65536 = _
    omega
  have hhigh : (256 * a.toNat + b.toNat) / 256 = a.toNat := by omega
  have hlow : (256 * a.toNat + b.toNat).toUInt8 = b := by
    apply UInt8.toNat_inj.mp
    show (256 * a.toNat + b.toNat) % 256 = b.toNat
    omega
  rw [hvalue, hab, groupBytes, hhigh, hlow]
  exact congrArg (fun c => [c, b]) (UInt8.ofNat_toNat)

/-- A group has 16 bits. -/
theorem group_lt (i : ℕ) : group host addr i < 65536 := (byteswapToBigEndian host _).isLt

/-- The groups before the index `n`. -/
def groups (n : ℕ) : List ℕ := (List.range n).map (group host addr)

/-- The groups one after the other. -/
theorem groups_succ (n : ℕ) :
    groups host addr (n + 1) = groups host addr n ++ [group host addr n] := by
  unfold groups
  rw [List.range_succ, List.map_append, List.map_singleton]

/-- There are as many groups as asked for. -/
theorem length_groups (n : ℕ) : (groups host addr n).length = n := by
  unfold groups
  rw [List.length_map, List.length_range]

/-- The groups are the bytes of the address, two by two. -/
theorem flatMap_groups {n : ℕ} (hn : n ≤ 8) :
    (groups host addr n).flatMap groupBytes = addr.toList.take (2 * n) := by
  induction n with
  | zero => rfl
  | succ n ih =>
    rw [groups_succ, List.flatMap_append, ih (by omega), List.flatMap_singleton,
      groupBytes_group host addr hn, Nat.mul_succ, List.take_add]

/-- All eight of them are the address. -/
theorem toAddress_groups : toAddress ((groups host addr 8).flatMap groupBytes) = some addr := by
  have htake : addr.toList.take (2 * 8) = addr.toList :=
    List.take_of_length_le (by rw [Vector.length_toList])
  rw [flatMap_groups host addr le_rfl, htake]
  unfold toAddress
  rw [dif_pos Vector.length_toList]
  rfl

/-! ### The loop -/

/-- What is printed after some groups: all of them, those before a run of zeros, or these and the
    ones behind it. -/
inductive Printed : List ℕ → List UInt8 × Bool → Prop
  | all {gs : List ℕ} (h : 0 ∉ gs) : Printed gs (91 :: groupsText gs, false)
  | zeros {a : List ℕ} {m : ℕ} (hm : 0 < m) :
      Printed (a ++ List.replicate m 0) (91 :: groupsText a, false)
  | compressed {a : List ℕ} {m : ℕ} (hm : 0 < m) {b : List ℕ} (hb : b ≠ []) :
      Printed (a ++ List.replicate m 0 ++ b)
        (91 :: (groupsText a ++ 58 :: 58 :: groupsText b), true)

variable {host addr}

/-- A turn of the loop in terms of the groups. -/
theorem insertStep_eq (s : List UInt8 × Bool) (i : ℕ) : insertStep host addr s i =
    if group host addr i = 0 ∧ s.2 = false then s
    else if i ≠ 0 ∧ group host addr (i - 1) = 0 ∧ s.2 = false then
      (s.1 ++ [58] ++ [58] ++ hexText (group host addr i), true)
    else if i ≠ 0 then (s.1 ++ [58] ++ hexText (group host addr i), s.2)
    else (s.1 ++ hexText (group host addr i), s.2) := by
  unfold insertStep
  simp only [word_eq_zero_iff]
  -- a skipped zero, the first group behind the zeros, any other group
  by_cases hskip : group host addr i = 0 ∧ s.2 = false
  · rw [if_pos hskip, if_pos hskip]
  · rw [if_neg hskip, if_neg hskip]
    by_cases hfirst : i ≠ 0 ∧ group host addr (i - 1) = 0 ∧ s.2 = false
    · simp only [if_pos hfirst, if_pos hfirst.1, decide_eq_true hfirst, Bool.or_true]
    · by_cases hi : i ≠ 0
      · simp only [if_neg hfirst, if_pos hi, decide_eq_false hfirst, Bool.or_false]
      · simp only [if_neg hfirst, if_neg hi, decide_eq_false hfirst, Bool.or_false]

/-- **Step.** One group more. -/
theorem printed_step {n : ℕ} {s : List UInt8 × Bool} (h : Printed (groups host addr n) s) :
    Printed (groups host addr (n + 1)) (insertStep host addr s n) := by
  have hempty : n = 0 ↔ groups host addr n = [] := by
    rw [← List.length_eq_zero_iff, length_groups]
  -- the step looks back at the group before
  have hlast : n ≠ 0 → group host addr (n - 1) ∈ (groups host addr n).getLast? := by
    intro hn
    obtain ⟨k, rfl⟩ := Nat.exists_eq_succ_of_ne_zero hn
    rw [groups_succ, List.getLast?_concat]
    exact rfl
  rw [groups_succ, insertStep_eq]
  generalize groups host addr n = gs at h hempty hlast
  generalize group host addr n = g
  cases h with
  | all h =>
    by_cases hg : g = 0
    · -- the run of zeros begins
      rw [if_pos ⟨hg, rfl⟩, hg]
      exact .zeros Nat.one_pos
    · have hprev : ¬(n ≠ 0 ∧ group host addr (n - 1) = 0 ∧ false = false) := by
        rintro ⟨hn, hzero, -⟩
        exact h (hzero ▸ List.mem_of_getLast? (hlast hn))
      have hall : Printed (gs ++ [g]) (91 :: groupsText (gs ++ [g]), false) :=
        .all fun hmem => (List.mem_append.mp hmem).elim h fun h => hg (List.mem_singleton.mp h).symm
      rw [if_neg fun h => hg h.1, if_neg hprev]
      by_cases hn : n = 0
      · rw [hempty.mp hn, List.nil_append, groupsText_singleton] at hall
        rw [if_neg (not_not.mpr hn), hempty.mp hn]
        exact hall
      · rw [groupsText_concat (mt hempty.mpr hn)] at hall
        rw [if_pos hn, List.append_assoc]
        exact hall
  | @zeros a m hm =>
    by_cases hg : g = 0
    · rw [if_pos ⟨hg, rfl⟩, hg, List.append_assoc, ← List.replicate_succ']
      exact .zeros (Nat.succ_pos m)
    · -- the first group behind the run
      obtain ⟨k, rfl⟩ := Nat.exists_eq_succ_of_ne_zero hm.ne'
      have hn : n ≠ 0 := fun hn => absurd (hempty.mp hn) (by simp)
      have hzero : group host addr (n - 1) = 0 := by
        have := hlast hn
        rw [List.replicate_succ', ← List.append_assoc, List.getLast?_concat] at this
        exact (Option.some.inj this).symm
      have hfirst := Printed.compressed (a := a) hm (List.cons_ne_nil g [])
      rw [groupsText_singleton] at hfirst
      rw [if_neg fun h => hg h.1, if_pos ⟨hn, hzero, rfl⟩]
      simpa using hfirst
  -- `::` has been written: a zero is printed as any other group
  | @compressed a m hm b hb =>
    have hn : n ≠ 0 := fun hn => absurd (hempty.mp hn) (by simp [hb])
    have hmore := Printed.compressed (a := a) hm (List.concat_ne_nil g b)
    rw [groupsText_concat hb] at hmore
    rw [if_neg fun h => Bool.false_ne_true h.2.symm,
      if_neg fun h => Bool.false_ne_true h.2.2.symm, if_pos hn]
    simpa using hmore

/-- What is printed after the first groups. -/
theorem printed_loop (n : ℕ) :
    Printed (groups host addr n) ((List.range n).foldl (insertStep host addr) ([91], false)) := by
  induction n with
  | zero => exact .all List.not_mem_nil
  | succ n ih =>
    rw [List.range_succ, List.foldl_append]
    exact printed_step ih

/-- The text between the brackets is one for the groups. -/
theorem insert_eq (x : SockaddrIn6) : ∃ t, Writes (groups host x.addr 8) t ∧
    insert host x = 91 :: (t ++ 93 :: 58 :: natText (getPort host x).toNat) := by
  have h := @printed_loop host x.addr 8
  have hlast : group host x.addr 7 ∈ (groups host x.addr 8).getLast? := by
    rw [groups_succ, List.getLast?_concat]
    exact rfl
  unfold insert getPort
  simp only [word_eq_zero_iff]
  generalize groups host x.addr 8 = gs at h hlast ⊢
  generalize (List.range 8).foldl (insertStep host x.addr) ([91], false) = s at h ⊢
  cases h with
  | all h =>
    refine ⟨groupsText gs, .all gs, ?_⟩
    have hne : group host x.addr 7 ≠ 0 := fun hzero => h (hzero ▸ List.mem_of_getLast? hlast)
    rw [if_neg fun h => hne h.2, List.cons_append]
  | @zeros a m hm =>
    -- the zeros are the last groups
    obtain ⟨k, rfl⟩ := Nat.exists_eq_succ_of_ne_zero hm.ne'
    have hzero : group host x.addr 7 = 0 := by
      rw [List.replicate_succ', ← List.append_assoc, List.getLast?_concat] at hlast
      exact (Option.some.inj hlast).symm
    have hwrites := Writes.compressed a hm []
    rw [List.append_nil] at hwrites
    refine ⟨_, hwrites, ?_⟩
    rw [if_pos ⟨rfl, hzero⟩]
    simp [groupsText]
  | @compressed a m hm b hb =>
    refine ⟨_, .compressed a hm b, ?_⟩
    rw [if_neg fun h => Bool.false_ne_true h.1.symm, List.cons_append]

/-! ### The grammar -/

/-- A word of bytes of a class. -/
theorem mem_lang_pow {c : CharClass} {w : List UInt8} (h : ∀ b ∈ w, c.has b = true) :
    w ∈ c.lang ^ w.length := by
  induction w with
  | nil => exact Language.nil_mem_one
  | cons b w ih =>
    obtain ⟨hb, hw⟩ := List.forall_mem_cons.mp h
    rw [List.length_cons, pow_succ']
    exact CharClass.cons_mem_mul.mpr ⟨hb, ih hw⟩

/-- A digit that is printed is one that is read. -/
theorem has_hexDigit {d : ℕ} (h : d < 16) : xdigit.has (hexDigit d) = true := by
  interval_cases d <;> decide

/-- A printed group is a group of the grammar. -/
theorem hexText_mem_h16 {g : ℕ} (h : g < 65536) : hexText g ∈ h16 := by
  have hclass : ∀ b ∈ hexText g, xdigit.has b = true := by
    intro b hb
    obtain ⟨d, hd, rfl⟩ := digits_of_mem_hexText hb
    exact has_hexDigit hd
  have hpow := mem_lang_pow hclass
  have hpos := List.length_pos_iff.mpr (hexText_ne_nil g)
  have hle := length_hexText h
  generalize (hexText g).length = k at hpow hpos hle
  interval_cases k
  · rw [pow_one] at hpow
    exact .inl (.inl (.inl hpow))
  · exact .inl (.inl (.inr hpow))
  · exact .inl (.inr hpow)
  · exact .inr hpow

/-- The text of some groups is one of the grammar. -/
theorem groups_groupsText (v4 : Language UInt8) {gs : List ℕ} (h : ∀ g ∈ gs, g < 65536) :
    Groups v4 gs.length (groupsText gs) := by
  cases gs with
  | nil => exact .nil
  | cons g gs =>
    -- every group but the last one has its colon behind it
    have hsplit : ∃ a ∈ (h16 * colon.lang) ^ gs.length, ∃ c ∈ h16,
        groupsText (g :: gs) = a ++ c := by
      induction gs generalizing g with
      | nil =>
        rw [groupsText_singleton]
        exact ⟨[], Language.nil_mem_one, hexText g, hexText_mem_h16 (h g List.mem_cons_self), rfl⟩
      | cons g' gs ih =>
        obtain ⟨hg, hgs⟩ := List.forall_mem_cons.mp h
        obtain ⟨a, ha, c, hc, heq⟩ := ih g' hgs
        refine ⟨hexText g ++ [58] ++ a, ?_, c, hc, ?_⟩
        · rw [List.length_cons, pow_succ']
          exact Language.append_mem_mul (Language.append_mem_mul (hexText_mem_h16 hg)
            (CharClass.singleton_mem_lang (by decide))) ha
        · rw [groupsText_cons g (List.cons_ne_nil _ _), heq]
          simp
    obtain ⟨a, ha, c, hc, heq⟩ := hsplit
    rw [heq, List.length_cons]
    exact .h16 ha hc

/-- A text for eight groups is one of the RFC. -/
theorem mem_ipv6address_of_writes {gs : List ℕ} {t : List UInt8} (h : Writes gs t)
    (hlen : gs.length = 8) (hlt : ∀ g ∈ gs, g < 65536) : t ∈ Rfc3986.ipv6address := by
  rw [Rfc3986.ipv6address_eq]
  cases h with
  -- eight groups
  | all =>
    refine .inl ?_
    rw [← hlen]
    exact groups_groupsText _ hlt
  -- at most seven groups beside the `::`
  | @compressed a m hm b =>
    refine .inr ⟨a.length, b.length, groupsText a, groupsText b, ?_, ?_, ?_, rfl⟩
    · rw [List.length_append, List.length_append, List.length_replicate] at hlen
      show a.length + b.length ≤ 7
      omega
    · exact groups_groupsText 0
        fun g hg => hlt g (List.mem_append_left _ (List.mem_append_left _ hg))
    · exact groups_groupsText _ fun g hg => hlt g (List.mem_append_right _ hg)

/-- A text for some groups has no bracket. -/
theorem not_mem_of_writes {gs : List ℕ} {t : List UInt8} (h : Writes gs t) : 93 ∉ t := by
  intro hmem
  rcases mem_of_writes h hmem with heq | ⟨d, hd, heq⟩
  · exact absurd heq (by decide)
  · have hclass := has_hexDigit hd
    rw [← heq] at hclass
    exact absurd hclass (by decide)

/-- All groups have 16 bits. -/
theorem groups_lt (n : ℕ) : ∀ g ∈ groups host addr n, g < 65536 := by
  intro g hg
  obtain ⟨i, -, rfl⟩ := List.mem_map.mp hg
  exact group_lt host addr i

/-- Different numbers have different texts. -/
theorem natText_inj {m n : ℕ} (h : natText m = natText n) : m = n := by
  rw [← digitsValue_natText m, h, digitsValue_natText]

/-- The text of an IPv6 address is `'[' t "]:"` and the port, where `t` is a text form of the RFC
    with one `"::"` at most, and is read back as the same 16 bytes; the whole text determines the
    address and the port. -/
theorem ipv6_text_faithful (host : Endian) :
    (∀ x : SockaddrIn6, ∃ t,
      insert host x = 91 :: (t ++ 93 :: 58 :: natText (getPort host x).toNat) ∧
      t ∈ Rfc3986.ipv6address ∧ doubleColons t ≤ 1 ∧ parse t = some x.addr) ∧
    ∀ x y : SockaddrIn6, insert host x = insert host y ↔ x.addr = y.addr ∧ x.port = y.port := by
  -- the text is read back as the address
  have hread : ∀ (x : SockaddrIn6) (t : List UInt8), Writes (groups host x.addr 8) t →
      parse t = some x.addr := by
    intro x t ht
    rw [parse_of_writes ht (length_groups host x.addr 8) (groups_lt 8)]
    exact toAddress_groups host x.addr
  constructor
  · intro x
    obtain ⟨t, ht, heq⟩ := @insert_eq host x
    exact ⟨t, heq, mem_ipv6address_of_writes ht (length_groups host x.addr 8) (groups_lt 8),
      doubleColons_of_writes ht, hread x t ht⟩
  · intro x y
    obtain ⟨t, ht, hx⟩ := @insert_eq host x
    obtain ⟨u, hu, hy⟩ := @insert_eq host y
    constructor
    · intro h
      -- the closing bracket separates the address from the port
      rw [hx, hy] at h
      obtain ⟨htu, hport⟩ := append_cons_inj (not_mem_of_writes ht) (not_mem_of_writes hu)
        (List.cons.inj h).2
      have haddr : some x.addr = some y.addr := by
        rw [← hread x t ht, htu, hread y u hu]
      refine ⟨Option.some.inj haddr, ?_⟩
      have hget : getPort host x = getPort host y :=
        BitVec.toNat_inj.mp (natText_inj (List.cons.inj hport).2)
      rw [← byteswapToBigEndian_involutive host x.port,
        ← byteswapToBigEndian_involutive host y.port]
      exact congrArg (byteswapToBigEndian host) hget
    · rintro ⟨haddr, hport⟩
      unfold insert
      rw [haddr, hport]

/-- The loopback address and port 8080 are `"[::1]:8080"`. -/
example : insert .little (new .little #v[0, 0, 0, 0, 0, 0, 0, 0, 0, 0, 0, 0, 0, 0, 0, 1] 8080) =
    [91, 58, 58, 49, 93, 58, 56, 48, 56, 48] := by
  decide

end IPv6Address

end LoNetfw.Net
