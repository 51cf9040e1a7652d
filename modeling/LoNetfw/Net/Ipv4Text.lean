import LoNetfw.Basis.Ipv6Text
import LoNetfw.Net.Address
import LoNetfw.Net.HostService
import LoNetfw.Net.Ipv6Text
import LoNetfw.Util.LexicalCast

namespace LoNetfw.Net

open Basis Basis.Ipv6Text Util

/-!
# `IPv4Address` — the text form, and texts as host strings

`insert` prints the four octets of the address in host order and the port behind a colon, `create`
reads the octets with `inet_pton`; what either of the two address classes prints may be handed to
`Address::parse` again.

* `readOctet_iff`, `readQuad_iff` — `inet_pton` takes the texts that a stream prints, and no
  others;
* `IPv4Address.insert_eq` — the octets are the bytes of the address in memory order;
* `create_iff_insert` — `create` gives an address exactly for the text that `insert` prints before
  the colon;
* `text_as_host` — the text of an IPv4 address is cut into node and service again, and gives the
  same address; that of an IPv6 address never is.
-/

/-! ### Octets -/

/-- A digit is read as what it was written for. -/
theorem digitValue_digitText {d : ℕ} (h : d < 10) : digitValue (digitText d) = some d := by
  interval_cases d <;> decide

/-- A digit of the base 10 is taken, and nothing else. -/
theorem addDigit_iff {n m : ℕ} {c : UInt8} :
    addDigit 10 n c = some m ↔ ∃ d < 10, c = digitText d ∧ m = 10 * n + d := by
  unfold addDigit
  rw [Option.map_eq_some_iff]
  constructor
  · rintro ⟨d, hd, rfl⟩
    obtain ⟨hvalue, hlt⟩ := Option.filter_eq_some_iff.mp hd
    have hd10 : d < 10 := of_decide_eq_true hlt
    refine ⟨d, hd10, ?_, rfl⟩
    unfold digitValue at hvalue
    split at hvalue
    · next hrange =>
      have hsub := Option.some.inj hvalue
      have hle : 48 ≤ c.toNat := hrange.1
      apply UInt8.toNat_inj.mp
      show c.toNat = (48 + d) % 256
      omega
    · split at hvalue
      · next hrange =>
        -- `a` to `f` are ten and more
        have hsub := Option.some.inj hvalue
        have hle : 97 ≤ c.toNat := hrange.1
        omega
      · split at hvalue
        · next hrange =>
          have hsub := Option.some.inj hvalue
          have hle : 65 ≤ c.toNat := hrange.1
          omega
        · exact absurd hvalue (Option.some_ne_none d).symm
  · rintro ⟨d, hd, rfl, rfl⟩
    refine ⟨d, ?_, rfl⟩
    rw [digitValue_digitText hd, Option.filter_some, if_pos (decide_eq_true hd)]

/-- The texts of digits, the last one first. -/
theorem readDigits_iff {w : List UInt8} {n : ℕ} :
    readDigits 10 w = some n ↔
      ∃ l : List ℕ, (∀ d ∈ l, d < 10) ∧ w = l.reverse.map digitText ∧ n = Nat.ofDigits 10 l := by
  -- from the end: a digit multiplies what stands before it
  induction w using List.reverseRecOn generalizing n with
  | nil =>
    constructor
    · intro h
      exact ⟨[], fun d hd => absurd hd List.not_mem_nil, rfl, (Option.some.inj h).symm⟩
    · rintro ⟨l, -, hw, rfl⟩
      have hl : l = [] := List.reverse_eq_nil_iff.mp (List.map_eq_nil_iff.mp hw.symm)
      rw [hl]
      rfl
  | append_singleton w c ih =>
    -- the last digit is the last step of the fold
    have hstep : readDigits 10 (w ++ [c]) = some n ↔
        ∃ m, readDigits 10 w = some m ∧ addDigit 10 m c = some n := by
      unfold readDigits
      rw [List.foldlM_append, Option.bind_eq_bind, Option.bind_eq_some_iff]
      simp only [List.foldlM_cons, List.foldlM_nil, Option.bind_eq_bind, Option.pure_def,
        Option.bind_fun_some]
    rw [hstep]
    constructor
    · rintro ⟨m, hm, hc⟩
      obtain ⟨l, hl, rfl, rfl⟩ := ih.mp hm
      obtain ⟨d, hd, rfl, rfl⟩ := addDigit_iff.mp hc
      refine ⟨d :: l, List.forall_mem_cons.mpr ⟨hd, hl⟩, ?_, ?_⟩
      · rw [List.reverse_cons, List.map_append, List.map_singleton]
      · rw [Nat.ofDigits_cons, Nat.add_comm]
    · rintro ⟨l, hl, hw, rfl⟩
      cases l with
      | nil => exact absurd hw (List.concat_ne_nil c w)
      | cons d l =>
        obtain ⟨hd, hl⟩ := List.forall_mem_cons.mp hl
        rw [List.reverse_cons, List.map_append, List.map_singleton] at hw
        obtain ⟨rfl, hc⟩ := List.append_inj' hw rfl
        refine ⟨Nat.ofDigits 10 l, ih.mpr ⟨l, hl, rfl, rfl⟩, addDigit_iff.mpr ⟨d, hd, ?_, ?_⟩⟩
        · exact (List.cons.inj hc).1
        · rw [Nat.ofDigits_cons, Nat.add_comm]

/-- A byte has at most three digits. -/
theorem length_natText {n : ℕ} (h : n < 256) : (natText n).length ≤ 3 := by
  unfold natText
  split
  · decide
  · rw [List.length_map, List.length_reverse]
    exact (Nat.digits_length_le_iff (by decide) n).mpr (by omega)

/-- Only zero is written as `0`. -/
theorem digitText_eq_48_iff {d : ℕ} (h : d < 10) : digitText d = 48 ↔ d = 0 := by
  interval_cases d <;> decide

/-- A number begins with a zero only if it is zero. -/
theorem head_natText {n : ℕ} (h : (natText n).head? = some 48) : natText n = [48] := by
  unfold natText at h ⊢
  split at h
  · next hn => rw [if_pos hn]
  · next hn =>
    have hne := Nat.digits_ne_nil_iff_ne_zero (b := 10).mpr hn
    rw [List.head?_map, List.head?_reverse, List.getLast?_eq_some_getLast hne,
      Option.map_some] at h
    have hlt := Nat.digits_lt_base (b := 10) (by decide) (List.getLast_mem hne)
    exact absurd ((digitText_eq_48_iff hlt).mp (Option.some.inj h))
      (Nat.getLast_digit_ne_zero 10 hn)

/-- `inet_pton` takes an octet exactly as a stream prints it. -/
theorem readOctet_iff {w : List UInt8} {b : UInt8} :
    readOctet w = some b ↔ w = natText b.toNat := by
  unfold readOctet
  constructor
  · intro h
    split at h
    · exact absurd h (Option.some_ne_none b).symm
    · next hguard =>
      obtain ⟨hne, hrest⟩ := not_or.mp hguard
      obtain ⟨-, hzero⟩ := not_or.mp hrest
      obtain ⟨n, hn, rfl⟩ := Option.map_eq_some_iff.mp h
      obtain ⟨hread, hlt⟩ := Option.filter_eq_some_iff.mp hn
      obtain ⟨l, hl, rfl, rfl⟩ := readDigits_iff.mp hread
      have hvalue : (Nat.ofDigits 10 l).toUInt8.toNat = Nat.ofDigits 10 l :=
        Nat.mod_eq_of_lt (of_decide_eq_true hlt)
      have hlne : l ≠ [] := fun hnil => hne (by rw [hnil]; rfl)
      rw [hvalue]
      by_cases hlast : l.getLast hlne = 0
      · -- a leading zero is the whole text
        have hhead : (l.reverse.map digitText).head? = some 48 := by
          rw [List.head?_map, List.head?_reverse, List.getLast?_eq_some_getLast hlne, hlast]
          rfl
        have hsingle : l.reverse.map digitText = [48] := not_not.mp fun h => hzero ⟨hhead, h⟩
        have hlen : l.length = 1 := by
          have := congrArg List.length hsingle
          rwa [List.length_map, List.length_reverse] at this
        obtain ⟨d, rfl⟩ := List.length_eq_one_iff.mp hlen
        obtain rfl : d = 0 := hlast
        rfl
      -- without a leading zero the digits are those of the number
      · have hdigits : Nat.digits 10 (Nat.ofDigits 10 l) = l :=
          Nat.digits_ofDigits 10 (by decide) l hl fun _ => hlast
        have hn0 : Nat.ofDigits 10 l ≠ 0 := fun h0 => hlne (by rw [← hdigits, h0]; rfl)
        rw [natText, if_neg hn0, hdigits]
  · rintro rfl
    -- what is printed has one to three digits and no leading zero
    have hguard : ¬(natText b.toNat = [] ∨ 3 < (natText b.toNat).length ∨
        (natText b.toNat).head? = some 48 ∧ natText b.toNat ≠ [48]) := by
      rintro (h | h | ⟨hhead, h⟩)
      · exact natText_ne_nil _ h
      · exact absurd (length_natText b.toNat_lt) (Nat.not_le.mpr h)
      · exact h (head_natText hhead)
    have hread : readDigits 10 (natText b.toNat) = some b.toNat := by
      rw [readDigits_iff]
      by_cases hb : b.toNat = 0
      · exact ⟨[0], by decide, by rw [hb]; rfl, by rw [hb]; rfl⟩
      · refine ⟨Nat.digits 10 b.toNat, fun d hd => Nat.digits_lt_base (by decide) hd, ?_,
          (Nat.ofDigits_digits 10 _).symm⟩
        rw [natText, if_neg hb]
    rw [if_neg hguard, hread, Option.filter_some, if_pos (decide_eq_true b.toNat_lt),
      Option.map_some]
    exact congrArg some (UInt8.ofNat_toNat)

/-- Four octets with dots between them. -/
def quadText (bytes : List UInt8) : Text := [46].intercalate (bytes.map fun b => natText b.toNat)

/-- Four octets are read exactly when each is written as it would be printed. -/
theorem mapM_readOctet_iff {ws : List (List UInt8)} {bs : List UInt8} :
    ws.mapM readOctet = some bs ↔ ws = bs.map fun b => natText b.toNat := by
  induction ws generalizing bs with
  | nil =>
    constructor
    · intro h
      rw [← Option.some.inj h]
      rfl
    · intro h
      rw [List.map_eq_nil_iff.mp h.symm]
      rfl
  | cons w ws ih =>
    rw [List.mapM_cons]
    simp only [Option.bind_eq_bind, Option.bind_eq_some_iff, Option.pure_def, Option.some.injEq]
    constructor
    · rintro ⟨b, hb, bs', hbs, rfl⟩
      rw [readOctet_iff.mp hb, ih.mp hbs]
      rfl
    · intro h
      obtain ⟨b, bs', rfl, hb, hbs⟩ := List.map_eq_cons_iff.mp h.symm
      exact ⟨b, readOctet_iff.mpr hb.symm, bs', ih.mpr hbs.symm, rfl⟩

/-- Numbers have no dot, colon or zero byte in them. -/
theorem dot_not_mem_natText (n : ℕ) : 46 ∉ natText n ∧ 58 ∉ natText n ∧ 0 ∉ natText n := by
  refine ⟨?_, ?_, ?_⟩ <;> intro h <;> exact absurd (isDigit_natText h) (by decide)

/-- `inet_pton(AF_INET, …)` takes a quad exactly as `insert` prints it. -/
theorem readQuad_iff {w bs : List UInt8} :
    readQuad w = some bs ↔ bs.length = 4 ∧ w = quadText bs := by
  unfold readQuad
  -- no octet holds a dot, so the cut gives back the octets
  have hsplit : ∀ bs : List UInt8, bs.length = 4 →
      (quadText bs).splitOn 46 = bs.map fun b => natText b.toNat := by
    intro bs hlen
    apply List.splitOn_intercalate
    · intro l hl
      obtain ⟨b, -, rfl⟩ := List.mem_map.mp hl
      exact (dot_not_mem_natText b.toNat).1
    · intro hnil
      rw [List.map_eq_nil_iff.mp hnil] at hlen
      exact absurd hlen (by decide)
  constructor
  · intro h
    split at h
    · next hfour =>
      have hws := mapM_readOctet_iff.mp h
      refine ⟨?_, ?_⟩
      · rw [hws, List.length_map] at hfour
        exact hfour
      · unfold quadText
        rw [← hws]
        exact (List.intercalate_splitOn 46).symm
    · exact absurd h (Option.some_ne_none bs).symm
  · rintro ⟨hlen, rfl⟩
    rw [hsplit bs hlen, List.length_map, if_pos hlen]
    exact mapM_readOctet_iff.mpr rfl

/-- A C string ends in front of its first zero byte. -/
theorem Address.zero_not_mem_cString {s : List UInt8} {start : ℕ} : 0 ∉ cString s start := by
  intro h
  exact absurd (List.mem_takeWhile_imp h) (by decide)

namespace IPv4Address

variable (host : Endian)

/-- `(addr >> k) & 0xff`. -/
def octet (addr : BitVec (8 * 4)) (k : ℕ) : ℕ := (addr >>> k &&& 0xff#(8 * 4)).toNat

/-- `insert(os)`, for a stream that prints decimal numbers. -/
def insert (x : SockaddrIn) : Text :=
  let addr := byteswapToBigEndian host x.addr
  let port := byteswapToBigEndian host x.port
  natText (octet addr 24) ++ 46 :: (natText (octet addr 16) ++ 46 :: (natText (octet addr 8) ++
    46 :: (natText (octet addr 0) ++ 58 :: natText port.toNat)))

/-- `create(address, port)`; `none` is a null pointer. -/
def create (text : Text) (port : BitVec (8 * 2)) : Option SockaddrIn :=
  (readQuad (Address.cString text 0)).map fun bytes =>
    { new host 0 port with addr := ofMemory host 4 bytes }

/-- An octet of an address by division. -/
theorem octet_eq (addr : BitVec (8 * 4)) (k : ℕ) : octet addr k = addr.toNat / 2 ^ k % 256 := by
  unfold octet
  rw [BitVec.toNat_and, BitVec.toNat_ushiftRight, Nat.shiftRight_eq_div_pow]
  exact Nat.and_two_pow_sub_one_eq_mod _ 8

/-- The octets are the bytes of the address, on either host. -/
theorem insert_eq (x : SockaddrIn) : insert host x =
    quadText (toMemory host 4 x.addr) ++ 58 :: natText (getPort host x).toNat := by
  have hlen := length_toMemory host 4 x.addr
  have hswap := swapFor_ofMemory host .big 4 hlen
  rw [ofMemory_toMemory] at hswap
  -- on either host the four bytes are taken with the first one highest
  have hbig : byteswapToBigEndian host x.addr = ofMemory .big 4 (toMemory host 4 x.addr) := by
    rw [← hswap]
    cases host <;> rfl
  generalize toMemory host 4 x.addr = bytes at hlen hbig ⊢
  obtain ⟨a, b, c, d, rfl⟩ := List.length_eq_four.mp hlen
  have ha := a.toNat_lt
  have hb := b.toNat_lt
  have hc := c.toNat_lt
  have hd := d.toNat_lt
  have hvalue : (byteswapToBigEndian host x.addr).toNat =
      d.toNat + 256 * (c.toNat + 256 * (b.toNat + 256 * a.toNat)) := by
    rw [hbig]
    show (d.toNat + 256 * (c.toNat + 256 * (b.toNat + 256 * (a.toNat + 256 * 0)))) % 2 ^ 32 = _
    omega
  -- the shifts take one byte each
  have h24 : octet (byteswapToBigEndian host x.addr) 24 = a.toNat := by
    rw [octet_eq, hvalue]
    omega
  have h16 : octet (byteswapToBigEndian host x.addr) 16 = b.toNat := by
    rw [octet_eq, hvalue]
    omega
  have h8 : octet (byteswapToBigEndian host x.addr) 8 = c.toNat := by
    rw [octet_eq, hvalue]
    omega
  have h0 : octet (byteswapToBigEndian host x.addr) 0 = d.toNat := by
    rw [octet_eq, hvalue]
    omega
  unfold insert
  dsimp only
  rw [h24, h16, h8, h0]
  simp [quadText, getPort, List.intercalate_cons_cons]

/-- Dots and digits only. -/
theorem mem_quadText {bytes : List UInt8} {c : UInt8} (h : c ∈ quadText bytes) :
    c = 46 ∨ isDigit c = true := by
  -- octet by octet, with a dot before each but the first
  induction bytes with
  | nil => exact absurd h List.not_mem_nil
  | cons b bytes ih =>
    cases bytes with
    | nil =>
      have hone : quadText [b] = natText b.toNat := List.intercalate_singleton
      rw [hone] at h
      exact Or.inr (isDigit_natText h)
    | cons b' bytes =>
      have hcons : quadText (b :: b' :: bytes) =
          natText b.toNat ++ 46 :: quadText (b' :: bytes) := by
        unfold quadText
        rw [List.map_cons, List.map_cons, List.intercalate_cons_cons, List.append_assoc]
        rfl
      rw [hcons, List.mem_append, List.mem_cons] at h
      rcases h with h | h | h
      · exact Or.inr (isDigit_natText h)
      · exact Or.inl h
      · exact ih h

/-- An address in four octets has no colon, zero byte or bracket in it. -/
theorem not_mem_quadText (bytes : List UInt8) :
    58 ∉ quadText bytes ∧ 0 ∉ quadText bytes ∧ 91 ∉ quadText bytes := by
  refine ⟨?_, ?_, ?_⟩ <;> intro h <;> rcases mem_quadText h with h | h <;>
    exact absurd h (by decide)

/-- The text of an address makes the address again. -/
theorem create_quadText (x : SockaddrIn) (hfamily : x.family = afInet) :
    create host (quadText (toMemory host 4 x.addr)) (getPort host x) = some x := by
  have hstring : Address.cString (quadText (toMemory host 4 x.addr)) 0 =
      quadText (toMemory host 4 x.addr) :=
    Address.cString_self_iff.mpr (not_mem_quadText _).2.1
  unfold create
  rw [hstring, readQuad_iff.mpr ⟨length_toMemory host 4 x.addr, rfl⟩, Option.map_some,
    ofMemory_toMemory]
  unfold new getPort
  rw [byteswapToBigEndian_involutive, ← hfamily]

/-- **Text round trip.**  `create` gives an address exactly for the text that `insert` prints
    before the colon, up to the first zero byte. -/
theorem create_iff_insert (text : Text) (port : BitVec (8 * 2)) (x : SockaddrIn) :
    create host text port = some x ↔
      x.family = afInet ∧
        insert host x = Address.cString text 0 ++ 58 :: natText port.toNat := by
  rw [insert_eq]
  constructor
  · intro h
    obtain ⟨bytes, hbytes, rfl⟩ := Option.map_eq_some_iff.mp h
    obtain ⟨hlen, htext⟩ := readQuad_iff.mp hbytes
    have hport : getPort host (new host 0 port) = port := byteswapToBigEndian_involutive host port
    refine ⟨rfl, ?_⟩
    show quadText (toMemory host 4 (ofMemory host 4 bytes)) ++
      58 :: natText (getPort host (new host 0 port)).toNat = _
    rw [hport, htext, toMemory_ofMemory host hlen]
  · rintro ⟨hfamily, heq⟩
    -- the last colon is the one before the port
    have hnat : natText (getPort host x).toNat = natText port.toNat :=
      append_cons_inj_right (dot_not_mem_natText _).2.1 (dot_not_mem_natText _).2.1 heq
    rw [hnat] at heq
    have hquad := List.append_cancel_right heq
    have hget : getPort host x = port := BitVec.toNat_inj.mp (IPv6Address.natText_inj hnat)
    have hcreate := create_quadText host x hfamily
    rw [hquad, hget] at hcreate
    unfold create at hcreate ⊢
    rwa [Address.cString_self_iff.mpr Address.zero_not_mem_cString] at hcreate

/-- The address 127.0.0.1 with port 80 is `"127.0.0.1:80"`. -/
example : insert .little (new .little 0x7f000001 80) =
    [49, 50, 55, 46, 48, 46, 48, 46, 49, 58, 56, 48] := by
  decide

end IPv4Address

/-- `IPv6Address::create(address, port)`; `none` is a null pointer. -/
def IPv6Address.create (host : Endian) (text : Text) (port : BitVec (8 * 2)) :
    Option SockaddrIn6 :=
  (parse (Address.cString text 0)).map fun addr => new host addr port

/-! ### Texts as host strings -/

/-- Nothing that begins with a bracket is an IPv4 address. -/
theorem readQuad_bracket (t : List UInt8) : readQuad (91 :: t) = none := by
  rw [Option.eq_none_iff_forall_ne_some]
  intro bs h
  exact (IPv4Address.not_mem_quadText bs).2.2 ((readQuad_iff.mp h).2 ▸ List.mem_cons_self)

/-- Nor are groups. -/
theorem readGroups_bracket (quad : Bool) (t : List UInt8) (ws : List (List UInt8)) :
    readGroups quad ((91 :: t) :: ws) = none := by
  have hgroup : readGroup (91 :: t) = none := by
    unfold readGroup
    split
    · rfl
    · rfl
  cases ws with
  | nil =>
    unfold readGroups
    split
    · exact readQuad_bracket t
    · exact hgroup
  | cons w ws =>
    unfold readGroups
    rw [hgroup]
    rfl

/-- Nor is a side of a double colon. -/
theorem readSide_bracket (quad : Bool) (t : List UInt8) : readSide quad (91 :: t) = none := by
  obtain ⟨w, ws, hsplit⟩ := List.exists_cons_of_ne_nil (List.splitOn_ne_nil (58 : UInt8) t)
  unfold readSide
  rw [if_neg (List.cons_ne_nil 91 t), List.splitOn_cons_eq_if_modifyHead, hsplit]
  exact readGroups_bracket quad w ws

/-- A text with a bracket in front is no IPv6 address. -/
theorem parse_bracket (t : List UInt8) : parse (91 :: t) = none := by
  unfold parse
  have hdouble : splitDouble (91 :: t) = (splitDouble t).map fun p => (91 :: p.1, p.2) := rfl
  rw [hdouble]
  cases splitDouble t with
  | none =>
    show (readSide true (91 :: t)).bind toAddress = none
    rw [readSide_bracket]
    rfl
  | some p =>
    show ((readSide false (91 :: p.1)).bind _ : Option _) = none
    rw [readSide_bracket]
    rfl

/-- **Texts as host strings.**  `parse` cuts the text of an IPv4 address before and behind its
    colon, and the node is read back as the same address.  The text of an IPv6 address leaves its
    opening bracket on the node, which is an address of neither family then. -/
theorem text_as_host (host : Endian) :
    (∀ address port, ∃ node,
      Address.getaddrinfoArgs (IPv4Address.insert host (IPv4Address.new host address port)) =
        (node, some (natText port.toNat)) ∧
      IPv4Address.create host node port = some (IPv4Address.new host address port)) ∧
    ∀ address port, ∃ t,
      Address.getaddrinfoArgs (IPv6Address.insert host (IPv6Address.new host address port)) =
        (91 :: t, some (natText port.toNat)) ∧
      IPv6Address.create host t port = some (IPv6Address.new host address port) ∧
      ∀ p, IPv4Address.create host (91 :: t) p = none ∧
        IPv6Address.create host (91 :: t) p = none := by
  constructor
  · intro address port
    have hport : IPv4Address.getPort host (IPv4Address.new host address port) = port :=
      byteswapToBigEndian_involutive host port
    have hcreate := IPv4Address.create_quadText host (IPv4Address.new host address port) rfl
    rw [IPv4Address.insert_eq]
    rw [hport] at hcreate ⊢
    generalize hbytes : toMemory host 4 (IPv4Address.new host address port).addr = bytes at *
    refine ⟨quadText bytes, ?_, hcreate⟩
    -- the dotted text has no colon, zero or bracket: the colon before the port is the only one
    obtain ⟨hcolon, hzero, hbracket⟩ := IPv4Address.not_mem_quadText bytes
    obtain ⟨-, hportColon, hportZero⟩ := dot_not_mem_natText port.toNat
    have hne : quadText bytes ≠ [] := by
      intro hnil
      rw [hnil] at hcreate
      exact absurd hcreate (Option.some_ne_none _).symm
    have hend : Address.endIpv6 (quadText bytes ++ 58 :: natText port.toNat) = none := by
      unfold Address.endIpv6
      rw [if_neg]
      rw [List.head?_append_of_ne_nil _ hne]
      exact fun h => hbracket (List.mem_of_head? h)
    rw [Address.args_one_colon hend hne hcolon hportColon, Address.cString_self_iff.mpr hzero,
      Address.cString_self_iff.mpr hportZero]
  · intro address port
    obtain ⟨t, ht, hinsert⟩ :=
      @IPv6Address.insert_eq host (IPv6Address.new host address port)
    have hport : IPv6Address.getPort host (IPv6Address.new host address port) = port :=
      byteswapToBigEndian_involutive host port
    -- between the brackets stand colons and hexadecimal digits only
    have hnot : ∀ c, c ≠ 58 → (∀ d < 16, c ≠ hexDigit d) → c ∉ t := by
      intro c hcolon hdigit hc
      rcases mem_of_writes ht hc with rfl | ⟨d, hd, rfl⟩
      · exact hcolon rfl
      · exact hdigit d hd rfl
    have hzero : 0 ∉ t := hnot 0 (by decide) (by decide)
    have hzero' : 0 ∉ 91 :: t := List.not_mem_cons_of_ne_of_not_mem (by decide) hzero
    have hread : parse t = some address := by
      rw [parse_of_writes ht (IPv6Address.length_groups host _ 8) (IPv6Address.groups_lt 8)]
      exact IPv6Address.toAddress_groups host address
    -- the node keeps its `[`, which neither family reads
    refine ⟨t, ?_, ?_, fun p => ⟨?_, ?_⟩⟩
    · rw [hinsert, hport, Address.args_bracketed (IPv6Address.not_mem_of_writes ht),
        List.head?_cons, if_pos rfl, Address.cString_self_iff.mpr hzero']
      have hservice : Address.cString (58 :: natText port.toNat) 1 =
          Address.cString (natText port.toNat) 0 := Address.cString_append [58] _
      rw [hservice, Address.cString_self_iff.mpr (dot_not_mem_natText _).2.2]
    · unfold IPv6Address.create
      rw [Address.cString_self_iff.mpr hzero, hread]
      rfl
    · unfold IPv4Address.create
      rw [Address.cString_self_iff.mpr hzero', readQuad_bracket]
      rfl
    · unfold IPv6Address.create
      rw [Address.cString_self_iff.mpr hzero', parse_bracket]
      rfl

end LoNetfw.Net
