import LoNetfw.Net.UriGrammar

namespace LoNetfw.Net

open Basis Basis.Equations UriParser UriGrammar
open scoped Computability

/-!
# What may still follow — the nonterminals behind the states of the machine

The machine loses its mark before the action `save_path` runs when the authority ends with a colon
and no port.  To say which inputs lead there, the states are labelled with *items*: places in a
URI with a scheme, from which on an authority with an empty port may still come.

* `Item` — the places: in the scheme, in the userinfo or the host, in the groups of an IPv6
  address, in the octets of an IPv4 address, in the path after the empty port;
* `Item.lang` — what may follow from a place, in terms of the grammar;
* `items` — the system of right-linear equations of the places, and that `Item.lang` solves it.

The generator has merged a dotted address with the registered names, which it looks like, except
for the octets with a byte `2`.  So outside of brackets the machine follows a dotted address only
as long as such an octet may still come (`Place.unseen`) or after it has come (`Place.seen`).
-/

/-! ### Items -/

/-- The three ways the groups of an IPv6 address are counted: before a `::`, after a `::` with
    groups before it, and after a `::` at the very beginning. -/
inductive Mode where
  | pre
  | exact
  | upTo
  deriving DecidableEq

/-- Where a dotted address stands: in a host before or after an octet with a byte `2`, or inside
    of brackets. -/
inductive Place where
  | unseen
  | seen
  | inside
  deriving DecidableEq

/-- What is left of an octet: all of it, nothing, up to one or two digits, what follows a `2` or
    `25`, and the last two or the last character of one with a byte `2`. -/
inductive Octet where
  | start
  | done
  | upto1
  | upto2
  | two
  | five
  | ctrl1
  | ctrl2
  deriving DecidableEq

/-- The place after a byte `2`. -/
def Place.saw : Place → Place
  | .unseen => .seen
  | p => p

/-- The places of a URI.  The argument of `ui`, `reg` and `path` counts the digits of a
    percent-encoding that are left; `start m n` stands before a group when `n` groups are left,
    `group m n r` in one that may have `r` more digits; `octets p n o` in an octet that `n` others
    follow. -/
inductive Item where
  | scheme0
  | scheme
  | slash2
  | slash1
  | ui (pct : ℕ)
  | reg (pct : ℕ)
  | hostEnd
  | path0
  | path (pct : ℕ)
  | any
  | bracket
  | close
  | first
  | colon1
  | tail
  | start (m : Mode) (n : ℕ)
  | group (m : Mode) (n r : ℕ)
  | octets (p : Place) (n : ℕ) (o : Octet)
  | version0
  | version
  | future0
  | future
  deriving DecidableEq

/-! ### Their languages -/

/-- The octets with no byte `2` in front. -/
def plainOctet : Language UInt8 :=
  digit.lang + (CharClass.range 49 57).lang * digit.lang + d1.lang * digit.lang ^ 2 +
    d2.lang * d5.lang * d0to5.lang

/-- What may follow in an octet that has begun. -/
def Octet.rest : Octet → Language UInt8
  | .start => plainOctet
  | .done => 1
  | .upto1 => 1 + digit.lang
  | .upto2 => 1 + digit.lang * (1 + digit.lang)
  | .two => 1 + (digitNo5.lang + d5.lang * (1 + d0to5.lang))
  | .five => 1 + d0to5.lang
  | .ctrl1 => d0to4.lang * digit.lang
  | .ctrl2 => digit.lang

namespace Item

/-- After the path: nothing, or a query or fragment and whatever follows. -/
def pathEnd : Language UInt8 := 1 + (questionMark ||| hashSign).lang * ⊤

/-- After the host: the colon of an empty port and a path. -/
def emptyPort : Language UInt8 := colon.lang * (pathAbempty * pathEnd)

/-- After an IP literal without its closing bracket. -/
def closing : Language UInt8 := rbracket.lang * emptyPort

/-- The octets with the byte `2` in front. -/
def ctrlOctet : Language UInt8 := byteTwo.lang * (d0to4.lang * digit.lang)

/-- After an octet that `n` others follow. -/
def afterOctet : ℕ → Place → Language UInt8
  | 0, .unseen => 0
  | 0, .seen => emptyPort
  | 0, .inside => closing
  | n + 1, p => dot.lang * (plainOctet * afterOctet n p + ctrlOctet * afterOctet n p.saw)

/-- A dotted address of `n + 1` octets. -/
def dotted (n : ℕ) (p : Place) : Language UInt8 :=
  plainOctet * afterOctet n p + ctrlOctet * afterOctet n p.saw

/-- Up to `r` more digits of a group. -/
def hexUpTo : ℕ → Language UInt8
  | 0 => 1
  | r + 1 => 1 + xdigit.lang * hexUpTo r

/-- Whether a dotted address may stand for the last two of `n` groups. -/
def dottedAllowed : Mode → ℕ → Bool
  | .upTo, n => 2 ≤ n
  | _, n => n == 2

/-- Whether a group may be the last one when `n` are left. -/
def lastAllowed : Mode → ℕ → Bool
  | .upTo, _ => true
  | _, n => n ≤ 1

/-- What follows a group, given what may follow its colon. -/
def afterGroup (m : Mode) (n : ℕ) (next : Language UInt8) : Language UInt8 :=
  (if lastAllowed m n then closing else 0) + if 2 ≤ n then colon.lang * next else 0

/-- Before a group when `n` groups are left. -/
def groups : ℕ → Mode → Language UInt8
  | 0, _ => closing
  | n + 1, m =>
    xdigit.lang * (hexUpTo 3 * afterGroup m (n + 1) (groups n m)) +
      (if dottedAllowed m (n + 1) then dotted 3 .inside else 0) +
      if m = .pre then colon.lang * groups n .exact else 0

/-- What may follow from a place. -/
def lang : Item → Language UInt8
  | .scheme0 => UriGrammar.scheme * (colon.lang * (slash.lang * (slash.lang * authority)))
  | .scheme => schemeChar.lang∗ * (colon.lang * (slash.lang * (slash.lang * authority)))
  | .slash2 => slash.lang * (slash.lang * authority)
  | .slash1 => slash.lang * authority
  | .ui k => xdigit.lang ^ k * (userinfo * (atSign.lang * (host * emptyPort)))
  | .reg k => xdigit.lang ^ k * (regName * emptyPort)
  | .hostEnd => emptyPort
  | .path0 => pathAbempty * pathEnd
  | .path k => xdigit.lang ^ k * (UriGrammar.segment * (pathAbempty * pathEnd))
  | .any => ⊤
  | .bracket => ipLiteral * emptyPort
  | .close => closing
  | .first => (ipv6address + ipvFuture) * closing
  | .colon1 => colon.lang * (closing + groups 7 .upTo)
  | .tail => closing + groups 7 .upTo
  | .start m n => groups n m
  | .group m n r => hexUpTo r * afterGroup m n (groups (n - 1) m)
  | .octets p n .start => dotted n p
  | .octets p n o => o.rest * afterOctet n p
  | .version0 => xdigit.lang * (xdigit.lang∗ * (dot.lang * (userinfoChar.lang * futureEnd)))
  | .version => xdigit.lang∗ * (dot.lang * (userinfoChar.lang * futureEnd))
  | .future0 => userinfoChar.lang * futureEnd
  | .future => futureEnd
where
  authority := opt (userinfo * atSign.lang) * (host * emptyPort)
  futureEnd := userinfoChar.lang∗ * closing

/-! ### The moves -/

/-- The place before a group; all places before a last group are one. -/
def mkStart : Mode → ℕ → Item
  | _, 0 => .close
  | .pre, n + 1 => .start .pre (n + 1)
  | m, n + 1 => if n = 0 then .start .exact 1 else .start m (n + 1)

/-- The place in a group; all places in a last group are one. -/
def mkGroup (m : Mode) (n r : ℕ) : Item :=
  if n ≤ 1 then if r = 0 then .close else .group .exact 1 r else .group m n r

/-- The place after an octet. -/
def mkDone : Place → ℕ → Item
  | .seen, 0 => .hostEnd
  | .inside, 0 => .close
  | p, n => .octets p n .done

/-- The places a host may begin with. -/
def hostStart : List Item := [.reg 0, .octets .unseen 3 .start, .bracket]

/-- The moves after an octet. -/
def octetEnd : ℕ → Place → List (CharClass × Item)
  | 0, .unseen => []
  | 0, .seen => [(colon, .path0)]
  | 0, .inside => [(rbracket, .hostEnd)]
  | n + 1, p => [(dot, .octets p n .start)]

/-- The moves in an octet; without a byte `2` before, the last octet has to bring one. -/
def octetMoves (p : Place) (n : ℕ) : Octet → List (CharClass × Item)
  | .start =>
    (if p = .unseen ∧ n = 0 then [] else
      [(d0, mkDone p n), (d1, .octets p n .upto2), (d2, .octets p n .two),
        (d3to9, .octets p n .upto1)]) ++
      [(byteTwo, .octets p.saw n .ctrl1)]
  | .done => octetEnd n p
  | .upto1 => (digit, mkDone p n) :: octetEnd n p
  | .upto2 => (digit, .octets p n .upto1) :: octetEnd n p
  | .two => (digitNo5, mkDone p n) :: (d5, .octets p n .five) :: octetEnd n p
  | .five => (d0to5, mkDone p n) :: octetEnd n p
  | .ctrl1 => [(d0to4, .octets p n .ctrl2)]
  | .ctrl2 => [(digit, mkDone p n)]

/-- The moves in a group. -/
def groupMoves (m : Mode) (n r : ℕ) : List (CharClass × Item) :=
  (if r = 0 then [] else [(xdigit, mkGroup m n (r - 1))]) ++
    (if 2 ≤ n then [(colon, mkStart m (n - 1))] else []) ++
    if lastAllowed m n then [(rbracket, .hostEnd)] else []

/-- The moves before a group. -/
def startMoves (m : Mode) : ℕ → List (CharClass × Item)
  | 0 => [(rbracket, .hostEnd)]
  | n + 1 =>
    (xdigit, mkGroup m (n + 1) 3) ::
      ((if dottedAllowed m (n + 1) then octetMoves .inside 3 .start else []) ++
        if m = .pre then [(colon, mkStart .exact n)] else [])

/-- The moves of a place. -/
def moves : Item → List (CharClass × Item)
  | .scheme0 => [(alpha, .scheme)]
  | .scheme => [(schemeChar, .scheme), (colon, .slash2)]
  | .slash2 => [(slash, .slash1)]
  | .slash1 => (.ui 0 :: hostStart).map fun i => (slash, i)
  | .ui 0 => (userinfoChar, .ui 0) :: (percent, .ui 2) :: hostStart.map fun i => (atSign, i)
  | .ui (k + 1) => [(xdigit, .ui k)]
  | .reg 0 => [(nameChar, .reg 0), (percent, .reg 2), (colon, .path0)]
  | .reg (k + 1) => [(xdigit, .reg k)]
  | .hostEnd => [(colon, .path0)]
  | .path0 => [(slash, .path 0), (questionMark ||| hashSign, .any)]
  | .path 0 => [(pathChar, .path 0), (percent, .path 2), (questionMark ||| hashSign, .any)]
  | .path (k + 1) => [(xdigit, .path k)]
  | .any => [(.range 0 255, .any)]
  | .bracket => [(lbracket, .first)]
  | .close => [(rbracket, .hostEnd)]
  | .first => [(xdigit, .group .pre 8 3), (colon, .colon1), (letterV, .version0)]
  | .colon1 => [(colon, .tail)]
  | .tail => (rbracket, .hostEnd) :: startMoves .upTo 7
  | .start m n => startMoves m n
  | .group m n r => groupMoves m n r
  | .octets p n o => octetMoves p n o
  | .version0 => [(xdigit, .version)]
  | .version => [(xdigit, .version), (dot, .future0)]
  | .future0 => [(userinfoChar, .future)]
  | .future => [(userinfoChar, .future), (rbracket, .hostEnd)]

/-- The places at which the input may end. -/
def final : Item → Bool
  | .path0 => true
  | .path 0 => true
  | .any => true
  | _ => false

end Item

/-- The system of the places. -/
def items : Equations Item := ⟨Item.moves, Item.final⟩

namespace Item

/-! ### The places the moves lead to -/

/-- The item of a group that begins, or what stands for it, has the language of the groups left. -/
theorem lang_mkStart (m : Mode) (n : ℕ) : (mkStart m n).lang = groups n m := by
  rcases n with _ | _ | n
  · cases m <;> rfl
  · cases m
    · rfl
    · rfl
    · show groups 1 .exact = groups 1 .upTo
      simp [groups, afterGroup, lastAllowed, dottedAllowed]
  · cases m <;> rfl

/-- The item of a group with digits left has their language. -/
theorem lang_mkGroup (m : Mode) (n r : ℕ) :
    (mkGroup m n r).lang = hexUpTo r * afterGroup m n (groups (n - 1) m) := by
  unfold mkGroup
  split
  next hn =>
    have hlast : ∀ L, afterGroup m n L = closing := by
      intro L
      cases m <;> simp [afterGroup, lastAllowed, hn, show ¬ 2 ≤ n by omega]
    rw [hlast]
    split
    next hr => rw [hr]; exact (one_mul _).symm
    next =>
      show hexUpTo r * afterGroup .exact 1 (groups 0 .exact) = _
      simp [afterGroup, lastAllowed]
  next => rfl

/-- The item of an address that is complete has the language of what follows. -/
theorem lang_mkDone (p : Place) (n : ℕ) : (mkDone p n).lang = afterOctet n p := by
  rcases n with _ | n
  · cases p
    · exact one_mul _
    · rfl
    · rfl
  · cases p <;> exact one_mul _

/-! ### Octets -/

/-- The digits, cut as the octets of the grammar cut them. -/
theorem lang_digit : digit.lang = d0.lang + d1.lang + d2.lang + d3to9.lang := by
  rw [← CharClass.lang_or, ← CharClass.lang_or, ← CharClass.lang_or]
  congr 1

/-- The digits from 1 on, cut in the same way. -/
theorem lang_nonzero : (CharClass.range 49 57).lang = d1.lang + d2.lang + d3to9.lang := by
  rw [← CharClass.lang_or, ← CharClass.lang_or]
  congr 1

/-- The digits with 5 apart. -/
theorem lang_digitNo5 : digit.lang = digitNo5.lang + d5.lang := by
  rw [← CharClass.lang_or]
  congr 1

/-- An octet by its first digit. -/
theorem plainOctet_eq : plainOctet = d0.lang + d1.lang * Octet.upto2.rest +
    d2.lang * Octet.two.rest + d3to9.lang * Octet.upto1.rest := by
  have h2 : d2.lang * digit.lang = d2.lang * (digitNo5.lang + d5.lang) := by
    rw [← lang_digitNo5]
  rw [plainOctet, lang_nonzero, add_mul, add_mul, h2]
  conv_lhs => enter [1, 1, 1]; rw [lang_digit]
  simp only [Octet.rest, mul_add, mul_one, pow_two, mul_assoc]
  abel

/-- An octet is a plain one, or has the byte 2 in front. -/
theorem decOctet_eq : decOctet = plainOctet + ctrlOctet := by
  rw [decOctet, plainOctet, ctrlOctet, mul_assoc]
  abel

/-- The moves at the end of an octet give what may follow it. -/
theorem movesLang_octetEnd (n : ℕ) (p : Place) :
    movesLang lang (octetEnd n p) = afterOctet n p := by
  rcases n with _ | n
  · cases p
    · rfl
    · rw [octetEnd, movesLang_singleton]; rfl
    · rw [octetEnd, movesLang_singleton]; rfl
  · rw [octetEnd, movesLang_singleton]; rfl

/-- The rest of an octet is followed by what may follow an octet. -/
theorem lang_octets {p : Place} {n : ℕ} {o : Octet} (ho : o ≠ .start) :
    (octets p n o).lang = o.rest * afterOctet n p := by
  cases o with
  | start => exact absurd rfl ho
  | _ => rfl

/-- The moves in front of an octet give the octets that are left. -/
theorem movesLang_octetMoves_start (p : Place) (n : ℕ) :
    movesLang lang (octetMoves p n .start) = dotted n p := by
  have hctrl : movesLang lang [(byteTwo, octets p.saw n .ctrl1)] =
      ctrlOctet * afterOctet n p.saw := by
    rw [movesLang_singleton, lang_octets (by decide), ctrlOctet]
    simp only [Octet.rest, mul_assoc]
  rw [octetMoves, movesLang_append, hctrl, dotted]
  congr 1
  split
  next h =>
    -- nothing without a byte `2` may follow from here on
    obtain ⟨rfl, rfl⟩ := h
    exact (mul_zero _).symm
  next =>
    rw [movesLang_cons, movesLang_cons, movesLang_cons,
      movesLang_singleton, lang_mkDone, lang_octets (by decide),
      lang_octets (by decide), lang_octets (by decide), plainOctet_eq]
    simp only [add_mul, mul_assoc, add_assoc]

/-- The moves inside an octet give the rest of it. -/
theorem movesLang_octetMoves (p : Place) (n : ℕ) (o : Octet) :
    (octets p n o).lang = movesLang lang (octetMoves p n o) := by
  cases o with
  | start => exact (movesLang_octetMoves_start p n).symm
  | done =>
    rw [octetMoves, movesLang_octetEnd]
    exact one_mul _
  | upto1 =>
    rw [octetMoves, movesLang_cons, movesLang_octetEnd, lang_mkDone,
      lang_octets (by decide), Octet.rest, add_mul, one_mul, add_comm]
  | upto2 =>
    rw [octetMoves, movesLang_cons, movesLang_octetEnd, lang_octets (by decide),
      lang_octets (by decide), Octet.rest, Octet.rest, add_mul, one_mul, add_comm, mul_assoc]
  | two =>
    rw [octetMoves, movesLang_cons, movesLang_cons, movesLang_octetEnd,
      lang_mkDone, lang_octets (by decide), lang_octets (by decide), Octet.rest, Octet.rest,
      add_mul, one_mul, add_mul, mul_assoc]
    abel
  | five =>
    rw [octetMoves, movesLang_cons, movesLang_octetEnd, lang_mkDone,
      lang_octets (by decide), Octet.rest, add_mul, one_mul, add_comm]
  | ctrl1 =>
    rw [octetMoves, movesLang_singleton, lang_octets (by decide),
      lang_octets (by decide)]
    exact mul_assoc ..
  | ctrl2 =>
    rw [octetMoves, movesLang_singleton, lang_mkDone, lang_octets (by decide),
      Octet.rest]

/-- A dotted address whose octets may all start with the byte `2`. -/
theorem dotted_three {p : Place} (h : p.saw = p) :
    dotted 3 p = ipv4address * afterOctet 0 p := by
  have hone : ∀ n, dotted n p = decOctet * afterOctet n p := by
    intro n
    rw [dotted, h, decOctet_eq, add_mul]
  have hrec : ∀ n, afterOctet (n + 1) p = dot.lang * (decOctet * afterOctet n p) := by
    intro n
    rw [← hone n]
    rfl
  rw [hone, hrec, hrec, hrec, ipv4address]
  simp only [mul_assoc]

/-! ### Hosts -/

/-- Characters of names are names. -/
theorem lang_le_regName {c : CharClass} (h : nameChar &&& c = c) : c.lang ≤ regName := by
  rw [regName_eq]
  calc c.lang ≤ nameChar.lang := CharClass.lang_mono h
    _ ≤ nameChar.lang + pctEncoded := le_add_of_nonneg_right bot_le
    _ ≤ (nameChar.lang + pctEncoded)∗ := le_kstar

/-- Names one after the other are a name. -/
theorem mul_le_regName {a b : Language UInt8} (ha : a ≤ regName) (hb : b ≤ regName) :
    a * b ≤ regName := by
  calc a * b ≤ regName * regName := mul_le_mul' ha hb
    _ = regName := kstar_mul_kstar _

/-- A plain octet could be a name. -/
theorem plainOctet_le_regName : plainOctet ≤ regName := by
  have hdigit : digit.lang ≤ regName := lang_le_regName (by decide)
  have hpow : digit.lang ^ 2 ≤ regName := by
    rw [pow_two]
    exact mul_le_regName hdigit hdigit
  refine add_le (add_le (add_le hdigit ?_) ?_) ?_
  · exact mul_le_regName (lang_le_regName (by decide)) hdigit
  · exact mul_le_regName (lang_le_regName (by decide)) hpow
  · apply mul_le_regName
    · exact mul_le_regName (lang_le_regName (by decide)) (lang_le_regName (by decide))
    · exact lang_le_regName (by decide)

/-- A plain octet in front of a registered name. -/
theorem plainOctet_mul_le (L : Language UInt8) :
    plainOctet * (regName * L) ≤ regName * L := by
  rw [← mul_assoc]
  exact mul_le_mul' (mul_le_regName plainOctet_le_regName le_rfl) le_rfl

/-- What may follow before the byte 2 has been seen may follow after it. -/
theorem afterOctet_unseen_le (n : ℕ) : afterOctet n .unseen ≤ afterOctet n .seen := by
  induction n with
  | zero => exact bot_le
  | succ n ih => exact mul_le_mul' le_rfl (add_le_add (mul_le_mul' le_rfl ih) le_rfl)

/-- The octets of a dotted address are a registered name, unless one has a byte `2`. -/
theorem afterOctet_seen_le (n : ℕ) :
    afterOctet n .seen ≤ afterOctet n .unseen + regName * emptyPort := by
  induction n with
  | zero =>
    calc emptyPort = 1 * emptyPort := (one_mul _).symm
      _ ≤ regName * emptyPort := mul_le_mul' one_le_kstar le_rfl
      _ = 0 + regName * emptyPort := (zero_add _).symm
  | succ n ih =>
    -- an octet of plain digits is a name, too
    have hname : dot.lang * (plainOctet * (regName * emptyPort)) ≤ regName * emptyPort := by
      calc dot.lang * (plainOctet * (regName * emptyPort))
          ≤ dot.lang * (regName * emptyPort) := mul_le_mul' le_rfl (plainOctet_mul_le _)
        _ = dot.lang * regName * emptyPort := (mul_assoc ..).symm
        _ ≤ regName * emptyPort :=
          mul_le_mul' (mul_le_regName (lang_le_regName (by decide)) le_rfl) le_rfl
    calc afterOctet (n + 1) .seen
        ≤ dot.lang * (plainOctet * (afterOctet n .unseen + regName * emptyPort) +
            ctrlOctet * afterOctet n .seen) :=
          mul_le_mul' le_rfl (add_le_add (mul_le_mul' le_rfl ih) le_rfl)
      -- what no `unseen` octet gives is a name
      _ = afterOctet (n + 1) .unseen + dot.lang * (plainOctet * (regName * emptyPort)) := by
          rw [afterOctet]
          simp only [mul_add, Place.saw]
          abel
      _ ≤ afterOctet (n + 1) .unseen + regName * emptyPort := add_le_add le_rfl hname

/-- The places a host begins with read the whole host. -/
theorem host_eq : host * emptyPort = (hostStart.map lang).sum := by
  have hsum : (hostStart.map lang).sum =
      regName * emptyPort + (dotted 3 .unseen + ipLiteral * emptyPort) := by
    simp [hostStart, lang]
  have hseen : ipv4address * emptyPort = dotted 3 .seen := (dotted_three (p := .seen) rfl).symm
  have hle : dotted 3 .unseen ≤ dotted 3 .seen :=
    add_le_add (mul_le_mul' le_rfl (afterOctet_unseen_le 3)) le_rfl
  -- an address without byte 2 is also a registered name
  have hge : dotted 3 .seen ≤ dotted 3 .unseen + regName * emptyPort := by
    calc dotted 3 .seen
        ≤ plainOctet * (afterOctet 3 .unseen + regName * emptyPort) +
            ctrlOctet * afterOctet 3 .seen :=
          add_le_add (mul_le_mul' le_rfl (afterOctet_seen_le 3)) le_rfl
      _ = dotted 3 .unseen + plainOctet * (regName * emptyPort) := by
          rw [mul_add, add_right_comm]
          rfl
      _ ≤ dotted 3 .unseen + regName * emptyPort := add_le_add le_rfl (plainOctet_mul_le _)
  rw [hsum, host, add_mul, add_mul, hseen]
  apply le_antisymm
  · calc ipLiteral * emptyPort + dotted 3 .seen + regName * emptyPort
        ≤ ipLiteral * emptyPort + (dotted 3 .unseen + regName * emptyPort) +
            regName * emptyPort := add_le_add (add_le_add le_rfl hge) le_rfl
      _ = ipLiteral * emptyPort + dotted 3 .unseen +
            (regName * emptyPort + regName * emptyPort) := by abel
      _ = regName * emptyPort + (dotted 3 .unseen + ipLiteral * emptyPort) := by
          rw [add_idem]
          abel
  · calc regName * emptyPort + (dotted 3 .unseen + ipLiteral * emptyPort)
        ≤ regName * emptyPort + (dotted 3 .seen + ipLiteral * emptyPort) :=
          add_le_add le_rfl (add_le_add hle le_rfl)
      _ = ipLiteral * emptyPort + dotted 3 .seen + regName * emptyPort := by abel

/-! ### IP literals -/

/-- The moves in a group give the rest of the address. -/
theorem movesLang_groupMoves (m : Mode) (n r : ℕ) :
    movesLang lang (groupMoves m n r) = (group m n r).lang := by
  have hend : movesLang lang ((if 2 ≤ n then [(colon, mkStart m (n - 1))] else []) ++
      if lastAllowed m n then [(rbracket, .hostEnd)] else []) =
        afterGroup m n (groups (n - 1) m) := by
    rw [movesLang_append, movesLang_ite, movesLang_ite,
      movesLang_singleton, movesLang_singleton, lang_mkStart, afterGroup,
      add_comm]
    rfl
  rw [groupMoves, List.append_assoc, movesLang_append, hend]
  show _ = hexUpTo r * _
  -- a group that is full takes no more digits
  rcases r with _ | r
  · rw [if_pos rfl, movesLang_nil, zero_add]
    exact (one_mul _).symm
  · rw [if_neg (Nat.succ_ne_zero r), movesLang_singleton, lang_mkGroup, hexUpTo,
      add_mul, one_mul, add_comm, mul_assoc]
    rfl

/-- The moves in front of a group give the rest of the address. -/
theorem movesLang_startMoves (m : Mode) (n : ℕ) :
    movesLang lang (startMoves m n) = groups n m := by
  rcases n with _ | n
  · rw [startMoves, movesLang_singleton]
    rfl
  · rw [startMoves, movesLang_cons, movesLang_append,
      movesLang_ite, movesLang_ite, movesLang_singleton,
      lang_mkGroup, lang_mkStart, movesLang_octetMoves_start, groups, add_assoc]
    rfl

/-- A group is a digit and up to three more. -/
theorem h16_eq : h16 = xdigit.lang * hexUpTo 3 := by
  simp only [h16, hexUpTo, mul_add, mul_one, pow_succ, pow_zero, one_mul, mul_assoc, add_assoc]

/-- Before a group, with the group as a whole. -/
theorem groups_succ (n : ℕ) (m : Mode) :
    groups (n + 1) m = h16 * afterGroup m (n + 1) (groups n m) +
      (if dottedAllowed m (n + 1) then ipv4address * closing else 0) +
      if m = .pre then colon.lang * groups n .exact else 0 := by
  rw [groups, h16_eq, mul_assoc, dotted_three (p := .inside) rfl]
  rfl

/-- The nine alternatives of the grammar are the three ways of counting groups. -/
theorem ipv6address_eq : ipv6address * closing =
    h16 * (colon.lang * groups 7 .pre) +
      colon.lang * (colon.lang * (closing + groups 7 .upTo)) := by
  have h0 : ∀ m, groups 0 m = closing := fun _ => rfl
  -- every product of groups that the counting leads to is one of an alternative
  simp only [groups_succ, h0, afterGroup, lastAllowed, dottedAllowed]
  simp only [Nat.reduceAdd, Nat.reduceLeDiff, decide_false, Bool.false_eq_true, ↓reduceIte,
    Std.le_refl, zero_add, decide_true, add_zero, Nat.reduceBEq, mul_add, BEq.rfl,
    reduceCtorEq]
  simp only [ipv6address, ls32, opt, doubleColon, pow_succ, pow_zero, one_mul, add_mul, mul_add,
    mul_assoc]
  abel

/-- What the item of a version is for. -/
theorem ipvFuture_eq : ipvFuture * closing = letterV.lang * version0.lang := by
  rw [ipvFuture, plus, plus, ← lang_userinfoChar]
  simp only [mul_assoc]
  rfl

/-- A literal begins with a digit, a colon or a `v`. -/
theorem lang_first : (ipv6address + ipvFuture) * closing = xdigit.lang * (group .pre 8 3).lang +
    (colon.lang * colon1.lang + letterV.lang * version0.lang) := by
  have hgroup : ∀ L, afterGroup .pre 8 L = colon.lang * L := by
    intro L
    rw [afterGroup, if_neg (by decide), if_pos (by decide), zero_add]
  rw [add_mul, ipv6address_eq, ipvFuture_eq, h16_eq, ← hgroup, mul_assoc, add_assoc]
  rfl

/-! ### Loops -/

/-- A loop over a class and percent-encodings. -/
theorem loop_eq (c : CharClass) (L : Language UInt8) :
    (c.lang + pctEncoded)∗ * L = c.lang * ((c.lang + pctEncoded)∗ * L) +
      percent.lang * (xdigit.lang ^ 2 * ((c.lang + pctEncoded)∗ * L)) + L := by
  conv_lhs => rw [kstar_mul_unfold]
  rw [add_mul, pctEncoded, pow_two]
  simp only [mul_assoc]
  abel

/-- A path goes on with a slash, or ends. -/
theorem pathAbempty_unfold (L : Language UInt8) :
    pathAbempty * L = slash.lang * (UriGrammar.segment * (pathAbempty * L)) + L := by
  rw [pathAbempty_eq]
  conv_lhs => rw [kstar_mul_unfold]
  rw [add_comm, mul_assoc]

/-- A segment goes on with a character or an escape, or ends. -/
theorem segment_unfold (L : Language UInt8) : UriGrammar.segment * (pathAbempty * L) =
    pathChar.lang * (UriGrammar.segment * (pathAbempty * L)) +
      percent.lang * (xdigit.lang ^ 2 * (UriGrammar.segment * (pathAbempty * L))) + L := by
  have hloop := loop_eq pchar (pathAbempty * L)
  rw [← pchars_eq] at hloop
  calc UriGrammar.segment * (pathAbempty * L)
      = pchar.lang * (UriGrammar.segment * (pathAbempty * L)) +
          percent.lang * (xdigit.lang ^ 2 * (UriGrammar.segment * (pathAbempty * L))) +
          pathAbempty * L := hloop
    _ = pathChar.lang * (UriGrammar.segment * (pathAbempty * L)) +
          percent.lang * (xdigit.lang ^ 2 * (UriGrammar.segment * (pathAbempty * L))) + L := by
      conv_lhs => enter [2]; rw [pathAbempty_unfold]
      rw [lang_pathChar, add_mul]
      abel

/-- The places in a percent-encoding. -/
theorem lang_ui (k : ℕ) : (ui k).lang = xdigit.lang ^ k * (ui 0).lang := by
  show xdigit.lang ^ k * _ = xdigit.lang ^ k * (xdigit.lang ^ 0 * _)
  rw [pow_zero, one_mul]

/-- An escape that is not complete in a name: digits are due first. -/
theorem lang_reg (k : ℕ) : (reg k).lang = xdigit.lang ^ k * (reg 0).lang := by
  show xdigit.lang ^ k * _ = xdigit.lang ^ k * (xdigit.lang ^ 0 * _)
  rw [pow_zero, one_mul]

/-- and in a path. -/
theorem lang_path (k : ℕ) : (path k).lang = xdigit.lang ^ k * (path 0).lang := by
  show xdigit.lang ^ k * _ = xdigit.lang ^ k * (xdigit.lang ^ 0 * _)
  rw [pow_zero, one_mul]

/-- What may follow in user information. -/
theorem lang_ui_zero : (ui 0).lang = userinfoChar.lang * (ui 0).lang +
    (percent.lang * (ui 2).lang + atSign.lang * (host * emptyPort)) := by
  have h0 : (ui 0).lang = userinfo * (atSign.lang * (host * emptyPort)) := one_mul _
  rw [lang_ui 2, h0, userinfo_eq, ← add_assoc]
  exact loop_eq ..

/-- What may follow in a name. -/
theorem lang_reg_zero : (reg 0).lang = nameChar.lang * (reg 0).lang +
    (percent.lang * (reg 2).lang + colon.lang * path0.lang) := by
  have h0 : (reg 0).lang = regName * emptyPort := one_mul _
  rw [lang_reg 2, h0, regName_eq, ← add_assoc]
  exact loop_eq ..

/-- and in a path. -/
theorem lang_path_zero : (path 0).lang = pathChar.lang * (path 0).lang +
    (percent.lang * (path 2).lang + pathEnd) := by
  have h0 : (path 0).lang = UriGrammar.segment * (pathAbempty * pathEnd) := one_mul _
  rw [lang_path 2, h0, ← add_assoc]
  exact segment_unfold _

/-! ### The solution -/

/-- **The languages of the places solve the system.** -/
theorem solves : items.Solves lang := by
  intro i
  show lang i = (if final i then 1 else 0) + movesLang lang (moves i)
  -- one equation for each item: its language is that of its moves
  cases i with
  | scheme0 =>
    show UriGrammar.scheme * _ = 0 + movesLang lang [(alpha, scheme)]
    rw [zero_add, movesLang_singleton, UriGrammar.scheme, mul_assoc]
    rfl
  | scheme =>
    show schemeChar.lang∗ * _ =
      0 + movesLang lang [(schemeChar, scheme), (colon, slash2)]
    rw [zero_add, movesLang_cons, movesLang_singleton, kstar_mul_unfold,
      add_comm]
    rfl
  | slash2 =>
    show _ = 0 + movesLang lang [(slash, slash1)]
    rw [zero_add, movesLang_singleton]
    rfl
  | slash1 =>
    show slash.lang * (opt (userinfo * atSign.lang) * (host * emptyPort)) =
      0 + movesLang lang ((ui 0 :: hostStart).map fun i => (slash, i))
    have h0 : (ui 0).lang = userinfo * (atSign.lang * (host * emptyPort)) := one_mul _
    rw [zero_add, movesLang_map, List.map_cons, List.sum_cons, ← host_eq, h0, opt,
      add_mul, one_mul, add_comm, mul_assoc]
  | ui k =>
    rcases k with _ | k
    · show (ui 0).lang = 0 + movesLang lang
        ((userinfoChar, ui 0) :: (percent, ui 2) :: hostStart.map fun i => (atSign, i))
      rw [zero_add, movesLang_cons, movesLang_cons, movesLang_map,
        ← host_eq]
      exact lang_ui_zero
    · show (ui (k + 1)).lang = 0 + movesLang lang [(xdigit, ui k)]
      rw [zero_add, movesLang_singleton, lang_ui, pow_succ', mul_assoc, ← lang_ui]
  | reg k =>
    rcases k with _ | k
    · show (reg 0).lang =
        0 + movesLang lang [(nameChar, reg 0), (percent, reg 2), (colon, path0)]
      rw [zero_add, movesLang_cons, movesLang_cons,
        movesLang_singleton]
      exact lang_reg_zero
    · show (reg (k + 1)).lang = 0 + movesLang lang [(xdigit, reg k)]
      rw [zero_add, movesLang_singleton, lang_reg, pow_succ', mul_assoc, ← lang_reg]
  | hostEnd =>
    show _ = 0 + movesLang lang [(colon, path0)]
    rw [zero_add, movesLang_singleton]
    rfl
  | path0 =>
    show pathAbempty * pathEnd =
      1 + movesLang lang [(slash, path 0), (questionMark ||| hashSign, any)]
    have h0 : (path 0).lang = UriGrammar.segment * (pathAbempty * pathEnd) := one_mul _
    rw [movesLang_cons, movesLang_singleton, pathAbempty_unfold, h0,
      add_left_comm]
    rfl
  | path k =>
    rcases k with _ | k
    · show (path 0).lang = 1 + movesLang lang
        [(pathChar, path 0), (percent, path 2), (questionMark ||| hashSign, any)]
      rw [movesLang_cons, movesLang_cons, movesLang_singleton,
        add_left_comm 1, add_left_comm 1]
      exact lang_path_zero
    · show (path (k + 1)).lang = 0 + movesLang lang [(xdigit, path k)]
      rw [zero_add, movesLang_singleton, lang_path, pow_succ', mul_assoc, ← lang_path]
  | any =>
    show ⊤ = 1 + movesLang lang [(.range 0 255, any)]
    rw [movesLang_singleton]
    exact CharClass.top_eq
  | bracket =>
    show ipLiteral * emptyPort = 0 + movesLang lang [(lbracket, first)]
    rw [zero_add, movesLang_singleton, ipLiteral, mul_assoc, mul_assoc]
    rfl
  | close =>
    show _ = 0 + movesLang lang [(rbracket, hostEnd)]
    rw [zero_add, movesLang_singleton]
    rfl
  | first =>
    show (ipv6address + ipvFuture) * closing = 0 + movesLang lang
      [(xdigit, group .pre 8 3), (colon, colon1), (letterV, version0)]
    rw [zero_add, movesLang_cons, movesLang_cons,
      movesLang_singleton]
    exact lang_first
  | colon1 =>
    show _ = 0 + movesLang lang [(colon, tail)]
    rw [zero_add, movesLang_singleton]
    rfl
  | tail =>
    show _ = 0 + movesLang lang ((rbracket, hostEnd) :: startMoves .upTo 7)
    rw [zero_add, movesLang_cons, movesLang_startMoves]
    rfl
  | start m n => exact ((zero_add _).trans (movesLang_startMoves m n)).symm
  | group m n r => exact ((zero_add _).trans (movesLang_groupMoves m n r)).symm
  | octets p n o => exact (movesLang_octetMoves p n o).trans (zero_add _).symm
  | version0 =>
    show _ = 0 + movesLang lang [(xdigit, version)]
    rw [zero_add, movesLang_singleton]
    rfl
  | version =>
    show _ = 0 + movesLang lang [(xdigit, version), (dot, future0)]
    rw [zero_add, movesLang_cons, movesLang_singleton, add_comm]
    exact kstar_mul_unfold ..
  | future0 =>
    show _ = 0 + movesLang lang [(userinfoChar, future)]
    rw [zero_add, movesLang_singleton]
    rfl
  | future =>
    show userinfoChar.lang∗ * closing =
      0 + movesLang lang [(userinfoChar, future), (rbracket, hostEnd)]
    rw [zero_add, movesLang_cons, movesLang_singleton, kstar_mul_unfold,
      add_comm]
    rfl

end Item

end LoNetfw.Net
