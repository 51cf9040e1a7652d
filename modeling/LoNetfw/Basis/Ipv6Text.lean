import Mathlib.Data.Nat.Digits.Lemmas
import Mathlib.Tactic.IntervalCases

namespace Basis.Ipv6Text

/-!
# IPv6 addresses as text

A reader of the text forms of RFC 4291, section 2.2, with the checks of `inet_pton`, and the texts
that it reads back for eight groups of 16 bits.

* `parse` — up to eight groups with colons between them, one `"::"` for the groups that are
  missing, and a dotted quad for the last two;
* `doubleColons` — the number of places with `"::"`;
* `Writes` — the groups in lower-case digits, with a run of zeros as `"::"` or without;
* `parse_of_writes`, `doubleColons_of_writes` — such a text is read back, and has one `"::"` at
  most.
-/

/-! ### Reading -/

/-- The value of a digit, up to 15. -/
def digitValue (c : UInt8) : Option ℕ :=
  if 48 ≤ c ∧ c ≤ 57 then some (c.toNat - 48)
  else if 97 ≤ c ∧ c ≤ 102 then some (c.toNat - 87)
  else if 65 ≤ c ∧ c ≤ 70 then some (c.toNat - 55)
  else none

/-- One digit more of a number. -/
def addDigit (base n : ℕ) (c : UInt8) : Option ℕ :=
  ((digitValue c).filter (· < base)).map (base * n + ·)

/-- The digits of a number. -/
def readDigits (base : ℕ) (w : List UInt8) : Option ℕ := w.foldlM (addDigit base) 0

/-- The two bytes of a group. -/
def groupBytes (g : ℕ) : List UInt8 := [(g / 256).toUInt8, g.toUInt8]

/-- A group has one to four digits. -/
def readGroup (w : List UInt8) : Option (List UInt8) :=
  if w = [] ∨ 4 < w.length then none else (readDigits 16 w).map groupBytes

/-- A decimal number below 256 without leading zeros. -/
def readOctet (w : List UInt8) : Option UInt8 :=
  if w = [] ∨ 3 < w.length ∨ w.head? = some 48 ∧ w ≠ [48] then none
  else ((readDigits 10 w).filter (· < 256)).map Nat.toUInt8

def readQuad (w : List UInt8) : Option (List UInt8) :=
  if (w.splitOn 46).length = 4 then (w.splitOn 46).mapM readOctet else none

/-- Groups, of which the last one may be a dotted quad. -/
def readGroups (quad : Bool) : List (List UInt8) → Option (List UInt8)
  | [] => some []
  | [w] => if quad && w.contains 46 then readQuad w else readGroup w
  | w :: ws => do
    let bytes ← readGroup w
    let rest ← readGroups quad ws
    some (bytes ++ rest)

/-- The groups before or after `"::"`, or all of them. -/
def readSide (quad : Bool) (w : List UInt8) : Option (List UInt8) :=
  if w = [] then some [] else readGroups quad (w.splitOn 58)

/-- What stands before and after the first `"::"`. -/
def splitDouble : List UInt8 → Option (List UInt8 × List UInt8)
  | [] => none
  | c :: rest =>
    if c = 58 ∧ rest.head? = some 58 then some ([], rest.tail)
    else (splitDouble rest).map fun p => (c :: p.1, p.2)

def toAddress (bytes : List UInt8) : Option (Vector UInt8 16) :=
  if h : bytes.length = 16 then some ⟨bytes.toArray, h⟩ else none

/-- The address that a text stands for. -/
def parse (w : List UInt8) : Option (Vector UInt8 16) :=
  match splitDouble w with
  | none => (readSide true w).bind toAddress
  | some (front, back) => do
    let before ← readSide false front
    let after ← readSide true back
    -- `"::"` stands for one group at least
    if before.length + after.length ≤ 14 then
      toAddress (before ++ List.replicate (16 - (before.length + after.length)) 0 ++ after)
    else none

/-- The places with `"::"`. -/
def doubleColons : List UInt8 → ℕ
  | [] => 0
  | c :: rest => (if c = 58 ∧ rest.head? = some 58 then 1 else 0) + doubleColons rest

/-! ### Writing -/

def hexDigit (d : ℕ) : UInt8 := if d < 10 then (48 + d).toUInt8 else (87 + d).toUInt8

/-- The digits of a number, lower-case and without leading zeros. -/
def hexText (n : ℕ) : List UInt8 :=
  if n = 0 then [48] else (Nat.digits 16 n).reverse.map hexDigit

/-- Groups with colons between them. -/
def groupsText (gs : List ℕ) : List UInt8 := [58].intercalate (gs.map hexText)

/-- A text for these groups. -/
inductive Writes : List ℕ → List UInt8 → Prop
  | all (gs : List ℕ) : Writes gs (groupsText gs)
  | compressed (a : List ℕ) {m : ℕ} (hm : 0 < m) (b : List ℕ) :
      Writes (a ++ List.replicate m 0 ++ b) (groupsText a ++ 58 :: 58 :: groupsText b)

/-! ### Digits -/

/-- A digit is read as itself. -/
theorem digitValue_hexDigit {d : ℕ} (h : d < 16) : digitValue (hexDigit d) = some d := by
  interval_cases d <;> decide

/-- One more digit on a number. -/
theorem addDigit_hexDigit {d : ℕ} (h : d < 16) (n : ℕ) :
    addDigit 16 n (hexDigit d) = some (16 * n + d) := by
  unfold addDigit
  rw [digitValue_hexDigit h, Option.filter_some, if_pos (decide_eq_true h), Option.map_some]

/-- A group is written in hexadecimal digits alone. -/
theorem digits_of_mem_hexText {n : ℕ} {c : UInt8} (h : c ∈ hexText n) :
    ∃ d < 16, c = hexDigit d := by
  unfold hexText at h
  split at h
  · exact ⟨0, by decide, List.mem_singleton.mp h⟩
  · obtain ⟨d, hd, rfl⟩ := List.mem_map.mp h
    exact ⟨d, Nat.digits_lt_base (by decide) (List.mem_reverse.mp hd), rfl⟩

/-- A digit is neither a colon nor a dot. -/
theorem hexDigit_ne {d : ℕ} (h : d < 16) : hexDigit d ≠ 58 ∧ hexDigit d ≠ 46 := by
  interval_cases d <;> decide

/-- A group has neither of them. -/
theorem not_mem_hexText (n : ℕ) : 58 ∉ hexText n ∧ 46 ∉ hexText n := by
  constructor <;> intro h <;> obtain ⟨d, hd, heq⟩ := digits_of_mem_hexText h
  · exact (hexDigit_ne hd).1 heq.symm
  · exact (hexDigit_ne hd).2 heq.symm

/-- A group has a digit at least. -/
theorem hexText_ne_nil (n : ℕ) : hexText n ≠ [] := by
  unfold hexText
  split
  · exact List.cons_ne_nil _ _
  · next hn =>
    rw [ne_eq, List.map_eq_nil_iff, List.reverse_eq_nil_iff]
    exact Nat.digits_ne_nil_iff_ne_zero.mpr hn

/-- A group of 16 bits has four digits at most. -/
theorem length_hexText {n : ℕ} (h : n < 65536) : (hexText n).length ≤ 4 := by
  unfold hexText
  split
  · decide
  · rw [List.length_map, List.length_reverse]
    exact (Nat.digits_length_le_iff (by decide) n).mpr h

/-- Reading the digits gives the number back. -/
theorem readDigits_hexText (n : ℕ) : readDigits 16 (hexText n) = some n := by
  have hfold : ∀ l : List ℕ, (∀ d ∈ l, d < 16) →
      readDigits 16 (l.reverse.map hexDigit) = some (Nat.ofDigits 16 l) := by
    intro l hl
    induction l with
    | nil => rfl
    | cons d ds ih =>
      -- the first digit of the list is the last one of the text
      have hds := ih fun e he => hl e (List.mem_cons_of_mem d he)
      unfold readDigits at hds ⊢
      rw [List.reverse_cons, List.map_append, List.foldlM_append, hds, Nat.ofDigits_cons]
      show addDigit 16 (Nat.ofDigits 16 ds) (hexDigit d) >>= some = _
      rw [addDigit_hexDigit (hl d List.mem_cons_self), Nat.add_comm]
      rfl
  unfold hexText
  split
  · next hn =>
    rw [hn]
    rfl
  · rw [hfold _ fun d hd => Nat.digits_lt_base (by decide) hd, Nat.ofDigits_digits]

/-- A group is read back. -/
theorem readGroup_hexText {g : ℕ} (h : g < 65536) :
    readGroup (hexText g) = some (groupBytes g) := by
  unfold readGroup
  rw [if_neg (not_or.mpr ⟨hexText_ne_nil g, Nat.not_lt.mpr (length_hexText h)⟩),
    readDigits_hexText, Option.map_some]

/-! ### Groups -/

/-- Groups are joined with colons. -/
theorem groupsText_cons (g : ℕ) {gs : List ℕ} (h : gs ≠ []) :
    groupsText (g :: gs) = hexText g ++ 58 :: groupsText gs := by
  obtain ⟨g', gs, rfl⟩ := List.exists_cons_of_ne_nil h
  unfold groupsText
  rw [List.map_cons, List.map_cons, List.intercalate_cons_cons, List.append_assoc]
  rfl

/-- One group has no colon. -/
theorem groupsText_singleton (g : ℕ) : groupsText [g] = hexText g := by
  unfold groupsText
  rw [List.map_singleton, List.intercalate_singleton]

/-- One group more, after a colon. -/
theorem groupsText_concat {gs : List ℕ} (h : gs ≠ []) (g : ℕ) :
    groupsText (gs ++ [g]) = groupsText gs ++ 58 :: hexText g := by
  induction gs with
  | nil => exact absurd rfl h
  | cons x gs ih =>
    have hne : gs ++ [g] ≠ [] := List.append_ne_nil_of_right_ne_nil gs (List.cons_ne_nil g [])
    rw [List.cons_append, groupsText_cons x hne]
    by_cases hgs : gs = []
    · rw [hgs, List.nil_append, groupsText_singleton, groupsText_singleton]
    · rw [ih hgs, groupsText_cons x hgs, List.append_assoc, List.cons_append]

/-- Some groups make some text. -/
theorem groupsText_ne_nil {gs : List ℕ} (h : gs ≠ []) : groupsText gs ≠ [] := by
  obtain ⟨g, gs, rfl⟩ := List.exists_cons_of_ne_nil h
  by_cases hgs : gs = []
  · rw [hgs, groupsText_singleton]
    exact hexText_ne_nil g
  · rw [groupsText_cons g hgs]
    exact List.append_ne_nil_of_left_ne_nil (hexText_ne_nil g) _

/-- Groups do not begin with a colon. -/
theorem head_groupsText (gs : List ℕ) : (groupsText gs).head? ≠ some 58 := by
  have hhex : ∀ g r, (hexText g ++ r).head? ≠ some 58 := by
    intro g r h
    rw [List.head?_append_of_ne_nil _ (hexText_ne_nil g)] at h
    exact (not_mem_hexText g).1 (List.mem_of_head? h)
  cases gs with
  | nil => exact (Option.some_ne_none 58).symm
  | cons g gs =>
    by_cases hgs : gs = []
    · rw [hgs, groupsText_singleton, ← List.append_nil (hexText g)]
      exact hhex g []
    · rw [groupsText_cons g hgs]
      exact hhex g _

/-- Nor do they end with one. -/
theorem getLast_groupsText (gs : List ℕ) : (groupsText gs).getLast? ≠ some 58 := by
  induction gs using List.reverseRecOn with
  | nil => exact (Option.some_ne_none 58).symm
  | append_singleton gs g _ =>
    have hhex : (hexText g).getLast? ≠ some 58 :=
      fun h => (not_mem_hexText g).1 (List.mem_of_getLast? h)
    by_cases hgs : gs = []
    · rw [hgs, List.nil_append, groupsText_singleton]
      exact hhex
    · rw [groupsText_concat hgs, List.getLast?_append_of_ne_nil _ (List.cons_ne_nil _ _),
        ← List.singleton_append, List.getLast?_append_of_ne_nil _ (hexText_ne_nil g)]
      exact hhex

/-- The text of groups is made of colons and digits. -/
theorem mem_groupsText {gs : List ℕ} {c : UInt8} (h : c ∈ groupsText gs) :
    c = 58 ∨ ∃ d < 16, c = hexDigit d := by
  induction gs with
  | nil => exact absurd h List.not_mem_nil
  | cons g gs ih =>
    by_cases hgs : gs = []
    · rw [hgs, groupsText_singleton] at h
      exact Or.inr (digits_of_mem_hexText h)
    · rw [groupsText_cons g hgs, List.mem_append, List.mem_cons] at h
      rcases h with h | h | h
      · exact Or.inr (digits_of_mem_hexText h)
      · exact Or.inl h
      · exact ih h

/-- A text has colons and digits only. -/
theorem mem_of_writes {gs : List ℕ} {t : List UInt8} (h : Writes gs t) {c : UInt8} (hc : c ∈ t) :
    c = 58 ∨ ∃ d < 16, c = hexDigit d := by
  cases h with
  | all => exact mem_groupsText hc
  | compressed a hm b =>
    rw [List.mem_append, List.mem_cons, List.mem_cons] at hc
    rcases hc with h | h | h | h
    · exact mem_groupsText h
    · exact Or.inl h
    · exact Or.inl h
    · exact mem_groupsText h

/-! ### Double colons -/

/-- `::` in a text put together: in either part, or across the seam. -/
theorem doubleColons_append (a b : List UInt8) : doubleColons (a ++ b) =
    doubleColons a + doubleColons b +
      if a.getLast? = some 58 ∧ b.head? = some 58 then 1 else 0 := by
  induction a with
  | nil => rw [List.nil_append, doubleColons, if_neg fun h => Option.some_ne_none 58 h.1.symm,
      Nat.zero_add, Nat.add_zero]
  | cons c a ih =>
    rw [List.cons_append, doubleColons, doubleColons, ih]
    cases a with
    | nil => simp [doubleColons, Nat.add_comm]
    | cons d a =>
      rw [List.getLast?_cons_cons, List.cons_append, List.head?_cons, List.head?_cons]
      omega

/-- Without a colon there is no `::`. -/
theorem doubleColons_of_not_mem {w : List UInt8} (h : 58 ∉ w) : doubleColons w = 0 := by
  induction w with
  | nil => rfl
  | cons c w ih =>
    obtain ⟨hc, hw⟩ := not_or.mp (mt List.mem_cons.mpr h)
    rw [doubleColons, if_neg fun h => hc h.1.symm, ih hw]

/-- Groups alone give no `::`. -/
theorem doubleColons_groupsText (gs : List ℕ) : doubleColons (groupsText gs) = 0 := by
  induction gs with
  | nil => rfl
  | cons g gs ih =>
    by_cases hgs : gs = []
    · rw [hgs, groupsText_singleton]
      exact doubleColons_of_not_mem (not_mem_hexText g).1
    · rw [groupsText_cons g hgs, doubleColons_append, doubleColons, ih,
        doubleColons_of_not_mem (not_mem_hexText g).1, if_neg fun h => head_groupsText gs h.2,
        if_neg fun h => (not_mem_hexText g).1 (List.mem_of_getLast? h.1)]

/-- A text for some groups has one `"::"` at most. -/
theorem doubleColons_of_writes {gs : List ℕ} {t : List UInt8} (h : Writes gs t) :
    doubleColons t ≤ 1 := by
  cases h with
  | all => rw [doubleColons_groupsText]; exact Nat.zero_le 1
  | compressed a hm b =>
    rw [doubleColons_append, if_neg fun h => getLast_groupsText a h.1, doubleColons, doubleColons,
      if_pos ⟨rfl, rfl⟩, if_neg fun h => head_groupsText b h.2, doubleColons_groupsText,
      doubleColons_groupsText]

/-- A text without `::` is not divided. -/
theorem splitDouble_eq_none {w : List UInt8} (h : doubleColons w = 0) : splitDouble w = none := by
  induction w with
  | nil => rfl
  | cons c w ih =>
    rw [doubleColons, Nat.add_eq_zero_iff] at h
    have hc : ¬(c = 58 ∧ w.head? = some 58) := fun hc => absurd h.1 (by rw [if_pos hc]; decide)
    rw [splitDouble, if_neg hc, ih h.2, Option.map_none]

/-- A text is split at its first `"::"`. -/
theorem splitDouble_append {a : List UInt8} (h : doubleColons a = 0) (hlast : a.getLast? ≠ some 58)
    (b : List UInt8) : splitDouble (a ++ 58 :: 58 :: b) = some (a, b) := by
  induction a with
  | nil => exact if_pos ⟨rfl, rfl⟩
  | cons c a ih =>
    rw [doubleColons, Nat.add_eq_zero_iff] at h
    rw [List.cons_append, splitDouble]
    cases a with
    | nil =>
      -- the last byte before the `::`
      have hc : c ≠ 58 := fun hc => hlast (hc ▸ rfl)
      rw [if_neg fun h => hc h.1, ih h.2 (Option.some_ne_none 58).symm, Option.map_some]
    | cons d a =>
      have hc : ¬(c = 58 ∧ (d :: a ++ 58 :: 58 :: b).head? = some 58) := by
        intro hc
        have hc' : c = 58 ∧ (d :: a).head? = some 58 := hc
        exact absurd h.1 (by rw [if_pos hc']; decide)
      rw [if_neg hc, ih h.2 (by rwa [List.getLast?_cons_cons] at hlast), Option.map_some]

/-! ### Reading back -/

/-- The groups of a side are read back, by induction on them. -/
theorem readGroups_hexText (quad : Bool) {gs : List ℕ} (h : ∀ g ∈ gs, g < 65536) :
    readGroups quad (gs.map hexText) = some (gs.flatMap groupBytes) := by
  induction gs with
  | nil => rfl
  | cons g gs ih =>
    obtain ⟨hg, hgs⟩ := List.forall_mem_cons.mp h
    cases gs with
    | nil =>
      have hdot : (hexText g).contains 46 = false :=
        Bool.eq_false_iff.mpr (mt List.contains_iff_mem.mp (not_mem_hexText g).2)
      rw [List.map_singleton, readGroups, hdot, Bool.and_false, if_neg Bool.false_ne_true,
        readGroup_hexText hg, List.flatMap_singleton]
    | cons g' gs =>
      rw [List.map_cons, readGroups, ih hgs, readGroup_hexText hg, List.flatMap_cons]
      · rfl
      · simp

/-- A side without `::` is read back. -/
theorem readSide_groupsText (quad : Bool) {gs : List ℕ} (h : ∀ g ∈ gs, g < 65536) :
    readSide quad (groupsText gs) = some (gs.flatMap groupBytes) := by
  unfold readSide
  by_cases hgs : gs = []
  · rw [hgs]
    rfl
  · have hsplit : (groupsText gs).splitOn 58 = gs.map hexText := by
      apply List.splitOn_intercalate
      · intro w hw
        obtain ⟨g, -, rfl⟩ := List.mem_map.mp hw
        exact (not_mem_hexText g).1
      · exact mt List.map_eq_nil_iff.mp hgs
    rw [if_neg (groupsText_ne_nil hgs), hsplit]
    exact readGroups_hexText quad h

/-- A group is two bytes. -/
theorem length_flatMap_groupBytes (gs : List ℕ) :
    (gs.flatMap groupBytes).length = 2 * gs.length := by
  induction gs with
  | nil => rfl
  | cons g gs ih =>
    rw [List.flatMap_cons, List.length_append, ih, List.length_cons]
    show 2 + 2 * gs.length = 2 * (gs.length + 1)
    omega

/-- Groups of zero are bytes of zero. -/
theorem flatMap_groupBytes_zero (m : ℕ) :
    (List.replicate m 0).flatMap groupBytes = List.replicate (2 * m) 0 := by
  induction m with
  | zero => rfl
  | succ m ih =>
    rw [List.replicate_succ, List.flatMap_cons, ih]
    exact (List.replicate_add 2 (2 * m) 0).symm.trans (congrArg₂ _ (by omega) rfl)

/-- **Reading back.** A text for eight groups stands for their bytes. -/
theorem parse_of_writes {gs : List ℕ} {t : List UInt8} (h : Writes gs t) (hlen : gs.length = 8)
    (hlt : ∀ g ∈ gs, g < 65536) : parse t = toAddress (gs.flatMap groupBytes) := by
  cases h with
  -- no `::`, so one side holds all groups
  | all =>
    unfold parse
    rw [splitDouble_eq_none (doubleColons_groupsText gs), readSide_groupsText true hlt]
    rfl
  | @compressed a m hm b =>
    have ha : ∀ g ∈ a, g < 65536 :=
      fun g hg => hlt g (List.mem_append_left _ (List.mem_append_left _ hg))
    have hb : ∀ g ∈ b, g < 65536 := fun g hg => hlt g (List.mem_append_right _ hg)
    rw [List.length_append, List.length_append, List.length_replicate] at hlen
    unfold parse
    rw [splitDouble_append (doubleColons_groupsText a) (getLast_groupsText a),
      List.flatMap_append, List.flatMap_append, flatMap_groupBytes_zero]
    show ((readSide false (groupsText a)).bind fun before =>
      (readSide true (groupsText b)).bind fun after => _) = _
    rw [readSide_groupsText false ha, readSide_groupsText true hb, Option.bind_some,
      Option.bind_some, length_flatMap_groupBytes, length_flatMap_groupBytes, if_pos (by omega)]
    -- the zeros that are put back are the ones that were left out
    have hm' : 16 - (2 * a.length + 2 * b.length) = 2 * m := by omega
    rw [hm']

/-- A dotted quad is read too: `"::1.2.3.4"`. -/
example : parse [58, 58, 49, 46, 50, 46, 51, 46, 52] =
    some #v[0, 0, 0, 0, 0, 0, 0, 0, 0, 0, 0, 0, 1, 2, 3, 4] := by
  decide

end Basis.Ipv6Text
