import LoNetfw.Net.IpLiteral
import Mathlib.Data.Fin.VecNotation
import Mathlib.Tactic.IntervalCases

namespace LoNetfw.Net

open Basis UriParser UriGrammar
open scoped Computability

/-!
# IP literals and RFC 3986

The grammar of section 3.2.2 of the RFC beside the one of `uri.rl`, and the exact set of texts on
which the two differ (`Misread`).

Both grammars list nine alternatives around `"::"`.  `address` says what they have in common: a
word is eight groups, or has `k` groups before a `"::"` and `t` behind it.  The RFC allows every
`k + t ≤ 7`; `uri.rl` has exact repetitions, so `k = 0` or `k + t = 7`.
-/

namespace Rfc3986

/-- `"2" %x30-34 DIGIT`, the octets from 200 to 249. -/
def highOctet : Language UInt8 := d2.lang * d0to4.lang * digit.lang

def decOctet : Language UInt8 :=
  digit.lang + (CharClass.range 49 57).lang * digit.lang + d1.lang * digit.lang ^ 2 +
    highOctet + d2.lang * d5.lang * d0to5.lang

def ipv4address : Language UInt8 :=
  decOctet * dot.lang * decOctet * dot.lang * decOctet * dot.lang * decOctet

def ls32 : Language UInt8 := h16 * colon.lang * h16 + ipv4address

/-- `*n( r )`. -/
def upTo (n : ℕ) (r : Language UInt8) : Language UInt8 := {w | ∃ i ≤ n, w ∈ r ^ i}

def ipv6address : Language UInt8 :=
  (h16 * colon.lang) ^ 6 * ls32 +
  doubleColon * (h16 * colon.lang) ^ 5 * ls32 +
  opt h16 * doubleColon * (h16 * colon.lang) ^ 4 * ls32 +
  opt (upTo 1 (h16 * colon.lang) * h16) * doubleColon * (h16 * colon.lang) ^ 3 * ls32 +
  opt (upTo 2 (h16 * colon.lang) * h16) * doubleColon * (h16 * colon.lang) ^ 2 * ls32 +
  opt (upTo 3 (h16 * colon.lang) * h16) * doubleColon * (h16 * colon.lang) ^ 1 * ls32 +
  opt (upTo 4 (h16 * colon.lang) * h16) * doubleColon * ls32 +
  opt (upTo 5 (h16 * colon.lang) * h16) * doubleColon * h16 +
  opt (upTo 6 (h16 * colon.lang) * h16) * doubleColon

/-- A letter in quotes stands for both cases. -/
def ipvFuture : Language UInt8 :=
  (CharClass.single 86 ||| letterV).lang * plus xdigit.lang * dot.lang *
    plus (unreserved + subDelims + colon.lang)

end Rfc3986

/-! ### The shape of an address -/

/-- `n` groups of 16 bits with colons between them; a dotted quad counts as the last two. -/
inductive Groups (v4 : Language UInt8) : ℕ → List UInt8 → Prop
  | nil : Groups v4 0 []
  | h16 {n : ℕ} {a c : List UInt8} (ha : a ∈ (h16 * colon.lang) ^ n) (hc : c ∈ UriGrammar.h16) :
      Groups v4 (n + 1) (a ++ c)
  | quad {n : ℕ} {a q : List UInt8} (ha : a ∈ (h16 * colon.lang) ^ n) (hq : q ∈ v4) :
      Groups v4 (n + 2) (a ++ q)

/-- Eight groups, or `k` groups, `"::"` and `t` groups for the pairs `P k t`. -/
def address (P : ℕ → ℕ → Prop) (v4 : Language UInt8) : Language UInt8 :=
  {w | Groups v4 8 w ∨
    ∃ k t a e, P k t ∧ Groups 0 k a ∧ Groups v4 t e ∧ w = a ++ 58 :: 58 :: e}

/-- The nine alternatives, for the dotted quads `v4` and what may stand before `"::"` where `n`
    groups and one more are allowed there. -/
def alternatives (v4 : Language UInt8) (front : ℕ → Language UInt8) : Language UInt8 :=
  (h16 * colon.lang) ^ 6 * (h16 * colon.lang * h16 + v4) +
  doubleColon * (h16 * colon.lang) ^ 5 * (h16 * colon.lang * h16 + v4) +
  front 0 * doubleColon * (h16 * colon.lang) ^ 4 * (h16 * colon.lang * h16 + v4) +
  front 1 * doubleColon * (h16 * colon.lang) ^ 3 * (h16 * colon.lang * h16 + v4) +
  front 2 * doubleColon * (h16 * colon.lang) ^ 2 * (h16 * colon.lang * h16 + v4) +
  front 3 * doubleColon * (h16 * colon.lang) ^ 1 * (h16 * colon.lang * h16 + v4) +
  front 4 * doubleColon * (h16 * colon.lang * h16 + v4) +
  front 5 * doubleColon * h16 +
  front 6 * doubleColon

/-- An exact number of groups, the last two of which may be an IPv4 address. -/
theorem mem_groups {v4 : Language UInt8} {n : ℕ} {w : List UInt8} :
    w ∈ (h16 * colon.lang) ^ n * (h16 * colon.lang * h16 + v4) ↔ Groups v4 (n + 2) w := by
  rw [mul_add, ← mul_assoc, ← pow_succ]
  constructor
  · rintro (⟨a, ha, c, hc, rfl⟩ | ⟨a, ha, q, hq, rfl⟩)
    · exact .h16 ha hc
    · exact .quad ha hq
  · intro h
    cases h with
    | h16 ha hc => exact .inl (Language.append_mem_mul ha hc)
    | quad ha hq => exact .inr (Language.append_mem_mul ha hq)

/-- No group, or `n` groups that end with a colon and one more. -/
theorem mem_opt_groups {n : ℕ} {w : List UInt8} :
    w ∈ opt ((h16 * colon.lang) ^ n * h16) ↔ Groups 0 0 w ∨ Groups 0 (n + 1) w := by
  constructor
  · rintro (rfl | ⟨a, ha, c, hc, rfl⟩)
    · exact .inl .nil
    · exact .inr (.h16 ha hc)
  · rintro (h | h)
    · cases h with
      | nil => exact .inl rfl
    · cases h with
      | h16 ha hc => exact .inr (Language.append_mem_mul ha hc)
      | quad _ hq => exact absurd hq (Language.notMem_zero _)

/-- The word for a run of zero groups. -/
theorem mem_doubleColon {w : List UInt8} : w ∈ doubleColon ↔ w = [58, 58] := by
  have hcolon : ∀ b : UInt8, colon.has b = true → b = 58 :=
    fun b => CharClass.eq_of_has_single (b := 58)
  constructor
  · rintro ⟨_, ⟨x, hx, rfl⟩, _, ⟨y, hy, rfl⟩, rfl⟩
    rw [hcolon x hx, hcolon y hy]
    rfl
  · rintro rfl
    exact CharClass.cons_mem_mul.mpr ⟨by decide, CharClass.singleton_mem_lang (by decide)⟩

/-- A compressed address is cut at its double colon. -/
theorem mem_compressed {F T : Language UInt8} {w : List UInt8} :
    w ∈ F * doubleColon * T ↔ ∃ a ∈ F, ∃ e ∈ T, w = a ++ 58 :: 58 :: e := by
  constructor
  · rintro ⟨_, ⟨a, ha, c, hc, rfl⟩, e, he, rfl⟩
    obtain rfl := mem_doubleColon.mp hc
    refine ⟨a, ha, e, he, ?_⟩
    show a ++ [58, 58] ++ e = _
    rw [List.append_assoc]
    rfl
  · rintro ⟨a, ha, e, he, rfl⟩
    have hword := Language.append_mem_mul (Language.append_mem_mul ha (mem_doubleColon.mpr rfl)) he
    rw [List.append_assoc] at hword
    exact hword

/-- A grammar of nine alternatives is the addresses of its pairs: `Q n k` when `k` groups may stand
    before a `"::"` that allows `n` of them and one more. -/
theorem alternatives_eq {front : ℕ → Language UInt8} {Q : ℕ → ℕ → Prop}
    (hfront : ∀ n a, a ∈ front n ↔ ∃ k, Q n k ∧ Groups 0 k a) (v4 : Language UInt8) :
    alternatives v4 front =
      address (fun k t => k = 0 ∧ t = 7 ∨ t ≤ 6 ∧ Q (6 - t) k) v4 := by
  have hls : ∀ w, w ∈ h16 * colon.lang * h16 + v4 ↔ Groups v4 2 w := by
    intro w
    rw [← mem_groups, pow_zero, one_mul]
  have hone : ∀ w, w ∈ h16 ↔ Groups v4 1 w := by
    intro w
    constructor
    · exact fun h => .h16 (a := []) (n := 0) rfl h
    · intro h
      cases h with
      | h16 ha hc =>
        obtain rfl : _ = [] := ha
        exact hc
  have hnil : ∀ w, w ∈ (1 : Language UInt8) ↔ Groups v4 0 w := by
    intro w
    constructor
    · rintro rfl
      exact .nil
    · intro h
      cases h
      rfl
  -- a name for a word of one alternative, so that the nine of them stay short
  obtain ⟨C, hC⟩ : ∃ C : List UInt8 → ℕ → ℕ → Prop, ∀ w n t, C w n t ↔
      ∃ k a e, Q n k ∧ Groups 0 k a ∧ Groups v4 t e ∧ w = a ++ 58 :: 58 :: e :=
    ⟨_, fun _ _ _ => Iff.rfl⟩
  have halt : ∀ {w t n} {T : Language UInt8}, (∀ e, e ∈ T ↔ Groups v4 t e) →
      (w ∈ front n * doubleColon * T ↔ C w n t) := by
    intro w t n T hT
    rw [mem_compressed, hC]
    constructor
    · rintro ⟨a, ha, e, he, rfl⟩
      obtain ⟨k, hk, hka⟩ := (hfront n a).mp ha
      exact ⟨k, a, e, hk, hka, (hT e).mp he, rfl⟩
    · rintro ⟨k, a, e, hk, hka, he, rfl⟩
      exact ⟨a, (hfront n a).mpr ⟨k, hk, hka⟩, e, (hT e).mpr he, rfl⟩
  have hfirst : ∀ {w} {T : Language UInt8}, (∀ e, e ∈ T ↔ Groups v4 7 e) →
      (w ∈ doubleColon * T ↔ ∃ e, Groups v4 7 e ∧ w = 58 :: 58 :: e) := by
    intro w T hT
    rw [← one_mul doubleColon, mem_compressed]
    constructor
    · rintro ⟨_, rfl, e, he, rfl⟩
      exact ⟨e, (hT e).mp he, rfl⟩
    · rintro ⟨e, he, rfl⟩
      exact ⟨[], rfl, e, (hT e).mpr he, rfl⟩
  ext w
  rw [alternatives, ← mul_one (front 6 * doubleColon)]
  simp only [Language.mem_add, mul_assoc _ (_ ^ _) (h16 * colon.lang * h16 + v4), mem_groups,
    hfirst fun _ => mem_groups, halt fun _ => mem_groups, halt hls, halt hone, halt hnil]
  constructor
  · rintro ((((((((h | ⟨e, he, rfl⟩) | h) | h) | h) | h) | h) | h) | h)
    · exact .inl h
    · exact .inr ⟨0, 7, [], e, .inl ⟨rfl, rfl⟩, .nil, he, rfl⟩
    all_goals
      -- the alternatives with groups in front, one for each `t`
      obtain ⟨k, a, e, hk, ha, he, rfl⟩ := (hC ..).mp h
      exact .inr ⟨k, _, a, e, .inr ⟨by decide, hk⟩, ha, he, rfl⟩
  · rintro (h | ⟨k, t, a, e, ⟨rfl, rfl⟩ | ⟨ht, hk⟩, ha, he, rfl⟩)
    · exact .inl (.inl (.inl (.inl (.inl (.inl (.inl (.inl h)))))))
    · cases ha with
      | nil => exact .inl (.inl (.inl (.inl (.inl (.inl (.inl (.inr ⟨e, he, rfl⟩)))))))
    · have h : C (a ++ 58 :: 58 :: e) (6 - t) t := (hC ..).mpr ⟨k, a, e, hk, ha, he, rfl⟩
      generalize a ++ 58 :: 58 :: e = w at h ⊢
      interval_cases t
      · exact .inr h
      · exact .inl (.inr h)
      · exact .inl (.inl (.inr h))
      · exact .inl (.inl (.inl (.inr h)))
      · exact .inl (.inl (.inl (.inl (.inr h))))
      · exact .inl (.inl (.inl (.inl (.inl (.inr h)))))
      · exact .inl (.inl (.inl (.inl (.inl (.inl (.inr h))))))

/-- The pairs of `uri.rl`. -/
def exactPairs (k t : ℕ) : Prop := k = 0 ∧ t ≤ 7 ∨ k + t = 7

/-- The pairs of the RFC. -/
def upToPairs (k t : ℕ) : Prop := k + t ≤ 7

/-- The alternatives of the source, by the numbers of groups before and behind the double colon. -/
theorem ipv6address_eq : UriGrammar.ipv6address = address exactPairs UriGrammar.ipv4address := by
  have hsame : UriGrammar.ipv6address =
      alternatives UriGrammar.ipv4address fun n => opt ((h16 * colon.lang) ^ n * h16) := by
    rw [alternatives, pow_zero, one_mul]
    rfl
  have hfront : ∀ n a, a ∈ opt ((h16 * colon.lang) ^ n * h16) ↔
      ∃ k, (k = 0 ∨ k = n + 1) ∧ Groups 0 k a := by
    intro n a
    rw [mem_opt_groups]
    constructor
    · rintro (h | h)
      · exact ⟨0, .inl rfl, h⟩
      · exact ⟨n + 1, .inr rfl, h⟩
    · rintro ⟨k, rfl | rfl, h⟩
      · exact .inl h
      · exact .inr h
  rw [hsame, alternatives_eq hfront]
  congr 1
  funext k t
  rw [exactPairs]
  exact propext (by omega)

/-- And those of the RFC. -/
theorem Rfc3986.ipv6address_eq :
    Rfc3986.ipv6address = address upToPairs Rfc3986.ipv4address := by
  have hsame : Rfc3986.ipv6address =
      alternatives Rfc3986.ipv4address fun n => opt (Rfc3986.upTo n (h16 * colon.lang) * h16) := by
    have hzero : Rfc3986.upTo 0 (h16 * colon.lang) * h16 = h16 := by
      have hone : Rfc3986.upTo 0 (h16 * colon.lang) = 1 := by
        ext w
        constructor
        · rintro ⟨i, hi, hw⟩
          rw [Nat.le_zero.mp hi, pow_zero] at hw
          exact hw
        · exact fun h => ⟨0, le_rfl, h⟩
      rw [hone, one_mul]
    rw [alternatives, hzero]
    rfl
  have hfront : ∀ n a, a ∈ opt (Rfc3986.upTo n (h16 * colon.lang) * h16) ↔
      ∃ k, k ≤ n + 1 ∧ Groups 0 k a := by
    intro n a
    constructor
    · rintro (rfl | ⟨b, ⟨i, hi, hb⟩, c, hc, rfl⟩)
      · exact ⟨0, Nat.zero_le _, .nil⟩
      · exact ⟨i + 1, Nat.succ_le_succ hi, .h16 hb hc⟩
    · rintro ⟨k, hk, h⟩
      cases h with
      | nil => exact .inl rfl
      | h16 hb hc =>
        exact .inr (Language.append_mem_mul ⟨_, Nat.le_of_succ_le_succ hk, hb⟩ hc)
      | quad _ hq => exact absurd hq (Language.notMem_zero _)
  rw [hsame, alternatives_eq hfront]
  congr 1
  funext k t
  rw [upToPairs]
  exact propext (by omega)

/-! ### Counting groups -/

/-- A group has hexadecimal digits only. -/
theorem within_h16 : CharClass.Within xdigit h16 := by
  have hx : CharClass.Within xdigit xdigit.lang := CharClass.within_lang (Nat.and_self _)
  exact .add (.add (.add hx (.pow hx 2)) (.pow hx 3)) (.pow hx 4)

/-- No group is empty. -/
theorem nil_notMem_h16 : [] ∉ h16 := by
  rintro (((h | h) | h) | h)
  · obtain ⟨_, _, h⟩ := h
    exact nomatch h
  all_goals
    rw [pow_succ'] at h
    exact CharClass.nil_notMem_mul _ _ h

/-- A group has neither a colon nor a dot in it. -/
theorem not_mem_h16 {c : List UInt8} (hc : c ∈ h16) : 58 ∉ c ∧ 46 ∉ c :=
  ⟨fun h => absurd (within_h16 c hc 58 h) (by decide),
    fun h => absurd (within_h16 c hc 46 h) (by decide)⟩

/-- A group with the colon behind it. -/
theorem exists_of_group {w : List UInt8} (hw : w ∈ h16 * colon.lang) :
    ∃ c ∈ h16, w = c ++ [58] := by
  -- a group with its colon
  obtain ⟨c, hc, _, ⟨b, hb, rfl⟩, rfl⟩ := hw
  obtain rfl : b = 58 := CharClass.eq_of_has_single hb
  exact ⟨c, hc, rfl⟩

/-- Groups with a colon behind each: the colons count them, and the first byte is a digit. -/
theorem colons_of_groups {n : ℕ} {w : List UInt8} (hw : w ∈ (h16 * colon.lang) ^ n) :
    w.count 58 = n ∧ 46 ∉ w ∧ (n = 0 ∧ w = [] ∨ (∃ a, w = a ++ [58]) ∧
      ∃ b r, w = b :: r ∧ xdigit.has b = true) := by
  induction n generalizing w with
  | zero =>
    obtain rfl : w = [] := hw
    exact ⟨rfl, List.not_mem_nil, .inl ⟨rfl, rfl⟩⟩
  | succ n ih =>
    rw [pow_succ'] at hw
    obtain ⟨_, hg, r, hr, rfl⟩ := hw
    obtain ⟨c, hc, rfl⟩ := exists_of_group hg
    obtain ⟨hcount, hdot, hends⟩ := ih hr
    obtain ⟨h58, h46⟩ := not_mem_h16 hc
    refine ⟨?_, ?_, .inr ⟨?_, ?_⟩⟩
    · show (c ++ [58] ++ r).count 58 = n + 1
      rw [List.count_append, List.count_append, List.count_eq_zero_of_not_mem h58, hcount]
      exact Nat.add_comm ..
    · show 46 ∉ c ++ [58] ++ r
      simp [h46, hdot]
    · rcases hends with ⟨-, rfl⟩ | ⟨⟨a, rfl⟩, -⟩
      · exact ⟨c, List.append_nil _⟩
      · exact ⟨c ++ [58] ++ a, (List.append_assoc ..).symm⟩
    · cases c with
      | nil => exact absurd hc nil_notMem_h16
      | cons b t => exact ⟨b, t ++ [58] ++ r, by simp, within_h16 _ hc b List.mem_cons_self⟩

/-- One group more than the colons, one more for a dotted quad, and none where the word ends with a
    colon. -/
def units (w : List UInt8) : ℕ :=
  w.count 58 + (if 46 ∈ w then 1 else 0) + if w = [] ∨ w.getLast? = some 58 then 0 else 1

/-- Dotted quads have a dot and no colon. -/
def Quads (v4 : Language UInt8) : Prop := ∀ q ∈ v4, 58 ∉ q ∧ 46 ∈ q

/-- A word that ends in a part without colons does not end in a colon. -/
theorem last_ne_colon {a c : List UInt8} (hne : c ≠ []) (h58 : 58 ∉ c) :
    (a ++ c).getLast? ≠ some 58 := by
  rw [List.getLast?_append_of_ne_nil _ hne]
  exact fun h => h58 (List.mem_of_getLast? h)

/-- A group has a first digit. -/
theorem ne_nil_of_h16 {c : List UInt8} (hc : c ∈ h16) : c ≠ [] := by
  rintro rfl
  exact nil_notMem_h16 hc

/-- A list of groups does not end in a colon. -/
theorem Groups.last_ne {v4 : Language UInt8} (hv : Quads v4) {n : ℕ} {w : List UInt8}
    (h : Groups v4 n w) : w.getLast? ≠ some 58 := by
  cases h with
  | nil => exact nofun
  | h16 ha hc => exact last_ne_colon (ne_nil_of_h16 hc) (not_mem_h16 hc).1
  | quad ha hq => exact last_ne_colon (List.ne_nil_of_mem (hv _ hq).2) (hv _ hq).1

/-- The number of groups can be read off the word, an IPv4 address counting as two. -/
theorem Groups.units_eq {v4 : Language UInt8} (hv : Quads v4) {n : ℕ} {w : List UInt8}
    (h : Groups v4 n w) : units w = n := by
  have hlast := h.last_ne hv
  rw [units]
  cases h with
  | nil => rfl
  | @h16 _ a c ha hc =>
    obtain ⟨hcount, hdot, -⟩ := colons_of_groups ha
    obtain ⟨h58, h46⟩ := not_mem_h16 hc
    have hne := List.append_ne_nil_of_right_ne_nil a (ne_nil_of_h16 hc)
    rw [if_neg (by simp [hdot, h46]), if_neg fun h => h.elim hne hlast, List.count_append,
      hcount, List.count_eq_zero_of_not_mem h58]
  | @quad _ a q ha hq =>
    obtain ⟨hcount, hdot, -⟩ := colons_of_groups ha
    obtain ⟨h58, h46⟩ := hv _ hq
    have hne := List.append_ne_nil_of_right_ne_nil a (List.ne_nil_of_mem h46)
    rw [if_pos (List.mem_append_right _ h46), if_neg fun h => h.elim hne hlast, List.count_append,
      hcount, List.count_eq_zero_of_not_mem h58]

/-- Without dotted quads there is no dot. -/
theorem Groups.dot_notMem {n : ℕ} {w : List UInt8} (h : Groups 0 n w) : 46 ∉ w := by
  cases h with
  | nil => exact List.not_mem_nil
  | h16 ha hc => simp [(colons_of_groups ha).2.1, (not_mem_h16 hc).2]
  | quad _ hq => exact absurd hq (Language.notMem_zero _)

/-- Without IPv4 addresses there is nothing to show about them. -/
theorem quads_zero : Quads 0 := fun _ h => absurd h (Language.notMem_zero _)

/-- Groups before and behind a `"::"`: the second colon counts as one more. -/
theorem units_compressed {v4 : Language UInt8} (hv : Quads v4) {k t : ℕ} {a e : List UInt8}
    (ha : Groups 0 (k + 1) a) (he : Groups v4 t e) :
    units (a ++ 58 :: 58 :: e) = k + 1 + t + 1 := by
  have hunits := ha.units_eq quads_zero
  have hlast := ha.last_ne quads_zero
  have hdot := ha.dot_notMem
  have hne : a ≠ [] := by
    rintro rfl
    exact nomatch hunits
  rw [units, if_neg hdot, if_neg (by simp [hne, hlast])] at hunits
  have heunits := he.units_eq hv
  have hmem : 46 ∈ a ++ 58 :: 58 :: e ↔ 46 ∈ e := by
    simp [hdot]
  -- the text ends as its last groups end
  have hend : (a ++ 58 :: 58 :: e = [] ∨ (a ++ 58 :: 58 :: e).getLast? = some 58) ↔
      (e = [] ∨ e.getLast? = some 58) := by
    cases e with
    | nil => simp
    | cons x e => simp [List.getLast?_append, List.getLast?_cons_cons]
  rw [units] at heunits ⊢
  simp only [hmem, hend, List.count_append, List.count_cons_self]
  omega

/-- The first byte of an address. -/
theorem head_of_groups {n : ℕ} {a : List UInt8} (h : Groups 0 (n + 1) a) :
    ∃ b r, a = b :: r ∧ xdigit.has b = true := by
  cases h with
  | @h16 _ _ c ha hc =>
    obtain ⟨-, -, ⟨-, rfl⟩ | ⟨-, b, r, rfl, hb⟩⟩ := colons_of_groups ha
    · cases c with
      | nil => exact absurd hc nil_notMem_h16
      | cons b r => exact ⟨b, r, rfl, within_h16 _ hc b List.mem_cons_self⟩
    · exact ⟨b, r ++ _, rfl, hb⟩
  | quad _ hq => exact absurd hq (Language.notMem_zero _)

/-! ### Dotted quads -/

/-- Four octets with dots between them. -/
def dottedQuad (o : Fin 4 → List UInt8) : List UInt8 := o 0 ++ 46 :: (o 1 ++ 46 :: (o 2 ++ 46 :: o 3))

/-- `D "." D "." D "." D`. -/
def dotted (D : Language UInt8) : Language UInt8 :=
  D * dot.lang * D * dot.lang * D * dot.lang * D

/-- Four octets with dots between them. -/
theorem mem_dotted {D : Language UInt8} {q : List UInt8} :
    q ∈ dotted D ↔ ∃ o, (∀ i, o i ∈ D) ∧ q = dottedQuad o := by
  have hdot : ∀ {b : UInt8}, dot.has b = true → b = 46 :=
    CharClass.eq_of_has_single (b := 46)
  constructor
  -- the concatenation is taken apart into four octets and three dots
  · rintro ⟨_, ⟨_, ⟨_, ⟨_, ⟨_, ⟨o₀, h₀, _, ⟨a, ha, rfl⟩, rfl⟩, o₁, h₁, rfl⟩, _, ⟨b, hb, rfl⟩, rfl⟩,
      o₂, h₂, rfl⟩, _, ⟨c, hc, rfl⟩, rfl⟩, o₃, h₃, rfl⟩
    refine ⟨![o₀, o₁, o₂, o₃], ?_, ?_⟩
    · intro i
      match i with
      | 0 => exact h₀
      | 1 => exact h₁
      | 2 => exact h₂
      | 3 => exact h₃
    · rw [hdot ha, hdot hb, hdot hc]
      simp [dottedQuad]
  · rintro ⟨o, ho, rfl⟩
    have hd : [46] ∈ dot.lang := CharClass.singleton_mem_lang (by decide)
    have hmem := Language.append_mem_mul (Language.append_mem_mul (Language.append_mem_mul
      (Language.append_mem_mul (Language.append_mem_mul (Language.append_mem_mul (ho 0) hd)
        (ho 1)) hd) (ho 2)) hd) (ho 3)
    rw [dotted]
    simpa [dottedQuad] using hmem

/-- The octets are determined by the word, as none has a dot in it. -/
theorem quad_inj {o o' : Fin 4 → List UInt8} (ho : ∀ i, 46 ∉ o i) (ho' : ∀ i, 46 ∉ o' i)
    (h : dottedQuad o = dottedQuad o') : o = o' := by
  obtain ⟨h₀, h⟩ := append_cons_inj (ho 0) (ho' 0) h
  obtain ⟨h₁, h⟩ := append_cons_inj (ho 1) (ho' 1) h
  obtain ⟨h₂, h₃⟩ := append_cons_inj (ho 2) (ho' 2) h
  funext i
  match i with
  | 0 => exact h₀
  | 1 => exact h₁
  | 2 => exact h₂
  | 3 => exact h₃

/-- An address that ends with a dotted quad with an octet of `S`. -/
def HasOctet (S : Language UInt8) (h : List UInt8) : Prop :=
  ∃ a o, h = a ++ 58 :: dottedQuad o ∧ (∀ i, 46 ∉ o i ∧ 58 ∉ o i) ∧ ∃ i, o i ∈ S

/-- Octets have no dot and no colon. -/
def Octets (D : Language UInt8) : Prop := ∀ w ∈ D, 46 ∉ w ∧ 58 ∉ w

/-- Four octets with dots between them are a dotted quad. -/
theorem Octets.quads {D : Language UInt8} (hD : Octets D) : Quads (dotted D) := by
  intro q hq
  obtain ⟨o, ho, rfl⟩ := mem_dotted.mp hq
  have h58 := fun i => (hD _ (ho i)).2
  refine ⟨?_, ?_⟩
  · simp [dottedQuad, h58]
  · simp [dottedQuad]

/-- There is no colon in four octets without one. -/
theorem quad_noColon {o : Fin 4 → List UInt8} (ho : ∀ i, 58 ∉ o i) : 58 ∉ dottedQuad o := by
  simp [dottedQuad, ho]

/-- The last colon of a word is found in one way. -/
theorem append_cons_inj_right {a b c d : List UInt8} {x : UInt8} (hc : x ∉ c) (hd : x ∉ d)
    (h : a ++ x :: c = b ++ x :: d) : c = d := by
  have hrev := congrArg List.reverse h
  simp only [List.reverse_append, List.reverse_cons, List.append_assoc,
    List.singleton_append] at hrev
  have heq := (append_cons_inj (mt List.mem_reverse.mp hc) (mt List.mem_reverse.mp hd) hrev).1
  exact List.reverse_injective heq

/-- Groups without a dot, or with a dotted quad at the end that may be exchanged for another. -/
theorem Groups.split {D : Language UInt8} {n : ℕ} {u : List UInt8} (h : Groups (dotted D) n u) :
    (46 ∉ u ∧ ∀ D', Groups (dotted D') n u) ∨
    ∃ v o, u = v ++ dottedQuad o ∧ (∀ i, o i ∈ D) ∧ (v = [] ∧ n = 2 ∨ ∃ v', v = v' ++ [58]) ∧
      ∀ D', (∀ i, o i ∈ D') → Groups (dotted D') n u := by
  cases h with
  | nil => exact .inl ⟨List.not_mem_nil, fun _ => .nil⟩
  | h16 ha hc =>
    refine .inl ⟨?_, fun _ => .h16 ha hc⟩
    simp [(colons_of_groups ha).2.1, (not_mem_h16 hc).2]
  | quad ha hq =>
    obtain ⟨o, ho, rfl⟩ := mem_dotted.mp hq
    refine .inr ⟨_, o, rfl, ho, ?_, fun D' ho' => .quad ha (mem_dotted.mpr ⟨o, ho', rfl⟩)⟩
    rcases (colons_of_groups ha).2.2 with ⟨rfl, rfl⟩ | ⟨hend, -⟩
    · exact .inl ⟨rfl, rfl⟩
    · exact .inr hend

/-- An address without a dot, or with a dotted quad behind its last colon that may be exchanged for
    another. -/
theorem split_address {P : ℕ → ℕ → Prop} {D : Language UInt8} {w : List UInt8}
    (h : w ∈ address P (dotted D)) :
    (46 ∉ w ∧ ∀ D', w ∈ address P (dotted D')) ∨
    ∃ a o, w = a ++ 58 :: dottedQuad o ∧ (∀ i, o i ∈ D) ∧
      ∀ D', (∀ i, o i ∈ D') → w ∈ address P (dotted D') := by
  rcases h with h | ⟨k, t, a, e, hP, ha, he, rfl⟩
  · rcases h.split with ⟨hdot, hD'⟩ | ⟨v, o, rfl, ho, hv, hD'⟩
    · exact .inl ⟨hdot, fun D' => .inl (hD' D')⟩
    -- eight groups do not start with the quad
    · obtain ⟨v', rfl⟩ := hv.resolve_left fun h => absurd h.2 (by decide)
      exact .inr ⟨v', o, by simp, ho, fun D' ho' => .inl (hD' D' ho')⟩
  · rcases he.split with ⟨hdot, hD'⟩ | ⟨v, o, rfl, ho, hv, hD'⟩
    · refine .inl ⟨?_, fun D' => .inr ⟨k, t, a, e, hP, ha, hD' D', rfl⟩⟩
      simp [ha.dot_notMem, hdot]
    · have hmem : ∀ D', (∀ i, o i ∈ D') →
          a ++ 58 :: 58 :: (v ++ dottedQuad o) ∈ address P (dotted D') :=
        fun D' ho' => .inr ⟨k, t, a, _, hP, ha, hD' D' ho', rfl⟩
      rcases hv with ⟨rfl, -⟩ | ⟨v', rfl⟩
      · exact .inr ⟨a ++ [58], o, by simp, ho, hmem⟩
      · exact .inr ⟨a ++ 58 :: 58 :: v', o, by simp, ho, hmem⟩

/-- The octets at the end of an address are those of its grammar. -/
theorem HasOctet.exists_mem {P : ℕ → ℕ → Prop} {D S : Language UInt8} (hD : Octets D)
    {w : List UInt8} (hw : w ∈ address P (dotted D)) (h : HasOctet S w) : ∃ v ∈ D, v ∈ S := by
  obtain ⟨a, o, rfl, ho, i, hi⟩ := h
  have hno := quad_noColon fun i => (ho i).2
  rcases split_address hw with ⟨hdot, -⟩ | ⟨a', o', heq, ho', -⟩
  · exact absurd hdot (by simp [dottedQuad])
  · have hno' := quad_noColon fun i => (hD _ (ho' i)).2
    have hquad := append_cons_inj_right hno hno' heq
    obtain rfl := quad_inj (fun i => (ho i).1) (fun i => (hD _ (ho' i)).1) hquad
    exact ⟨o i, ho' i, hi⟩

/-- Without an octet of `S` an address is one of the grammar that lacks `S`. -/
theorem mem_address_of_not_hasOctet {P : ℕ → ℕ → Prop} {D S D' : Language UInt8} (hD : Octets D)
    (hS : ∀ w ∈ D, w ∈ S ∨ w ∈ D') {w : List UInt8} (hw : w ∈ address P (dotted D))
    (h : ¬ HasOctet S w) : w ∈ address P (dotted D') := by
  rcases split_address hw with ⟨-, hD'⟩ | ⟨a, o, rfl, ho, hD'⟩
  · exact hD' D'
  · apply hD'
    intro i
    refine (hS _ (ho i)).resolve_left fun hi => h ?_
    exact ⟨a, o, rfl, fun i => hD _ (ho i), i, hi⟩

/-! ### The two grammars -/

/-- `2 [0-4] digit`, with the byte `2`. -/
def byteTwoOctet : Language UInt8 := byteTwo.lang * d0to4.lang * digit.lang

/-- The octets of the source: where the RFC has those from 200 to 249, the byte 2 stands. -/
theorem decOctet_eq : UriGrammar.decOctet = plainOctet + byteTwoOctet := by
  rw [UriGrammar.decOctet, plainOctet, byteTwoOctet]
  abel

/-- The octets of the RFC. -/
theorem Rfc3986.decOctet_eq : Rfc3986.decOctet = plainOctet + highOctet := by
  rw [Rfc3986.decOctet, plainOctet]
  abel

/-- The octets of the source are short words without dots and colons. -/
theorem octets_decOctet : Octets UriGrammar.decOctet := by
  intro w hw
  have hin := within_decOctet (c := digit ||| byteTwo) (by decide) (by decide) w hw
  exact ⟨fun h => absurd (hin 46 h) (by decide), fun h => absurd (hin 58 h) (by decide)⟩

/-- The octets from 200 on have digits only. -/
theorem within_highOctet : CharClass.Within digit Rfc3986.highOctet :=
  .mul (.mul (CharClass.within_lang (by decide)) (CharClass.within_lang (by decide)))
    (CharClass.within_lang (by decide))

/-- So are those of the RFC. -/
theorem Rfc3986.octets_decOctet : Octets Rfc3986.decOctet := by
  intro w hw
  rw [Rfc3986.decOctet_eq] at hw
  rcases hw with hw | hw
  · refine LoNetfw.Net.octets_decOctet w ?_
    rw [LoNetfw.Net.decOctet_eq]
    exact .inl hw
  · have hin := within_highOctet w hw
    exact ⟨fun h => absurd (hin 46 h) (by decide), fun h => absurd (hin 58 h) (by decide)⟩

/-- An octet from 200 to 249 is not one of `uri.rl`. -/
theorem highOctet_notMem {w : List UInt8} (hw : w ∈ Rfc3986.highOctet) :
    w ∉ UriGrammar.decOctet := by
  obtain ⟨_, ⟨_, ⟨x, hx, rfl⟩, _, ⟨y, hy, rfl⟩, rfl⟩, _, ⟨z, -, rfl⟩, rfl⟩ := hw
  show [x, y, z] ∉ UriGrammar.decOctet
  have hdisj : ∀ {c d : CharClass} {b : UInt8}, d &&& c = 0 → c.has b = true → d.has b = true →
      False := by
    intro c d b h hc hd
    rw [CharClass.not_has_of_disjoint h hc] at hd
    exact Bool.false_ne_true hd
  intro h
  simp only [UriGrammar.decOctet, Language.mem_add, mul_assoc, CharClass.cons_mem_mul] at h
  -- each form of the machine's octet asks for another number of bytes or another class
  rcases h with (((⟨_, -, h⟩ | ⟨-, _, -, h⟩) | ⟨h, -⟩) | ⟨h, -⟩) | ⟨-, h, -⟩
  · exact absurd h (by simp)
  · exact absurd h (by simp)
  · exact hdisj (by decide) hx h
  · exact hdisj (by decide) hx h
  · exact hdisj (by decide) hy h

/-- An octet with the byte `2` is not one of the RFC. -/
theorem byteTwoOctet_notMem {w : List UInt8} (hw : w ∈ byteTwoOctet) :
    w ∉ Rfc3986.decOctet := by
  obtain ⟨_, ⟨_, ⟨x, hx, rfl⟩, _, ⟨y, -, rfl⟩, rfl⟩, _, ⟨z, -, rfl⟩, rfl⟩ := hw
  intro h
  have hx2 : digit.has x = false := CharClass.not_has_of_disjoint (by decide) hx
  have hin : CharClass.Within digit Rfc3986.decOctet := by
    have hd : CharClass.Within digit digit.lang := CharClass.within_lang (Nat.and_self _)
    refine .add (.add (.add (.add hd ?_) ?_) within_highOctet) ?_
    · exact .mul (CharClass.within_lang (by decide)) hd
    · exact .mul (CharClass.within_lang (by decide)) (.pow hd 2)
    · exact .mul (.mul (CharClass.within_lang (by decide)) (CharClass.within_lang (by decide)))
        (CharClass.within_lang (by decide))
  rw [hin _ h x List.mem_cons_self] at hx2
  exact Bool.false_ne_true hx2.symm

/-- A compressed address of the RFC with fewer than seven groups, some of them in front, is none of
    `uri.rl`. -/
theorem short_notMem {v4 v4' : Language UInt8} (hv : Quads v4) (hv' : Quads v4') {k t : ℕ}
    {a e : List UInt8} (hk : 0 < k) (hkt : k + t < 7) (ha : Groups 0 k a) (he : Groups v4 t e) :
    a ++ 58 :: 58 :: e ∉ address exactPairs v4' := by
  obtain ⟨k, rfl⟩ := Nat.exists_eq_succ_of_ne_zero hk.ne'
  have hunits := units_compressed hv ha he
  rintro (h | ⟨k', t', a', e', hP, ha', he', heq⟩)
  · rw [h.units_eq hv'] at hunits
    omega
  · cases k' with
    | zero =>
      -- the other word starts with a colon
      cases ha' with
      | nil =>
        obtain ⟨b, r, rfl, hb⟩ := head_of_groups ha
        obtain ⟨rfl, -⟩ := List.cons.inj heq
        exact absurd hb (by decide)
    | succ k' =>
      rw [heq, units_compressed hv' ha' he'] at hunits
      rw [exactPairs] at hP
      omega

/-- The texts on which the parser and section 3.2.2 of the RFC differ. -/
inductive Misread (h : List UInt8) : Prop
  | capitalV (hf : h ∈ Rfc3986.ipvFuture) (hV : h.head? = some 86)
  | highOctet (h6 : h ∈ Rfc3986.ipv6address) (ho : HasOctet Rfc3986.highOctet h)
  | byteTwo (h6 : h ∈ UriGrammar.ipv6address) (ho : HasOctet byteTwoOctet h)
  | short {k t : ℕ} {a e : List UInt8} (hk : 0 < k) (hkt : k + t < 7) (ha : Groups 0 k a)
      (he : Groups Rfc3986.ipv4address t e) (heq : h = a ++ 58 :: 58 :: e)

/-- The first byte of an address is a hexadecimal digit or a colon. -/
theorem head_of_address {P : ℕ → ℕ → Prop} {v4 : Language UInt8} {h : List UInt8}
    (hh : h ∈ address P v4) : ∃ b r, h = b :: r ∧ (xdigit ||| colon).has b = true := by
  have hx : ∀ {b : UInt8}, xdigit.has b = true → (xdigit ||| colon).has b = true :=
    fun hb => CharClass.has_of_subset (by decide) hb
  rcases hh with hh | ⟨k, t, a, e, -, ha, -, rfl⟩
  · cases hh with
    | h16 hg _ =>
      obtain ⟨-, b, r, rfl, hb⟩ := (colons_of_groups hg).2.2.resolve_left fun h => nomatch h.1
      exact ⟨b, _, rfl, hx hb⟩
    | quad hg _ =>
      obtain ⟨-, b, r, rfl, hb⟩ := (colons_of_groups hg).2.2.resolve_left fun h => nomatch h.1
      exact ⟨b, _, rfl, hx hb⟩
  · cases k with
    | zero =>
      cases ha with
      -- nothing in front of the `"::"`
      | nil => exact ⟨58, _, rfl, by decide⟩
    | succ k =>
      obtain ⟨b, r, rfl, hb⟩ := head_of_groups ha
      exact ⟨b, _, rfl, hx hb⟩

/-- An address does not start like an `IPvFuture`. -/
theorem address_not_future {P : ℕ → ℕ → Prop} {v4 L : Language UInt8} {c : CharClass}
    {h : List UInt8} (hc : c &&& (xdigit ||| colon) = 0) (hh : h ∈ address P v4) :
    h ∉ c.lang * L := by
  obtain ⟨b, r, rfl, hb⟩ := head_of_address hh
  intro hf
  have hno := CharClass.not_has_of_disjoint hc hb
  rw [(CharClass.cons_mem_mul.mp hf).1] at hno
  exact Bool.false_ne_true hno.symm

/-- `IPvFuture` behind its first letter. -/
def futureTail : Language UInt8 :=
  plus xdigit.lang * dot.lang * plus (unreserved + subDelims + colon.lang)

/-- The source takes a lower-case `v` only. -/
theorem ipvFuture_eq : UriGrammar.ipvFuture = letterV.lang * futureTail := by
  rw [UriGrammar.ipvFuture, futureTail, mul_assoc, mul_assoc, mul_assoc]

/-- The RFC takes either `v`. -/
theorem Rfc3986.ipvFuture_eq :
    Rfc3986.ipvFuture = (CharClass.single 86 ||| letterV).lang * futureTail := by
  rw [Rfc3986.ipvFuture, futureTail, mul_assoc, mul_assoc, mul_assoc]

/-- The two grammars of `IPvFuture` differ in the capital letter. -/
theorem ipvFuture_iff {h : List UInt8} (hV : h.head? ≠ some 86) :
    h ∈ UriGrammar.ipvFuture ↔ h ∈ Rfc3986.ipvFuture := by
  rw [ipvFuture_eq, Rfc3986.ipvFuture_eq]
  cases h with
  | nil => exact iff_of_false (CharClass.nil_notMem_mul _ _) (CharClass.nil_notMem_mul _ _)
  | cons b r =>
    have hb : (CharClass.single 86).has b = false := by
      rw [Bool.eq_false_iff]
      exact fun h86 => hV (congrArg some (CharClass.eq_of_has_single h86))
    rw [CharClass.cons_mem_mul, CharClass.cons_mem_mul, CharClass.has_or, hb, Bool.false_or]

/-- The literals of `uri.rl` among those of the RFC, where none of the differences is met. -/
theorem mem_iff_of_not_misread {h : List UInt8} (hm : ¬ Misread h) :
    h ∈ UriGrammar.ipv6address + UriGrammar.ipvFuture ↔
      h ∈ Rfc3986.ipv6address + Rfc3986.ipvFuture := by
  -- the octets differ by byte 2 on one side and by 200 to 255 on the other
  have hcode : ∀ w ∈ UriGrammar.decOctet, w ∈ byteTwoOctet ∨ w ∈ Rfc3986.decOctet := by
    intro w hw
    rw [decOctet_eq] at hw
    rw [Rfc3986.decOctet_eq]
    exact hw.symm.imp_right .inl
  have hrfc : ∀ w ∈ Rfc3986.decOctet, w ∈ Rfc3986.highOctet ∨ w ∈ UriGrammar.decOctet := by
    intro w hw
    rw [Rfc3986.decOctet_eq] at hw
    rw [decOctet_eq]
    exact hw.symm.imp_right .inl
  constructor
  · rintro (h6 | hf)
    · left
      have hno : ¬ HasOctet byteTwoOctet h := fun ho => hm (.byteTwo h6 ho)
      rw [ipv6address_eq] at h6
      rw [Rfc3986.ipv6address_eq]
      rcases mem_address_of_not_hasOctet octets_decOctet hcode h6 hno with h8 | hc
      · exact .inl h8
      · obtain ⟨k, t, a, e, hP, ha, he, rfl⟩ := hc
        refine .inr ⟨k, t, a, e, ?_, ha, he, rfl⟩
        rw [exactPairs] at hP
        rw [upToPairs]
        omega
    · right
      -- a capital `V` begins no word of the machine
      by_cases hV : h.head? = some 86
      · exfalso
        rw [ipvFuture_eq] at hf
        cases h with
        | nil => exact CharClass.nil_notMem_mul _ _ hf
        | cons b r =>
          obtain rfl := Option.some.inj hV
          exact absurd (CharClass.cons_mem_mul.mp hf).1 (by decide)
      · exact (ipvFuture_iff hV).mp hf
  · rintro (h6 | hf)
    · left
      have hno : ¬ HasOctet Rfc3986.highOctet h := fun ho => hm (.highOctet h6 ho)
      rw [Rfc3986.ipv6address_eq] at h6
      rw [ipv6address_eq]
      refine mem_address_of_not_hasOctet Rfc3986.octets_decOctet hrfc ?_ hno
      rcases h6 with h8 | ⟨k, t, a, e, hP, ha, he, rfl⟩
      · exact .inl h8
      · refine .inr ⟨k, t, a, e, ?_, ha, he, rfl⟩
        -- with fewer pairs than the grammar asks for, the literal is one of the short ones
        by_contra hne
        rw [upToPairs] at hP
        rw [exactPairs] at hne
        exact hm (.short (by omega) (by omega) ha he rfl)
    · right
      exact (ipvFuture_iff fun hV => hm (.capitalV hf hV)).mpr hf

/-- Where one of the differences is met, the literal is in one of the two grammars only. -/
theorem not_mem_iff_of_misread {h : List UInt8} (hm : Misread h) :
    ¬ (h ∈ UriGrammar.ipv6address + UriGrammar.ipvFuture ↔
      h ∈ Rfc3986.ipv6address + Rfc3986.ipvFuture) := by
  -- an address is never also an `IPvFuture`, so the other side cannot help
  have hno : ∀ {P v4}, h ∈ address P v4 → h ∉ UriGrammar.ipvFuture ∧ h ∉ Rfc3986.ipvFuture := by
    intro P v4 hh
    rw [ipvFuture_eq, Rfc3986.ipvFuture_eq]
    exact ⟨address_not_future (by decide) hh, address_not_future (by decide) hh⟩
  intro hiff
  cases hm with
  | capitalV hf hV =>
    rcases hiff.mpr (.inr hf) with h6 | hf'
    · rw [ipv6address_eq] at h6
      exact (hno h6).2 hf
    · rw [ipvFuture_eq] at hf'
      cases h with
      | nil => exact nomatch hV
      | cons b r =>
        obtain rfl := Option.some.inj hV
        exact absurd (CharClass.cons_mem_mul.mp hf').1 (by decide)
  | highOctet h6 ho =>
    rcases hiff.mpr (.inl h6) with h6' | hf
    · rw [ipv6address_eq] at h6'
      -- the machine would have read the octet by its own rule
      obtain ⟨v, hv, hv'⟩ := ho.exists_mem octets_decOctet h6'
      exact highOctet_notMem hv' hv
    · rw [Rfc3986.ipv6address_eq] at h6
      exact (hno h6).1 hf
  | byteTwo h6 ho =>
    rcases hiff.mp (.inl h6) with h6' | hf
    · rw [Rfc3986.ipv6address_eq] at h6'
      obtain ⟨v, hv, hv'⟩ := ho.exists_mem Rfc3986.octets_decOctet h6'
      exact byteTwoOctet_notMem hv' hv
    · rw [ipv6address_eq] at h6
      exact (hno h6).2 hf
  | @short k t a e hk hkt ha he heq =>
    have h6 : h ∈ address upToPairs Rfc3986.ipv4address :=
      .inr ⟨k, t, a, e, Nat.le_of_lt hkt, ha, he, heq⟩
    have hmem := h6
    rw [← Rfc3986.ipv6address_eq] at hmem
    rcases hiff.mpr (.inl hmem) with h6' | hf
    · rw [ipv6address_eq, heq] at h6'
      exact short_notMem Rfc3986.octets_decOctet.quads octets_decOctet.quads hk hkt ha he h6'
    · exact (hno h6).1 hf

/-- **IP literals of the parser and of the RFC.**  `Uri::create("x://[" + h + "]")` is non-null
    exactly when `h` is an `IPv6address` or an `IPvFuture` of the RFC, for all texts but those of
    `Misread`. -/
theorem Uri.literal_rfc_iff (h : List UInt8) :
    ((∃ u, Uri.create (literalUri h) = .ok (some u)) ↔
      h ∈ Rfc3986.ipv6address + Rfc3986.ipvFuture) ↔ ¬ Misread h := by
  rw [Uri.accepts_literal_iff]
  exact ⟨fun hiff hm => not_mem_iff_of_misread hm hiff, mem_iff_of_not_misread⟩

/-- `fe80::1` is an address of the RFC, and `x://[fe80::1]` is not accepted. -/
theorem Uri.create_linkLocal :
    [102, 101, 56, 48, 58, 58, 49] ∈ Rfc3986.ipv6address + Rfc3986.ipvFuture ∧
      Uri.create (literalUri [102, 101, 56, 48, 58, 58, 49]) = .ok none := by
  refine ⟨.inl ?_, by decide +kernel⟩
  have hx : ∀ {b : UInt8}, xdigit.has b = true → [b] ∈ xdigit.lang := CharClass.singleton_mem_lang
  -- one group on either side of the `::`
  have hfe80 : [102, 101, 56, 48] ∈ h16 := by
    refine .inr ?_
    rw [pow_succ', pow_succ', pow_succ', pow_one]
    exact Language.append_mem_mul (hx (by decide)) (Language.append_mem_mul (hx (by decide))
      (Language.append_mem_mul (hx (by decide)) (hx (by decide))))
  have hone : [49] ∈ h16 := .inl (.inl (.inl (hx (by decide))))
  have hpair : upToPairs 1 1 := by
    rw [upToPairs]
    decide
  rw [Rfc3986.ipv6address_eq]
  exact .inr ⟨1, 1, [102, 101, 56, 48], [49], hpair, .h16 (n := 0) (a := []) rfl hfe80,
    .h16 (n := 0) (a := []) rfl hone, rfl⟩

end LoNetfw.Net
