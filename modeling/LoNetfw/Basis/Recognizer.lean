import Mathlib.Computability.Language
import Mathlib.Algebra.Order.Kleene
import Mathlib.Data.Nat.Bitwise
import Mathlib.Order.CompletePartialOrder

namespace Basis

open scoped Computability

/-!
# Recognisers — which language a table of transitions accepts

A hand-written or generated scanner is a table: for each state the classes of bytes it moves on.
To say which language such a table accepts, the states are labelled with the nonterminals that may
still be read from them, and two things are compared:

* the nonterminals solve a system of right-linear equations (`Equations.Solves`): a word of `i`
  is empty, or a byte of a class followed by a word of another nonterminal;
* every row of the table makes the moves of its label (`Equations.agrees`): a finite check that
  compares classes and never looks at single bytes.

Then from every state exactly the words of its label are accepted (`Table.accepts_iff`).
-/

/-! ### Classes of bytes -/

/-- A set of bytes: byte `b` belongs to it when bit `b` is set. -/
abbrev CharClass := ℕ

namespace CharClass

/-- Membership of one byte. -/
def has (c : CharClass) (b : UInt8) : Bool := Nat.testBit c b.toNat

/-- The bytes `lo`, …, `hi`. -/
def range (lo hi : ℕ) : CharClass := 2 ^ (hi + 1) - 2 ^ lo

/-- One byte. -/
def single (b : ℕ) : CharClass := 2 ^ b

/-- The bytes of `c` that are not in `d`. -/
def diff (c d : CharClass) : CharClass := c ^^^ (c &&& d)

/-- The one-byte words of a class. -/
def lang (c : CharClass) : Language UInt8 := {w | ∃ b, c.has b = true ∧ w = [b]}

/-- A union has what either class has. -/
@[simp] theorem has_or (c d : CharClass) (b : UInt8) :
    has (c ||| d) b = (c.has b || d.has b) := Nat.testBit_or ..

/-- A class of one byte. -/
@[simp] theorem has_single (n : ℕ) (b : UInt8) : has (single n) b = decide (n = b.toNat) :=
  Nat.testBit_two_pow

/-- Its member is that byte. -/
theorem eq_of_has_single {b x : UInt8} (h : has (single b.toNat) x = true) : x = b := by
  rw [has_single, decide_eq_true_eq] at h
  exact (UInt8.toNat_inj.mp h).symm

/-- A class of consecutive bytes. -/
@[simp] theorem has_range (lo hi : ℕ) (b : UInt8) :
    has (range lo hi) b = true ↔ lo ≤ b.toNat ∧ b.toNat ≤ hi := by
  rw [has, range]
  by_cases hle : lo ≤ hi + 1
  · have hmul : 2 ^ (hi + 1) - 2 ^ lo = 2 ^ lo * (2 ^ (hi + 1 - lo) - 1) := by
      rw [Nat.mul_sub, ← Nat.pow_add, Nat.add_sub_cancel' hle, Nat.mul_one]
    rw [hmul, Nat.testBit_two_pow_mul, Nat.testBit_two_pow_sub_one, Bool.and_eq_true,
      decide_eq_true_eq, decide_eq_true_eq]
    omega
  · have hzero : 2 ^ (hi + 1) - 2 ^ lo = 0 :=
      Nat.sub_eq_zero_of_le (Nat.pow_le_pow_right (by omega) (by omega))
    rw [hzero, Nat.zero_testBit]
    refine iff_of_false Bool.false_ne_true ?_
    omega

/-- A class inside another one: its bytes are bytes of the other. -/
theorem has_of_subset {c d : CharClass} (h : d &&& c = c) {b : UInt8} (hb : c.has b = true) :
    d.has b = true := by
  have hland : Nat.testBit (d &&& c) b.toNat = true := by rw [h]; exact hb
  rw [Nat.testBit_land, Bool.and_eq_true] at hland
  exact hland.1

/-- Two classes without a common bit have no byte in common. -/
theorem not_has_of_disjoint {c d : CharClass} (h : d &&& c = 0) {b : UInt8}
    (hb : c.has b = true) : d.has b = false := by
  have hland : Nat.testBit (d &&& c) b.toNat = false := by rw [h]; exact Nat.zero_testBit _
  rw [Nat.testBit_land, Bool.and_eq_false_iff] at hland
  exact hland.resolve_right (by rw [show Nat.testBit c b.toNat = true from hb]; decide)

/-- A member of the class is a word of its language. -/
theorem singleton_mem_lang {c : CharClass} {b : UInt8} (h : c.has b = true) : [b] ∈ c.lang :=
  ⟨b, h, rfl⟩

/-- A larger class has the larger language. -/
theorem lang_mono {c d : CharClass} (h : d &&& c = c) : c.lang ≤ d.lang := by
  rintro w ⟨b, hb, rfl⟩
  exact singleton_mem_lang (has_of_subset h hb)

/-- The language of a union. -/
theorem lang_or (c d : CharClass) : lang (c ||| d) = c.lang + d.lang := by
  ext w
  rw [Language.mem_add]
  constructor
  · rintro ⟨b, hb, rfl⟩
    rw [has_or, Bool.or_eq_true] at hb
    exact hb.imp singleton_mem_lang singleton_mem_lang
  · rintro (⟨b, hb, rfl⟩ | ⟨b, hb, rfl⟩)
    · exact singleton_mem_lang (by rw [has_or, hb, Bool.true_or])
    · exact singleton_mem_lang (by rw [has_or, hb, Bool.or_true])

/-- No word that starts with a class is empty. -/
theorem nil_notMem_mul (c : CharClass) (L : Language UInt8) : [] ∉ c.lang * L := by
  rintro ⟨_, ⟨b, _, rfl⟩, v, _, h⟩
  exact List.cons_ne_nil b v h

/-- A class is read off the front of a word. -/
theorem cons_mem_mul {c : CharClass} {L : Language UInt8} {b : UInt8} {w : List UInt8} :
    b :: w ∈ c.lang * L ↔ c.has b = true ∧ w ∈ L := by
  constructor
  · rintro ⟨_, ⟨b', hb, rfl⟩, v, hv, h⟩
    obtain ⟨rfl, rfl⟩ := List.cons.inj h
    exact ⟨hb, hv⟩
  · rintro ⟨hb, hw⟩
    exact ⟨[b], singleton_mem_lang hb, w, hw, rfl⟩

/-- All bytes of the words of a language belong to the class. -/
def Within (c : CharClass) (L : Language UInt8) : Prop := ∀ w ∈ L, ∀ b ∈ w, c.has b = true

/-- A class inside another stays within its language. -/
theorem within_lang {c d : CharClass} (h : c &&& d = d) : c.Within d.lang := by
  rintro w ⟨x, hx, rfl⟩ b hb
  rw [List.mem_singleton.mp hb]
  exact has_of_subset h hx

/-- The empty word is within every class. -/
theorem within_one (c : CharClass) : c.Within 1 := by
  rintro w rfl b hb
  exact absurd hb List.not_mem_nil

/-- Either of two languages stays within the class. -/
theorem Within.add {c : CharClass} {L M : Language UInt8} (hL : c.Within L) (hM : c.Within M) :
    c.Within (L + M) := by
  rintro w (hw | hw)
  · exact hL w hw
  · exact hM w hw

/-- Two languages in turn stay within the class. -/
theorem Within.mul {c : CharClass} {L M : Language UInt8} (hL : c.Within L) (hM : c.Within M) :
    c.Within (L * M) := by
  rintro w ⟨u, hu, v, hv, rfl⟩ b hb
  rcases List.mem_append.mp hb with hb | hb
  · exact hL u hu b hb
  · exact hM v hv b hb

/-- A number of repetitions stays within the class. -/
theorem Within.pow {c : CharClass} {L : Language UInt8} (hL : c.Within L) (n : ℕ) :
    c.Within (L ^ n) := by
  induction n with
  | zero =>
    rw [pow_zero]
    exact within_one c
  | succ n ih =>
    rw [pow_succ]
    exact ih.mul hL

/-- Any repetition stays within the class. -/
theorem Within.kstar {c : CharClass} {L : Language UInt8} (hL : c.Within L) : c.Within L∗ := by
  intro w hw b hb
  obtain ⟨l, rfl, hl⟩ := Language.mem_kstar.mp hw
  obtain ⟨u, hu, hbu⟩ := List.mem_flatten.mp hb
  exact hL u (hl u hu) b hbu

/-- Every input is empty or starts with a byte. -/
theorem top_eq : (⊤ : Language UInt8) = 1 + (range 0 255).lang * ⊤ := by
  apply le_antisymm
  · intro w _
    rcases w with _ | ⟨b, w⟩
    · exact .inl rfl
    · refine .inr (cons_mem_mul.mpr ⟨?_, trivial⟩)
      show Nat.testBit (2 ^ 256 - 1) b.toNat = true
      rw [Nat.testBit_two_pow_sub_one, decide_eq_true_eq]
      exact b.toNat_lt
  · exact le_top

end CharClass

/-- A loop is left at once, or run through once more. -/
theorem kstar_mul_unfold (a L : Language UInt8) : a∗ * L = L + a * (a∗ * L) := by
  conv_lhs => rw [← one_add_mul_kstar]
  rw [add_mul, one_mul, mul_assoc]

/-! ### Right-linear equations -/

section

variable {ι : Type}

/-- A right-linear system: the classes an item moves on and where to, and whether the empty word
    belongs to it. -/
structure Equations (ι : Type) where
  moves : ι → List (CharClass × ι)
  final : ι → Bool

namespace Equations

variable (E : Equations ι)

/-- What a list of moves leads to. -/
def movesLang (lang : ι → Language UInt8) (ms : List (CharClass × ι)) : Language UInt8 :=
  (ms.map fun m => m.1.lang * lang m.2).sum

/-- A family of languages solves the system. -/
def Solves (lang : ι → Language UInt8) : Prop :=
  ∀ i, lang i = (if E.final i then 1 else 0) + movesLang lang (E.moves i)

section

variable (lang : ι → Language UInt8)

@[simp] theorem movesLang_nil : movesLang lang [] = 0 := rfl

/-- A first move, or one of the others. -/
theorem movesLang_cons (c : CharClass) (i : ι) (ms : List (CharClass × ι)) :
    movesLang lang ((c, i) :: ms) = c.lang * lang i + movesLang lang ms := by
  rw [movesLang, List.map_cons, List.sum_cons]
  rfl

/-- One move. -/
theorem movesLang_singleton (c : CharClass) (i : ι) :
    movesLang lang [(c, i)] = c.lang * lang i := by
  rw [movesLang_cons, movesLang_nil, add_zero]

/-- Moves of either list. -/
theorem movesLang_append (ms ms' : List (CharClass × ι)) :
    movesLang lang (ms ++ ms') = movesLang lang ms + movesLang lang ms' := by
  rw [movesLang, List.map_append, List.sum_append]
  rfl

/-- Moves under a condition. -/
theorem movesLang_ite (b : Prop) [Decidable b] (ms : List (CharClass × ι)) :
    movesLang lang (if b then ms else []) = if b then movesLang lang ms else 0 := by
  split <;> rfl

/-- Moves on one class to several items. -/
theorem movesLang_map (c : CharClass) (L : List ι) :
    movesLang lang (L.map fun i => (c, i)) = c.lang * (L.map lang).sum := by
  induction L with
  | nil => exact (mul_zero _).symm
  | cons i L ih => rw [List.map_cons, movesLang_cons, ih, List.map_cons, List.sum_cons, mul_add]

end

/-- A word of a finite sum is a word of a summand. -/
theorem mem_list_sum {L : List (Language UInt8)} {w : List UInt8} :
    w ∈ L.sum ↔ ∃ l ∈ L, w ∈ l := by
  induction L with
  | nil => simp
  | cons l L ih => rw [List.sum_cons, Language.mem_add, ih, List.exists_mem_cons_iff]

variable {E} {lang : ι → Language UInt8}

/-- The empty word belongs to the final items. -/
theorem Solves.nil_mem (h : E.Solves lang) (i : ι) : [] ∈ lang i ↔ E.final i = true := by
  rw [h i, Language.mem_add, movesLang, mem_list_sum]
  constructor
  · rintro (hw | ⟨_, hl, hw⟩)
    · by_contra hi
      rw [if_neg hi] at hw
      exact hw
    · obtain ⟨m, _, rfl⟩ := List.mem_map.mp hl
      exact absurd hw (CharClass.nil_notMem_mul _ _)
  · intro hi
    rw [if_pos hi]
    exact .inl Language.nil_mem_one

/-- A longer word makes one of the moves. -/
theorem Solves.cons_mem (h : E.Solves lang) (i : ι) (b : UInt8) (w : List UInt8) :
    b :: w ∈ lang i ↔ ∃ m ∈ E.moves i, m.1.has b = true ∧ w ∈ lang m.2 := by
  rw [h i, Language.mem_add, movesLang, mem_list_sum]
  constructor
  · rintro (hw | ⟨_, hl, hw⟩)
    · split at hw
      · exact absurd ((Language.mem_one _).mp hw) (List.cons_ne_nil b w)
      · exact absurd hw (Language.notMem_zero _)
    · obtain ⟨m, hm, rfl⟩ := List.mem_map.mp hl
      exact ⟨m, hm, CharClass.cons_mem_mul.mp hw⟩
  · rintro ⟨m, hm, hb⟩
    exact .inr ⟨_, List.mem_map_of_mem hm, CharClass.cons_mem_mul.mpr hb⟩

/-! ### Rows that make the moves of their label -/

variable [DecidableEq ι]

/-- The moves `ms` and one entry of a row, a class with the label it leads to: a move is made by
    all bytes of the class or by none, and the label is what the moves made lead to. -/
def entryAgrees (ms : List (CharClass × ι)) (e : CharClass × List ι) : Bool :=
  (ms.all fun m =>
    Nat.beq (m.1 &&& e.1) 0 || (Nat.beq (m.1 &&& e.1) e.1 && e.2.contains m.2)) &&
  e.2.all fun j => ms.any fun m => Nat.beq (m.1 &&& e.1) e.1 && j == m.2

/-- The bytes a row moves on. -/
def domain (row : List (CharClass × List ι)) : CharClass := row.foldr (fun e c => e.1 ||| c) 0

/-- A row makes exactly the moves `ms`: every entry agrees with them, and no move is left out. -/
def agrees (row : List (CharClass × List ι)) (ms : List (CharClass × ι)) : Bool :=
  row.all (entryAgrees ms) && ms.all fun m => Nat.beq (domain row &&& m.1) m.1

/-- The check of one state with the label `l`: its row makes the moves of the label, and it
    accepts when the label has a final item. -/
def checks (E : Equations ι) (row : List (CharClass × List ι)) (out : Bool) (l : List ι) : Bool :=
  agrees row (l.flatMap E.moves) && (out == l.any E.final)

omit [DecidableEq ι] in
/-- A byte of a row's domain is in one of its classes. -/
theorem has_domain {row : List (CharClass × List ι)} {b : UInt8}
    (h : (domain row).has b = true) : ∃ e ∈ row, e.1.has b = true := by
  induction row with
  | nil => exact absurd h (by simp [domain, CharClass.has])
  | cons e row ih =>
    rw [domain, List.foldr_cons, CharClass.has_or, Bool.or_eq_true] at h
    rcases h with h | h
    · exact ⟨e, List.mem_cons_self, h⟩
    · obtain ⟨e', he', hb⟩ := ih h
      exact ⟨e', List.mem_cons_of_mem _ he', hb⟩

/-- In an agreeing entry, the bytes of the class make the moves to the items of the label. -/
theorem entryAgrees_iff {ms : List (CharClass × ι)} {e : CharClass × List ι}
    (h : entryAgrees ms e = true) {b : UInt8} (hb : e.1.has b = true) (j : ι) :
    (∃ m ∈ ms, m.1.has b = true ∧ m.2 = j) ↔ j ∈ e.2 := by
  rw [entryAgrees, Bool.and_eq_true, List.all_eq_true, List.all_eq_true] at h
  constructor
  · rintro ⟨m, hm, hmb, rfl⟩
    rcases (Bool.or_eq_true _ _).mp (h.1 m hm) with h0 | h1
    · have := CharClass.not_has_of_disjoint (Nat.eq_of_beq_eq_true h0) hb
      exact absurd hmb (by rw [this]; exact Bool.false_ne_true)
    · exact List.contains_iff_mem.mp ((Bool.and_eq_true _ _).mp h1).2
  · intro hj
    obtain ⟨m, hm, hmj⟩ := List.any_eq_true.mp (h.2 j hj)
    rw [Bool.and_eq_true, beq_iff_eq] at hmj
    exact ⟨m, hm, CharClass.has_of_subset (Nat.eq_of_beq_eq_true hmj.1) hb, hmj.2.symm⟩

end Equations

/-! ### Tables -/

/-- A deterministic table: the entries of each state, of which the first whose class has the byte
    is taken, and which states accept at the end of the input. -/
structure Table (σ : Type) where
  row : σ → List (CharClass × σ)
  out : σ → Bool

namespace Table

variable {σ : Type} (T : Table σ)

/-- The state after one byte. -/
def next (q : σ) (b : UInt8) : Option σ := ((T.row q).find? fun e => e.1.has b).map (·.2)

/-- Whether the input is accepted from a state. -/
def accepts : σ → List UInt8 → Bool
  | q, [] => T.out q
  | q, b :: w => match T.next q b with
    | some q' => accepts q' w
    | none => false

variable {T}

/-- A move is one of the row's. -/
theorem next_eq_some {q q' : σ} {b : UInt8} (h : T.next q b = some q') :
    ∃ e ∈ T.row q, e.1.has b = true ∧ e.2 = q' := by
  obtain ⟨e, he, rfl⟩ := Option.map_eq_some_iff.mp h
  have hb : e.1.has b = true := List.find?_some (p := fun e : CharClass × σ => e.1.has b) he
  exact ⟨e, List.mem_of_find?_eq_some he, hb, rfl⟩

/-- Without a move no class of the row has the byte. -/
theorem next_eq_none {q : σ} {b : UInt8} (h : T.next q b = none) :
    ∀ e ∈ T.row q, e.1.has b = false := by
  intro e he
  rw [next, Option.map_eq_none_iff, List.find?_eq_none] at h
  exact Bool.eq_false_iff.mpr (h e he)

variable [DecidableEq ι] {E : Equations ι} {label : σ → List ι} {lang : ι → Language UInt8}

/-- The row of a state, with the labels of the states it leads to. -/
def labelled (T : Table σ) (label : σ → List ι) (q : σ) : List (CharClass × List ι) :=
  (T.row q).map fun e => (e.1, label e.2)

/-- One byte: the label of the next state is what the moves of the label lead to, and there is no
    next state only if the label has no move. -/
theorem checks_next {q : σ} (h : E.checks (T.labelled label q) (T.out q) (label q) = true)
    (hE : E.Solves lang) (b : UInt8) (w : List UInt8) :
    (∃ i ∈ label q, b :: w ∈ lang i) ↔ ∃ q' ∈ T.next q b, ∃ j ∈ label q', w ∈ lang j := by
  rw [Equations.checks, Bool.and_eq_true, Equations.agrees, Bool.and_eq_true, List.all_eq_true,
    List.all_eq_true] at h
  have hmoves : (∃ i ∈ label q, b :: w ∈ lang i) ↔
      ∃ m ∈ (label q).flatMap E.moves, m.1.has b = true ∧ w ∈ lang m.2 := by
    simp only [hE.cons_mem, List.mem_flatMap]
    tauto
  rw [hmoves]
  cases hn : T.next q b with
  | none =>
    simp only [Option.not_mem_none, false_and, exists_false, iff_false]
    rintro ⟨m, hm, hmb, -⟩
    -- the byte of a move lies in the domain of the row
    have hdom := CharClass.has_of_subset (Nat.eq_of_beq_eq_true (h.1.2 m hm)) hmb
    obtain ⟨e, he, heb⟩ := Equations.has_domain hdom
    obtain ⟨e', he', rfl⟩ := List.mem_map.mp he
    exact absurd heb (by rw [next_eq_none hn e' he']; exact Bool.false_ne_true)
  | some q' =>
    obtain ⟨e, he, heb, rfl⟩ := next_eq_some hn
    have hentry := Equations.entryAgrees_iff (h.1.1 _ (List.mem_map_of_mem he)) heb
    simp only [Option.mem_some_iff, exists_eq_left']
    constructor
    · rintro ⟨m, hm, hmb, hw⟩
      exact ⟨m.2, (hentry m.2).mp ⟨m, hm, hmb, rfl⟩, hw⟩
    · rintro ⟨j, hj, hw⟩
      obtain ⟨m, hm, hmb, rfl⟩ := (hentry j).mpr hj
      exact ⟨m, hm, hmb, hw⟩

/-- **What a checked table accepts.** When every state of a closed set passes the check, each
    accepts exactly the words of its label. -/
theorem accepts_iff {S : σ → Prop} (hS : ∀ q, S q → ∀ e ∈ T.row q, S e.2)
    (hc : ∀ q, S q → E.checks (T.labelled label q) (T.out q) (label q) = true)
    (hE : E.Solves lang) (w : List UInt8) :
    ∀ q, S q → (T.accepts q w = true ↔ ∃ i ∈ label q, w ∈ lang i) := by
  induction w with
  | nil =>
    intro q hq
    -- the row says whether the state accepts the empty word
    have hout := ((Bool.and_eq_true _ _).mp (hc q hq)).2
    rw [accepts, beq_iff_eq.mp hout, List.any_eq_true]
    simp only [hE.nil_mem]
  | cons b w ih =>
    intro q hq
    -- one byte leads from the items of a state to those of the next
    rw [checks_next (hc q hq) hE b w, accepts]
    cases hn : T.next q b with
    | none => simp
    | some q' =>
      obtain ⟨e, he, _, rfl⟩ := next_eq_some hn
      simpa using ih e.2 (hS q hq e he)

end Table

end

end Basis
