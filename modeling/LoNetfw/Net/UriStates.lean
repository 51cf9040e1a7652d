import LoNetfw.Net.IpLiteral
import LoNetfw.Net.UriText

namespace LoNetfw.Net

open Basis UriParser UriGrammar
open scoped Computability

/-!
# The grammar behind a final state

What an input that `Uri::create` accepts looks like from its authority on, read off the states it
leads through.  The authority is cut off at the first `/`, `?` or `#`.

* `after` — the state after some input;
* `fragment_of_final`, `query_of_final`, `afterPath_of_final`, `path_of_final` — the rest of an
  accepted input, from the last component to the first;
* `authority_of_final` — an authority ends where its states say that it may;
* `host_of_colon`, `digits_of_inPort` — what stands around the colon of a port.
-/

namespace UriParser

/-! ### The state after some input -/

/-- The state of the machine after some input. -/
def after : ℕ → List UInt8 → ℕ
  | q, [] => q
  | q, b :: w => after (jump q b).target w

/-- A text in two parts is read one after the other. -/
theorem after_append (q : ℕ) (v w : List UInt8) : after q (v ++ w) = after (after q v) w := by
  induction v generalizing q with
  | nil => rfl
  | cons b v ih =>
    rw [List.cons_append, after, after]
    exact ih _

/-- The state after a text with a last byte. -/
theorem after_concat (q : ℕ) (v : List UInt8) (b : UInt8) :
    after q (v ++ [b]) = (jump (after q v) b).target := by
  rw [after_append]
  rfl

/-- The machine does not leave its error. -/
theorem after_error (w : List UInt8) : after error w = error := by
  induction w with
  | nil => rfl
  | cons b w ih =>
    have hjump : jump error b = st error := by
      unfold jump
      rw [start_labels.2.2.2]
      rfl
    rw [after, hjump]
    exact ih

/-- A jump that is not stuck is an entry of the row. -/
theorem jump_entry {q : ℕ} {b : UInt8} (h : (jump q b).target ≠ error) :
    ∃ e ∈ row q, e.1.has b = true ∧ jump q b = e.2 := by
  unfold jump at h ⊢
  cases hf : (row q).find? fun e => e.1.has b with
  | none =>
    rw [hf] at h
    exact absurd rfl h
  | some e =>
    exact ⟨e, List.mem_of_find?_eq_some hf,
      List.find?_some (p := fun e : CharClass × Jump => e.1.has b) hf, rfl⟩

/-- The first byte of an input that is not stuck. -/
theorem entry_of_after {q : ℕ} {b : UInt8} {w : List UInt8} (h : after q (b :: w) ≠ error) :
    ∃ e ∈ row q, e.1.has b = true ∧ jump q b = e.2 := by
  apply jump_entry
  intro herror
  rw [after, herror, after_error] at h
  exact h rfl

/-- A final state is no error. -/
theorem ne_error_of_final {q : ℕ} (h : firstFinal ≤ q) : q ≠ error := by
  rintro rfl
  exact absurd h (by decide)

/-- Every entry of the table satisfies `P`. -/
def entriesAll (P : ℕ → CharClass × Jump → Bool) : Bool := rows.all fun r => r.2.all (P r.1)

/-- What was checked for the table holds of each entry. -/
theorem entries_all {P : ℕ → CharClass × Jump → Bool} (h : entriesAll P = true) {q : ℕ}
    {e : CharClass × Jump} (he : e ∈ row q) : P q e = true :=
  List.all_eq_true.mp (List.all_eq_true.mp h _ (row_entry he)) e he

/-! ### Fragment and query -/

/-- From `q` the machine goes to the loop of `c` and percent-encodings at `q'`, with `q1` and `q2`
    in an encoding, or leaves on a byte of `ends`. -/
def intoLoop (q q' q1 : ℕ) (c ends : CharClass) : Bool :=
  (row q).all fun e => (Nat.beq (c &&& e.1) e.1 && Nat.beq e.2.target q') ||
    (Nat.beq (percent &&& e.1) e.1 && Nat.beq e.2.target q1) || Nat.beq (ends &&& e.1) e.1

/-- A state with one jump, on a hexadecimal digit; it is not final. -/
def onDigit (q q' : ℕ) : Bool :=
  Nat.blt q firstFinal &&
    (row q).all fun e => Nat.beq (xdigit &&& e.1) e.1 && Nat.beq e.2.target q'

/-- A loop that is entered from `q0`. -/
structure Loops (q0 q q1 q2 : ℕ) (c ends : CharClass) : Prop where
  enters : intoLoop q0 q q1 c ends = true
  loops : intoLoop q q q1 c ends = true
  first : onDigit q1 q2 = true
  second : onDigit q2 q = true

/-- A state that wants a digit gets one, if the run is to be accepted. -/
theorem onDigit_split {q q' : ℕ} (h : onDigit q q' = true) {t : List UInt8}
    (hfin : firstFinal ≤ after q t) :
    ∃ x r, t = x :: r ∧ xdigit.has x = true ∧ after q t = after q' r := by
  unfold onDigit at h
  rw [Bool.and_eq_true, Nat.blt_eq] at h
  cases t with
  | nil => exact absurd hfin (Nat.not_le.mpr h.1)
  | cons x r =>
    obtain ⟨e, he, hx, hj⟩ := entry_of_after (ne_error_of_final hfin)
    have hentry := List.all_eq_true.mp h.2 e he
    rw [Bool.and_eq_true, Nat.beq_eq, Nat.beq_eq] at hentry
    refine ⟨x, r, rfl, CharClass.has_of_subset hentry.1 hx, ?_⟩
    rw [after, hj, hentry.2]

/-- A repetition with one more in front. -/
theorem append_mem_kstar {L : Language UInt8} {u w : List UInt8} (hu : u ∈ L) (hw : w ∈ L∗) :
    u ++ w ∈ L∗ :=
  (mul_kstar_le_kstar : L * L∗ ≤ L∗) (Language.append_mem_mul hu hw)

/-- **The loop.** An accepted input from a loop is pieces of the loop, up to a byte of `ends`. -/
theorem Loops.split {q0 q q1 q2 : ℕ} {c ends : CharClass} (h : Loops q0 q q1 q2 c ends)
    {p : ℕ} (hp : p = q0 ∨ p = q) {t : List UInt8} (hfin : firstFinal ≤ after p t) :
    ∃ w r p', t = w ++ r ∧ w ∈ (c.lang + pctEncoded)∗ ∧ (p' = q0 ∨ p' = q) ∧
      after p t = after p' r ∧ (r = [] ∨ ∃ b r', r = b :: r' ∧ ends.has b = true) := by
  have hinto : intoLoop p q q1 c ends = true := by
    rcases hp with rfl | rfl
    · exact h.enters
    · exact h.loops
  cases t with
  | nil => exact ⟨[], [], p, rfl, Language.nil_mem_kstar _, hp, rfl, Or.inl rfl⟩
  | cons b t =>
    obtain ⟨e, he, hb, hj⟩ := entry_of_after (ne_error_of_final hfin)
    have hentry := List.all_eq_true.mp hinto e he
    rw [Bool.or_eq_true, Bool.or_eq_true, Bool.and_eq_true, Bool.and_eq_true, Nat.beq_eq,
      Nat.beq_eq, Nat.beq_eq, Nat.beq_eq, Nat.beq_eq] at hentry
    -- a byte of the loop, the sign of an escape, or a byte that ends it
    rcases hentry with (⟨hc, ht⟩ | ⟨hpct, ht⟩) | hends
    · have hstep : after p (b :: t) = after q t := by rw [after, hj, ht]
      rw [hstep] at hfin ⊢
      obtain ⟨w, r, p', rfl, hw, hp', hafter, hr⟩ := h.split (Or.inr rfl) hfin
      have hpiece : [b] ∈ c.lang + pctEncoded :=
        Or.inl (CharClass.singleton_mem_lang (CharClass.has_of_subset hc hb))
      exact ⟨[b] ++ w, r, p', rfl, append_mem_kstar hpiece hw, hp', hafter, hr⟩
    · have hstep : after p (b :: t) = after q1 t := by rw [after, hj, ht]
      rw [hstep] at hfin ⊢
      -- two hexadecimal digits behind the percent sign
      obtain ⟨x, t, rfl, hx, hafter⟩ := onDigit_split h.first hfin
      rw [hafter] at hfin
      obtain ⟨y, t, rfl, hy, hafter'⟩ := onDigit_split h.second hfin
      rw [hafter'] at hfin
      obtain ⟨w, r, p', rfl, hw, hp', hrest, hr⟩ := h.split (Or.inr rfl) hfin
      have hpiece : [b, x, y] ∈ c.lang + pctEncoded :=
        Or.inr (Language.append_mem_mul (Language.append_mem_mul (a := [b]) (b := [x])
          (CharClass.singleton_mem_lang (CharClass.has_of_subset hpct hb))
          (CharClass.singleton_mem_lang hx)) (CharClass.singleton_mem_lang hy))
      exact ⟨[b, x, y] ++ w, r, p', rfl, append_mem_kstar hpiece hw, hp',
        hafter.trans (hafter'.trans hrest), hr⟩
    · exact ⟨[], b :: t, p, rfl, Language.nil_mem_kstar _, hp, rfl,
        Or.inr ⟨b, t, rfl, CharClass.has_of_subset hends hb⟩⟩
termination_by t.length

/-- The loops of the tail of a URI. -/
structure TailLoops : Prop where
  fragment : Loops 453 454 1 2 queryChar 0
  query : Loops 456 457 7 8 queryChar hashSign
  path : Loops 513 513 243 244 pathChar (questionMark ||| hashSign)

/-- The states of queries and fragments, read off the table. -/
theorem tail_loops : TailLoops := by
  constructor <;> constructor <;> decide +kernel

/-- The empty class has no byte. -/
theorem not_has_empty (b : UInt8) : CharClass.has 0 b ≠ true := by
  unfold CharClass.has
  rw [Nat.zero_testBit]
  exact Bool.false_ne_true

/-- Behind the `#`. -/
theorem fragment_of_final {t : List UInt8} (hfin : firstFinal ≤ after 453 t) : t ∈ fragment := by
  obtain ⟨w, r, -, rfl, hw, -, -, hr⟩ := tail_loops.fragment.split (Or.inl rfl) hfin
  rcases hr with rfl | ⟨b, -, -, hb⟩
  · rw [List.append_nil]
    show w ∈ query
    rw [query_eq]
    exact hw
  · exact absurd hb (not_has_empty b)

/-- A state before the fragment. -/
theorem optFragment_of_final {q : ℕ} (hq : (jump q 35).target = 453) {t : List UInt8}
    (ht : t = [] ∨ ∃ r, t = 35 :: r) (hfin : firstFinal ≤ after q t) :
    ∃ f : Option (List UInt8), t = prefixed 35 f ∧ ∀ v ∈ f, v ∈ fragment := by
  rcases ht with rfl | ⟨r, rfl⟩
  · exact ⟨none, rfl, UriParts.fragment_none⟩
  · refine ⟨some r, rfl, fun v hv => ?_⟩
    obtain rfl := Option.some.inj hv
    rw [after, hq] at hfin
    exact fragment_of_final hfin

/-- Behind the `?`. -/
theorem query_of_final {t : List UInt8} (hfin : firstFinal ≤ after 456 t) :
    ∃ (w : List UInt8) (f : Option (List UInt8)), t = w ++ prefixed 35 f ∧ w ∈ query ∧
      ∀ v ∈ f, v ∈ fragment := by
  obtain ⟨w, r, p', rfl, hw, hp', hafter, hr⟩ := tail_loops.query.split (Or.inl rfl) hfin
  rw [hafter] at hfin
  have hq : (jump p' 35).target = 453 := by
    rcases hp' with rfl | rfl
    · rw [loop_states.queryEnds.1.1]
    · rw [loop_states.queryEnds.2.1]
  -- only `#` ends a query
  have hr' : r = [] ∨ ∃ r', r = 35 :: r' := by
    refine hr.imp_right ?_
    rintro ⟨b, r', rfl, hb⟩
    obtain rfl : b = 35 := CharClass.eq_of_has_single hb
    exact ⟨r', rfl⟩
  obtain ⟨f, rfl, hf⟩ := optFragment_of_final hq hr' hfin
  rw [← query_eq] at hw
  exact ⟨w, f, rfl, hw, hf⟩

/-- What follows a path is empty, or begins with a `?` or `#`. -/
def BehindPath (t : List UInt8) : Prop := t = [] ∨ ∃ b r, t = b :: r ∧ (b = 63 ∨ b = 35)

/-- A state before the query and the fragment. -/
theorem afterPath_of_final {q : ℕ} {as : List Action} (hq : EndsPath q as) {t : List UInt8}
    (ht : BehindPath t) (hfin : firstFinal ≤ after q t) :
    ∃ w f : Option (List UInt8), t = prefixed 63 w ++ prefixed 35 f ∧ (∀ v ∈ w, v ∈ query) ∧
      ∀ v ∈ f, v ∈ fragment := by
  have hhash : (jump q 35).target = 453 := by rw [hq.2.1]
  rcases ht with rfl | ⟨b, r, rfl, rfl | rfl⟩
  · exact ⟨none, none, rfl, UriParts.query_none, UriParts.fragment_none⟩
  · rw [after, hq.1] at hfin
    obtain ⟨w, f, rfl, hw, hf⟩ := query_of_final hfin
    refine ⟨some w, f, rfl, fun v hv => ?_, hf⟩
    obtain rfl := Option.some.inj hv
    exact hw
  · obtain ⟨f, hr, hf⟩ := optFragment_of_final hhash (Or.inr ⟨r, rfl⟩) hfin
    exact ⟨none, f, hr, UriParts.query_none, hf⟩

/-! ### Path -/

/-- Segments with slashes between them. -/
theorem le_segments : (pathChar.lang + pctEncoded)∗ ≤ UriGrammar.segment * pathAbempty := by
  intro w hw
  obtain ⟨L, rfl, hL⟩ := Language.mem_kstar.mp hw
  induction L with
  | nil =>
    exact Language.append_mem_mul (Language.nil_mem_kstar _) UriParts.pathAbempty_nil
  | cons u L ih =>
    have hLs : ∀ y ∈ L, y ∈ pathChar.lang + pctEncoded :=
      fun y hy => hL y (List.mem_cons_of_mem _ hy)
    obtain ⟨s, hs, p, hp, heq⟩ := ih hLs (Language.join_mem_kstar hLs)
    rw [List.flatten_cons, ← heq]
    have hu := hL u List.mem_cons_self
    rw [lang_pathChar, add_right_comm, ← pchars_eq] at hu
    rcases hu with hu | hu
    · show u ++ (s ++ p) ∈ _
      rw [← List.append_assoc]
      exact Language.append_mem_mul (append_mem_kstar hu hs) hp
    · -- a slash begins the next segment
      refine ⟨[], Language.nil_mem_kstar _, u ++ (s ++ p), ?_, rfl⟩
      show u ++ (s ++ p) ∈ pathAbempty
      rw [pathAbempty_eq] at hp ⊢
      rw [← List.append_assoc]
      exact append_mem_kstar (Language.append_mem_mul hu hs) hp

/-- A slash and characters of paths are a path. -/
theorem mem_pathAbempty_of_loop {w : List UInt8} (hw : w ∈ (pathChar.lang + pctEncoded)∗) :
    47 :: w ∈ pathAbempty := by
  obtain ⟨s, hs, p, hp, rfl⟩ := le_segments hw
  show [47] ++ (s ++ p) ∈ pathAbempty
  rw [pathAbempty_eq] at hp ⊢
  rw [← List.append_assoc]
  exact append_mem_kstar
    (Language.append_mem_mul (CharClass.singleton_mem_lang (by decide)) hs) hp

/-- What follows an authority is empty, or begins with a `/`, `?` or `#`. -/
def BehindAuthority (t : List UInt8) : Prop := BehindPath t ∨ ∃ r, t = 47 :: r

/-- The bytes that end an authority. -/
def endBytes : CharClass := slash ||| questionMark ||| hashSign

/-- An authority ends at its first `/`, `?` or `#`. -/
theorem cut_authority (r : List UInt8) :
    ∃ a t, r = a ++ t ∧ (∀ b ∈ a, endBytes.has b = false) ∧ BehindAuthority t := by
  induction r with
  | nil => exact ⟨[], [], rfl, List.forall_mem_nil _, Or.inl (Or.inl rfl)⟩
  | cons b r ih =>
    cases hb : endBytes.has b with
    -- the first `/`, `?` or `#` ends the authority
    | true =>
      refine ⟨[], b :: r, rfl, List.forall_mem_nil _, ?_⟩
      rw [endBytes, CharClass.has_or, CharClass.has_or, Bool.or_eq_true, Bool.or_eq_true] at hb
      rcases hb with (hb | hb) | hb
      · obtain rfl : b = 47 := CharClass.eq_of_has_single hb
        exact Or.inr ⟨r, rfl⟩
      · exact Or.inl (Or.inr ⟨b, r, rfl, Or.inl (CharClass.eq_of_has_single hb)⟩)
      · exact Or.inl (Or.inr ⟨b, r, rfl, Or.inr (CharClass.eq_of_has_single hb)⟩)
    | false =>
      obtain ⟨a, t, rfl, ha, ht⟩ := ih
      exact ⟨b :: a, t, rfl, List.forall_mem_cons.mpr ⟨hb, ha⟩, ht⟩

/-- A state before the path, the query and the fragment. -/
theorem path_of_final {q : ℕ} {as : List Action} (hq : StartsPath q as) {t : List UInt8}
    (ht : BehindAuthority t) (hfin : firstFinal ≤ after q t) :
    ∃ (p : List UInt8) (w f : Option (List UInt8)), t = p ++ (prefixed 63 w ++ prefixed 35 f) ∧
      p ∈ pathAbempty ∧ (∀ v ∈ w, v ∈ query) ∧ ∀ v ∈ f, v ∈ fragment := by
  -- without a slash there is no path
  rcases ht with ht | ⟨r, rfl⟩
  · obtain ⟨w, f, rfl, hw, hf⟩ := afterPath_of_final hq.2 ht hfin
    exact ⟨[], w, f, rfl, UriParts.pathAbempty_nil, hw, hf⟩
  · rw [after, hq.1] at hfin
    obtain ⟨v, r, p', rfl, hv, hp', hafter, hr⟩ := tail_loops.path.split (Or.inl rfl) hfin
    obtain rfl : p' = 513 := hp'.elim id id
    have hbehind : BehindPath r := by
      refine hr.imp_right ?_
      rintro ⟨b, r', rfl, hb⟩
      rw [CharClass.has_or, Bool.or_eq_true] at hb
      exact ⟨b, r', rfl, hb.imp CharClass.eq_of_has_single CharClass.eq_of_has_single⟩
    rw [hafter] at hfin
    obtain ⟨w, f, rfl, hw, hf⟩ := afterPath_of_final loop_states.pathEnds hbehind hfin
    exact ⟨47 :: v, w, f, rfl, mem_pathAbempty_of_loop hv, hw, hf⟩

/-! ### Authority -/

/-- The states of an authority. -/
def authorityStates : ℕ :=
  hostStates ||| ipStates ||| userinfoStates ||| stateSet [511, 514, 515, 521, 522]

/-- The states before and in a port. -/
def portStart : List ℕ := [514, 521]

@[inherit_doc portStart]
def inPort : List ℕ := [515, 542]

/-- A state in which an authority may end. -/
def EndsAuthority (q : ℕ) : Prop :=
  (StartsPath q [.saveHost, .mark] ∨ StartsPath q [.mark, .saveHost] ∨
    StartsPath q [.mark, .savePort] ∨ StartsPath q [.savePort, .mark]) ∧
    ((jump q 58).target ∈ portStart ∨ q ∈ portStart ∨ q ∈ inPort)

instance (q : ℕ) : Decidable (EndsAuthority q) := inferInstanceAs (Decidable (_ ∧ _))

/-- The entries of the table that lead into an authority, into a port and into the scheme. -/
structure AuthorityStates : Prop where
  entered : Nat.testBit authorityStates 511 = true
  closed : regionAll authorityStates (fun _ e => Nat.beq (e.1 &&& endBytes) e.1 ||
    Nat.testBit authorityStates e.2.target) = true
  left : regionAll authorityStates (fun q e => Nat.beq (e.1 &&& endBytes) 0 ||
    decide (EndsAuthority q)) = true
  final : (List.range' firstFinal 110).all (fun q => !Nat.testBit authorityStates q ||
    decide (EndsAuthority q)) = true
  bound : Nat.blt (Nat.log2 authorityStates) 561 = true
  toPort : entriesAll (fun _ e => !portStart.contains e.2.target ||
    Nat.beq (colon &&& e.1) e.1) = true
  toDigits : entriesAll (fun q e => !inPort.contains e.2.target ||
    (Nat.beq (digit &&& e.1) e.1 && (portStart.contains q || inPort.contains q))) = true

/-- The states of the authority, read off the table. -/
theorem authority_states : AuthorityStates := by constructor <;> decide +kernel

/-- The bytes of an authority keep the machine in it. -/
theorem after_authority {a : List UInt8} (ha : ∀ b ∈ a, endBytes.has b = false) {q : ℕ}
    (hq : Nat.testBit authorityStates q = true) (hne : after q a ≠ error) :
    Nat.testBit authorityStates (after q a) = true := by
  induction a generalizing q with
  | nil => exact hq
  | cons b a ih =>
    obtain ⟨e, he, hb, hj⟩ := entry_of_after hne
    have hentry := regionAll_entry authority_states.closed hq he
    rw [Bool.or_eq_true, Nat.beq_eq] at hentry
    -- only one of the end bytes leaves the region
    have htarget : Nat.testBit authorityStates e.2.target = true := by
      refine hentry.resolve_left fun hsub => ?_
      rw [Nat.land_comm] at hsub
      have hbad := CharClass.has_of_subset hsub hb
      rw [ha b List.mem_cons_self] at hbad
      exact Bool.false_ne_true hbad
    rw [after, hj] at hne ⊢
    exact ih (fun x hx => ha x (List.mem_cons_of_mem _ hx)) htarget hne

/-- The states of a set are bounded by its highest bit. -/
theorem lt_of_testBit {R q n : ℕ} (hR : Nat.blt (Nat.log2 R) n = true)
    (hq : Nat.testBit R q = true) : q < n := by
  by_contra hge
  have hlog := (Nat.blt_eq.mp hR).trans_le (Nat.not_lt.mp hge)
  have hzero : R ≠ 0 := by
    rintro rfl
    rw [Nat.zero_testBit] at hq
    exact Bool.false_ne_true hq
  rw [Nat.testBit_eq_false_of_lt ((Nat.log2_lt hzero).mp hlog)] at hq
  exact Bool.false_ne_true hq

/-- Where an accepted input leaves the authority, the authority may end. -/
theorem endsAuthority_of_final {q : ℕ} (hq : Nat.testBit authorityStates q = true) {t : List UInt8}
    (ht : BehindAuthority t) (hfin : firstFinal ≤ after q t) : EndsAuthority q := by
  -- an end byte in `q` means that `q` stores the host
  have hhead : ∀ b r, t = b :: r → endBytes.has b = true → EndsAuthority q := by
    rintro b r rfl hb
    obtain ⟨e, he, heb, -⟩ := entry_of_after (ne_error_of_final hfin)
    have hentry := regionAll_entry authority_states.left hq he
    rw [meets heb hb, Bool.false_or, decide_eq_true_eq] at hentry
    exact hentry
  -- at the end of the text `q` is final
  rcases ht with (rfl | ⟨b, r, rfl, rfl | rfl⟩) | ⟨r, rfl⟩
  · have hlt := lt_of_testBit authority_states.bound hq
    have hfinal : firstFinal ≤ q := hfin
    have hmem : q ∈ List.range' firstFinal 110 :=
      List.mem_range'_1.mpr ⟨hfinal, show q < 451 + 110 by omega⟩
    have hall := List.all_eq_true.mp authority_states.final q hmem
    rw [hq, Bool.not_true, Bool.false_or, decide_eq_true_eq] at hall
    exact hall
  · exact hhead 63 r rfl (by decide)
  · exact hhead 35 r rfl (by decide)
  · exact hhead 47 r rfl (by decide)

/-- The authority of an accepted input. -/
theorem authority_of_final {r : List UInt8} (hfin : firstFinal ≤ after 511 r) :
    ∃ a t, r = a ++ t ∧ (∀ b ∈ a, endBytes.has b = false) ∧ BehindAuthority t ∧
      EndsAuthority (after 511 a) ∧ firstFinal ≤ after (after 511 a) t := by
  obtain ⟨a, t, rfl, ha, ht⟩ := cut_authority r
  rw [after_append] at hfin
  have hne : after 511 a ≠ error := by
    intro h0
    rw [h0, after_error] at hfin
    exact absurd hfin (by decide)
  have hmem := after_authority ha authority_states.entered hne
  exact ⟨a, t, rfl, ha, ht, endsAuthority_of_final hmem ht hfin, hfin⟩

/-! ### The colon of a port -/

/-- A configuration accepts what follows from the states behind some input. -/
theorem accepts_after {w v : List UInt8} {q : ℕ} {m : Bool} (hne : after q w ≠ error)
    (h : ∀ m', configs.accepts (some (after q w, m')) v = true) :
    configs.accepts (some (q, m)) (w ++ v) = true := by
  induction w generalizing q m with
  | nil => exact h m
  | cons b w ih =>
    obtain ⟨e, he, hb, hj⟩ := entry_of_after hne
    rw [after, hj] at hne h
    cases hm : markActions m e.2.actions with
    | some m' => exact accepts_of_jump he hb hj hm (ih hne h)
    | none =>
      -- there is a fault before
      rw [List.cons_append, Table.accepts, configs_next]
      unfold jump at hj
      cases hf : (row q).find? fun e => e.1.has b with
      | none =>
        rw [List.find?_eq_none] at hf
        exact absurd hb (hf e he)
      | some e' =>
        rw [hf] at hj
        have hj : e'.2 = e.2 := hj
        rw [Option.map_some, hj, hm]
        exact accepts_none _

/-- A port may be empty. -/
theorem accepts_portStart {q : ℕ} (hq : q ∈ portStart) (m : Bool) :
    configs.accepts (some (q, m)) [] = true := by
  have hall : ∀ q ∈ portStart, ∀ m, configOut (some (q, m)) = true := by decide
  exact hall q hq m

/-- The states in front of a port are no errors. -/
theorem ne_error_of_portStart {q : ℕ} (hq : q ∈ portStart) : q ≠ error := by
  rintro rfl
  exact absurd hq (by decide)

/-- Before the colon of an empty port stands a host. -/
theorem eq_of_emptyPort {a pre x : List UInt8} (ha : ∀ b ∈ a, endBytes.has b = false)
    (hx : x ∈ Item.emptyPort) (heq : a ++ [58] = pre ++ x) : pre = a := by
  obtain ⟨_, ⟨b, hb, rfl⟩, _, ⟨p, hp, e, he, rfl⟩, rfl⟩ := hx
  obtain rfl : b = 58 := CharClass.eq_of_has_single hb
  -- an empty port is a colon, and behind it the end or an end byte
  have hend : p ++ e = [] ∨ ∃ c r, p ++ e = c :: r ∧ endBytes.has c = true := by
    rcases mem_pathAbempty hp with rfl | ⟨t, rfl, -⟩
    · rcases mem_pathEnd.mp he with rfl | ⟨c, r, rfl, rfl | rfl⟩
      · exact Or.inl rfl
      · exact Or.inr ⟨63, r, rfl, by decide⟩
      · exact Or.inr ⟨35, r, rfl, by decide⟩
    · exact Or.inr ⟨47, t ++ e, rfl, by decide⟩
  have heq : a ++ [58] = pre ++ 58 :: (p ++ e) := heq
  rcases hend with hnil | ⟨c, r, hc, hbyte⟩
  · rw [hnil] at heq
    exact (List.append_cancel_right heq).symm
  · -- a byte behind the colon that is not in `a`
    rw [hc] at heq
    have hmem : c ∈ a ++ [58] := by
      rw [heq]
      simp
    rcases List.mem_append.mp hmem with hmem | hmem
    · rw [ha c hmem] at hbyte
      exact absurd hbyte Bool.false_ne_true
    · rw [List.mem_singleton.mp hmem] at hbyte
      exact absurd hbyte (by decide)

/-- **The host.** What stands between the `//` and the colon of a port. -/
theorem host_of_colon {a : List UInt8} (ha : ∀ b ∈ a, endBytes.has b = false)
    (h : after 511 (a ++ [58]) ∈ portStart) :
    ∃ (ui : Option (List UInt8)) (w : List UInt8), a = atSuffixed ui ++ w ∧
      (∀ v ∈ ui, v ∈ userinfo) ∧ w ∈ host := by
  have hacc : configs.accepts (some (511, false)) (a ++ [58]) = true := by
    have := accepts_after (v := []) (m := false) (ne_error_of_portStart h) (accepts_portStart h)
    rwa [List.append_nil] at this
  rw [configs_accepts start_labels.2.1.1, start_labels.2.1.2] at hacc
  obtain ⟨i, hi, hmem⟩ := hacc
  rcases List.mem_cons.mp hi with rfl | hi
  · -- a userinfo and a host
    have hmem : a ++ [58] ∈ userinfo * (atSign.lang * (host * Item.emptyPort)) := by
      have hlang : Item.lang (.ui 0) =
          1 * (userinfo * (atSign.lang * (host * Item.emptyPort))) := rfl
      rwa [hlang, one_mul] at hmem
    obtain ⟨u, hu, _, ⟨_, ⟨b, hb, rfl⟩, _, ⟨w, hw, x, hx, rfl⟩, rfl⟩, heq⟩ := hmem
    obtain rfl : b = 64 := CharClass.eq_of_has_single hb
    have hsplit : a ++ [58] = (u ++ [64] ++ w) ++ x := by
      rw [← heq]
      simp
    refine ⟨some u, w, (eq_of_emptyPort ha hx hsplit).symm, fun v hv => ?_, hw⟩
    obtain rfl := Option.some.inj hv
    exact hu
  · have hmem : a ++ [58] ∈ host * Item.emptyPort := by
      rw [Item.host_eq, Equations.mem_list_sum]
      exact ⟨Item.lang i, List.mem_map_of_mem hi, hmem⟩
    obtain ⟨w, hw, x, hx, heq⟩ := hmem
    exact ⟨none, w, (eq_of_emptyPort ha hx heq.symm).symm, UriParts.userinfo_none, hw⟩

/-- A port starts behind a colon. -/
theorem colon_of_portStart {l : List UInt8} (h : after 511 l ∈ portStart) :
    ∃ a, l = a ++ [58] := by
  rcases List.eq_nil_or_concat l with rfl | ⟨a, b, rfl⟩
  · have h : 511 ∈ portStart := h
    exact absurd h (by decide)
  · rw [List.concat_eq_append] at h ⊢
    rw [after_concat] at h
    obtain ⟨e, he, hb, hj⟩ := jump_entry (ne_error_of_portStart h)
    have hentry := entries_all authority_states.toPort he
    rw [hj] at h
    rw [List.contains_iff_mem.mpr h, Bool.not_true, Bool.false_or, Nat.beq_eq] at hentry
    obtain rfl : b = 58 := CharClass.eq_of_has_single (CharClass.has_of_subset hentry hb)
    exact ⟨a, rfl⟩

/-- In a port: digits behind a colon. -/
theorem digits_of_inPort {l : List UInt8} (h : after 511 l ∈ inPort) :
    ∃ a d, l = a ++ 58 :: d ∧ d ≠ [] ∧ (∀ b ∈ d, digit.has b = true) ∧
      after 511 (a ++ [58]) ∈ portStart := by
  -- from the end: a state of the port is entered by a digit only
  induction l using List.reverseRecOn with
  | nil =>
    have h : 511 ∈ inPort := h
    exact absurd h (by decide)
  | append_singleton l b ih =>
    rw [after_concat] at h
    have hne : (jump (after 511 l) b).target ≠ error := by
      intro h0
      rw [h0] at h
      exact absurd h (by decide)
    obtain ⟨e, he, hb, hj⟩ := jump_entry hne
    have hentry := entries_all authority_states.toDigits he
    rw [hj] at h
    rw [List.contains_iff_mem.mpr h, Bool.not_true, Bool.false_or, Bool.and_eq_true, Nat.beq_eq,
      Bool.or_eq_true, List.contains_iff_mem, List.contains_iff_mem] at hentry
    obtain ⟨hdigit, hstart | hin⟩ := hentry
    · obtain ⟨a, rfl⟩ := colon_of_portStart hstart
      refine ⟨a, [b], by simp, List.cons_ne_nil b [], ?_, hstart⟩
      intro x hx
      rw [List.mem_singleton.mp hx]
      exact CharClass.has_of_subset hdigit hb
    · obtain ⟨a, d, rfl, -, hd, hcolon⟩ := ih hin
      refine ⟨a, d ++ [b], by simp, by simp, ?_, hcolon⟩
      intro x hx
      rcases List.mem_append.mp hx with hx | hx
      · exact hd x hx
      · rw [List.mem_singleton.mp hx]
        exact CharClass.has_of_subset hdigit hb

end UriParser

end LoNetfw.Net
