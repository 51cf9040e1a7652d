import LoNetfw.Net.UriComponents

namespace LoNetfw.Net

open Basis UriParser UriGrammar
open scoped Computability

/-!
# The machine inside of `[`…`]`

The URIs `x://[h]` that `Uri::create` accepts are those with an `IPv6address` or an `IPvFuture` of
the grammar in the brackets (`Uri.accepts_literal_iff`).  One direction is a case of the components
of a URI.  For the other one the run is followed: inside of the brackets the machine stays among
the `ipStates` up to the first closing bracket, and behind that bracket it never reads another one.
-/

namespace UriParser

/-- The states behind a host, with no way back into an authority. -/
def tailStates : ℕ :=
  stateSet [1, 2, 7, 8, 243, 244, 453, 454, 456, 457, 512, 513, 514, 515]

/-- The way into the brackets and out of them. -/
structure LiteralStates : Prop where
  entered : jump 511 91 = ⟨[.mark], 260⟩
  inside : Nat.testBit ipStates 260 = true
  insideLabel : reached (some (260, true)) = true ∧ label (some (260, true)) = [.first]
  hostEndLabel : reached (some (512, true)) = true ∧ label (some (512, true)) = [.hostEnd]
  behind : Nat.testBit tailStates 512 = true
  tail : regionAll tailStates (fun _ e => Nat.beq (e.1 &&& rbracket) 0 &&
    Nat.testBit tailStates e.2.target) = true

/-- What the table does in the states of a literal, read off it. -/
theorem literal_states : LiteralStates := by constructor <;> decide +kernel

/-- A run that does not end in the error state takes an entry of the row. -/
theorem exec_survives {x x' : Exec} {b : UInt8} {rest : List UInt8}
    (h : exec x (b :: rest) = .ok x') (hne : x'.cs ≠ error) :
    ∃ e ∈ row x.cs, e.1.has b = true ∧ jump x.cs b = e.2 ∧
      ∃ y, runActions (b :: rest) x e.2.actions = .ok y ∧
        exec { y with cs := e.2.target } rest = .ok x' := by
  rw [exec] at h
  -- the actions run without error, and the target is not the error state
  have hj : ∀ j, jump x.cs b = j → (∃ y, runActions (b :: rest) x j.actions = .ok y ∧
      exec { y with cs := j.target } rest = .ok x' ∧ j.target ≠ error) := by
    rintro j rfl
    cases hy : runActions (b :: rest) x (jump x.cs b).actions with
    | error e =>
      rw [hy] at h
      cases h
    | ok y =>
      rw [hy] at h
      have h : (if (jump x.cs b).target = error then Except.ok { y with cs := error }
        else exec { y with cs := (jump x.cs b).target } rest) = .ok x' := h
      by_cases ht : (jump x.cs b).target = error
      · rw [if_pos ht] at h
        obtain rfl := Except.ok.inj h
        exact absurd rfl hne
      · rw [if_neg ht] at h
        exact ⟨y, rfl, h, ht⟩
  cases hf : (row x.cs).find? fun e => e.1.has b with
  -- no entry of the row has the byte: the machine goes to its error state
  | none =>
    have hst : jump x.cs b = st error := by
      rw [jump, hf]
    obtain ⟨_, _, _, ht⟩ := hj _ hst
    exact absurd rfl ht
  | some e =>
    have hst : jump x.cs b = e.2 := by
      rw [jump, hf]
    obtain ⟨y, hy, hrun, -⟩ := hj _ hst
    exact ⟨e, List.mem_of_find?_eq_some hf,
      List.find?_some (p := fun e : CharClass × Jump => e.1.has b) hf, hst, y, hy, hrun⟩

/-- The configuration before a jump accepts what the one behind it accepts. -/
theorem accepts_of_jump {q : ℕ} {m m' : Bool} {b : UInt8} {v : List UInt8}
    {e : CharClass × Jump} (he : e ∈ row q) (heb : e.1.has b = true) (hj : jump q b = e.2)
    (hm : markActions m e.2.actions = some m')
    (h : configs.accepts (some (e.2.target, m')) v = true) :
    configs.accepts (some (q, m)) (b :: v) = true := by
  rw [Table.accepts, configs_next]
  rw [jump] at hj
  -- the table has the actions of the first entry that holds the byte
  cases hf : (row q).find? fun e => e.1.has b with
  | none =>
    rw [List.find?_eq_none] at hf
    exact absurd heb (hf e he)
  | some e' =>
    rw [hf] at hj
    obtain hj : e'.2 = e.2 := hj
    rw [Option.map_some, hj, hm]
    exact h

/-- Behind the host no closing bracket is read. -/
theorem not_mem_of_tail {w : List UInt8} {x x' : Exec}
    (hx : Nat.testBit tailStates x.cs = true) (h : exec x w = .ok x') (hne : x'.cs ≠ error) :
    93 ∉ w := by
  induction w generalizing x with
  | nil => exact List.not_mem_nil
  | cons b w ih =>
    obtain ⟨e, he, heb, -, y, -, hrun⟩ := exec_survives h hne
    have hentry := regionAll_entry literal_states.tail hx he
    rw [Bool.and_eq_true] at hentry
    rw [List.mem_cons, not_or]
    refine ⟨?_, ih hentry.2 hrun⟩
    rintro rfl
    have hmeet := meets (d := rbracket) heb (by decide)
    rw [hmeet] at hentry
    exact Bool.false_ne_true hentry.1

/-- Inside of the brackets: the text has no closing bracket, and behind the one that follows it an
    empty port may come. -/
theorem accepts_of_inside {w : List UInt8} {q : ℕ} {mark : Option (List UInt8)} {uri : Uri}
    {x' : Exec} (hq : Nat.testBit ipStates q = true)
    (h : exec ⟨q, mark, uri⟩ (w ++ [93]) = .ok x') (hne : x'.cs ≠ error) :
    93 ∉ w ∧ configs.accepts (some (q, true)) (w ++ [93, 58]) = true := by
  induction w generalizing q with
  -- the bracket leaves the literal with the action that stores the host
  | nil =>
    obtain ⟨e, he, heb, hj, -⟩ := exec_survives h hne
    have hentry := regionAll_entry host_states.literalLeft hq he
    rw [meets (d := rbracket) heb (by decide), Bool.false_or, decide_eq_true_eq] at hentry
    have hmark : markActions true e.2.actions = some true := by
      rw [hentry]
      rfl
    refine ⟨List.not_mem_nil, accepts_of_jump he heb hj hmark ?_⟩
    rw [hentry]
    refine (configs_accepts literal_states.hostEndLabel.1 _).mpr ⟨.hostEnd, ?_, colon_mem_emptyPort⟩
    rw [literal_states.hostEndLabel.2]
    exact List.mem_cons_self
  | cons b w ih =>
    obtain ⟨e, he, heb, hj, y, hy, hrun⟩ := exec_survives h hne
    by_cases hb : b = 93
    · -- after the first bracket the last one would have to be read behind the host
      subst hb
      have hentry := regionAll_entry host_states.literalLeft hq he
      rw [meets (d := rbracket) heb (by decide), Bool.false_or, decide_eq_true_eq] at hentry
      rw [hentry] at hrun
      have hnot := not_mem_of_tail literal_states.behind hrun hne
      exact absurd (List.mem_append_right w List.mem_cons_self) hnot
    · have hquiet := host_states.literals
      rw [quiet, Bool.and_eq_true] at hquiet
      have hentry := regionAll_entry hquiet.2 hq he
      -- any other byte keeps the machine inside, without an action
      have hin : ipBytes.has b = true := by
        have hall : (CharClass.range 0 255).has b = true :=
          (CharClass.has_range 0 255 b).mpr ⟨Nat.zero_le _, Nat.le_of_lt_succ b.toNat_lt⟩
        have hsplit : ipBytes ||| rbracket = CharClass.range 0 255 := by decide
        rw [← hsplit, CharClass.has_or, Bool.or_eq_true] at hall
        exact hall.resolve_right fun h93 => hb (CharClass.eq_of_has_single h93)
      rw [meets heb hin, Bool.false_or, Bool.and_eq_true, List.isEmpty_iff] at hentry
      rw [hentry.1] at hy
      obtain rfl := Except.ok.inj hy
      obtain ⟨hw, hacc⟩ := ih hentry.2 hrun
      refine ⟨?_, accepts_of_jump he heb hj (by rw [hentry.1]; rfl) hacc⟩
      rw [List.mem_cons, not_or]
      exact ⟨fun h => hb h.symm, hw⟩

end UriParser

/-! ### Accepted literals -/

/-- `x://[h]` -/
def literalUri (h : List UInt8) : List UInt8 := 120 :: 58 :: 47 :: 47 :: 91 :: (h ++ [93])

/-- The URI with an IP literal as its host and nothing else. -/
def literalParts (h : List UInt8) (hh : h ∈ ipv6address + ipvFuture) : UriParts where
  scheme := [120]
  userinfo := none
  host := 91 :: (h ++ [93])
  port := none
  path := []
  query := none
  fragment := none
  scheme_mem := UriParts.scheme_x
  userinfo_mem := UriParts.userinfo_none
  host_mem := .inl (.inl ⟨91 :: h, ⟨[91], CharClass.singleton_mem_lang (by decide), h, hh, rfl⟩,
    [93], CharClass.singleton_mem_lang (by decide), rfl⟩)
  port_mem := UriParts.port_none
  path_mem := UriParts.pathAbempty_nil
  query_mem := UriParts.query_none
  fragment_mem := UriParts.fragment_none

/-- A word splits at the first place of a byte in one way. -/
theorem append_cons_inj {a b c d : List UInt8} {x : UInt8} (ha : x ∉ a) (hb : x ∉ b)
    (h : a ++ x :: c = b ++ x :: d) : a = b ∧ c = d := by
  -- both lists are cut at their first `x`
  induction a generalizing b with
  | nil =>
    cases b with
    | nil => exact ⟨rfl, (List.cons.inj h).2⟩
    | cons y b =>
      obtain ⟨rfl, -⟩ := List.cons.inj h
      exact absurd List.mem_cons_self hb
  | cons y a ih =>
    cases b with
    | nil =>
      obtain ⟨rfl, -⟩ := List.cons.inj h
      exact absurd List.mem_cons_self ha
    | cons z b =>
      obtain ⟨rfl, htail⟩ := List.cons.inj h
      obtain ⟨rfl, hcd⟩ := ih (fun hx => ha (List.mem_cons_of_mem _ hx))
        (fun hx => hb (List.mem_cons_of_mem _ hx)) htail
      exact ⟨rfl, hcd⟩

/-- The URI of a literal has it as the host, and nothing else. -/
theorem literalUri_eq_render {h : List UInt8} (hh : h ∈ ipv6address + ipvFuture) :
    literalUri h = (literalParts h hh).render := by
  simp [literalUri, literalParts, UriParts.render, UriParts.afterScheme, UriParts.afterPort,
    atSuffixed, prefixed]

/-- An IP literal has no bracket before its last one. -/
theorem not_mem_of_literal {h : List UInt8} (hh : h ∈ ipv6address + ipvFuture) : 93 ∉ h :=
  fun hmem => absurd (within_ip h hh 93 hmem) (by decide)

/-- **The IP literals of the parser.**  `x://[h]` is accepted exactly when `h` is an `IPv6address`
    or an `IPvFuture` of the grammar. -/
theorem Uri.accepts_literal_iff (h : List UInt8) :
    (∃ u, Uri.create (literalUri h) = .ok (some u)) ↔ h ∈ ipv6address + ipvFuture := by
  constructor
  · rintro ⟨u, hu⟩
    rw [Uri.create] at hu
    have hscheme : [120] ∈ UriGrammar.scheme :=
      ⟨[120], CharClass.singleton_mem_lang (by decide), [], Language.nil_mem_kstar _, rfl⟩
    -- the machine is at the byte behind the opening bracket
    have hrun : exec ⟨start, none, {}⟩ (literalUri h) =
        exec ⟨260, some (91 :: (h ++ [93])), { scheme := [120] }⟩ (h ++ [93]) := by
      have happ : literalUri h = [120] ++ 58 :: 47 :: 47 :: 91 :: (h ++ [93]) := rfl
      rw [happ, exec_scheme hscheme]
      exact exec_cons_mark (x := ⟨511, none, { scheme := [120] }⟩) literal_states.entered (by decide)
    cases hx : exec ⟨start, none, {}⟩ (literalUri h) with
    | error e =>
      rw [hx] at hu
      cases hu
    | ok x =>
      rw [hx] at hu
      have hne : x.cs ≠ error := by
        intro h0
        have hu : (if x.cs = error then Except.ok none
          else if firstFinal ≤ x.cs then Except.ok (some x.uri) else Except.ok none) =
            Except.ok (some u) := hu
        rw [if_pos h0] at hu
        exact absurd hu (by simp)
      rw [hrun] at hx
      -- from there it reads up to the closing bracket, and the table names what it has read
      obtain ⟨h93, hacc⟩ := accepts_of_inside literal_states.inside hx hne
      rw [configs_accepts literal_states.insideLabel.1, literal_states.insideLabel.2] at hacc
      obtain ⟨i, hi, hmem⟩ := hacc
      obtain rfl := List.mem_singleton.mp hi
      obtain ⟨a, ha, _, ⟨_, ⟨b, hb, rfl⟩, c, _, rfl⟩, heq⟩ := hmem
      obtain rfl : b = 93 := CharClass.eq_of_has_single hb
      rw [← (append_cons_inj (not_mem_of_literal ha) h93 heq).1]
      exact ha
  · intro hh
    rw [literalUri_eq_render hh]
    exact ⟨_, UriParts.create_render _⟩

end LoNetfw.Net
