import LoNetfw.Net.UriStates

namespace LoNetfw.Net

open Basis UriParser UriGrammar
open scoped Computability

/-!
# The fields of an accepted URI

Which `Uri`s `Uri::create` returns.  With an authority the input is made of components, and what is
stored of them is known; behind the colon of a scheme without one, only a query and a fragment are
stored.

* `storesTail_of_colon` — without an authority;
* `colon_of_scheme`, `scheme_of_after` — a scheme that is stored stands before a colon;
* `parts_of_create` — with an authority;
* `create_fields` — the fields of a `Uri` with a scheme are words of their nonterminals.
-/

namespace UriParser

/-! ### Without an authority -/

/-- The states of a path that is not stored. -/
def plainStates : ℕ := stateSet [455, 5, 6]

/-- The bytes that do not end a path. -/
def pathBytes : CharClass := .diff (.range 0 255) (questionMark ||| hashSign)

/-- On the bytes of `K` nothing runs, and the machine goes to the states of `R`. -/
def goesInto (R : ℕ) (K : CharClass) (e : CharClass × Jump) : Bool :=
  Nat.beq (e.1 &&& K) 0 || (e.2.actions.isEmpty && Nat.testBit R e.2.target)

/-- The rows behind the colon of a scheme. -/
structure PlainStates : Prop where
  loop : regionAll plainStates (fun _ e => goesInto plainStates pathBytes e) = true
  ends : regionAll plainStates (fun q e => Nat.beq (e.1 &&& (questionMark ||| hashSign)) 0 ||
    decide (EndsPath q [])) = true
  final : (List.range' firstFinal 5).all (fun q => !Nat.testBit plainStates q ||
    decide (EndsPath q [])) = true
  bound : Nat.blt (Nat.log2 plainStates) 456 = true
  colon : EndsPath 509 [] ∧ EndsPath 510 []
  entered : (row 509).all (goesInto plainStates (.diff pathBytes slash)) = true ∧
    (row 510).all (goesInto plainStates (.diff pathBytes slash)) = true

/-- What the table does in these states, read off it. -/
theorem plain_states : PlainStates := by constructor <;> decide +kernel

/-- From `q` on, only a query and a fragment are stored. -/
def StoresTail (q : ℕ) (t : List UInt8) : Prop :=
  ∃ w f : Option (List UInt8), (∀ v ∈ w, v ∈ query) ∧ (∀ v ∈ f, v ∈ fragment) ∧
    ∀ mark uri, Yields (exec ⟨q, mark, uri⟩ t) (withFragment (withQuery uri w) f)

/-- Behind a path the machine stores the query and the fragment and nothing else. -/
theorem storesTail_of_behindPath {q : ℕ} (hq : EndsPath q []) {t : List UInt8} (ht : BehindPath t)
    (hfin : firstFinal ≤ after q t) : StoresTail q t := by
  obtain ⟨w, f, rfl, hw, hf⟩ := afterPath_of_final hq ht hfin
  exact ⟨w, f, hw, hf, fun mark uri =>
    yields_beforeQuery hq hw hf (y := ⟨q, mark, uri⟩) rfl rfl⟩

/-- A jump on which nothing runs. -/
theorem step_of_goesInto {q R : ℕ} {K : CharClass} (h : ∀ e ∈ row q, goesInto R K e = true)
    {b : UInt8} (hb : K.has b = true) {t : List UInt8} (hfin : firstFinal ≤ after q (b :: t)) :
    ∃ q', Nat.testBit R q' = true ∧ firstFinal ≤ after q' t ∧
      (StoresTail q' t → StoresTail q (b :: t)) := by
  obtain ⟨e, he, heb, hj⟩ := entry_of_after (ne_error_of_final hfin)
  have hentry := h e he
  unfold goesInto at hentry
  rw [meets heb hb, Bool.false_or, Bool.and_eq_true, List.isEmpty_iff] at hentry
  have hst : jump q b = st e.2.target := by
    rw [hj, st, ← hentry.1]
  -- the error state is never left, so the target is another one
  rw [after, hj] at hfin
  have hne : e.2.target ≠ error := by
    intro h0
    rw [h0, after_error] at hfin
    exact absurd hfin (by decide)
  refine ⟨e.2.target, hentry.2, hfin, ?_⟩
  rintro ⟨w, f, hw, hf, hrun⟩
  refine ⟨w, f, hw, hf, fun mark uri => ?_⟩
  rw [exec_cons_st hst hne]
  exact hrun mark uri

/-- A byte is in a class, or in the rest of the bytes. -/
theorem has_or_has {K X : CharClass} (h : K ||| X = .range 0 255) (b : UInt8) :
    X.has b = true ∨ K.has b = true := by
  have hall : (CharClass.range 0 255).has b = true :=
    (CharClass.has_range 0 255 b).mpr ⟨Nat.zero_le _, Nat.le_of_lt_succ b.toNat_lt⟩
  rw [← h, CharClass.has_or, Bool.or_eq_true] at hall
  exact hall.symm

/-- A text that begins with one of the two marks stands behind a path. -/
theorem behindPath_of_has {b : UInt8} (h : (questionMark ||| hashSign).has b = true)
    (t : List UInt8) : BehindPath (b :: t) := by
  rw [CharClass.has_or, Bool.or_eq_true] at h
  exact Or.inr ⟨b, t, rfl, h.imp CharClass.eq_of_has_single CharClass.eq_of_has_single⟩

/-- In a path that is not stored. -/
theorem storesTail_of_plain {q : ℕ} (hq : Nat.testBit plainStates q = true) {t : List UInt8}
    (hfin : firstFinal ≤ after q t) : StoresTail q t := by
  induction t generalizing q with
  -- a final state in the region stands at the end of a path
  | nil =>
    have hlt := lt_of_testBit plain_states.bound hq
    have hfinal : firstFinal ≤ q := hfin
    have hmem : q ∈ List.range' firstFinal 5 :=
      List.mem_range'_1.mpr ⟨hfinal, show q < 451 + 5 by omega⟩
    have hall := List.all_eq_true.mp plain_states.final q hmem
    rw [hq, Bool.not_true, Bool.false_or, decide_eq_true_eq] at hall
    exact storesTail_of_behindPath hall (Or.inl rfl) hfin
  | cons b t ih =>
    -- a byte of the path stays in the region, `?` and `#` leave it
    rcases has_or_has (K := pathBytes) (X := questionMark ||| hashSign) (by decide) b with hb | hb
    · obtain ⟨e, he, heb, -⟩ := entry_of_after (ne_error_of_final hfin)
      have hentry := regionAll_entry plain_states.ends hq he
      rw [meets heb hb, Bool.false_or, decide_eq_true_eq] at hentry
      exact storesTail_of_behindPath hentry (behindPath_of_has hb t) hfin
    · obtain ⟨q', hq', hfin', hstep⟩ := step_of_goesInto
        (fun e he => regionAll_entry plain_states.loop hq he) hb hfin
      exact hstep (ih hq' hfin')

/-- Behind the colon of a scheme, without an authority. -/
theorem storesTail_of_colon {t : List UInt8} (ht : ∀ r, t ≠ 47 :: 47 :: r)
    (hfin : firstFinal ≤ after 509 t) : StoresTail 509 t := by
  -- behind the colon, and behind a slash there, any byte but another slash leads into the path
  have hnext : ∀ q, EndsPath q [] →
      (row q).all (goesInto plainStates (.diff pathBytes slash)) = true →
      ∀ t, firstFinal ≤ after q t → (∀ r, t ≠ 47 :: r) → StoresTail q t := by
    intro q hends hrow t hfin hslash
    cases t with
    | nil => exact storesTail_of_behindPath hends (Or.inl rfl) hfin
    | cons b t =>
      rcases has_or_has (K := CharClass.diff pathBytes slash)
        (X := slash ||| (questionMark ||| hashSign)) (by decide) b with hb | hb
      · rw [CharClass.has_or, Bool.or_eq_true] at hb
        refine storesTail_of_behindPath hends (behindPath_of_has (hb.resolve_left ?_) t) hfin
        intro h47
        obtain rfl : b = 47 := CharClass.eq_of_has_single h47
        exact hslash t rfl
      · obtain ⟨q', hq', hfin', hstep⟩ := step_of_goesInto (List.all_eq_true.mp hrow) hb hfin
        exact hstep (storesTail_of_plain hq' hfin')
  by_cases hslash : ∃ r, t = 47 :: r
  · obtain ⟨r, rfl⟩ := hslash
    have hj := scheme_states.slashes.1
    have hfin' : firstFinal ≤ after 510 r := by
      rw [after, hj] at hfin
      exact hfin
    have hr : ∀ r', r ≠ 47 :: r' := by
      rintro r' rfl
      exact ht r' rfl
    obtain ⟨w, f, hw, hf, hrun⟩ := hnext 510 plain_states.colon.2 plain_states.entered.2 r hfin' hr
    refine ⟨w, f, hw, hf, fun mark uri => ?_⟩
    rw [exec_cons_st (x := ⟨509, mark, uri⟩) hj (by decide)]
    exact hrun mark uri
  · exact hnext 509 plain_states.colon.1 plain_states.entered.1 t hfin fun r hr => hslash ⟨r, hr⟩

/-! ### Scheme -/

/-- An action that stores a text. -/
theorem exists_of_text {mark : Option (List UInt8)} {p : List UInt8} {f : List UInt8 → Exec}
    {y : Exec} (h : (do let s ← text mark p; return f s : Except Fault Exec) = .ok y) :
    ∃ s, f s = y := by
  cases ht : text mark p with
  | error e =>
    rw [ht] at h
    cases h
  | ok s =>
    rw [ht] at h
    exact ⟨s, Except.ok.inj h⟩

/-- An action that stores a text if there is a mark. -/
theorem exists_of_optText {p : List UInt8} {x y : Exec} {f : List UInt8 → Exec}
    (h : (if x.mark = none then .ok x
      else do let s ← text x.mark p; return f s : Except Fault Exec) = .ok y) :
    y = x ∨ ∃ s, f s = y := by
  by_cases hmark : x.mark = none
  · rw [if_pos hmark] at h
    exact Or.inl (Except.ok.inj h).symm
  · rw [if_neg hmark] at h
    exact Or.inr (exists_of_text h)

/-- What an action keeps. -/
theorem runAction_keeps {p : List UInt8} {x y : Exec} {a : Action} (h : runAction p x a = .ok y) :
    y.cs = x.cs ∧ (a ≠ .saveScheme → y.uri.scheme = x.uri.scheme) := by
  cases a with
  | mark =>
    obtain rfl := Except.ok.inj h
    exact ⟨rfl, fun _ => rfl⟩
  | saveScheme =>
    obtain ⟨s, rfl⟩ := exists_of_text h
    exact ⟨rfl, fun hne => absurd rfl hne⟩
  | savePort =>
    rw [runAction] at h
    -- an empty port stores nothing
    by_cases hmark : x.mark = some p
    · rw [if_pos hmark] at h
      obtain rfl := Except.ok.inj h
      exact ⟨rfl, fun _ => rfl⟩
    · rw [if_neg hmark] at h
      cases hm : x.mark with
      | none =>
        rw [hm] at h
        cases h
      | some m =>
        rw [hm] at h
        obtain rfl := Except.ok.inj h
        exact ⟨rfl, fun _ => rfl⟩
  | saveUserinfo =>
    obtain rfl | ⟨s, rfl⟩ := exists_of_optText h
    · exact ⟨rfl, fun _ => rfl⟩
    · exact ⟨rfl, fun _ => rfl⟩
  | saveHost =>
    obtain rfl | ⟨s, rfl⟩ := exists_of_optText h
    · exact ⟨rfl, fun _ => rfl⟩
    · exact ⟨rfl, fun _ => rfl⟩
  | savePath =>
    obtain ⟨s, rfl⟩ := exists_of_text h
    exact ⟨rfl, fun _ => rfl⟩
  | saveQuery =>
    obtain ⟨s, rfl⟩ := exists_of_text h
    exact ⟨rfl, fun _ => rfl⟩
  | saveFragment =>
    obtain ⟨s, rfl⟩ := exists_of_text h
    exact ⟨rfl, fun _ => rfl⟩

/-- Actions leave the state, and the scheme unless one of them saves it. -/
theorem runActions_keeps {p : List UInt8} {x y : Exec} {as : List Action}
    (h : runActions p x as = .ok y) :
    y.cs = x.cs ∧ (.saveScheme ∉ as → y.uri.scheme = x.uri.scheme) := by
  induction as generalizing x with
  | nil =>
    obtain rfl := Except.ok.inj h
    exact ⟨rfl, fun _ => rfl⟩
  -- the action first, then those behind it
  | cons a as ih =>
    rw [runActions] at h
    cases ha : runAction p x a with
    | error e =>
      rw [ha] at h
      cases h
    | ok z =>
      rw [ha] at h
      obtain ⟨hcs, hscheme⟩ := runAction_keeps ha
      obtain ⟨hcs', hscheme'⟩ := ih h
      refine ⟨hcs'.trans hcs, fun hnot => ?_⟩
      rw [List.mem_cons, not_or] at hnot
      exact (hscheme' hnot.2).trans (hscheme (Ne.symm hnot.1))

/-- The entries of the table that have to do with the scheme. -/
structure SchemeEntries : Prop where
  saved : entriesAll (fun q e => !e.2.actions.contains .saveScheme ||
    (Nat.beq q 508 && Nat.beq (colon &&& e.1) e.1)) = true
  eof : (eofRows.all fun r => !r.2.contains .saveScheme) = true
  start : entriesAll (fun _ e => !Nat.beq e.2.target start) = true
  scheme : entriesAll (fun q e => !Nat.beq e.2.target 508 ||
    (Nat.beq q UriParser.start && Nat.beq (alpha &&& e.1) e.1) ||
      (Nat.beq q 508 && Nat.beq (schemeChar &&& e.1) e.1)) = true

/-- Which transitions save the scheme, read off the table. -/
theorem scheme_entries : SchemeEntries := by constructor <;> decide +kernel

/-- The end of the text saves no scheme. -/
theorem not_mem_eofActions (q : ℕ) : .saveScheme ∉ eofActions q := by
  unfold eofActions
  cases hf : eofRows.find? fun r => r.1.any fun q' => Nat.ble q'.1 q && Nat.ble q q'.2 with
  | none => exact List.not_mem_nil
  | some r =>
    have hall := List.all_eq_true.mp scheme_entries.eof r (List.mem_of_find?_eq_some hf)
    rw [Bool.not_eq_true'] at hall
    exact fun hmem => Bool.false_ne_true (hall.symm.trans (List.contains_iff_mem.mpr hmem))

/-- The state at the end of a run. -/
theorem exec_cs {x y : Exec} {s : List UInt8} (h : exec x s = .ok y) (hne : y.cs ≠ error) :
    y.cs = after x.cs s := by
  induction s generalizing x with
  | nil => exact (runActions_keeps h).1
  | cons b s ih =>
    obtain ⟨e, -, -, hj, z, -, hrun⟩ := exec_survives h hne
    rw [after, hj]
    exact ih hrun

/-- A scheme that is stored stands before a colon. -/
theorem colon_of_scheme {x y : Exec} {s : List UInt8} (h : exec x s = .ok y)
    (hfin : firstFinal ≤ y.cs) (h0 : x.uri.scheme = []) (hscheme : y.uri.scheme ≠ []) :
    ∃ w rest, s = w ++ 58 :: rest ∧ after x.cs w = 508 := by
  induction s generalizing x with
  | nil =>
    have hkeep := (runActions_keeps h).2 (not_mem_eofActions x.cs)
    exact absurd (hkeep.trans h0) hscheme
  | cons b s ih =>
    obtain ⟨e, he, hb, hj, z, hz, hrun⟩ := exec_survives h (ne_error_of_final hfin)
    -- only the transition on the colon stores the scheme
    by_cases hsave : .saveScheme ∈ e.2.actions
    · have hentry := entries_all scheme_entries.saved he
      rw [List.contains_iff_mem.mpr hsave, Bool.not_true, Bool.false_or, Bool.and_eq_true,
        Nat.beq_eq, Nat.beq_eq] at hentry
      obtain rfl : b = 58 := CharClass.eq_of_has_single (CharClass.has_of_subset hentry.2 hb)
      exact ⟨[], s, rfl, hentry.1⟩
    · have hkeep := (runActions_keeps hz).2 hsave
      obtain ⟨w, rest, rfl, hw⟩ := ih hrun (hkeep.trans h0)
      refine ⟨b :: w, rest, rfl, ?_⟩
      rw [after, hj]
      exact hw

/-- The machine does not come back to its first state. -/
theorem eq_nil_of_start {w : List UInt8} (h : after start w = start) : w = [] := by
  rcases List.eq_nil_or_concat w with rfl | ⟨v, b, rfl⟩
  · rfl
  · rw [List.concat_eq_append, after_concat] at h
    obtain ⟨e, he, -, hj⟩ := jump_entry (by rw [h]; decide)
    have hentry := entries_all scheme_entries.start he
    rw [hj] at h
    rw [h] at hentry
    exact absurd hentry (by decide)

/-- Before the state `508` stands a scheme. -/
theorem scheme_of_after {w : List UInt8} (h : after start w = 508) : w ∈ scheme := by
  -- the state at the colon is entered from the start, or from itself by a byte of the scheme
  induction w using List.reverseRecOn with
  | nil =>
    have h : start = 508 := h
    exact absurd h (by decide)
  | append_singleton w b ih =>
    rw [after_concat] at h
    obtain ⟨e, he, hb, hj⟩ := jump_entry (by rw [h]; decide)
    have hentry := entries_all scheme_entries.scheme he
    rw [hj] at h
    rw [h, Nat.beq_refl, Bool.not_true, Bool.false_or, Bool.or_eq_true, Bool.and_eq_true,
      Bool.and_eq_true, Nat.beq_eq, Nat.beq_eq, Nat.beq_eq, Nat.beq_eq] at hentry
    rcases hentry with ⟨hq, hclass⟩ | ⟨hq, hclass⟩
    · rw [eq_nil_of_start hq]
      exact ⟨[b], CharClass.singleton_mem_lang (CharClass.has_of_subset hclass hb), [],
        Language.nil_mem_kstar _, rfl⟩
    · obtain ⟨v, hv, u, hu, rfl⟩ := ih hq
      have hlast : [b] ∈ schemeChar.lang∗ :=
        (le_kstar : schemeChar.lang ≤ schemeChar.lang∗)
          (CharClass.singleton_mem_lang (CharClass.has_of_subset hclass hb))
      refine ⟨v, hv, u ++ [b], ?_, (List.append_assoc ..).symm⟩
      rw [← kstar_mul_kstar]
      exact Language.append_mem_mul hu hlast

end UriParser

/-! ### The fields -/

/-- Fields that are words of their nonterminals, and a port of 16 bits. -/
structure Uri.Grammatical (u : Uri) : Prop where
  scheme : u.scheme ∈ UriGrammar.scheme
  host : u.host ∈ UriGrammar.host
  port : u.port < 2 ^ 16
  path : u.path ∈ pathAbempty
  query : u.query ∈ UriGrammar.query
  fragment : u.fragment ∈ UriGrammar.fragment

/-- A query may be empty. -/
theorem nil_mem_query : [] ∈ UriGrammar.query := Language.nil_mem_kstar _

/-- A fragment may be empty. -/
theorem nil_mem_fragment : [] ∈ UriGrammar.fragment := Language.nil_mem_kstar _

/-- A host may be empty, as a name. -/
theorem nil_mem_host : [] ∈ UriGrammar.host := Or.inr (Language.nil_mem_kstar _)

/-- A part that is left out counts as an empty one. -/
theorem getD_mem {L : Language UInt8} (hnil : [] ∈ L) {o : Option (List UInt8)}
    (ho : ∀ v ∈ o, v ∈ L) : o.getD [] ∈ L := by
  cases o with
  | none => exact hnil
  | some v => exact ho v rfl

/-- What is stored of a URI is in the grammar, field by field. -/
theorem UriParts.grammatical_stored (c : UriParts) : c.stored.Grammatical := by
  obtain ⟨hs, -, hh, hq, hf, hp⟩ := c.stored_fields
  refine ⟨?_, ?_, ?_, ?_, ?_, ?_⟩
  · rw [hs]
    exact c.scheme_mem
  · rw [hh]
    exact c.host_mem
  · rw [c.stored_port]
    cases c.port with
    | none => decide
    | some d => exact Nat.mod_lt _ (by decide)
  · rw [hp]
    exact c.path_mem
  · rw [hq]
    exact getD_mem nil_mem_query c.query_mem
  · rw [hf]
    exact getD_mem nil_mem_fragment c.fragment_mem

/-- The run of an input that is accepted. -/
theorem exec_of_create {s : List UInt8} {u : Uri} (h : Uri.create s = .ok (some u)) :
    ∃ x, exec ⟨start, none, {}⟩ s = .ok x ∧ x.uri = u ∧ firstFinal ≤ x.cs := by
  unfold Uri.create at h
  cases hx : exec ⟨start, none, {}⟩ s with
  | error e =>
    rw [hx] at h
    cases h
  | ok x =>
    rw [hx] at h
    have h : (if x.cs = error then Except.ok none
      else if firstFinal ≤ x.cs then Except.ok (some x.uri) else Except.ok none) =
        (.ok (some u) : Except Fault (Option Uri)) := h
    -- the text is taken when the machine ends in a final state
    split at h
    · cases h
    · split at h
      · next hfin => exact ⟨x, rfl, Option.some.inj (Except.ok.inj h), hfin⟩
      · cases h

/-- A query and a fragment with their marks end a path. -/
theorem prefixed_pathEnd (w f : Option (List UInt8)) :
    prefixed 63 w ++ prefixed 35 f ∈ Item.pathEnd := by
  rw [mem_pathEnd]
  cases w with
  | some w => exact Or.inr ⟨63, w ++ prefixed 35 f, rfl, Or.inl rfl⟩
  | none =>
    cases f with
    | some f => exact Or.inr ⟨35, f, rfl, Or.inr rfl⟩
    | none => exact Or.inl rfl

/-- A state at the end of an authority stands before the path. -/
theorem startsPath_of_endsAuthority {q : ℕ} (h : EndsAuthority q) : ∃ as, StartsPath q as := by
  rcases h.1 with h | h | h | h
  · exact ⟨_, h⟩
  · exact ⟨_, h⟩
  · exact ⟨_, h⟩
  · exact ⟨_, h⟩

/-- **An authority.** An accepted input with one is made of its components. -/
theorem parts_of_create {w r : List UInt8} (hw : w ∈ UriGrammar.scheme) {u : Uri}
    (h : Uri.create (w ++ 58 :: 47 :: 47 :: r) = .ok (some u))
    (hfin : firstFinal ≤ after 511 r) : ∃ c : UriParts, u = c.stored := by
  obtain ⟨l, t, rfl, hl, ht, hends, hrest⟩ := authority_of_final hfin
  obtain ⟨as, hstarts⟩ := startsPath_of_endsAuthority hends
  obtain ⟨p, q, f, rfl, hp, hq, hf⟩ := path_of_final hstarts ht hrest
  -- the components with some port
  have hparts : ∀ (ui : Option (List UInt8)) (host : List UInt8) (port : Option (List UInt8)),
      (∀ v ∈ ui, v ∈ userinfo) → host ∈ UriGrammar.host →
      (∀ d ∈ port, d ∈ UriGrammar.port ∧ d ≠ []) →
      l = atSuffixed ui ++ (host ++ prefixed 58 port) → ∃ c : UriParts, u = c.stored := by
    rintro ui host port hui hhost hport rfl
    let c : UriParts := ⟨w, ui, host, port, p, q, f, hw, hui, hhost, hport, hp, hq, hf⟩
    have hc : w ++ 58 :: 47 :: 47 ::
        (atSuffixed ui ++ (host ++ prefixed 58 port) ++ (p ++ (prefixed 63 q ++ prefixed 35 f))) =
        c.render := by
      simp [c, UriParts.render, UriParts.afterScheme, UriParts.afterPort]
    rw [hc, c.create_render] at h
    exact ⟨c, (Option.some.inj (Except.ok.inj h)).symm⟩
  rcases hends.2 with hcolon | hstart | hin
  · -- the authority ends with its host
    rw [← after_concat] at hcolon
    obtain ⟨ui, host, rfl, hui, hhost⟩ := host_of_colon hl hcolon
    exact hparts ui host none hui hhost UriParts.port_none (by simp [prefixed])
  · -- behind the colon there is no port
    obtain ⟨a, rfl⟩ := colon_of_portStart hstart
    obtain ⟨ui, host, rfl, hui, hhost⟩ :=
      host_of_colon (fun b hb => hl b (List.mem_append_left _ hb)) hstart
    refine absurd h ?_
    have hbad := create_emptyPort hw hui hhost hp (prefixed_pathEnd q f) (some u)
    simpa using hbad
  · -- and here there is one
    obtain ⟨a, d, rfl, hne, hd, hcolon⟩ := digits_of_inPort hin
    obtain ⟨ui, host, rfl, hui, hhost⟩ :=
      host_of_colon (fun b hb => hl b (List.mem_append_left _ hb)) hcolon
    have hport : d ∈ UriGrammar.port :=
      mem_port_iff.mpr fun b hb => (UriParts.digit_has b).mp (hd b hb)
    exact hparts ui host (some d) hui hhost (port_some hport hne) (by simp [prefixed])

/-- **The fields.** What `Uri::create` stores for an input with a scheme. -/
theorem create_fields {s : List UInt8} {u : Uri} (h : Uri.create s = .ok (some u))
    (hscheme : u.scheme ≠ []) : u.Grammatical := by
  obtain ⟨x, hx, rfl, hfin⟩ := exec_of_create h
  obtain ⟨w, r, rfl, hw⟩ := colon_of_scheme hx hfin rfl hscheme
  have hmem := scheme_of_after hw
  have hstate : firstFinal ≤ after 509 r := by
    have hcs := exec_cs hx (ne_error_of_final hfin)
    have hw : after start w = 508 := hw
    rw [after_append, hw, after, scheme_states.colon] at hcs
    rw [← hcs]
    exact hfin
  -- two slashes behind the colon begin an authority
  by_cases hauth : ∃ r', r = 47 :: 47 :: r'
  · obtain ⟨r', rfl⟩ := hauth
    rw [after, after, scheme_states.slashes.1] at hstate
    have hfin' : firstFinal ≤ after 511 r' := by
      have hj := scheme_states.slashes.2
      have hstate : firstFinal ≤ after (jump 510 47).target r' := hstate
      rw [hj] at hstate
      exact hstate
    obtain ⟨c, hc⟩ := parts_of_create hmem h hfin'
    rw [hc]
    exact c.grammatical_stored
  · obtain ⟨q, f, hq, hf, hrun⟩ := storesTail_of_colon (fun r' hr => hauth ⟨r', hr⟩) hstate
    obtain ⟨y, hy, huri, -⟩ := hrun none { scheme := w }
    rw [exec_schemeColon hmem, hy] at hx
    obtain rfl := Except.ok.inj hx
    rw [huri]
    -- without an authority there is no host, no port and no path
    have hfields : (withFragment (withQuery { scheme := w } q) f).Grammatical := by
      have hempty :
          ({ scheme := w, query := q.getD [], fragment := f.getD [] } : Uri).Grammatical :=
        ⟨hmem, nil_mem_host, (by decide : 0 < 2 ^ 16), UriParts.pathAbempty_nil,
          getD_mem nil_mem_query hq, getD_mem nil_mem_fragment hf⟩
      cases q <;> cases f <;> exact hempty
    exact hfields

end LoNetfw.Net
