import LoNetfw.Net.UriLabels

namespace LoNetfw.Net

open Basis UriParser UriGrammar
open scoped Computability

/-!
# Faults of `Uri::create`

An action whose mark is behind the current character never runs, and one without a mark runs on
exactly the inputs that have an authority with an empty port, up to the end of the path.

* `runActions_spec` — what a jump does to `mark`, and that it only fails without a mark;
* `exec_error_iff` — the machine fails exactly where its table of configurations accepts;
* `Uri.create_safe_iff` — the inputs on which `Uri::create` returns.
-/

namespace UriParser

/-! ### Actions -/

/-- The mark is not behind the current character. -/
def MarkBefore (mark : Option (List UInt8)) (p : List UInt8) : Prop :=
  ∀ m ∈ mark, p.length ≤ m.length

/-- A mark that is not set is not behind. -/
theorem markBefore_none (p : List UInt8) : MarkBefore none p :=
  fun _ hm => absurd hm (Option.not_mem_none _)

/-- What is not behind a character is not behind the next one. -/
theorem MarkBefore.tail {mark : Option (List UInt8)} {b : UInt8} {p : List UInt8}
    (h : MarkBefore mark (b :: p)) : MarkBefore mark p :=
  fun m hm => (Nat.le_succ _).trans (h m hm)

/-- The text between the mark and the place that is reached. -/
theorem text_some {m p : List UInt8} (h : p.length ≤ m.length) :
    text (some m) p = .ok (m.take (m.length - p.length)) := by
  rw [text, if_pos h]

/-- What an action may have done: a fault without a mark, or a mark that is not behind. -/
def ActionSpec (p : List UInt8) (x : Exec) (m : Option Bool) (r : Except Fault Exec) : Prop :=
  match m with
  | none => r = .error .nullMark
  | some m' => ∃ x', r = .ok x' ∧ x'.cs = x.cs ∧ x'.mark.isSome = m' ∧ MarkBefore x'.mark p

/-- An action of the machine faults only where no mark is set. -/
theorem runAction_spec {p : List UInt8} {x : Exec} (h : MarkBefore x.mark p) (a : Action) :
    ActionSpec p x (markAction x.mark.isSome a) (runAction p x a) := by
  obtain ⟨cs, mark, uri⟩ := x
  cases mark with
  -- without a mark only the two guarded actions do nothing; the others read through the null
  -- pointer
  | none =>
    cases a with
    | mark =>
      refine ⟨_, rfl, rfl, rfl, fun m hm => ?_⟩
      rw [Option.mem_some_iff.mp hm]
    | saveHost => exact ⟨_, rfl, rfl, rfl, h⟩
    | saveUserinfo => exact ⟨_, rfl, rfl, rfl, h⟩
    | _ => exact rfl
  | some m =>
    -- the text between the mark and the byte
    have htext := text_some (h m rfl)
    cases a with
    | mark =>
      refine ⟨_, rfl, rfl, rfl, fun m hm => ?_⟩
      rw [Option.mem_some_iff.mp hm]
    | savePort =>
      by_cases hm : some m = some p
      · exact ⟨_, if_pos hm, rfl, rfl, markBefore_none p⟩
      · exact ⟨_, if_neg hm, rfl, rfl, markBefore_none p⟩
    | saveHost =>
      refine ⟨⟨cs, some m, { uri with host := m.take (m.length - p.length) }⟩, ?_, rfl, rfl, h⟩
      rw [runAction, if_neg (Option.some_ne_none m), htext]
      rfl
    | saveUserinfo =>
      refine ⟨⟨cs, none, { uri with userinfo := m.take (m.length - p.length) }⟩, ?_, rfl, rfl,
        markBefore_none p⟩
      rw [runAction, if_neg (Option.some_ne_none m), htext]
      rfl
    | saveScheme =>
      refine ⟨⟨cs, none, { uri with scheme := m.take (m.length - p.length) }⟩, ?_, rfl, rfl,
        markBefore_none p⟩
      rw [runAction, htext]
      rfl
    | savePath =>
      refine ⟨⟨cs, none, { uri with path := m.take (m.length - p.length) }⟩, ?_, rfl, rfl,
        markBefore_none p⟩
      rw [runAction, htext]
      rfl
    | saveQuery =>
      refine ⟨⟨cs, none, { uri with query := m.take (m.length - p.length) }⟩, ?_, rfl, rfl,
        markBefore_none p⟩
      rw [runAction, htext]
      rfl
    | saveFragment =>
      refine ⟨⟨cs, none, { uri with fragment := m.take (m.length - p.length) }⟩, ?_, rfl, rfl,
        markBefore_none p⟩
      rw [runAction, htext]
      rfl

/-- The actions of a jump, by induction on the list. -/
theorem runActions_spec {p : List UInt8} (as : List Action) {x : Exec}
    (h : MarkBefore x.mark p) :
    ActionSpec p x (markActions x.mark.isSome as) (runActions p x as) := by
  induction as generalizing x with
  | nil => exact ⟨x, rfl, rfl, rfl, h⟩
  | cons a as ih =>
    have ha := runAction_spec h a
    rw [markActions, runActions]
    -- the abstract machine keeps only whether a mark is set
    cases hm : markAction x.mark.isSome a with
    | none =>
      rw [hm] at ha
      rw [show runAction p x a = .error .nullMark from ha]
      exact rfl
    | some m' =>
      rw [hm] at ha
      obtain ⟨x', hx', hcs, hmark, hp⟩ := ha
      rw [hx', ← hmark]
      have hrest := ih hp
      show ActionSpec p x (markActions x'.mark.isSome as) (runActions p x' as)
      cases hms : markActions x'.mark.isSome as with
      | none =>
        rw [hms] at hrest
        exact hrest
      | some m'' =>
        rw [hms] at hrest
        obtain ⟨x'', hx'', hcs', hrest⟩ := hrest
        exact ⟨x'', hx'', hcs'.trans hcs, hrest⟩

/-! ### Runs -/

/-- The table takes the jump of the machine. -/
theorem configs_next (q : ℕ) (m : Bool) (b : UInt8) :
    configs.next (some (q, m)) b = ((row q).find? fun e => e.1.has b).map fun e =>
      (markActions m e.2.actions).map fun m' => (e.2.target, m') := by
  rw [Table.next]
  show Option.map _ (List.find? _ ((row q).map _)) = _
  rw [List.find?_map, Option.map_map]
  rfl

/-- Whatever comes after a fault, the input has one. -/
theorem accepts_none (w : List UInt8) : configs.accepts none w = true :=
  (configs_accepts rfl w).mpr ⟨.any, List.mem_singleton_self _, trivial⟩

/-- Nothing runs in the error state. -/
theorem accepts_error (m : Bool) (w : List UInt8) :
    configs.accepts (some (error, m)) w = false := by
  cases w with
  | nil => cases m <;> rfl
  | cons b w =>
    rw [Table.accepts, configs_next, start_labels.2.2.2]
    rfl

/-- **Where the machine fails.**  From a mark that is not behind the current character, the only
    fault is a mark that is missing, on the inputs the table of configurations accepts. -/
theorem exec_error_iff (rest : List UInt8) {x : Exec} (h : MarkBefore x.mark rest) (e : Fault) :
    exec x rest = .error e ↔
      e = .nullMark ∧ configs.accepts (some (x.cs, x.mark.isSome)) rest = true := by
  induction rest generalizing x with
  | nil =>
    -- at the end of the input the table looks at the actions of the state
    have hspec := runActions_spec (eofActions x.cs) h
    rw [exec, Table.accepts]
    show _ ↔ _ ∧ (markActions x.mark.isSome (eofActions x.cs)).isNone = true
    cases hm : markActions x.mark.isSome (eofActions x.cs) with
    | none =>
      rw [hm] at hspec
      rw [show runActions [] x (eofActions x.cs) = .error .nullMark from hspec]
      simp [eq_comm]
    | some m' =>
      rw [hm] at hspec
      obtain ⟨x', hx', -⟩ := hspec
      rw [hx']
      simp
  | cons b rest ih =>
    rw [exec, Table.accepts, configs_next]
    unfold jump
    cases hf : (row x.cs).find? fun e => e.1.has b with
    | none =>
      -- the jump to the error state has no actions
      show Except.ok _ = _ ↔ _
      simp
    | some j =>
      have hspec := runActions_spec j.2.actions h
      show (do
        let x' ← runActions (b :: rest) x j.2.actions
        if j.2.target = error then return { x' with cs := error }
        else exec { x' with cs := j.2.target } rest) = .error e ↔
          e = .nullMark ∧ configs.accepts
            ((markActions x.mark.isSome j.2.actions).map fun m' => (j.2.target, m')) rest = true
      cases hm : markActions x.mark.isSome j.2.actions with
      | none =>
        rw [hm] at hspec
        rw [show runActions (b :: rest) x j.2.actions = .error .nullMark from hspec,
          Option.map_none, accepts_none]
        show Except.error _ = _ ↔ _
        simp [eq_comm]
      | some m' =>
        rw [hm] at hspec
        obtain ⟨x', hx', -, hmark, hp⟩ := hspec
        rw [hx', Option.map_some, ← hmark]
        show (if j.2.target = error then Except.ok { x' with cs := error }
          else exec { x' with cs := j.2.target } rest) = _ ↔ _
        by_cases ht : j.2.target = error
        -- the machine is stuck, and nothing is accepted from the error state
        · rw [if_pos ht, ht, accepts_error]
          simp
        · rw [if_neg ht]
          exact ih (x := { x' with cs := j.2.target }) hp.tail

end UriParser

/-! ### `Uri::create` -/

/-- A URI with a scheme and an authority that ends with a colon and no port, up to the end of its
    path. -/
def emptyPortUri : Language UInt8 :=
  scheme * colon.lang * slash.lang * slash.lang * opt (userinfo * atSign.lang) * host *
    colon.lang * pathAbempty

/-- What may follow a path is empty or begins with one of the two marks. -/
theorem mem_pathEnd {w : List UInt8} :
    w ∈ Item.pathEnd ↔ w = [] ∨ ∃ b w', w = b :: w' ∧ (b = 63 ∨ b = 35) := by
  rw [Item.pathEnd, Language.mem_add, Language.mem_one]
  refine or_congr_right ?_
  cases w with
  | nil => simp [CharClass.nil_notMem_mul]
  | cons b w =>
    have hb : (questionMark ||| hashSign).has b = true ↔ b = 63 ∨ b = 35 := by
      rw [CharClass.has_or, Bool.or_eq_true]
      show (CharClass.single 63).has b = true ∨ (CharClass.single 35).has b = true ↔ _
      simp only [CharClass.has_single, decide_eq_true_eq, ← UInt8.toNat_inj]
      exact or_congr eq_comm eq_comm
    rw [CharClass.cons_mem_mul, hb]
    simp [show w ∈ (⊤ : Language UInt8) from trivial]

/-- The language of the first item is that of the whole. -/
theorem lang_scheme0 : Item.scheme0.lang = emptyPortUri * Item.pathEnd := by
  rw [emptyPortUri]
  simp only [Item.lang, Item.lang.authority, Item.emptyPort, mul_assoc]

/-- `Uri::create` fails without a mark, on the URIs with an empty port. -/
theorem Uri.create_error_iff (s : List UInt8) (e : Fault) :
    Uri.create s = .error e ↔ e = .nullMark ∧ s ∈ emptyPortUri * Item.pathEnd := by
  have hexec := exec_error_iff (x := ⟨start, none, {}⟩) s (markBefore_none s) e
  -- what the machine with its mark takes from the start
  have hlabel : configs.accepts (some (start, false)) s = true ↔ s ∈ Item.scheme0.lang := by
    rw [configs_accepts start_labels.1.1, start_labels.1.2]
    simp
  rw [← lang_scheme0, ← hlabel]
  refine Iff.trans ?_ hexec
  rw [Uri.create]
  cases hx : exec ⟨start, none, {}⟩ s with
  | error e' =>
    show Except.error e' = Except.error e ↔ Except.error e' = Except.error e
    rw [Except.error.injEq, Except.error.injEq]
  | ok x =>
    -- once the machine has run, nothing fails any more
    have hcont : ∀ r : Except Fault (Option Uri),
        r = (if x.cs = error then pure none
          else if firstFinal ≤ x.cs then pure (some x.uri) else pure none) → r ≠ .error e := by
      rintro r rfl
      split
      · exact fun h => nomatch h
      · split <;> exact fun h => nomatch h
    exact iff_of_false (hcont _ rfl) fun h => nomatch h

/-- **When `Uri::create` returns.**  It returns `nullptr` or a `Uri` unless some part of the input
    up to its end, a `?` or a `#` is a URI whose authority ends with a colon and no port. -/
theorem Uri.create_safe_iff (s : List UInt8) : (∃ u, Uri.create s = .ok u) ↔
    ¬ ∃ v w, v ++ w = s ∧ v ∈ emptyPortUri ∧
      (w = [] ∨ ∃ b w', w = b :: w' ∧ (b = 63 ∨ b = 35)) := by
  -- the text behind the path ends, or goes on with `?` or `#`
  have hmem : (∃ v w, v ++ w = s ∧ v ∈ emptyPortUri ∧
      (w = [] ∨ ∃ b w', w = b :: w' ∧ (b = 63 ∨ b = 35))) ↔ s ∈ emptyPortUri * Item.pathEnd := by
    rw [Language.mem_mul]
    simp only [← mem_pathEnd]
    tauto
  rw [hmem]
  cases hs : Uri.create s with
  | ok u =>
    refine iff_of_true ⟨u, rfl⟩ fun hbad => ?_
    have herr := (Uri.create_error_iff s .nullMark).mpr ⟨rfl, hbad⟩
    rw [hs] at herr
    exact nomatch herr
  | error e =>
    have hbad := ((Uri.create_error_iff s e).mp hs).2
    exact iff_of_false (fun ⟨_, hu⟩ => nomatch hu) fun hnot => hnot hbad

/-- `x://h:` ends with an empty port: `save_path` runs after `save_port` has cleared the mark. -/
theorem Uri.create_empty_port : ¬ ∃ u, Uri.create [120, 58, 47, 47, 104, 58] = .ok u := by
  have herr : Uri.create [120, 58, 47, 47, 104, 58] = .error .nullMark := by decide +kernel
  rw [herr]
  exact fun ⟨_, hu⟩ => nomatch hu

end LoNetfw.Net
