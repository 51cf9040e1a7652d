import LoNetfw.Util.FormatPieces

namespace LoNetfw.Util

open Basis

/-!
# `formatParser` — the loops over a log format

`util::formatParser` cuts a log format into literals, items `%c` and dates `%d{body}`.

* `scan`, `turn`, `formatParser` — the loops of the source, on an `int` index;
* `turn_of_starts`, `turn_of_open` — what one turn makes of the first piece of the rest;
* `formatParser_eq` — a format that an `int` can index is read by `lexWith false`, where two `%` are
  two pieces;
* `formatParser_overflow` — what happens to a longer one;
* `formatRight_iff` — the formats for which `formatParser` returns the pieces of `lex`.
-/

/-! ### The code -/

/-- What ends the parser without a result. -/
inductive FormatFault
  /-- An `int` is increased beyond its maximum. -/
  | overflow
  /-- `throw std::runtime_error(what)`. -/
  | runtimeError (what : Text)
  deriving DecidableEq, Repr

/-- `str[i]`; the character behind the last one is `'\0'`. -/
def charAt (str : Text) (i : ℕ) : UInt8 := str.getD i 0

/-- `i + k` on `int`. -/
def plus (i k : ℕ) : Except FormatFault ℕ :=
  if i + k < 2 ^ 31 then .ok (i + k) else .error .overflow

/-- `while (str[i] != stop && i < str.size())`, with `temp` and `i` at its end. -/
def scan (stop : UInt8) (str : Text) (i : ℕ) (temp : Text) : Except FormatFault (Text × ℕ) :=
  if charAt str i ≠ stop ∧ i < str.length then
    if i + 1 < 2 ^ 31 then scan stop str (i + 1) (temp ++ [charAt str i]) else .error .overflow
  else .ok (temp, i)
termination_by str.length - i

/-- The body of the `for` loop: the token that it adds, and `i` at its end. -/
def turn (str : Text) (i : ℕ) : Except FormatFault (FormatToken × ℕ) :=
  if charAt str i ≠ 37 then do
    let (temp, j) ← scan 37 str i []
    -- `i--`
    return (⟨temp, 0⟩, j - 1)
  else do
    let i₁ ← plus i 1
    if i₁ < str.length ∧ charAt str i₁ ≠ 37 then
      let i₂ ← plus i 2
      if i₂ < str.length ∧ charAt str i₁ = 100 ∧ charAt str i₂ = 123 then
        let i₃ ← plus i 3
        let (temp, j) ← scan 125 str i₃ []
        if str.length ≤ j then throw (.runtimeError (temp ++ ascii ": format error"))
        else return (⟨temp, 2⟩, j)
      else return (⟨[charAt str i₁], 1⟩, i₁)
    -- also when the next character is a `%`, which stays where it is
    else return (⟨[37], 0⟩, i)

variable {str : Text} {i j : ℕ}

/-- The inner loop does not go back, and moves unless it stands on its stop. -/
theorem scan_le {stop : UInt8} {temp t : Text} (h : scan stop str i temp = .ok (t, j)) :
    i ≤ j ∧ (charAt str i ≠ stop → i < str.length → i < j) := by
  fun_induction scan stop str i temp with
  | case1 i temp hcond hlt ih =>
    have := (ih h).1
    exact ⟨by omega, fun _ _ => by omega⟩
  | case2 => cases h
  | case3 i temp hcond =>
    cases h
    exact ⟨Nat.le_refl _, fun hne hlt => absurd ⟨hne, hlt⟩ hcond⟩

/-- An index in `int` is good as long as it does not overflow. -/
theorem plus_eq_ok {k : ℕ} : plus i k = .ok j ↔ j = i + k ∧ j < 2 ^ 31 := by
  unfold plus
  by_cases h : i + k < 2 ^ 31
  · rw [if_pos h, Except.ok.injEq]
    exact ⟨fun he => ⟨he.symm, he ▸ h⟩, fun he => he.1.symm⟩
  · rw [if_neg h]
    exact ⟨fun he => absurd he (by simp), fun he => absurd (he.1 ▸ he.2) h⟩

/-- A step that needs the result of another one succeeds when both do. -/
theorem bind_eq_ok {ε α β : Type} {x : Except ε α} {f : α → Except ε β} {r : β} :
    x >>= f = .ok r ↔ ∃ a, x = .ok a ∧ f a = .ok r := by
  cases x <;> simp [bind, Except.bind]

/-- A block fails where its first part fails or the rest does. -/
theorem bind_eq_error {ε α β : Type} {x : Except ε α} {f : α → Except ε β} {e : ε} :
    x >>= f = .error e ↔ x = .error e ∨ ∃ a, x = .ok a ∧ f a = .error e := by
  cases x <;> simp [bind, Except.bind]

/-- The body of the loop never leaves `i` in front of where it was. -/
theorem le_of_turn {token : FormatToken} (hi : i < str.length) (h : turn str i = .ok (token, j)) :
    i ≤ j := by
  unfold turn at h
  -- a literal run never goes back, and neither do the increments behind a `%`
  split at h
  · rename_i hne
    obtain ⟨⟨temp, j'⟩, hscan, hj⟩ := bind_eq_ok.mp h
    have := (scan_le hscan).2 hne hi
    cases hj
    omega
  · obtain ⟨i₁, h₁, h⟩ := bind_eq_ok.mp h
    have hi₁ := (plus_eq_ok.mp h₁).1
    split at h
    · obtain ⟨i₂, h₂, h⟩ := bind_eq_ok.mp h
      split at h
      · obtain ⟨i₃, h₃, h⟩ := bind_eq_ok.mp h
        have hi₃ := (plus_eq_ok.mp h₃).1
        obtain ⟨⟨temp, j'⟩, hscan, h⟩ := bind_eq_ok.mp h
        have hle := (scan_le hscan).1
        dsimp only at h
        split at h
        · cases h
        · cases h
          omega
      · cases h
        omega
    · cases h
      exact Nat.le_refl _

/-- The `for` loop from `i` on, with the tokens so far. -/
def formatLoop (str : Text) (i : ℕ) (res : List FormatToken) :
    Except FormatFault (List FormatToken) :=
  if _hi : i < str.length then
    match h : turn str i with
    | .error fault => .error fault
    | .ok (token, j) =>
      if j + 1 < 2 ^ 31 then formatLoop str (j + 1) (res ++ [token]) else .error .overflow
  else .ok res
termination_by str.length - i
decreasing_by
  have := le_of_turn ‹i < str.length› h
  omega

def formatParser (str : Text) : Except FormatFault (List FormatToken) := formatLoop str 0 []

/-! ### The loops of the source -/

section Code

variable {stop a c : UInt8} {s u v rest body temp : Text} {p : Piece} {ps : List Piece}

/-- A character that follows a prefix of the rest is inside the text. -/
theorem lt_of_drop (h : str.drop i = u ++ a :: v) : i + u.length < str.length := by
  have := congrArg List.length h
  rw [List.length_drop, List.length_append, List.length_cons] at this
  omega

/-- `charAt` finds a character that follows a prefix of the rest. -/
theorem charAt_of_drop (h : str.drop i = u ++ a :: v) : charAt str (i + u.length) = a := by
  rw [charAt, List.getD_eq_getElem?_getD, ← List.getElem?_drop, h,
    List.getElem?_append_right (Nat.le_refl _), Nat.sub_self]
  rfl

/-- The rest starts with the character at the index. -/
theorem drop_eq_cons (h : i < str.length) : str.drop i = charAt str i :: str.drop (i + 1) := by
  rw [List.drop_eq_getElem_cons h, charAt, List.getD_eq_getElem?_getD, List.getElem?_eq_getElem h]
  rfl

/-- The inner loops take what is in front of the character that stops them. -/
theorem scan_eq (hlen : str.length < 2 ^ 31) : scan stop str i temp =
    .ok (temp ++ upTo stop (str.drop i), i + (upTo stop (str.drop i)).length) := by
  -- the loop takes one character a turn, up to `stop` or the end
  fun_induction scan stop str i temp with
  | case1 i temp hcond hlt ih =>
    have hcons : upTo stop (str.drop i) = charAt str i :: upTo stop (str.drop (i + 1)) := by
      rw [drop_eq_cons hcond.2, upTo_cons hcond.1]
    rw [ih, hcons, List.append_assoc, List.length_cons]
    congr 2
    omega
  -- below 2³¹ the index does not overflow
  | case2 i temp hcond hlt => omega
  | case3 i temp hcond =>
    have hnil : upTo stop (str.drop i) = [] := by
      by_cases hi : i < str.length
      · have hstop : charAt str i = stop := Decidable.not_not.mp fun hne => hcond ⟨hne, hi⟩
        rw [drop_eq_cons hi, hstop, upTo_cons_self]
      · rw [List.drop_eq_nil_of_le (Nat.le_of_not_lt hi)]
        rfl
    rw [hnil, List.append_nil]
    rfl

/-- Short of the bound the addition is the exact one. -/
theorem plus_of_lt {k : ℕ} (h : i + k < 2 ^ 31) : plus i k = .ok (i + k) := if_pos h

/-- One turn of the loop at a `%`, with its branches: `%d` with a brace, one letter, or the `%`
    alone. -/
theorem turn_of_percent (hchar : charAt str i = 37) (h : i + 1 < 2 ^ 31) : turn str i =
    if i + 1 < str.length ∧ charAt str (i + 1) ≠ 37 then do
      let i₂ ← plus i 2
      if i₂ < str.length ∧ charAt str (i + 1) = 100 ∧ charAt str i₂ = 123 then
        let i₃ ← plus i 3
        let (temp, j) ← scan 125 str i₃ []
        if str.length ≤ j then throw (.runtimeError (temp ++ ascii ": format error"))
        else return (⟨temp, 2⟩, j)
      else return (⟨[charAt str (i + 1)], 1⟩, i + 1)
    else return (⟨[37], 0⟩, i) := by
  rw [turn, if_neg (not_not_intro hchar), plus_of_lt h]
  rfl

/-- Behind a `%d{` the loop looks for the closing brace. -/
theorem turn_of_date (hlen : str.length < 2 ^ 31) (hdrop : str.drop i = 37 :: 100 :: 123 :: v) :
    turn str i =
      if str.length ≤ i + 3 + (upTo 125 v).length then
        .error (.runtimeError (upTo 125 v ++ ascii ": format error"))
      else .ok (⟨upTo 125 v, 2⟩, i + 3 + (upTo 125 v).length) := by
  -- the three characters that make the token
  have hchar : charAt str i = 37 := charAt_of_drop (u := []) hdrop
  have hchar₁ : charAt str (i + 1) = 100 := charAt_of_drop (u := [37]) hdrop
  have hchar₂ : charAt str (i + 2) = 123 := charAt_of_drop (u := [37, 100]) hdrop
  have hlt : i + 2 < str.length := lt_of_drop (u := [37, 100]) hdrop
  have hbody : str.drop (i + 3) = v := by
    rw [← List.drop_drop, hdrop]
    rfl
  rw [turn_of_percent hchar (by omega), hchar₁, if_pos ⟨by omega, by decide⟩,
    plus_of_lt (by omega)]
  dsimp only [bind, Except.bind]
  rw [hchar₂, if_pos ⟨hlt, rfl, rfl⟩, plus_of_lt (by omega)]
  dsimp only
  rw [scan_eq hlen, hbody]
  rfl

/-- The body of the loop adds the token of the first piece, and leaves `i` on its last character. -/
theorem turn_of_starts (hlen : str.length < 2 ^ 31) (h : Starts false p rest (str.drop i)) :
    turn str i = .ok (p.token, i + p.text.length - 1) := by
  generalize hdrop : str.drop i = w at h
  have hi : i < str.length := by
    have := h.length_lt
    rw [← hdrop, List.length_drop] at this
    omega
  cases h with
  | @literal c s hc =>
    have hchar : charAt str i = c := charAt_of_drop (u := []) hdrop
    rw [turn, hchar, if_pos hc, scan_eq hlen, hdrop, upTo_cons hc]
    rfl
  | escape rest hpair => cases hpair
  | date body rest hbody =>
    have hlt : i + (37 :: 100 :: 123 :: body).length < str.length := lt_of_drop hdrop
    have hj : i + (Piece.date body).text.length - 1 = i + 3 + body.length := by
      simp only [Piece.text, List.length_append, List.length_cons, List.length_nil]
      omega
    simp only [List.length_cons] at hlt
    rw [turn_of_date hlen hdrop, upTo_append hbody, if_neg (by omega), hj]
    rfl
  | @item a rest ha hdate =>
    have hchar : charAt str i = 37 := charAt_of_drop (u := []) hdrop
    have hchar₁ : charAt str (i + 1) = a := charAt_of_drop (u := [37]) hdrop
    have hlt : i + 1 < str.length := lt_of_drop (u := [37]) hdrop
    -- no `%d{`
    have hnot : ¬ (i + 2 < str.length ∧ a = 100 ∧ charAt str (i + 2) = 123) := by
      rintro ⟨hlt₂, ha, hbrace⟩
      have hrest : str.drop (i + 2) = rest := by
        rw [← List.drop_drop, hdrop]
        rfl
      rw [drop_eq_cons hlt₂, hbrace] at hrest
      exact hdate ⟨ha, hrest ▸ rfl⟩
    rw [turn_of_percent hchar (by omega), hchar₁, if_pos ⟨hlt, ha⟩, plus_of_lt (by omega)]
    dsimp only [bind, Except.bind]
    rw [if_neg hnot]
    rfl
  | lone rest hrest =>
    have hchar : charAt str i = 37 := charAt_of_drop (u := []) hdrop
    -- the format ends here, or another `%` follows
    have hnot : ¬ (i + 1 < str.length ∧ charAt str (i + 1) ≠ 37) := by
      rintro ⟨hlt, hne⟩
      have hdrop₁ : str.drop (i + 1) = rest := by
        rw [← List.drop_drop, hdrop]
        rfl
      rw [drop_eq_cons hlt] at hdrop₁
      obtain rfl | ⟨-, hhead⟩ := hrest
      · cases hdrop₁
      · rw [← hdrop₁] at hhead
        exact hne (Option.some.inj hhead)
    rw [turn_of_percent hchar (by omega), if_neg hnot]
    rfl

/-- A `%d{` that is not closed ends the parser with the text behind it. -/
theorem turn_of_open (hlen : str.length < 2 ^ 31) (hdrop : str.drop i = 37 :: 100 :: 123 :: body)
    (hbody : 125 ∉ body) :
    turn str i = .error (.runtimeError (body ++ ascii ": format error")) := by
  have hend := congrArg List.length hdrop
  simp only [List.length_drop, List.length_cons] at hend
  rw [turn_of_date hlen hdrop, upTo_of_notMem hbody, if_pos (by omega)]

/-- Behind the token of a piece the loop goes on with what follows the piece. -/
theorem drop_of_starts (h : Starts false p rest (str.drop i)) (hi : i < str.length) :
    str.drop (i + p.text.length - 1 + 1) = rest ∧ i + p.text.length - 1 + 1 ≤ str.length := by
  have hpos := h.text_pos
  have hlen := congrArg List.length h.text
  rw [List.length_append, List.length_drop] at hlen
  rw [show i + p.text.length - 1 + 1 = i + p.text.length by omega, ← List.drop_drop, ← h.text,
    List.drop_left]
  exact ⟨rfl, by omega⟩

/-- A turn that gives a token goes on behind it. -/
theorem formatLoop_of_ok {res : List FormatToken} {token : FormatToken} (hi : i < str.length)
    (hturn : turn str i = .ok (token, j)) (hj : j + 1 < 2 ^ 31) :
    formatLoop str i res = formatLoop str (j + 1) (res ++ [token]) := by
  rw [formatLoop, dif_pos hi]
  split
  · rename_i h
    cases hturn.symm.trans h
  · rename_i h
    cases hturn.symm.trans h
    exact if_pos hj

/-- A turn that fails ends the loop. -/
theorem formatLoop_of_error {res : List FormatToken} {fault : FormatFault} (hi : i < str.length)
    (hturn : turn str i = .error fault) : formatLoop str i res = .error fault := by
  rw [formatLoop, dif_pos hi]
  split
  · rename_i h
    cases hturn.symm.trans h
    rfl
  · rename_i h
    cases hturn.symm.trans h

/-- What the parser makes of the pieces that are left, when it has `res`. -/
def outcome (res : List FormatToken) :
    Except Text (List Piece) → Except FormatFault (List FormatToken)
  | .ok ps => .ok (res ++ ps.map Piece.token)
  | .error body => .error (.runtimeError (body ++ ascii ": format error"))

/-- A piece in front of the rest is a token in front of the result. -/
theorem outcome_cons (res : List FormatToken) (p : Piece) (r : Except Text (List Piece)) :
    outcome (res ++ [p.token]) r = outcome res (r.map (p :: ·)) := by
  cases r with
  | error body => rfl
  | ok ps => exact congrArg _ (List.append_assoc res [p.token] (ps.map Piece.token))

/-- **What the loop does.**  From `i` on it reads the pieces of the rest. -/
theorem formatLoop_eq (hlen : str.length < 2 ^ 31) (res : List FormatToken)
    (hdrop : str.drop i = s) : formatLoop str i res = outcome res (lexWith false s) := by
  -- by induction on the pieces: a turn of the loop adds the token of the first one
  fun_induction lexWith false s generalizing i res with
  | case1 =>
    have hi : ¬ i < str.length := Nat.not_lt.mpr (List.drop_eq_nil_iff.mp hdrop)
    rw [formatLoop, dif_neg hi]
    exact congrArg _ (List.append_nil res).symm
  | case2 c s body hfirst =>
    obtain ⟨rfl, rfl, hbody⟩ := firstPiece_eq_error_iff.mp hfirst
    exact formatLoop_of_error (lt_of_drop (u := []) hdrop) (turn_of_open hlen hdrop hbody)
  | case3 c s p rest hfirst ih =>
    have hi : i < str.length := lt_of_drop (u := []) hdrop
    have hstarts := starts_of_firstPiece hfirst
    rw [← hdrop] at hstarts
    have hnext := drop_of_starts hstarts hi
    rw [formatLoop_of_ok hi (turn_of_starts hlen hstarts) (by omega), ih _ hnext.1, outcome_cons]

/-- Below 2³¹ characters `formatParser` is the division into pieces. -/
theorem formatParser_eq (hlen : str.length < 2 ^ 31) :
    formatParser str = outcome [] (lexWith false str) := formatLoop_eq hlen [] rfl

/-! ### Formats that an `int` cannot index -/

/-- The inner loop stays in range. -/
theorem scan_lt (hi : i < 2 ^ 31) (h : scan stop str i temp = .ok (u, j)) : j < 2 ^ 31 := by
  fun_induction scan stop str i temp with
  | case1 i temp hcond hlt ih => exact ih hlt h
  | case2 => cases h
  | case3 =>
    cases h
    exact hi

/-- The inner loop fails by overflow only. -/
theorem scan_error {fault : FormatFault} (h : scan stop str i temp = .error fault) :
    fault = .overflow := by
  fun_induction scan stop str i temp with
  | case1 i temp hcond hlt ih => exact ih h
  | case2 =>
    cases h
    rfl
  | case3 => cases h

/-- The addition fails by overflow only. -/
theorem plus_error {k : ℕ} {fault : FormatFault} (h : plus i k = .error fault) :
    fault = .overflow := by
  unfold plus at h
  split at h
  · cases h
  · cases h
    rfl

/-- In a long format the closing `}` is looked for until the index overflows. -/
theorem turn_error {fault : FormatFault} (hlen : 2 ^ 31 ≤ str.length)
    (h : turn str i = .error fault) : fault = .overflow := by
  unfold turn at h
  split at h
  · obtain hscan | ⟨_, _, h⟩ := bind_eq_error.mp h
    · exact scan_error hscan
    · cases h
  · obtain hplus | ⟨i₁, -, h⟩ := bind_eq_error.mp h
    · exact plus_error hplus
    split at h
    · obtain hplus | ⟨i₂, -, h⟩ := bind_eq_error.mp h
      · exact plus_error hplus
      split at h
      · obtain hplus | ⟨i₃, h₃, h⟩ := bind_eq_error.mp h
        · exact plus_error hplus
        obtain hscan | ⟨⟨temp, j⟩, hscan, h⟩ := bind_eq_error.mp h
        · exact scan_error hscan
        have hi₃ := plus_eq_ok.mp h₃
        -- the end of the format is beyond every index
        have hj := scan_lt hi₃.2 hscan
        dsimp only at h
        rw [if_neg (by omega)] at h
        cases h
      · cases h
    · cases h

/-- A format of 2³¹ characters or more runs into the overflow, wherever the loop stands. -/
theorem formatLoop_overflow (hlen : 2 ^ 31 ≤ str.length) (hi : i < 2 ^ 31)
    (res : List FormatToken) : formatLoop str i res = .error .overflow := by
  fun_induction formatLoop str i res with
  | case1 i res hilen fault hturn => rw [turn_error hlen hturn]
  | case2 i res hilen token j hturn hlt ih => exact ih hlt
  | case3 => rfl
  | case4 i res hilen => omega

/-- A format of `2 ^ 31` characters or more overflows the index. -/
theorem formatParser_overflow (hlen : 2 ^ 31 ≤ str.length) :
    formatParser str = .error .overflow := formatLoop_overflow hlen (by decide) []

end Code

/-! ### The result -/

/-- The tokens are the ones of the pieces, an unclosed `%d{` is an error, and the pieces are the
    whole format. -/
structure FormatRight (str : Text) : Prop where
  tokens : ∀ pieces, lex str = .ok pieces → formatParser str = .ok (pieces.map Piece.token)
  unclosed : ∀ body, lex str = .error body → ∃ what, formatParser str = .error (.runtimeError what)
  consumed : ∀ pieces, lex str = .ok pieces → pieces.flatMap Piece.text = str

/-- A format that is treated rightly is shorter than that. -/
theorem length_lt_of_formatRight (h : FormatRight str) : str.length < 2 ^ 31 := by
  by_contra hlen
  have hover := formatParser_overflow (Nat.le_of_not_lt hlen)
  cases hlex : lex str with
  | ok pieces => cases hover.symm.trans (h.tokens pieces hlex)
  | error body =>
    obtain ⟨what, hwhat⟩ := h.unclosed body hlex
    cases hover.symm.trans hwhat

/-- **When `formatParser` is right.** -/
theorem formatRight_iff (str : Text) : FormatRight str ↔
    str.length < 2 ^ 31 ∧ ∀ pieces, lex str = .ok pieces → Piece.escape ∉ pieces := by
  constructor
  · intro h
    have hlen := length_lt_of_formatRight h
    refine ⟨hlen, fun pieces hlex => ?_⟩
    have htokens := h.tokens pieces hlex
    rw [formatParser_eq hlen] at htokens
    -- the parser reads each `%` on its own, so a doubled one shows up as another token
    cases hsingle : lexWith false str with
    | ok qs =>
      rw [hsingle] at htokens
      exact notMem_of_map_token hlex hsingle (Except.ok.inj htokens).symm
    | error body =>
      rw [hsingle] at htokens
      cases htokens
  · rintro ⟨hlen, hescape⟩
    exact {
      tokens := fun pieces hlex => by
        rw [formatParser_eq hlen, lexWith_false_of_notMem hlex (hescape pieces hlex)]
        rfl
      unclosed := fun body hlex => by
        obtain ⟨rest, hrest⟩ := lexWith_of_unclosed (unclosed_of_lexWith hlex)
        rw [formatParser_eq hlen, hrest]
        exact ⟨_, rfl⟩
      consumed := fun pieces hlex => flatMap_text hlex }

/-- Of `%%` the parser makes two tokens. -/
theorem formatParser_double_percent : ¬ ∀ str : Text, FormatRight str := by
  intro h
  have hlex : lex [37, 37] = .ok [.escape] := by
    simp [lex, lexWith, firstPiece, Except.map]
  exact ((formatRight_iff [37, 37]).mp (h [37, 37])).2 _ hlex List.mem_cons_self

end LoNetfw.Util
