import LoNetfw.Basis.Occurrence
import LoNetfw.Util.Yaml
import Mathlib.Algebra.BigOperators.Group.List.Basic

namespace LoNetfw.Util

open Basis

/-!
# Log formats

The grammar of log formats: literals, items `%c`, dates `%d{body}` and escaped `%`, read from the
left.

* `Piece` — a piece of a format, with its spelling and its token;
* `lexWith`, `lex` — the pieces of a format; in `lex` two `%` are one piece;
* `flatMap_text` — the pieces are the whole format;
* `lexWith_of_unclosed`, `unclosed_of_lexWith` — the formats without pieces have a `%d{` that is not
  closed;
* `lexWith_false_of_notMem`, `notMem_of_map_token` — reading two `%` as two pieces changes the
  tokens exactly when there is an escaped `%`.
-/

/-- The only entry of one of the maps that `formatParser` returns. -/
structure FormatToken where
  str : Text
  kind : UInt8
  deriving DecidableEq, Repr

/-! ### Pieces -/

/-- A piece of a log format. -/
inductive Piece
  /-- A maximal run of characters other than `%`. -/
  | literal (run : Text)
  /-- `%%`. -/
  | escape
  /-- `%d{body}`. -/
  | date (body : Text)
  /-- `%c`. -/
  | item (c : UInt8)
  /-- A `%` by itself. -/
  | lone
  deriving DecidableEq, Repr

namespace Piece

/-- How a piece is written. -/
def text : Piece → Text
  | literal run => run
  | escape => [37, 37]
  | date body => ([37, 100, 123] ++ body) ++ [125]
  | item c => [37, c]
  | lone => [37]

/-- The token that stands for it. -/
def token : Piece → FormatToken
  | literal run => ⟨run, 0⟩
  | escape => ⟨[37], 0⟩
  | date body => ⟨body, 2⟩
  | item c => ⟨[c], 1⟩
  | lone => ⟨[37], 0⟩

end Piece

/-- The first piece of `c :: s` and what follows it; the text behind a `%d{` that is not closed is
    the error.  With `pair` two `%` are one piece, without it the first one is a piece by itself. -/
def firstPiece (pair : Bool) (c : UInt8) (s : Text) : Except Text (Piece × Text) :=
  if c ≠ 37 then .ok (.literal (c :: upTo 37 s), fromFirst 37 s)
  else
    match s with
    | [] => .ok (.lone, [])
    | a :: t =>
      if a = 37 then if pair then .ok (.escape, t) else .ok (.lone, a :: t)
      else if a = 100 ∧ t.head? = some 123 then
        match fromFirst 125 t.tail with
        | [] => .error t.tail
        | _ :: rest => .ok (.date (upTo 125 t.tail), rest)
      else .ok (.item a, t)

/-- The pieces that a text can start with, and what follows them. -/
inductive Starts (pair : Bool) : Piece → Text → Text → Prop
  | literal {c : UInt8} (s : Text) (hc : c ≠ 37) :
    Starts pair (.literal (c :: upTo 37 s)) (fromFirst 37 s) (c :: s)
  | escape (rest : Text) (hpair : pair = true) : Starts pair .escape rest (37 :: 37 :: rest)
  | date (body rest : Text) (hbody : 125 ∉ body) :
    Starts pair (.date body) rest (37 :: 100 :: 123 :: (body ++ 125 :: rest))
  | item {a : UInt8} (rest : Text) (ha : a ≠ 37) (hdate : ¬ (a = 100 ∧ rest.head? = some 123)) :
    Starts pair (.item a) rest (37 :: a :: rest)
  | lone (rest : Text) (hrest : rest = [] ∨ pair = false ∧ rest.head? = some 37) :
    Starts pair .lone rest (37 :: rest)

section Starts

variable {pair : Bool} {c : UInt8} {s rest body : Text} {p : Piece}

/-- What `firstPiece` cuts off is a piece. -/
theorem starts_of_firstPiece (h : firstPiece pair c s = .ok (p, rest)) :
    Starts pair p rest (c :: s) := by
  unfold firstPiece at h
  -- no `%`, a `%` at the end, a doubled one, a date, an item
  split at h
  · rename_i hc
    cases h
    exact .literal s hc
  · rename_i hc
    obtain rfl := Decidable.not_not.mp hc
    split at h
    · cases h
      exact .lone [] (.inl rfl)
    · rename_i a t
      split at h
      · rename_i ha
        subst ha
        split at h
        · rename_i hpair
          cases h
          exact .escape _ hpair
        · rename_i hpair
          cases h
          exact .lone _ (.inr ⟨Bool.eq_false_of_not_eq_true hpair, rfl⟩)
      · rename_i ha
        split at h
        · rename_i hdate
          obtain ⟨rfl, hbrace⟩ := hdate
          obtain ⟨u, rfl⟩ := List.head?_eq_some_iff.mp hbrace
          split at h
          · cases h
          · rename_i hfirst
            cases h
            have hu : u = upTo 125 u ++ 125 :: rest := eq_of_fromFirst hfirst
            have hdate : Starts pair (.date (upTo 125 u)) rest
                (37 :: 100 :: 123 :: (upTo 125 u ++ 125 :: rest)) := .date _ rest notMem_upTo
            rw [← hu] at hdate
            exact hdate
        · rename_i hdate
          cases h
          exact .item _ ha hdate

/-- Every piece is cut off by `firstPiece`. -/
theorem firstPiece_of_starts (h : Starts pair p rest (c :: s)) :
    firstPiece pair c s = .ok (p, rest) := by
  unfold firstPiece
  -- each shape of a start is one branch of the definition
  cases h with
  | literal s hc => rw [if_pos hc]
  | escape rest hpair =>
    rw [if_neg (not_not_intro rfl)]
    simp only [↓reduceIte, hpair]
  | date body rest hbody =>
    rw [if_neg (not_not_intro rfl)]
    simp [fromFirst_append hbody, upTo_append hbody]
  | item rest ha hdate =>
    rw [if_neg (not_not_intro rfl)]
    simp only [if_neg ha, if_neg hdate]
  | lone rest hrest =>
    rw [if_neg (not_not_intro rfl)]
    obtain rfl | ⟨hpair, hhead⟩ := hrest
    · rfl
    · obtain ⟨u, rfl⟩ := List.head?_eq_some_iff.mp hhead
      simp [hpair]

/-- A piece and what follows it are the text. -/
theorem Starts.text (h : Starts pair p rest s) : p.text ++ rest = s := by
  cases h with
  | literal s hc => exact congrArg _ (upTo_append_fromFirst 37 s)
  | date body rest hbody =>
    rw [Piece.text, List.append_assoc, List.append_assoc]
    rfl
  | escape | item | lone => rfl

/-- No piece is empty. -/
theorem Starts.text_pos (h : Starts pair p rest s) : 0 < p.text.length := by
  cases h <;> simp [Piece.text]

/-- What is left behind a piece is shorter. -/
theorem Starts.length_lt (h : Starts pair p rest s) : rest.length < s.length := by
  have hlen := congrArg List.length h.text
  have hpos := h.text_pos
  rw [List.length_append] at hlen
  omega

end Starts

/-- The pieces of a text, from the left. -/
def lexWith (pair : Bool) : Text → Except Text (List Piece)
  | [] => .ok []
  | c :: s =>
    match _h : firstPiece pair c s with
    | .error body => .error body
    | .ok (p, rest) => (lexWith pair rest).map (p :: ·)
termination_by s => s.length
decreasing_by exact (starts_of_firstPiece ‹_›).length_lt

/-- The pieces of a log format: two `%` are an escaped one. -/
def lex (str : Text) : Except Text (List Piece) := lexWith true str

/-- A mapped result is a value's image. -/
theorem map_eq_ok {ε α β : Type} {x : Except ε α} {f : α → β} {b : β} :
    x.map f = .ok b ↔ ∃ a, x = .ok a ∧ f a = b := by
  cases x <;> simp [Except.map]

/-- Mapping keeps an error. -/
theorem map_eq_error {ε α β : Type} {x : Except ε α} {f : α → β} {e : ε} :
    x.map f = .error e ↔ x = .error e := by
  cases x <;> simp [Except.map]

section Lex

variable {pair : Bool} {c : UInt8} {s rest body : Text} {p : Piece} {ps qs : List Piece}

/-- The only mistake a format can have: `%d{` that is not closed. -/
theorem firstPiece_eq_error_iff : firstPiece pair c s = .error body ↔
    c = 37 ∧ s = 100 :: 123 :: body ∧ 125 ∉ body := by
  -- only a date without its closing brace gives an error
  constructor
  · intro h
    unfold firstPiece at h
    split at h
    · cases h
    · rename_i hc
      split at h
      · cases h
      · rename_i a t
        split at h
        · split at h <;> cases h
        · split at h
          · rename_i hdate
            obtain ⟨rfl, hbrace⟩ := hdate
            obtain ⟨u, rfl⟩ := List.head?_eq_some_iff.mp hbrace
            split at h
            · rename_i hfirst
              cases h
              exact ⟨Decidable.not_not.mp hc, rfl, fromFirst_eq_nil_iff.mp hfirst⟩
            · cases h
          · cases h
  · rintro ⟨rfl, rfl, hbody⟩
    have hfirst := fromFirst_eq_nil_iff.mpr hbody
    simp [firstPiece, hfirst]

/-- A `%d{` with no `}` behind it. -/
def Unclosed (s : Text) : Prop := ∃ x body, s = x ++ 37 :: 100 :: 123 :: body ∧ 125 ∉ body

/-- A piece, and the division of the rest. -/
theorem lexWith_cons_of_ok (h : firstPiece pair c s = .ok (p, rest)) :
    lexWith pair (c :: s) = (lexWith pair rest).map (p :: ·) := by
  rw [lexWith]
  split
  · rename_i hfirst
    cases h.symm.trans hfirst
  · rename_i hfirst
    cases h.symm.trans hfirst
    rfl

/-! ### Runs of the lexer -/

/-- Every character belongs to one piece. -/
theorem flatMap_text (h : lexWith pair s = .ok ps) : ps.flatMap Piece.text = s := by
  fun_induction lexWith pair s generalizing ps with
  | case1 =>
    cases h
    rfl
  | case2 c s body hfirst => cases h
  | case3 c s p rest hfirst ih =>
    obtain ⟨qs, hqs, rfl⟩ := map_eq_ok.mp h
    rw [List.flatMap_cons, ih hqs]
    exact (starts_of_firstPiece hfirst).text

/-- Without the rule for `%%` no piece is an escape. -/
theorem escape_notMem (h : lexWith false s = .ok ps) : Piece.escape ∉ ps := by
  fun_induction lexWith false s generalizing ps with
  | case1 =>
    cases h
    exact List.not_mem_nil
  | case2 c s body hfirst => cases h
  | case3 c s p rest hfirst ih =>
    obtain ⟨qs, hqs, rfl⟩ := map_eq_ok.mp h
    have hp : Piece.escape ≠ p := by
      rintro rfl
      cases starts_of_firstPiece hfirst with
      | escape _ hpair => cases hpair
    rw [List.mem_cons, not_or]
    exact ⟨hp, ih hqs⟩

/-- Only two `%` in a row are read differently. -/
theorem Starts.single (h : Starts true p rest s) (hp : Piece.escape ≠ p) :
    Starts false p rest s := by
  cases h with
  | literal s hc => exact .literal s hc
  | escape => exact absurd rfl hp
  | date body rest hbody => exact .date body rest hbody
  | item rest ha hdate => exact .item rest ha hdate
  | lone rest hrest => exact .lone rest (.inl (hrest.resolve_right fun h => by cases h.1))

/-- A division without an escape is the same under either rule. -/
theorem lexWith_false_of_notMem (h : lexWith true s = .ok ps) (hps : Piece.escape ∉ ps) :
    lexWith false s = .ok ps := by
  fun_induction lexWith true s generalizing ps with
  | case1 =>
    cases h
    rw [lexWith]
  | case2 c s body hfirst => cases h
  | case3 c s p rest hfirst ih =>
    obtain ⟨qs, hqs, rfl⟩ := map_eq_ok.mp h
    rw [List.mem_cons, not_or] at hps
    have hstarts := (starts_of_firstPiece hfirst).single hps.1
    rw [lexWith_cons_of_ok (firstPiece_of_starts hstarts), ih hqs hps.2]
    rfl

/-- An error of the lexer shows a `%d{` that is not closed. -/
theorem unclosed_of_lexWith (h : lexWith pair s = .error body) : Unclosed s := by
  fun_induction lexWith pair s with
  | case1 => cases h
  | case2 c s body' hfirst =>
    obtain ⟨rfl, rfl, hbody⟩ := firstPiece_eq_error_iff.mp hfirst
    exact ⟨[], body', rfl, hbody⟩
  | case3 c s p rest hfirst ih =>
    obtain ⟨x, y, hrest, hy⟩ := ih (map_eq_error.mp h)
    refine ⟨p.text ++ x, y, ?_, hy⟩
    rw [← (starts_of_firstPiece hfirst).text, hrest, List.append_assoc]

/-- The brace that closes a body is not the one of a `%d{` behind it. -/
theorem unclosed_of_body {x y : Text} (h : body ++ 125 :: rest = x ++ 37 :: 100 :: 123 :: y)
    (hy : 125 ∉ y) : Unclosed rest := by
  have hmem : 125 ∉ 37 :: 100 :: 123 :: y := by simpa using hy
  obtain ⟨a, -, ha⟩ | ⟨a, -, ha⟩ := List.append_eq_append_iff.mp h
  · cases a with
    | nil => simp at ha
    | cons _ a => exact ⟨a, y, (List.cons.inj ha).2, hy⟩
  · rw [ha] at hmem
    exact absurd (List.mem_append_right _ List.mem_cons_self) hmem

/-- A piece that the lexer reads, two `%` as two pieces, does not reach into an open `%d{`. -/
theorem Starts.unclosed (h : Starts false p rest s) (hs : Unclosed s) : Unclosed rest := by
  obtain ⟨x, y, hs, hy⟩ := hs
  cases h with
  | @literal c s hc =>
    cases x with
    | nil => exact absurd (List.cons.inj hs).1 hc
    | cons _ x =>
      obtain rfl := (List.cons.inj hs).2
      exact ⟨fromFirst 37 x, y, fromFirst_append_cons, hy⟩
  | escape rest hpair => cases hpair
  | date body rest hbody =>
    -- the `%d{` that is not closed is this one, inside its head, or behind it
    rcases x with _ | ⟨_, _ | ⟨_, _ | ⟨_, x⟩⟩⟩
    · simp only [List.nil_append, List.cons.injEq, true_and] at hs
      exact absurd (hs ▸ List.mem_append_right _ List.mem_cons_self) hy
    · simp at hs
    · simp at hs
    · simp only [List.cons_append, List.cons.injEq] at hs
      exact unclosed_of_body hs.2.2.2 hy
  | @item a rest ha hdate =>
    rcases x with _ | ⟨_, _ | ⟨_, x⟩⟩
    · simp only [List.nil_append, List.cons.injEq, true_and] at hs
      exact absurd ⟨hs.1, by rw [hs.2]; rfl⟩ hdate
    · simp only [List.cons_append, List.nil_append, List.cons.injEq] at hs
      exact absurd hs.2.1 ha
    · exact ⟨x, y, (List.cons.inj (List.cons.inj hs).2).2, hy⟩
  | lone rest hrest =>
    cases x with
    | nil =>
      obtain rfl := (List.cons.inj hs).2
      simp at hrest
    | cons _ x => exact ⟨x, y, (List.cons.inj hs).2, hy⟩

/-- An open `%d{` is an error for the lexer that takes two `%` for two pieces. -/
theorem lexWith_of_unclosed (h : Unclosed s) : ∃ body, lexWith false s = .error body := by
  fun_induction lexWith false s with
  | case1 =>
    obtain ⟨x, y, hs, -⟩ := h
    simp at hs
  | case2 c s body hfirst => exact ⟨body, rfl⟩
  | case3 c s p rest hfirst ih =>
    obtain ⟨body, hbody⟩ := ih ((starts_of_firstPiece hfirst).unclosed h)
    exact ⟨body, map_eq_error.mpr hbody⟩

/-! ### What is lost in the tokens -/

/-- The number of characters that a token takes in a format, if it is no escaped `%`. -/
def FormatToken.width (t : FormatToken) : ℕ :=
  t.str.length + if t.kind = 0 then 0 else if t.kind = 1 then 1 else 4

/-- A token is as wide as its piece, and one less for an escape. -/
theorem width_token (p : Piece) :
    p.token.width + (if p = .escape then 1 else 0) = p.text.length := by
  cases p <;> simp [Piece.token, Piece.text, FormatToken.width]

/-- All tokens together fall short of the text by the number of escapes. -/
theorem sum_width (ps : List Piece) :
    ((ps.map Piece.token).map FormatToken.width).sum + ps.count .escape =
      (ps.flatMap Piece.text).length := by
  induction ps with
  | nil => rfl
  | cons p ps ih =>
    rw [List.map_cons, List.map_cons, List.sum_cons, List.count_cons, List.flatMap_cons,
      List.length_append, ← ih, ← width_token p]
    simp only [beq_iff_eq]
    omega

/-- Where two `%` are read as one piece, the tokens are others. -/
theorem notMem_of_map_token (hps : lexWith true s = .ok ps) (hqs : lexWith false s = .ok qs)
    (h : ps.map Piece.token = qs.map Piece.token) : Piece.escape ∉ ps := by
  -- the tokens take all characters of the format but one for each escaped `%`
  have hp := sum_width ps
  have hq := sum_width qs
  rw [flatMap_text hps, h] at hp
  rw [flatMap_text hqs, List.count_eq_zero.mpr (escape_notMem hqs)] at hq
  exact List.count_eq_zero.mp (by omega)

end Lex

end LoNetfw.Util
