import LoNetfw.Basis.Occurrence

namespace LoNetfw.Util

open Basis

/-!
# `split`

`util::split` cuts a string at the occurrences of a delimiter.  The delimiter is not tested; behind
an occurrence the loop goes on at its end, which for an empty delimiter is where it was.

* `splitLoop` — the loop, with a bound on its turns;
* `cuts_of_splitLoop` — what it has added when it ends;
* `splitLoop_terminates`, `splitLoop_nil` — it ends, except for the empty delimiter;
* `split_iff` — the delimiters for which `split` is right.
-/

/-- `s.find(delimiter, start)`; `npos` is `none`. -/
def find (s delimiter : List UInt8) (start : ℕ) : Option ℕ := firstFrom delimiter s start

/-- The loop of `split` and what follows it; `none` when `fuel` turns are not enough.  The place
    `start` is never behind the end of `s`, so `substr` does not throw. -/
def splitLoop (s delimiter : List UInt8) :
    ℕ → ℕ → List (List UInt8) → Option (List (List UInt8))
  | 0, _, _ => none
  | fuel + 1, start, tokens =>
    match find s delimiter start with
    | some stop =>
      splitLoop s delimiter fuel (stop + delimiter.length)
        (tokens ++ [slice s start (stop - start)])
    | none => some (tokens ++ [s.drop start])

/-- `split(s, delimiter)` returns these tokens. -/
def SplitReturns (s delimiter : List UInt8) (tokens : List (List UInt8)) : Prop :=
  ∃ fuel, splitLoop s delimiter fuel 0 [] = some tokens

/-- It returns, joining the tokens gives the string back, and no token contains the delimiter. -/
structure SplitRight (s delimiter : List UInt8) : Prop where
  terminates : ∃ tokens, SplitReturns s delimiter tokens
  join : ∀ tokens, SplitReturns s delimiter tokens → delimiter.intercalate tokens = s
  clean : ∀ tokens, SplitReturns s delimiter tokens → ∀ t ∈ tokens, ¬ delimiter <:+: t

variable {s delimiter : List UInt8} {tokens r : List (List UInt8)} {fuel start : ℕ}

/-! ### The result -/

/-- The tokens that the loop adds are the rest of the string, cut at the delimiter. -/
theorem cuts_of_splitLoop (hd : delimiter ≠ []) (hstart : start ≤ s.length)
    (h : splitLoop s delimiter fuel start tokens = some r) :
    ∃ added, r = tokens ++ added ∧ Cuts delimiter (s.drop start) added := by
  induction fuel generalizing start tokens with
  | zero => cases h
  | succ fuel ih =>
    rw [splitLoop] at h
    cases hfind : find s delimiter start with
    -- the last token is the rest of the text
    | none =>
      rw [hfind] at h
      obtain rfl := Option.some.inj h
      exact ⟨[s.drop start], rfl, .last (not_infix_drop hstart hfind)⟩
    -- the loop goes on behind the delimiter
    | some stop =>
      rw [hfind] at h
      obtain ⟨added, rfl, hcuts⟩ := ih (length_le_of_firstFrom hfind).2 h
      refine ⟨slice s start (stop - start) :: added, ?_, ?_⟩
      · rw [List.append_assoc]
        rfl
      · rw [drop_eq_of_firstFrom hfind]
        exact .cut (not_infix_slice hd hfind) hcuts

/-- What the loop returns is the text cut at the delimiters. -/
theorem cuts_of_returns (hd : delimiter ≠ []) (h : SplitReturns s delimiter tokens) :
    Cuts delimiter s tokens := by
  obtain ⟨fuel, hfuel⟩ := h
  obtain ⟨added, rfl, hcuts⟩ := cuts_of_splitLoop hd (Nat.zero_le _) hfuel
  exact hcuts

/-! ### Termination -/

/-- Every turn but the last one leaves less of the string. -/
theorem splitLoop_terminates (hd : delimiter ≠ []) (hstart : start ≤ s.length)
    (hfuel : s.length < start + fuel) :
    ∃ r, splitLoop s delimiter fuel start tokens = some r := by
  have hpos := List.length_pos_iff.mpr hd
  induction fuel generalizing start tokens with
  | zero => omega
  | succ fuel ih =>
    rw [splitLoop]
    cases hfind : find s delimiter start with
    | none => exact ⟨tokens ++ [s.drop start], rfl⟩
    | some stop =>
      -- `start` grows by the length of the delimiter at least
      have hle := length_le_of_firstFrom hfind
      exact ih hle.2 (by omega)

/-- With an empty delimiter no number of turns is enough. -/
theorem splitLoop_nil (hstart : start ≤ s.length) (fuel : ℕ) :
    splitLoop s [] fuel start tokens = none := by
  induction fuel generalizing tokens with
  | zero => rfl
  | succ fuel ih =>
    -- the delimiter is found at `start`, and the loop goes on there
    rw [splitLoop, show find s [] start = some start from firstFrom_nil hstart]
    exact ih

/-- **When `split` is right.** -/
theorem split_iff (s delimiter : List UInt8) : SplitRight s delimiter ↔ delimiter ≠ [] := by
  constructor
  · rintro h rfl
    obtain ⟨tokens, fuel, hfuel⟩ := h.terminates
    rw [splitLoop_nil (Nat.zero_le _)] at hfuel
    cases hfuel
  · intro hd
    exact {
      terminates := by
        have hends : ∃ tokens, splitLoop s delimiter (s.length + 1) 0 [] = some tokens :=
          splitLoop_terminates hd (Nat.zero_le _) (by omega)
        obtain ⟨tokens, htokens⟩ := hends
        exact ⟨tokens, _, htokens⟩
      join := fun tokens h => (cuts_of_returns hd h).join
      clean := fun tokens h => (cuts_of_returns hd h).clean }

/-- `split("a", "")` does not return. -/
theorem split_empty_delimiter : ¬ ∀ s delimiter : List UInt8, SplitRight s delimiter :=
  fun h => (split_iff [97] []).mp (h [97] []) rfl

end LoNetfw.Util
