import LoNetfw.Config.ConfigData
import LoNetfw.Util.LexicalCast

namespace LoNetfw.Config

open Util

/-!
# String configs

A `ConfigData<std::string>` converts between its value and text with the general `lexical_cast`,
which sends the string through a stream: blanks in front are skipped, the word behind them is the
result, and only blanks may follow.

* `lexicalCastString`, `lexicalCastString_eq_some_iff` — the strings that this cast accepts;
* `lexicalCastString_self_iff` — the strings that it gives back;
* `stringRoundTrip_iff` — the strings that a config keeps.
-/

/-- `lexical_cast<std::string>(source)`: `ss >> res` and `(ss >> std::ws).eof()` after
    `ss << source`; an exception is `none`. -/
def lexicalCastString (source : Text) : Option Text :=
  let s := source.dropWhile isSpace
  let res := s.takeWhile fun ch => !isSpace ch
  -- nothing extracted, which sets `failbit`
  if res = [] then none
  else if (s.dropWhile fun ch => !isSpace ch).all isSpace then some res
  else none

/-- What `>>` extracts. -/
structure IsWord (w : Text) : Prop where
  ne_nil : w ≠ []
  noSpace : ∀ ch ∈ w, isSpace ch = false

section Cast

variable {source w a b : Text}

/-- `operator>>` skips the blanks in front of a word. -/
theorem dropWhile_blanks (ha : a.all isSpace = true) (hw : IsWord w) :
    (a ++ (w ++ b)).dropWhile isSpace = w ++ b := by
  rw [List.dropWhile_append_of_pos (List.all_eq_true.mp ha)]
  obtain ⟨ch, u, rfl⟩ := List.exists_cons_of_ne_nil hw.ne_nil
  rw [List.cons_append, List.dropWhile_cons_of_neg]
  rw [hw.noSpace ch List.mem_cons_self]
  decide

/-- `operator>>` stops at the first blank behind the word. -/
theorem takeWhile_word (hw : IsWord w) (hb : b.all isSpace = true) :
    (w ++ b).takeWhile (fun ch => !isSpace ch) = w := by
  have hall : ∀ ch ∈ w, (!isSpace ch) = true := fun ch h => by rw [hw.noSpace ch h]; rfl
  rw [List.takeWhile_append_of_pos hall]
  cases b with
  | nil => exact List.append_nil w
  | cons ch b =>
    rw [List.takeWhile_cons_of_neg, List.append_nil]
    rw [List.all_eq_true.mp hb ch List.mem_cons_self]
    decide

/-- Accepted are the single words with blanks around them. -/
theorem lexicalCastString_eq_some_iff : lexicalCastString source = some w ↔
    IsWord w ∧ ∃ a b, source = a ++ (w ++ b) ∧ a.all isSpace = true ∧ b.all isSpace = true := by
  constructor
  · intro h
    unfold lexicalCastString at h
    dsimp only at h
    split at h
    · cases h
    · rename_i hne
      split at h
      · rename_i hb
        obtain rfl := Option.some.inj h
        refine ⟨⟨hne, fun ch hch => ?_⟩, source.takeWhile isSpace, _, ?_, List.all_takeWhile, hb⟩
        · simpa using List.mem_takeWhile_imp hch
        · rw [List.takeWhile_append_dropWhile, List.takeWhile_append_dropWhile]
      · cases h
  · rintro ⟨hw, a, b, rfl, ha, hb⟩
    -- behind the word there are blanks only
    have hrest : (w ++ b).dropWhile (fun ch => !isSpace ch) = b := by
      have happend := List.takeWhile_append_dropWhile (p := fun ch => !isSpace ch) (l := w ++ b)
      rw [takeWhile_word hw hb] at happend
      exact List.append_cancel_left happend
    unfold lexicalCastString
    dsimp only
    rw [dropWhile_blanks ha hw, takeWhile_word hw hb, hrest, if_neg hw.ne_nil, if_pos hb]

/-- A text is read back when it is one word. -/
theorem lexicalCastString_self_iff : lexicalCastString source = some source ↔ IsWord source := by
  rw [lexicalCastString_eq_some_iff]
  exact ⟨And.left, fun h => ⟨h, [], [], (List.append_nil source).symm, rfl, rfl⟩⟩

end Cast

/-! ### The config -/

section RoundTrip

variable {C : Type} {d : ConfigData Text C} {s : Text}

/-- The string is accepted, and the config has it and prints it afterwards; the callbacks return. -/
structure StringRoundTrip (d : ConfigData Text C) (s : Text) : Prop where
  succeeds : (d.fromString .never lexicalCastString s).1 = true
  getData : (d.fromString .never lexicalCastString s).2.1.getData = s
  toString : (d.fromString .never lexicalCastString s).2.1.toString lexicalCastString = s

/-- A text that is converted is set. -/
theorem fromString_of_cast {w : Text} (h : lexicalCastString s = some w) :
    d.fromString .never lexicalCastString s = d.setData .never w := by
  rw [ConfigData.fromString, h]

/-- A text that is not converted leaves the item alone. -/
theorem fromString_of_refused (h : lexicalCastString s = none) :
    d.fromString .never lexicalCastString s = (false, d, []) := by
  rw [ConfigData.fromString, h]

/-- **When a string comes back from a config.** -/
theorem stringRoundTrip_iff (d : ConfigData Text C) (s : Text) :
    StringRoundTrip d s ↔ IsWord s := by
  constructor
  · intro h
    -- a string that is accepted is stored as the word in it
    cases hcast : lexicalCastString s with
    | none =>
      have hsucceeds := h.succeeds
      rw [fromString_of_refused hcast] at hsucceeds
      cases hsucceeds
    | some w =>
      have hdata := h.getData
      rw [fromString_of_cast hcast, ConfigData.getData, ConfigData.setData_never_data] at hdata
      rw [hdata] at hcast
      exact lexicalCastString_self_iff.mp hcast
  · intro hword
    have hcast := lexicalCastString_self_iff.mpr hword
    have hdata : (d.fromString .never lexicalCastString s).2.1.getData = s := by
      rw [fromString_of_cast hcast]
      exact ConfigData.setData_never_data s d
    exact {
      succeeds := by rw [fromString_of_cast hcast, ConfigData.setData_never_returns]
      getData := hdata
      toString := by rw [ConfigData.toString, hdata, hcast, Option.getD_some] }

/-- `"a b"` is refused. -/
theorem stringRoundTrip_blank :
    ¬ ∀ (d : ConfigData Text Unit) (s : Text), StringRoundTrip d s := by
  intro h
  have hword := (stringRoundTrip_iff _ _).mp (h ⟨[], []⟩ [97, 32, 98])
  exact absurd (hword.noSpace 32 (by decide)) (by decide)

end RoundTrip

end LoNetfw.Config
