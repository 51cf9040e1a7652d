import Mathlib.Data.List.Basic

namespace Basis

/-!
# Reading from the front of a list

A reader of the front of a list returns a value, or stops with an error, and says how many cells it
has taken until then.  What a reader that stops has taken is part of its result, so that one can ask
whether a reader that stops leaves the list as it was.

* `Front.pure`, `Front.bind`, `Front.map` — readers one after the other;
* `Front.Within` — no reader takes more than there is;
* `Front.bind_eq_error_iff`, `Front.bind_eq_ok_iff` — where a sequence of two stops, and what it
  returns.
-/

/-- A reader of the front of a list: its result, and the number of cells it takes. -/
abbrev Front (ε β α : Type) := List β → Except ε α × ℕ

namespace Front

variable {ε β α γ : Type}

def pure (a : α) : Front ε β α := fun _ => (.ok a, 0)

/-- The second reader starts behind what the first one has taken. -/
def bind (p : Front ε β α) (f : α → Front ε β γ) : Front ε β γ := fun bs =>
  match p bs with
  | (.ok a, n) => ((f a (bs.drop n)).1, n + (f a (bs.drop n)).2)
  | (.error e, n) => (.error e, n)

def map (g : α → γ) (p : Front ε β α) : Front ε β γ := p.bind fun a => pure (g a)

/-- It takes at most what there is. -/
def Within (p : Front ε β α) : Prop := ∀ bs, (p bs).2 ≤ bs.length

/-- Returning takes nothing. -/
theorem Within.pure (a : α) : Within (pure a : Front ε β α) := fun _ => Nat.zero_le _

/-- Two readers in turn stay within the data when each does. -/
theorem Within.bind {p : Front ε β α} {f : α → Front ε β γ} (hp : p.Within)
    (hf : ∀ a, (f a).Within) : (p.bind f).Within := by
  intro bs
  have hfirst := hp bs
  rw [Front.bind]
  split
  case h_1 a n heq =>
    have hsecond := hf a (bs.drop n)
    rw [heq] at hfirst
    rw [List.length_drop] at hsecond
    simp only at hfirst ⊢
    omega
  case h_2 e n heq =>
    rw [heq] at hfirst
    exact hfirst

/-- Two readers stop in the first one, or behind what it has taken in the second one. -/
theorem bind_eq_error_iff {p : Front ε β α} {f : α → Front ε β γ} {bs : List β} {e : ε} {n : ℕ} :
    p.bind f bs = (.error e, n) ↔ p bs = (.error e, n) ∨
      ∃ a k m, p bs = (.ok a, k) ∧ f a (bs.drop k) = (.error e, m) ∧ n = k + m := by
  rw [Front.bind]
  split
  -- the first reader went through, so the error is the second one's
  case h_1 a k heq =>
    rw [heq]
    constructor
    · intro h
      obtain ⟨herr, hn⟩ := Prod.mk.inj h
      exact .inr ⟨a, k, _, rfl, Prod.ext herr rfl, hn.symm⟩
    · rintro (h | ⟨a', k', m, h, hf, rfl⟩)
      · exact absurd (Prod.mk.inj h).1 nofun
      · obtain ⟨ha, rfl⟩ := Prod.mk.inj h
        cases ha
        rw [hf]
  case h_2 e' k heq =>
    rw [heq]
    constructor
    · intro h
      obtain ⟨he, hn⟩ := Prod.mk.inj h
      cases he
      exact .inl (Prod.ext rfl hn)
    · rintro (h | ⟨a, k', m, h, -, -⟩)
      · obtain ⟨he, hn⟩ := Prod.mk.inj h
        cases he
        exact Prod.ext rfl hn
      · exact absurd (Prod.mk.inj h).1 nofun

/-- Two readers return when both do. -/
theorem bind_eq_ok_iff {p : Front ε β α} {f : α → Front ε β γ} {bs : List β} {c : γ} {n : ℕ} :
    p.bind f bs = (.ok c, n) ↔
      ∃ a k m, p bs = (.ok a, k) ∧ f a (bs.drop k) = (.ok c, m) ∧ n = k + m := by
  rw [Front.bind]
  split
  case h_1 a k heq =>
    rw [heq]
    constructor
    · intro h
      obtain ⟨hok, hn⟩ := Prod.mk.inj h
      exact ⟨a, k, _, rfl, Prod.ext hok rfl, hn.symm⟩
    · rintro ⟨a', k', m, h, hf, rfl⟩
      obtain ⟨ha, rfl⟩ := Prod.mk.inj h
      cases ha
      rw [hf]
  -- after an error of the first nothing is read
  case h_2 e k heq =>
    rw [heq]
    constructor
    · intro h
      exact absurd (Prod.mk.inj h).1 nofun
    · rintro ⟨a, k', m, h, -, -⟩
      exact absurd (Prod.mk.inj h).1 nofun

/-- A mapped reader succeeds where the reader does, with the image. -/
theorem map_eq_ok_iff {g : α → γ} {p : Front ε β α} {bs : List β} {c : γ} {n : ℕ} :
    p.map g bs = (.ok c, n) ↔ ∃ a, p bs = (.ok a, n) ∧ g a = c := by
  rw [map, bind_eq_ok_iff]
  constructor
  · rintro ⟨a, k, m, hp, h, rfl⟩
    obtain ⟨hok, rfl⟩ := Prod.mk.inj h
    exact ⟨a, hp, Except.ok.inj hok⟩
  · rintro ⟨a, hp, rfl⟩
    exact ⟨a, n, 0, hp, rfl, rfl⟩

/-- A conversion of the result does not change where a reader stops. -/
theorem map_eq_error_iff {g : α → γ} {p : Front ε β α} {bs : List β} {e : ε} {n : ℕ} :
    p.map g bs = (.error e, n) ↔ p bs = (.error e, n) := by
  rw [map, bind_eq_error_iff]
  refine or_iff_left ?_
  rintro ⟨a, k, m, -, h, -⟩
  exact absurd (Prod.mk.inj h).1 nofun

end Front

end Basis
