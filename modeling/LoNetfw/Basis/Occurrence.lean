import LoNetfw.Basis.Bytes
import Mathlib.Data.List.Infix
import Mathlib.Data.List.TakeWhile

namespace Basis

/-!
# Occurrences of a word

The first occurrence of a word from a place on, and the pieces of a list between its occurrences.

* `firstFrom`, `firstFrom_eq_some_iff`, `firstFrom_eq_none_iff` — the first occurrence;
* `not_infix_slice`, `not_infix_drop` — what is before the first occurrence, or where there is none;
* `upTo`, `fromFirst` — what is in front of a letter, and the rest;
* `Cuts` — a list cut at occurrences of a word into pieces without it, `Cuts.join`, `Cuts.clean`.
-/

section First

variable {β : Type*} [DecidableEq β] {d s t : List β}

/-- The first place from `start` on where `d` occurs in `s`. -/
def firstFrom (d s : List β) (start : ℕ) : Option ℕ :=
  (List.range' start (s.length + 1 - start)).find? fun p => d.isPrefixOf (s.drop p)

/-- `firstFrom` gives the first place from `start` on. -/
theorem firstFrom_eq_some_iff {start p : ℕ} : firstFrom d s start = some p ↔
    d <+: s.drop p ∧ (start ≤ p ∧ p ≤ s.length) ∧
      ∀ q, start ≤ q → q < p → ¬ d <+: s.drop q := by
  unfold firstFrom
  rw [List.find?_range'_eq_some, List.isPrefixOf_iff_prefix, List.mem_range'_1]
  simp only [Bool.not_eq_true', ← Bool.not_eq_true, List.isPrefixOf_iff_prefix]
  exact and_congr_right fun _ => and_congr_left fun _ => by omega

/-- `firstFrom` fails when there is no such place. -/
theorem firstFrom_eq_none_iff {start : ℕ} : firstFrom d s start = none ↔
    ∀ q, start ≤ q → q ≤ s.length → ¬ d <+: s.drop q := by
  unfold firstFrom
  rw [List.find?_range'_eq_none]
  simp only [Bool.not_eq_true', ← Bool.not_eq_true, List.isPrefixOf_iff_prefix]
  exact forall_congr' fun q => forall_congr' fun hq => imp_congr_left (by omega)

omit [DecidableEq β] in
/-- What occurs in a text occurs at a position. -/
theorem exists_prefix_of_infix (h : d <:+: t) : ∃ k, k + d.length ≤ t.length ∧ d <+: t.drop k := by
  obtain ⟨a, b, rfl⟩ := h
  refine ⟨a.length, ?_, ?_⟩
  · simp
  · rw [List.append_assoc, List.drop_left]
    exact List.prefix_append d b

/-- Before the first occurrence there is none. -/
theorem not_infix_slice {start p : ℕ} (hd : d ≠ []) (h : firstFrom d s start = some p) :
    ¬ d <:+: slice s start (p - start) := by
  obtain ⟨-, ⟨hle, hlen⟩, hfirst⟩ := firstFrom_eq_some_iff.mp h
  intro hinfix
  obtain ⟨k, hk, hpre⟩ := exists_prefix_of_infix hinfix
  have hpos := List.length_pos_iff.mpr hd
  rw [length_slice (by omega)] at hk
  rw [slice, List.drop_take, List.drop_drop] at hpre
  exact hfirst (start + k) (by omega) (by omega) (hpre.trans (List.take_prefix _ _))

/-- Where nothing is found there is no occurrence. -/
theorem not_infix_drop {start : ℕ} (hle : start ≤ s.length) (h : firstFrom d s start = none) :
    ¬ d <:+: s.drop start := by
  intro hinfix
  obtain ⟨k, hk, hpre⟩ := exists_prefix_of_infix hinfix
  rw [List.length_drop] at hk
  rw [List.drop_drop] at hpre
  exact firstFrom_eq_none_iff.mp h (start + k) (by omega) (by omega) hpre

/-- The list up to the first occurrence, the word, and what follows. -/
theorem drop_eq_of_firstFrom {start p : ℕ} (h : firstFrom d s start = some p) :
    s.drop start = slice s start (p - start) ++ (d ++ s.drop (p + d.length)) := by
  obtain ⟨⟨rest, hrest⟩, ⟨hle, -⟩, -⟩ := firstFrom_eq_some_iff.mp h
  have hdrop : s.drop (p + d.length) = rest := by
    rw [← List.drop_drop, ← hrest, List.drop_left]
  rw [hdrop, hrest, slice, show s.drop p = (s.drop start).drop (p - start) by
    rw [List.drop_drop, Nat.add_sub_cancel' hle]]
  exact (List.take_append_drop _ _).symm

/-- An occurrence lies inside the text. -/
theorem length_le_of_firstFrom {start p : ℕ} (h : firstFrom d s start = some p) :
    start ≤ p ∧ p + d.length ≤ s.length := by
  obtain ⟨hpre, ⟨hle, hlen⟩, -⟩ := firstFrom_eq_some_iff.mp h
  have hsub := hpre.length_le
  rw [List.length_drop] at hsub
  exact ⟨hle, by omega⟩

/-- The empty word occurs everywhere. -/
theorem firstFrom_nil {start : ℕ} (h : start ≤ s.length) :
    firstFrom ([] : List β) s start = some start :=
  firstFrom_eq_some_iff.mpr
    ⟨List.nil_prefix, ⟨Nat.le_refl _, h⟩, fun _ hle hlt => absurd hle (Nat.not_le.mpr hlt)⟩

end First

/-! ### One letter -/

section Letter

variable {β : Type*} [DecidableEq β] {stop b : β} {s u rest : List β}

/-- The letters in front of the first `stop`. -/
def upTo (stop : β) (s : List β) : List β := s.takeWhile (· != stop)

/-- The first `stop` and what follows it. -/
def fromFirst (stop : β) (s : List β) : List β := s.dropWhile (· != stop)

/-- The two parts make up the whole. -/
theorem upTo_append_fromFirst (stop : β) (s : List β) : upTo stop s ++ fromFirst stop s = s :=
  List.takeWhile_append_dropWhile

/-- A byte that is not the stop is kept. -/
theorem upTo_cons (h : b ≠ stop) : upTo stop (b :: s) = b :: upTo stop s :=
  List.takeWhile_cons_of_pos (p := (· != stop)) (bne_iff_ne.mpr h)

/-- The stop ends the first part. -/
theorem upTo_cons_self : upTo stop (stop :: s) = [] :=
  List.takeWhile_cons_of_neg (p := (· != stop)) (by simp)

/-- The first part has no stop. -/
theorem notMem_upTo : stop ∉ upTo stop s := fun h => by
  simpa using List.mem_takeWhile_imp h

/-- The second part is empty when there is no stop. -/
theorem fromFirst_eq_nil_iff : fromFirst stop s = [] ↔ stop ∉ s := by
  rw [fromFirst, List.dropWhile_eq_nil_iff]
  exact ⟨fun h hmem => absurd (h stop hmem) (by simp), fun h x hx => by
    rw [bne_iff_ne]
    exact fun hxs => h (hxs ▸ hx)⟩

/-- Without a stop the first part is the whole. -/
theorem upTo_of_notMem (h : stop ∉ s) : upTo stop s = s := by
  have hs := upTo_append_fromFirst stop s
  rwa [fromFirst_eq_nil_iff.mpr h, List.append_nil] at hs

/-- The second part starts with the stop. -/
theorem eq_of_fromFirst (h : fromFirst stop s = b :: rest) : s = upTo stop s ++ stop :: rest := by
  have hb := List.head?_dropWhile_not (· != stop) s
  rw [show s.dropWhile (· != stop) = b :: rest from h] at hb
  have hb : b = stop := by simpa using hb
  rw [← hb, ← h, hb, upTo_append_fromFirst]

/-- The first part of a text whose first stop is known. -/
theorem upTo_append (hu : stop ∉ u) : upTo stop (u ++ stop :: rest) = u := by
  have hall : ∀ x ∈ u, (x != stop) = true := fun x hx => by
    rw [bne_iff_ne]
    exact fun h => hu (h ▸ hx)
  rw [upTo, List.takeWhile_append_of_pos hall]
  exact (congrArg _ upTo_cons_self).trans (List.append_nil u)

/-- The second part of it. -/
theorem fromFirst_append (hu : stop ∉ u) :
    fromFirst stop (u ++ stop :: rest) = stop :: rest := by
  have h := upTo_append_fromFirst stop (u ++ stop :: rest)
  rw [upTo_append hu] at h
  exact List.append_cancel_left h

/-- A stop further on stays in the second part. -/
theorem fromFirst_append_cons :
    fromFirst stop (u ++ stop :: rest) = fromFirst stop u ++ stop :: rest := by
  unfold fromFirst
  rw [List.dropWhile_append]
  split
  · rename_i hempty
    rw [List.isEmpty_iff.mp hempty, List.dropWhile_cons_of_neg (by simp), List.nil_append]
  · rfl

end Letter

/-! ### Cutting a list -/

/-- A list cut at occurrences of `d` into pieces without it. -/
inductive Cuts {β : Type*} (d : List β) : List β → List (List β) → Prop
  | last {s : List β} (h : ¬ d <:+: s) : Cuts d s [s]
  | cut {u s : List β} {ts : List (List β)} (h : ¬ d <:+: u) (hs : Cuts d s ts) :
    Cuts d (u ++ (d ++ s)) (u :: ts)

variable {β : Type*} {d s : List β} {ts : List (List β)}

/-- A text is cut into one piece at least. -/
theorem Cuts.ne_nil (h : Cuts d s ts) : ts ≠ [] := by
  cases h with
  | last => exact List.cons_ne_nil s []
  | cut => exact List.cons_ne_nil _ _

/-- The pieces with the word between them are the list. -/
theorem Cuts.join (h : Cuts d s ts) : d.intercalate ts = s := by
  induction h with
  | last => exact List.intercalate_singleton
  | cut _ hs ih =>
    obtain ⟨t, ts, rfl⟩ := List.exists_cons_of_ne_nil hs.ne_nil
    rw [List.intercalate_cons_cons, ih, List.append_assoc]

/-- No piece has the delimiter. -/
theorem Cuts.clean (h : Cuts d s ts) : ∀ t ∈ ts, ¬ d <:+: t := by
  induction h with
  | last hs => exact List.forall_mem_singleton.mpr hs
  | cut hu _ ih => exact List.forall_mem_cons.mpr ⟨hu, ih⟩

end Basis
