import LoNetfw.Net.UriSafety

namespace LoNetfw.Net

open Basis UriParser UriGrammar
open scoped Computability

/-!
# Running the machine over a part of its input

The rules that follow the machine over one component of a URI with anything behind it:

* `exec_cons` — one jump;
* `exec_loop` — a loop over a class and percent-encodings, which only moves between three states;
* `exec_quiet` — a region of states that has no action on a class of bytes, as long as the
  machine does not get stuck.

All that is used of the table are finite checks of its rows: the jump on a whole class
(`jumpOn`), and properties of all entries of a region.
-/

namespace UriParser

/-! ### One jump -/

/-- One byte: the actions of the transition, then its target. -/
theorem exec_cons {x y : Exec} {b : UInt8} {rest : List UInt8} {as : List Action} {t : ℕ}
    (hj : jump x.cs b = ⟨as, t⟩) (ht : t ≠ error)
    (hx : runActions (b :: rest) x as = .ok y) :
    exec x (b :: rest) = exec { y with cs := t } rest := by
  rw [exec, hj]
  show (do
    let y ← runActions (b :: rest) x as
    if t = error then return { y with cs := error } else exec { y with cs := t } rest) = _
  rw [hx]
  exact if_neg ht

/-- A jump that only sets the mark, or does nothing. -/
theorem runActions_mark (p : List UInt8) (x : Exec) (as : List Action) :
    runActions p x (.mark :: as) = runActions p { x with mark := some p } as := rfl

/-- A transition that only marks goes on with the mark set. -/
theorem exec_cons_mark {x : Exec} {b : UInt8} {rest : List UInt8} {q : ℕ}
    (hj : jump x.cs b = ⟨[.mark], q⟩) (hq : q ≠ error) :
    exec x (b :: rest) = exec ⟨q, some (b :: rest), x.uri⟩ rest :=
  exec_cons hj hq rfl

/-- A transition without an action goes on. -/
theorem exec_cons_st {x : Exec} {b : UInt8} {rest : List UInt8} {q : ℕ}
    (hj : jump x.cs b = st q) (hq : q ≠ error) :
    exec x (b :: rest) = exec { x with cs := q } rest :=
  exec_cons hj hq rfl

/-- The first entry of a row that meets a class, if it has the whole class. -/
def jumpOn : List (CharClass × Jump) → CharClass → Option Jump
  | [], _ => none
  | e :: es, c =>
    if e.1 &&& c = 0 then jumpOn es c else if e.1 &&& c = c then some e.2 else none

/-- The transition of a class of bytes, for a byte of it. -/
theorem jump_eq {cs : ℕ} {c : CharClass} {j : Jump} (h : jumpOn (row cs) c = some j)
    {b : UInt8} (hb : c.has b = true) : jump cs b = j := by
  rw [jump]
  generalize row cs = r at h ⊢
  induction r with
  | nil => exact nomatch h
  | cons e es ih =>
    rw [jumpOn] at h
    rw [List.find?_cons]
    -- the first entry that meets the class holds all of it
    by_cases h0 : e.1 &&& c = 0
    · rw [if_pos h0] at h
      rw [CharClass.not_has_of_disjoint h0 hb]
      exact ih h
    · rw [if_neg h0] at h
      by_cases h1 : e.1 &&& c = c
      · rw [if_pos h1] at h
        rw [CharClass.has_of_subset h1 hb]
        exact Option.some.inj h
      · rw [if_neg h1] at h
        exact nomatch h

/-- A class the state stays on. -/
theorem exec_class {q : ℕ} {c : CharClass} (h : jumpOn (row q) c = some (st q))
    (hq : q ≠ error) {w : List UInt8} (hw : ∀ b ∈ w, c.has b = true)
    (mark : Option (List UInt8)) (uri : Uri) (rest : List UInt8) :
    exec ⟨q, mark, uri⟩ (w ++ rest) = exec ⟨q, mark, uri⟩ rest := by
  induction w with
  | nil => rfl
  | cons b w ih =>
    rw [List.cons_append, exec_cons_st (jump_eq h (hw b List.mem_cons_self)) hq]
    exact ih fun x hx => hw x (List.mem_cons_of_mem _ hx)

/-- The text between a mark and the current character. -/
theorem text_append (w rest : List UInt8) : text (some (w ++ rest)) rest = .ok w := by
  rw [text_some (by rw [List.length_append]; omega), List.length_append,
    Nat.add_sub_cancel_right, List.take_left]

/-! ### Loops -/

/-- The states of a loop: `q` on the class, and from `q` over `q1` and `q2` on a
    percent-encoding. -/
def IsLoop (q q1 q2 : ℕ) (c : CharClass) : Prop :=
  (q ≠ error ∧ q1 ≠ error ∧ q2 ≠ error) ∧ jumpOn (row q) c = some (st q) ∧
    jumpOn (row q) percent = some (st q1) ∧ jumpOn (row q1) xdigit = some (st q2) ∧
    jumpOn (row q2) xdigit = some (st q)

instance (q q1 q2 : ℕ) (c : CharClass) : Decidable (IsLoop q q1 q2 c) :=
  inferInstanceAs (Decidable (_ ∧ _))

/-- A state that enters the loop and sets the mark. -/
def EntersLoop (q0 q q1 : ℕ) (c : CharClass) : Prop :=
  jumpOn (row q0) c = some ⟨[.mark], q⟩ ∧ jumpOn (row q0) percent = some ⟨[.mark], q1⟩

instance (q0 q q1 : ℕ) (c : CharClass) : Decidable (EntersLoop q0 q q1 c) :=
  inferInstanceAs (Decidable (_ ∧ _))

/-- The class of the percent sign. -/
theorem percent_has : percent.has 37 = true := by decide

/-- A byte of the class, or a percent-encoding. -/
theorem mem_class_or_pct {c : CharClass} {w : List UInt8} (hw : w ∈ c.lang + pctEncoded) :
    (∃ b, c.has b = true ∧ w = [b]) ∨
      ∃ x y, xdigit.has x = true ∧ xdigit.has y = true ∧ w = [37, x, y] := by
  rcases hw with hw | ⟨_, ⟨_, ⟨b, hb, rfl⟩, _, ⟨x, hx, rfl⟩, rfl⟩, _, ⟨y, hy, rfl⟩, rfl⟩
  · exact .inl hw
  · refine .inr ⟨x, y, hx, hy, ?_⟩
    obtain rfl : b = 37 := CharClass.eq_of_has_single hb
    rfl

section

variable {q q1 q2 : ℕ} {c : CharClass} (h : IsLoop q q1 q2 c)

include h

/-- The two digits of a percent-encoding. -/
theorem exec_pct {x y : UInt8} (hx : xdigit.has x = true) (hy : xdigit.has y = true)
    (mark : Option (List UInt8)) (uri : Uri) (rest : List UInt8) :
    exec ⟨q1, mark, uri⟩ (x :: y :: rest) = exec ⟨q, mark, uri⟩ rest := by
  obtain ⟨⟨hq, _, hq2⟩, _, _, h1, h2⟩ := h
  rw [exec_cons_st (jump_eq h1 hx) hq2]
  exact exec_cons_st (jump_eq h2 hy) hq

/-- **The loop.**  It reads its pieces one after the other and changes nothing. -/
theorem exec_loop {w : List UInt8} (hw : w ∈ (c.lang + pctEncoded)∗)
    (mark : Option (List UInt8)) (uri : Uri) (rest : List UInt8) :
    exec ⟨q, mark, uri⟩ (w ++ rest) = exec ⟨q, mark, uri⟩ rest := by
  obtain ⟨L, rfl, hL⟩ := Language.mem_kstar.mp hw
  -- induction on the pieces: the machine is back in `q` after each
  induction L with
  | nil => rfl
  | cons u L ih =>
    have hLs : ∀ y ∈ L, y ∈ c.lang + pctEncoded := fun y hy => hL y (List.mem_cons_of_mem _ hy)
    have htail := ih hLs (Language.join_mem_kstar hLs)
    rw [List.flatten_cons, List.append_assoc]
    rcases mem_class_or_pct (hL u List.mem_cons_self) with ⟨b, hb, rfl⟩ | ⟨x, y, hx, hy, rfl⟩
    · exact (exec_cons_st (jump_eq h.2.1 hb) h.1.1).trans htail
    · show exec _ (37 :: x :: y :: (L.flatten ++ rest)) = _
      rw [exec_cons_st (jump_eq h.2.2.1 percent_has) h.1.2.1]
      exact (exec_pct h hx hy ..).trans htail

/-- Entering the loop sets the mark to its first piece. -/
theorem exec_enterLoop {q0 : ℕ} (h0 : EntersLoop q0 q q1 c) {w : List UInt8}
    (hw : w ∈ (c.lang + pctEncoded)∗) (hne : w ≠ []) (mark : Option (List UInt8)) (uri : Uri)
    (rest : List UInt8) :
    exec ⟨q0, mark, uri⟩ (w ++ rest) = exec ⟨q, some (w ++ rest), uri⟩ rest := by
  obtain ⟨L, rfl, hL⟩ := Language.mem_kstar_iff_exists_nonempty.mp hw
  cases L with
  | nil => exact absurd rfl hne
  | cons u L =>
    have htail := exec_loop h (Language.join_mem_kstar (L := L) fun y hy =>
      (hL y (List.mem_cons_of_mem _ hy)).1)
    rw [List.flatten_cons, List.append_assoc]
    rcases mem_class_or_pct (hL u List.mem_cons_self).1 with ⟨b, hb, rfl⟩ | ⟨x, y, hx, hy, rfl⟩
    · exact (exec_cons_mark (jump_eq h0.1 hb) h.1.1).trans (htail ..)
    · show exec _ (37 :: x :: y :: (L.flatten ++ rest)) = _
      rw [exec_cons_mark (jump_eq h0.2 percent_has) h.1.2.1]
      exact (exec_pct h hx hy ..).trans (htail ..)

end

/-! ### Regions -/

/-- Every entry of the states in `R` satisfies `P`. -/
def regionAll (R : ℕ) (P : ℕ → CharClass × Jump → Bool) : Bool :=
  rows.all fun r => !Nat.testBit R r.1 || r.2.all (P r.1)

/-- The states of `R` have no action on the bytes of `K`, and do not leave `R` on them. -/
def quiet (R : ℕ) (K : CharClass) : Bool :=
  !Nat.testBit R error && regionAll R fun _ e =>
    Nat.beq (e.1 &&& K) 0 || (e.2.actions.isEmpty && Nat.testBit R e.2.target)

/-- A state with a transition has a row. -/
theorem row_entry {q : ℕ} {e : CharClass × Jump} (he : e ∈ row q) :
    (q, row q) ∈ rows := by
  rw [row] at he ⊢
  cases hf : rows.find? fun r => Nat.beq r.1 q with
  | none =>
    rw [hf] at he
    exact absurd he List.not_mem_nil
  | some r =>
    have hkey : r.1 = q :=
      Nat.eq_of_beq_eq_true (List.find?_some (p := fun x : ℕ × Row => Nat.beq x.1 q) hf)
    show (q, r.2) ∈ rows
    rw [← hkey]
    exact List.mem_of_find?_eq_some hf

/-- What holds in a region holds of each entry of its rows. -/
theorem regionAll_entry {R : ℕ} {P : ℕ → CharClass × Jump → Bool} (h : regionAll R P = true)
    {q : ℕ} (hq : Nat.testBit R q = true) {e : CharClass × Jump} (he : e ∈ row q) :
    P q e = true := by
  have hr := List.all_eq_true.mp h _ (row_entry he)
  rw [Bool.or_eq_true, Bool.not_eq_true', hq] at hr
  exact List.all_eq_true.mp (hr.resolve_left (by decide)) e he

/-- Two classes with a common byte meet. -/
theorem meets {c d : CharClass} {b : UInt8} (hc : c.has b = true) (hd : d.has b = true) :
    Nat.beq (c &&& d) 0 = false := by
  by_contra h0
  rw [Bool.not_eq_false] at h0
  have hnot := CharClass.not_has_of_disjoint (Nat.eq_of_beq_eq_true h0) hd
  exact absurd hc (by rw [hnot]; exact Bool.false_ne_true)

/-- While a fault may still come, the machine is not stuck. -/
theorem entry_of_accepts {q : ℕ} {m : Bool} {b : UInt8} {v : List UInt8}
    (h : configs.accepts (some (q, m)) (b :: v) = true) :
    ∃ e ∈ row q, e.1.has b = true ∧ jump q b = e.2 := by
  rw [Table.accepts, configs_next] at h
  rw [jump]
  cases hf : (row q).find? fun e => e.1.has b with
  | none =>
    rw [hf] at h
    exact absurd h (by simp)
  | some e =>
    exact ⟨e, List.mem_of_find?_eq_some hf,
      List.find?_some (p := fun e : CharClass × Jump => e.1.has b) hf, rfl⟩

/-- The configuration after one jump. -/
theorem accepts_cons {q : ℕ} {m m' : Bool} {b : UInt8} {v : List UInt8} {j : Jump}
    (h : configs.accepts (some (q, m)) (b :: v) = true) (hj : jump q b = j)
    (hm : markActions m j.actions = some m') :
    configs.accepts (some (j.target, m')) v = true := by
  rw [jump] at hj
  rw [Table.accepts, configs_next] at h
  cases hf : (row q).find? fun e => e.1.has b with
  | none =>
    rw [hf] at h
    exact absurd h (by simp)
  | some e =>
    rw [hf] at h hj
    obtain rfl : e.2 = j := hj
    rw [Option.map_some, hm] at h
    exact h

/-- The exit of a region on a class: what its entries on the class satisfy holds where the
    machine is not stuck. -/
theorem exit_of_accepts {R : ℕ} {c : CharClass} {P : ℕ → CharClass × Jump → Bool}
    (h : regionAll R (fun q e => Nat.beq (e.1 &&& c) 0 || P q e) = true) {q : ℕ}
    (hq : Nat.testBit R q = true) {b : UInt8} (hb : c.has b = true) {m : Bool}
    {v : List UInt8} (hv : configs.accepts (some (q, m)) (b :: v) = true) :
    ∃ e, P q e = true ∧ jump q b = e.2 := by
  obtain ⟨e, he, heb, hj⟩ := entry_of_accepts hv
  have hentry := regionAll_entry h hq he
  rw [meets heb hb, Bool.false_or] at hentry
  exact ⟨e, hentry, hj⟩

/-- **A quiet region.**  On bytes of `K` the machine stays in the region and changes nothing, as
    long as it does not get stuck; that it does not is known from an input `w ++ v` with a
    fault. -/
theorem exec_quiet {R : ℕ} {K : CharClass} (hR : quiet R K = true) {w : List UInt8}
    (hw : ∀ b ∈ w, K.has b = true) {q : ℕ} (hq : Nat.testBit R q = true) {m : Bool}
    {v : List UInt8} (hv : configs.accepts (some (q, m)) (w ++ v) = true) :
    ∃ q', Nat.testBit R q' = true ∧ configs.accepts (some (q', m)) v = true ∧
      ∀ mark uri rest, exec ⟨q, mark, uri⟩ (w ++ rest) = exec ⟨q', mark, uri⟩ rest := by
  induction w generalizing q with
  | nil => exact ⟨q, hq, hv, fun _ _ _ => rfl⟩
  | cons b w ih =>
    -- a state that accepts something has an entry for the next byte
    obtain ⟨e, he, heb, hj⟩ := entry_of_accepts hv
    have hquiet := hR
    rw [quiet, Bool.and_eq_true, Bool.not_eq_true'] at hquiet
    have hentry := regionAll_entry hquiet.2 hq he
    have hmeet : Nat.beq (e.1 &&& K) 0 = false := meets heb (hw b List.mem_cons_self)
    rw [hmeet, Bool.false_or, Bool.and_eq_true, List.isEmpty_iff] at hentry
    have hjst : jump q b = st e.2.target := by
      rw [hj, st, ← hentry.1]
    have hne : e.2.target ≠ error := by
      intro h0
      rw [h0, hquiet.1] at hentry
      exact Bool.false_ne_true hentry.2
    obtain ⟨q', hq', hv', hrun⟩ := ih (fun x hx => hw x (List.mem_cons_of_mem _ hx)) hentry.2
      (accepts_cons (j := st e.2.target) hv hjst rfl)
    refine ⟨q', hq', hv', fun mark uri rest => ?_⟩
    rw [List.cons_append, exec_cons_st hjst hne]
    exact hrun mark uri rest

/-- The entries of `q` on `K` set the mark and lead into the region. -/
def enters (q : ℕ) (R : ℕ) (K : CharClass) : Bool :=
  !Nat.testBit R error && (row q).all fun e =>
    Nat.beq (e.1 &&& K) 0 || (e.2.actions == [.mark] && Nat.testBit R e.2.target)

/-- Entering a quiet region: the mark is where the part read in it begins. -/
theorem exec_enter {q : ℕ} {R : ℕ} {K K' : CharClass} (hq : enters q R K = true)
    (hR : quiet R K' = true) {b : UInt8} (hb : K.has b = true) {w : List UInt8}
    (hw : ∀ x ∈ w, K'.has x = true) {m : Bool} {v : List UInt8}
    (hv : configs.accepts (some (q, m)) (b :: (w ++ v)) = true) :
    ∃ q', Nat.testBit R q' = true ∧ configs.accepts (some (q', true)) v = true ∧
      ∀ mark uri rest, exec ⟨q, mark, uri⟩ (b :: (w ++ rest)) =
        exec ⟨q', some (b :: (w ++ rest)), uri⟩ rest := by
  obtain ⟨e, he, heb, hj⟩ := entry_of_accepts hv
  rw [enters, Bool.and_eq_true, Bool.not_eq_true'] at hq
  have hentry := List.all_eq_true.mp hq.2 e he
  have hmeet : Nat.beq (e.1 &&& K) 0 = false := meets heb hb
  rw [hmeet, Bool.false_or, Bool.and_eq_true, beq_iff_eq] at hentry
  -- the byte sets the mark and goes into the region
  have hjm : jump q b = ⟨[.mark], e.2.target⟩ := by
    rw [hj, ← hentry.1]
  have hne : e.2.target ≠ error := by
    intro h0
    rw [h0, hq.1] at hentry
    exact Bool.false_ne_true hentry.2
  -- inside the region no action runs
  obtain ⟨q', hq', hv', hrun⟩ := exec_quiet hR hw hentry.2
    (accepts_cons (j := ⟨[.mark], e.2.target⟩) hv hjm rfl)
  refine ⟨q', hq', hv', fun mark uri rest => ?_⟩
  rw [exec_cons_mark hjm hne]
  exact hrun _ _ rest

end UriParser

end LoNetfw.Net
