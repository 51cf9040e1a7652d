import Mathlib.Data.Option.Basic
import Mathlib.Data.List.Basic

namespace Basis

/-!
# Step systems — runs, conditions along a run, and the invariant rules

A **step function** `step : σ → α → Option σ` gives the state after an action, or `none`
when the action is not enabled.  An interleaving of several parties is a list of actions,
each naming the party that moves, so `runFrom step s as` is the state after one
interleaving and a statement over every `as` is a statement over all of them.

* `runFrom` — the state reached by a list of actions;
* `Along C` — every step of a run meets the condition `C` on the state before it;
* `run_invariant` — what each step that meets `C` preserves, a run along `C` preserves;
* `along_of_run` — what only steps that meet `C` keep shows that a run has met `C`;
* `run_iff_along_of_inv`, `run_iff_along` — what a step keeps exactly when it meets `C`, a
  run keeps exactly when all its steps meet `C`;
* `Always P`, `always_iff_along_of_stronger`, `always_iff_along` — a property in every state of a
  run, and the exactness rules for it;
* `run_relation` — the invariant rule for a reflexive and transitive relation between the
  first and the last state of a run (growth of a log, of a table, of a clock);
* `run_refines` — the simulation rule: when each step is a step of another system, or none, a run
  is a run of that system;
* `foldlM_eq_foldl`, `foldlM_error` — a loop whose body can fail returns when no element makes it
  fail, and fails when one does.
-/

variable {σ α : Type*}

/-- The state after the actions `as`, taken in order from `s`; `none` as soon as one of
    them is not enabled. -/
def runFrom (step : σ → α → Option σ) : σ → List α → Option σ
  | s, [] => some s
  | s, a :: as => (step s a).bind (fun s' => runFrom step s' as)

/-- Every step of the run of `as` from `s` meets `C` in the state before the step. -/
def Along (step : σ → α → Option σ) (C : σ → α → Prop) : σ → List α → Prop
  | _, [] => True
  | s, a :: as => C s a ∧ ∀ s', step s a = some s' → Along step C s' as

variable {step : σ → α → Option σ} {C : σ → α → Prop}

@[simp] theorem runFrom_nil (s : σ) : runFrom step s [] = some s := rfl

/-- A run is a first step and a run from there. -/
theorem runFrom_cons {s s' : σ} {a : α} {as : List α} :
    runFrom step s (a :: as) = some s' ↔ ∃ t, step s a = some t ∧ runFrom step t as = some s' :=
  Option.bind_eq_some_iff

/-- A condition along a run holds of its first step and along the rest. -/
theorem along_cons_of_some {s t : σ} {a : α} {as : List α} (ht : step s a = some t) :
    Along step C s (a :: as) ↔ C s a ∧ Along step C t as := by
  refine and_congr_right (fun _ => ⟨fun h => h t ht, fun h u hu => ?_⟩)
  rw [ht, Option.some.injEq] at hu
  exact hu ▸ h

/-- Where the run stops the condition holds of the step tried. -/
theorem along_cons_of_none {s : σ} {a : α} {as : List α} (h : step s a = none) :
    Along step C s (a :: as) ↔ C s a :=
  ⟨fun hC => hC.1, fun hC => ⟨hC, fun u hu => absurd (h.symm.trans hu) (by simp)⟩⟩

/-- A decidable condition is decided along a run by taking its steps. -/
instance decidableAlong [∀ s a, Decidable (C s a)] :
    (s : σ) → (as : List α) → Decidable (Along step C s as)
  | _, [] => .isTrue trivial
  | s, a :: as =>
    match h : step s a with
    | none => decidable_of_iff' (C s a) (along_cons_of_none h)
    | some t =>
      have := decidableAlong t as
      decidable_of_iff' (C s a ∧ Along step C t as) (along_cons_of_some h)

/-- **Invariant rule.** A property that every step meeting `C` preserves holds in every
    state a run along `C` reaches. -/
theorem run_invariant {I : σ → Prop}
    (hstep : ∀ s a s', I s → C s a → step s a = some s' → I s') :
    ∀ {s s' : σ} {as : List α}, I s → Along step C s as → runFrom step s as = some s' →
      I s' := by
  intro s s' as
  induction as generalizing s with
  | nil =>
    intro hs _ hrun
    rw [runFrom_nil, Option.some.injEq] at hrun
    exact hrun ▸ hs
  | cons a as ih =>
    intro hs hC hrun
    obtain ⟨t, ht, hrest⟩ := runFrom_cons.mp hrun
    exact ih (hstep s a t hs hC.1 ht) (hC.2 t ht) hrest

/-- Two conditions along a run. -/
theorem Along.and {C' : σ → α → Prop} {s : σ} {as : List α} (h : Along step C s as)
    (h' : Along step C' s as) : Along step (fun s a => C s a ∧ C' s a) s as := by
  induction as generalizing s with
  | nil => trivial
  | cons a as ih => exact ⟨⟨h.1, h'.1⟩, fun t ht => ih (h.2 t ht) (h'.2 t ht)⟩

/-- A condition that implies another one in the states of an invariant, which it keeps, implies it
    along a run. -/
theorem Along.imp_of_inv {C' : σ → α → Prop} {I : σ → Prop}
    (hinv : ∀ s a s', I s → C s a → step s a = some s' → I s')
    (himp : ∀ s a, I s → C s a → C' s a) {s : σ} {as : List α} (hs : I s)
    (h : Along step C s as) : Along step C' s as := by
  induction as generalizing s with
  | nil => trivial
  | cons a as ih => exact ⟨himp s a hs h.1, fun t ht => ih (hinv s a t hs h.1 ht) (h.2 t ht)⟩

/-- Two conditions that agree in the states of an invariant agree along a run. -/
theorem along_congr_of_inv {C' : σ → α → Prop} {I : σ → Prop}
    (hinv : ∀ s a s', I s → step s a = some s' → I s') (hcongr : ∀ s a, I s → (C s a ↔ C' s a))
    {s : σ} {as : List α} (hs : I s) : Along step C s as ↔ Along step C' s as := by
  induction as generalizing s with
  | nil => exact Iff.rfl
  | cons a as ih =>
    refine and_congr (hcongr s a hs) (forall_congr' fun t => ?_)
    exact forall_congr' fun ht => ih (hinv s a t hs ht)

/-- A condition that does not depend on the state is checked action by action. -/
theorem along_of_forall (s : σ) {as : List α} (h : ∀ a ∈ as, ∀ s, C s a) : Along step C s as := by
  induction as generalizing s with
  | nil => trivial
  | cons a as ih =>
    exact ⟨h a (by simp) s, fun s' _ => ih s' (fun b hb => h b (List.mem_cons_of_mem a hb))⟩

/-- The invariant rule with no condition on the steps. -/
theorem run_invariant_of_step {I : σ → Prop}
    (hstep : ∀ s a s', I s → step s a = some s' → I s') {s s' : σ} {as : List α}
    (hs : I s) (hrun : runFrom step s as = some s') : I s' :=
  run_invariant (C := fun _ _ => True) (fun s a s' h _ => hstep s a s' h) hs
    (along_of_forall s (fun _ _ _ => trivial)) hrun

/-- **Necessity rule.** When a step can only lead to `P` from a state with `P` and by meeting
    `C`, a run that ends in `P` has met `C` in all its steps. -/
theorem along_of_run {I P : σ → Prop} (hinv : ∀ s a s', I s → step s a = some s' → I s')
    (hstep : ∀ s a s', I s → step s a = some s' → P s' → P s ∧ C s a) :
    ∀ {s s' : σ} {as : List α}, I s → runFrom step s as = some s' → P s' →
      P s ∧ Along step C s as := by
  intro s s' as
  induction as generalizing s with
  | nil =>
    intro _ hrun hP
    rw [runFrom_nil, Option.some.injEq] at hrun
    exact ⟨hrun ▸ hP, trivial⟩
  | cons a as ih =>
    intro hs hrun hP
    obtain ⟨t, ht, hrest⟩ := runFrom_cons.mp hrun
    obtain ⟨hPt, halong⟩ := ih (hinv s a t hs ht) hrest hP
    obtain ⟨hPs, hC⟩ := hstep s a t hs ht hPt
    exact ⟨hPs, (along_cons_of_some ht).mpr ⟨hC, halong⟩⟩

/-- **Exactness rule.** When a step from a state with the invariant keeps `P` exactly if it
    meets `C`, a run keeps `P` exactly if all its steps meet `C`. -/
theorem run_iff_along_of_inv {I P : σ → Prop}
    (hinv : ∀ s a s', I s → step s a = some s' → I s')
    (hstep : ∀ s a s', I s → step s a = some s' → (P s' ↔ P s ∧ C s a))
    {s s' : σ} {as : List α} (hs : I s) (hrun : runFrom step s as = some s') :
    P s' ↔ P s ∧ Along step C s as := by
  constructor
  · exact along_of_run hinv (fun s a s' hs h => (hstep s a s' hs h).mp) hs hrun
  · rintro ⟨hP, hC⟩
    refine (run_invariant (I := fun s => I s ∧ P s) ?_ ⟨hs, hP⟩ hC hrun).2
    rintro t a t' ⟨ht, hPt⟩ hCa h
    exact ⟨hinv t a t' ht h, (hstep t a t' ht h).mpr ⟨hPt, hCa⟩⟩

/-- The exactness rule with no invariant. -/
theorem run_iff_along {P : σ → Prop} (hstep : ∀ s a s', step s a = some s' → (P s' ↔ P s ∧ C s a))
    {s s' : σ} {as : List α} (hrun : runFrom step s as = some s') :
    P s' ↔ P s ∧ Along step C s as :=
  run_iff_along_of_inv (I := fun _ => True) (fun _ _ _ _ _ => trivial)
    (fun s a s' _ => hstep s a s') trivial hrun

/-- `P` holds in every state of the run of `as` from `s`, the first and the last included. -/
def Always (step : σ → α → Option σ) (P : σ → Prop) : σ → List α → Prop
  | s, [] => P s
  | s, a :: as => P s ∧ ∀ s', step s a = some s' → Always step P s' as

/-- What always holds holds at the start. -/
theorem Always.first {P : σ → Prop} {s : σ} {as : List α} (h : Always step P s as) : P s := by
  cases as with
  | nil => exact h
  | cons a as => exact h.1

/-- **Exactness rule with a stronger invariant.** `J` implies `P`; a step from a state with `J`
    that leads to `P` meets `C`, and one that meets `C` keeps `J`.  Then `P` holds all along a run
    exactly if all its steps meet `C`. -/
theorem always_iff_along_of_stronger {J P : σ → Prop} (hJP : ∀ s, J s → P s)
    (hnec : ∀ s a s', J s → step s a = some s' → P s' → C s a)
    (hsuf : ∀ s a s', J s → C s a → step s a = some s' → J s') :
    ∀ {s s' : σ} {as : List α}, J s → runFrom step s as = some s' →
      (Always step P s as ↔ Along step C s as) := by
  intro s s' as
  induction as generalizing s with
  | nil =>
    intro hs _
    exact iff_of_true (hJP s hs) trivial
  | cons a as ih =>
    intro hs hrun
    obtain ⟨t, ht, hrest⟩ := runFrom_cons.mp hrun
    rw [along_cons_of_some ht]
    constructor
    · rintro ⟨-, hall⟩
      -- the property one step on needs the condition now
      have hC : C s a := hnec s a t hs ht (hall t ht).first
      exact ⟨hC, (ih (hsuf s a t hs hC ht) hrest).mp (hall t ht)⟩
    · rintro ⟨hC, halong⟩
      refine ⟨hJP s hs, fun u hu => ?_⟩
      obtain rfl : t = u := Option.some.inj (ht.symm.trans hu)
      exact (ih (hsuf s a t hs hC ht) hrest).mpr halong

/-- **Exactness rule for a property that can be lost and regained.** When a step from a state
    with `P` leads to `P` exactly if it meets `C`, then `P` holds all along a run exactly if
    all its steps meet `C`. -/
theorem always_iff_along {I P : σ → Prop} (hinv : ∀ s a s', I s → step s a = some s' → I s')
    (hstep : ∀ s a s', I s → P s → step s a = some s' → (P s' ↔ C s a)) {s s' : σ}
    {as : List α} (hs : I s) (hP : P s) (hrun : runFrom step s as = some s') :
    Always step P s as ↔ Along step C s as :=
  always_iff_along_of_stronger (J := fun s => I s ∧ P s) (fun _ h => h.2)
    (fun s a s' h ht hP' => (hstep s a s' h.1 h.2 ht).mp hP')
    (fun s a s' h hC ht => ⟨hinv s a s' h.1 ht, (hstep s a s' h.1 h.2 ht).mpr hC⟩) ⟨hs, hP⟩ hrun

/-- **Relation rule.** A reflexive and transitive relation that every step meeting `C`
    from a state with the invariant respects relates the ends of every run along `C`. -/
theorem run_relation {I : σ → Prop} {R : σ → σ → Prop} (hrefl : ∀ s, R s s)
    (htrans : ∀ s t u, R s t → R t u → R s u)
    (hinv : ∀ s a s', I s → C s a → step s a = some s' → I s')
    (hstep : ∀ s a s', I s → C s a → step s a = some s' → R s s') :
    ∀ {s s' : σ} {as : List α}, I s → Along step C s as → runFrom step s as = some s' →
      R s s' := by
  intro s s' as
  induction as generalizing s with
  | nil =>
    intro _ _ hrun
    rw [runFrom_nil, Option.some.injEq] at hrun
    exact hrun ▸ hrefl s
  | cons a as ih =>
    intro hs hC hrun
    obtain ⟨t, ht, hrest⟩ := runFrom_cons.mp hrun
    exact htrans s t s' (hstep s a t hs hC.1 ht) (ih (hinv s a t hs hC.1 ht) (hC.2 t ht) hrest)

/-- **Simulation rule.** When every step meeting `C` from a state with the invariant is one step
    of another system, or leaves its state alone, a run along `C` is a run of that system. -/
theorem run_refines {τ β : Type*} {step' : τ → β → Option τ} {I : σ → Prop} (abs : σ → τ)
    (hinv : ∀ s a s', I s → C s a → step s a = some s' → I s')
    (hstep : ∀ s a s', I s → C s a → step s a = some s' →
      abs s' = abs s ∨ ∃ b, step' (abs s) b = some (abs s')) :
    ∀ {s s' : σ} {as : List α}, I s → Along step C s as → runFrom step s as = some s' →
      ∃ bs, runFrom step' (abs s) bs = some (abs s') := by
  intro s s' as
  induction as generalizing s with
  | nil =>
    intro _ _ hrun
    rw [runFrom_nil, Option.some.injEq] at hrun
    exact ⟨[], hrun ▸ rfl⟩
  | cons a as ih =>
    intro hs hC hrun
    obtain ⟨t, ht, hrest⟩ := runFrom_cons.mp hrun
    obtain ⟨bs, hbs⟩ := ih (hinv s a t hs hC.1 ht) (hC.2 t ht) hrest
    -- the step is not seen above, or it is one step there
    rcases hstep s a t hs hC.1 ht with hsame | ⟨b, hb⟩
    · exact ⟨bs, hsame ▸ hbs⟩
    · exact ⟨b :: bs, runFrom_cons.mpr ⟨abs t, hb, hbs⟩⟩

/-! ### Loops whose body can fail -/

section Fold

variable {ε : Type*} {f : σ → α → Except ε σ} {as : List α}

/-- A body that returns for every element of the list makes the loop a plain one. -/
theorem foldlM_eq_foldl {g : σ → α → σ} (h : ∀ a ∈ as, ∀ s, f s a = .ok (g s a)) (s : σ) :
    as.foldlM f s = .ok (as.foldl g s) := by
  induction as generalizing s with
  | nil => rfl
  | cons a as ih =>
    rw [List.foldlM_cons, h a List.mem_cons_self]
    exact ih (fun b hb => h b (List.mem_cons_of_mem a hb)) (g s a)

/-- Where the body returns for the good elements and fails for the others, one that is not good is
    enough: it, or an earlier one, ends the loop. -/
theorem foldlM_error {P : α → Prop} (hgood : ∀ a, P a → ∀ s, ∃ s', f s a = .ok s')
    (hbad : ∀ a, ¬ P a → ∀ s, ∃ e, f s a = .error e) {a : α} (ha : a ∈ as) (h : ¬ P a)
    (s : σ) : ∃ e, as.foldlM f s = .error e := by
  induction as generalizing s with
  | nil => exact absurd ha List.not_mem_nil
  | cons b bs ih =>
    rw [List.foldlM_cons]
    by_cases hb : P b
    · obtain ⟨s', hs'⟩ := hgood b hb s
      rw [hs']
      rcases List.mem_cons.mp ha with rfl | ha
      · exact absurd hb h
      · exact ih ha s'
    · obtain ⟨e, he⟩ := hbad b hb s
      rw [he]
      exact ⟨e, rfl⟩

end Fold

end Basis
