import LoNetfw.Scheduler.TimerClock
import Mathlib.Data.List.Nodup

namespace LoNetfw.Scheduler

open Basis

/-!
# Timers — exactly the due timers expire

`getExpiredCbsList` finds its split point with the `lower_bound` of a probe timer, whose
address may fall anywhere among the timers due in this very millisecond, and then skips the
rest of those.  The timers before the split point are changed, and loop timers put back, one
after the other.

* `splitExpired_filter` — wherever the probe falls, the iterator ends up behind the timers that
  expire;
* `Timer.expired` — what an expiry makes of a timer;
* `rearm_heap`, `rearm_cbs` — the loop changes each timer once, and after its callback is
  collected;
* `getExpiredCbsList_eq`, `getExpiredCbsList_heap` — a call as a loop over the timers that
  expire, and what it makes of every timer;
* `getExpiredCbsList_exact` — the callbacks, the set and the timers after a call.
-/

/-- What an expiry at `now` makes of a timer: a loop timer gets its next deadline, any other
    one loses its callback. -/
def Timer.expired (v : Timer) (now : ℕ) : Timer :=
  if v.isLoop then { v with next := wadd now v.ms } else { v with cb := none }

namespace TimerManager

variable {m : TimerManager} {l : List ℕ} {now probe t : ℕ}

/-- The timer is due when the clock reads `now`. -/
def due (m : TimerManager) (now t : ℕ) : Bool := (m.heap t).next ≤ now

@[simp] theorem due_iff : m.due now t = true ↔ (m.heap t).next ≤ now := decide_eq_true_iff

/-- The timer is taken by a call with the reading `now`: it is due, or the clock seems to
    have gone back. -/
def expires (m : TimerManager) (now t : ℕ) : Bool :=
  detectTimeModified m.previousTime now || m.due now t

/-! ### The split point -/

/-- A clock that goes on is not taken for a changed one. -/
theorem detectTimeModified_of_le {previous : ℕ} (h : previous ≤ now) :
    detectTimeModified previous now = false := by
  rw [← Bool.not_eq_true, detectTimeModified_eq_true_iff]
  omega

/-- The timers from the iterator on are not due, however the probe compares with those that
    share its deadline. -/
theorem splitExpired_not_due (hs : SetSorted m.lt m.timers)
    (ht : t ∈ (m.splitExpired false now probe).2) : now < (m.heap t).next := by
  unfold splitExpired at ht
  simp only [Bool.false_eq_true, if_false] at ht
  -- What `lower_bound` leaves is due now or later ...
  have hlower : ∀ a ∈ m.timers.dropWhile fun t => (m.heap t).before ⟨none, false, 0, now, probe⟩,
      now ≤ (m.heap a).next := by
    intro a ha
    have hbelow := hs.of_mem_dropWhile ?_ ha
    · rw [← Bool.not_eq_true, Timer.before_iff] at hbelow
      dsimp only at hbelow
      omega
    · intro b _ c _ hbc hc
      have hbc := Timer.before_iff.mp hbc
      have hc := Timer.before_iff.mp hc
      apply Timer.before_iff.mpr
      dsimp only at hc ⊢
      omega
  -- ... and the skip removes the timers that are due now, which come first.
  have hskip := SetSorted.of_mem_dropWhile (hs.sublist (List.dropWhile_sublist _)) ?_ ht
  · have hle := hlower t ((List.dropWhile_sublist _).subset ht)
    rw [beq_eq_false_iff_ne] at hskip
    omega
  · intro a ha b _ hab hb
    have hle := hlower a ha
    have hab := Timer.before_iff.mp hab
    rw [beq_iff_eq] at hb ⊢
    omega

/-- Wherever the probe falls, the timers before the iterator are those that expire, and the
    timers from it on the others. -/
theorem splitExpired_filter (hs : SetSorted m.lt m.timers) (isModified : Bool) (now probe : ℕ) :
    m.splitExpired isModified now probe
      = (m.timers.filter fun t => isModified || m.due now t,
        m.timers.filter fun t => !(isModified || m.due now t)) := by
  cases isModified with
  | true => simp [splitExpired]
  | false =>
    -- the set is sorted by the deadline, so the split is the one by what is due
    have hdue : ∀ t ∈ (m.splitExpired false now probe).1, m.due now t = true :=
      fun t ht => due_iff.mpr (splitExpired_due ht)
    have hnot : ∀ t ∈ (m.splitExpired false now probe).2, m.due now t = false := by
      intro t ht
      rw [← Bool.not_eq_true, due_iff]
      exact Nat.not_le_of_lt (splitExpired_not_due hs ht)
    obtain ⟨hexpired, hlater⟩ := filter_of_append hdue hnot
    rw [splitExpired_append] at hexpired hlater
    simp only [Bool.false_or]
    exact Prod.ext hexpired.symm hlater.symm

/-! ### The loop over the expired timers -/

/-- What an expiry writes into a timer. -/
theorem rearmTimer_heap (m : TimerManager) (now t : ℕ) :
    (m.rearmTimer now t).heap = Function.update m.heap t ((m.heap t).expired now) := by
  unfold rearmTimer Timer.expired
  split <;> rfl

/-- The loop changes each of its timers once and no other one. -/
theorem rearm_heap (hl : l.Nodup) (m : TimerManager) (now t : ℕ) :
    (rearm now l m).1.heap t = if t ∈ l then (m.heap t).expired now else m.heap t := by
  induction l generalizing m with
  | nil => rfl
  | cons a l ih =>
    obtain ⟨ha, hl⟩ := List.nodup_cons.mp hl
    show (rearm now l (m.rearmTimer now a)).1.heap t = _
    rw [ih hl, rearmTimer_heap]
    by_cases hta : t = a
    · subst hta
      rw [if_neg ha, if_pos List.mem_cons_self, Function.update_self]
    · rw [Function.update_of_ne hta]
      simp only [List.mem_cons, hta, false_or]

/-- The callbacks are those the timers had before the loop: a turn changes only its timer. -/
theorem rearm_cbs (hl : l.Nodup) (m : TimerManager) (now : ℕ) :
    (rearm now l m).2 = l.map fun t => (t, (m.heap t).cb) := by
  induction l generalizing m with
  | nil => rfl
  | cons a l ih =>
    obtain ⟨ha, hl⟩ := List.nodup_cons.mp hl
    show (a, (m.heap a).cb) :: (rearm now l (m.rearmTimer now a)).2 = _
    rw [ih hl, List.map_cons, rearmTimer_heap]
    congr 1
    apply List.map_congr_left
    intro t ht
    have hta : t ≠ a := fun h => ha (h ▸ ht)
    rw [Function.update_of_ne hta]

/-- The loop does not touch `m_previous_time`. -/
theorem rearm_previousTime (m : TimerManager) (now : ℕ) :
    (rearm now l m).1.previousTime = m.previousTime := by
  induction l generalizing m with
  | nil => rfl
  | cons a l ih =>
    show (rearm now l (m.rearmTimer now a)).1.previousTime = _
    rw [ih]
    unfold rearmTimer
    split <;> rfl

/-! ### One call -/

/-- A call runs the loop over the timers that expire. -/
theorem getExpiredCbsList_eq (hs : SetSorted m.lt m.timers) (hne : m.timers ≠ []) (now probe : ℕ) :
    m.getExpiredCbsList now probe = rearm now (m.timers.filter (m.expires now))
      { m with timers := m.timers.filter fun t => !m.expires now t, previousTime := now } := by
  obtain ⟨first, later, hl⟩ := List.exists_cons_of_ne_nil hne
  unfold getExpiredCbsList
  rw [hl]
  simp only [Bool.and_eq_true, Bool.not_eq_true', decide_eq_true_eq]
  -- the early return: the clock went forward, and the first timer is not due
  by_cases hnone : detectTimeModified m.previousTime now = false ∧ (m.heap first).next > now
  · -- nothing is due, as every other timer is due after the first
    have hkeep : ∀ t ∈ m.timers, m.expires now t = false := by
      intro t ht
      rw [expires, hnone.1, Bool.false_or, ← Bool.not_eq_true, due_iff]
      rw [hl] at ht hs
      rcases List.mem_cons.mp ht with rfl | ht
      · omega
      · have hlt := Timer.before_iff.mp ((List.pairwise_cons.mp hs).1 t ht)
        omega
    obtain ⟨hexpired, hlater⟩ := filter_of_append (p := m.expires now) (a := [])
      (fun t ht => absurd ht List.not_mem_nil) hkeep
    rw [List.nil_append] at hexpired hlater
    rw [if_pos hnone, ← hl, hexpired, hlater]
    rfl
  · rw [if_neg hnone, ← hl]
    have hsplit := splitExpired_filter (m := { m with previousTime := now }) hs
      (detectTimeModified m.previousTime now) now probe
    rw [hsplit]
    rfl

/-- The timers after a call. -/
theorem getExpiredCbsList_heap (h : m.Inv) (now probe t : ℕ) :
    (m.getExpiredCbsList now probe).1.heap t =
      if t ∈ m.timers ∧ m.expires now t = true then (m.heap t).expired now else m.heap t := by
  by_cases hne : m.timers = []
  · simp [getExpiredCbsList, hne]
  · have hnodup : m.timers.Nodup := h.nodup
    rw [getExpiredCbsList_eq h.sorted hne, rearm_heap (hnodup.filter _)]
    simp only [List.mem_filter]

/-- **Exact expiry.** In every manager with the set invariant and a timer in the set, and for
    every reading that is not older than `m_previous_time`, a call returns the callbacks of
    the due timers of the set, each once, in the order of the set, wherever the probe falls
    among timers with the same deadline.  Afterwards the set holds the timers that were not
    due and the loop timers that were, in order; every due timer of the set has its new
    deadline or has lost its callback, every other timer is as it was, and `m_previous_time`
    is the reading. -/
theorem getExpiredCbsList_exact (m : TimerManager) (now probe : ℕ) (h : m.Inv)
    (hne : m.timers ≠ []) (hnow : m.previousTime ≤ now) :
    ∃ m' cbs, m.getExpiredCbsList now probe = (m', cbs) ∧
    cbs = (m.timers.filter (m.due now)).map (fun t => (t, (m.heap t).cb)) ∧
    SetSorted m.lt (cbs.map Prod.fst) ∧
    (∀ t, t ∈ m'.timers ↔
      t ∈ m.timers ∧ (now < (m.heap t).next ∨ (m.heap t).isLoop = true)) ∧
    SetSorted m'.lt m'.timers ∧
    (∀ t, m'.heap t =
      if t ∈ m.timers ∧ (m.heap t).next ≤ now then (m.heap t).expired now else m.heap t) ∧
    m'.previousTime = now := by
  -- the clock has not gone back, so no change of it is detected
  have hexpires : m.expires now = m.due now := by
    funext t
    rw [expires, detectTimeModified_of_le hnow, Bool.false_or]
  have hinv := (getExpiredCbsList_expires h now probe).1
  have hnodup : m.timers.Nodup := h.nodup
  have hcall := getExpiredCbsList_eq h.sorted hne now probe
  have hcbs := rearm_cbs (hnodup.filter (m.expires now))
    { m with timers := m.timers.filter fun t => !m.expires now t, previousTime := now } now
  have hheap := getExpiredCbsList_heap h now probe
  rw [← hcall] at hcbs
  simp only [hexpires, due_iff] at hcbs hheap
  refine ⟨(m.getExpiredCbsList now probe).1, (m.getExpiredCbsList now probe).2, rfl, hcbs, ?_,
    fun t => ?_, hinv.sorted, hheap, ?_⟩
  · rw [hcbs, List.map_map]
    show SetSorted m.lt ((m.timers.filter (m.due now)).map id)
    rw [List.map_id]
    exact h.sorted.sublist List.filter_sublist
  · -- membership is having a callback, before and after
    rw [hinv.mem_iff t, hheap t]
    by_cases hdue : t ∈ m.timers ∧ (m.heap t).next ≤ now
    · rw [if_pos hdue]
      unfold Timer.expired
      split
      · rename_i hloop
        exact iff_of_true ((h.mem_iff t).mp hdue.1) ⟨hdue.1, .inr hloop⟩
      · rename_i hloop
        apply iff_of_false (by simp)
        rintro ⟨-, hlt | hloop'⟩
        · exact absurd hdue.2 (Nat.not_le_of_lt hlt)
        · exact hloop hloop'
    · rw [if_neg hdue, ← h.mem_iff t]
      constructor
      · intro ht
        exact ⟨ht, .inl (Nat.lt_of_not_le fun hle => hdue ⟨ht, hle⟩)⟩
      · exact And.left
  · rw [hcall, rearm_previousTime]

/-- A one-shot timer and a loop timer of period zero, both due now and on either side of the
    probe, and a timer that is due later. -/
theorem getExpiredCbsList_exact_probe_between :
    ∃ m : TimerManager, m.timers = [1, 0, 2] ∧ (m.heap 1).addr < 75 ∧ 75 < (m.heap 0).addr ∧
      ∃ m' cbs, m.getExpiredCbsList 10 75 = (m', cbs) ∧ cbs = [(1, some 8), (0, some 7)] ∧
        1 ∈ m'.timers ∧ 0 ∉ m'.timers ∧ (m'.heap 0).cb = none ∧ (m'.heap 1).next = 10 := by
  -- three timers, two of them due at 10 and one of these below the address of the probe
  have hone : ((new 0).addTimer 10 (some 7) false 0 100).1.Inv :=
    addTimer_inv (inv_new 0) (by decide)
  have htwo : (((new 0).addTimer 10 (some 7) false 0 100).1.addTimer 0 (some 8) true 10 50).1.Inv :=
    addTimer_inv hone (by decide)
  have hthree : ((((new 0).addTimer 10 (some 7) false 0 100).1.addTimer 0 (some 8) true 10 50).1.addTimer
      20 (some 9) false 0 70).1.Inv :=
    addTimer_inv htwo (by decide)
  obtain ⟨m', cbs, hcall, hcbs, -, hmem, -, hheap, -⟩ :=
    getExpiredCbsList_exact _ 10 75 hthree (by decide) (by decide)
  exact ⟨_, by decide, by decide, by decide, m', cbs, hcall, hcbs.trans (by decide),
    (hmem 1).mpr (by decide), mt (hmem 0).mp (by decide), by rw [hheap]; decide,
    by rw [hheap]; decide⟩

end TimerManager

end LoNetfw.Scheduler
