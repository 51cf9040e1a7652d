import LoNetfw.Scheduler.TimerInv
import Mathlib.Algebra.Ring.Int.Defs

namespace LoNetfw.Scheduler

open Basis

/-!
# `IOScheduler::idle()` — the time-out of `epoll_wait`

`idle()` waits for events until the next timer is due, and for three seconds at most.  The
wait comes from `getNextTimerTimeMs` as a `uint64_t`; it is narrowed to `int`, compared with
the maximum, stored back into the `uint64_t`, and narrowed again for the call, and all of this is
repeated on the stored value when a signal interrupts the call.

* `toInt`, `ofInt` — the two conversions;
* `idleTimeouts` — the time-outs one round of `idle()` passes to `epoll_wait`;
* `getNextTimerTimeMs_eq`, `next_head_le` — the wait is the one for the earliest timer;
* `mem_pollTimeouts` — every call gets the same time-out, except after an interrupted -1;
* `idle_timeout_iff` — the waits for which all calls get the wait, cut at three seconds.
-/

/-- `(int)x` for a `uint64_t`: its low 32 bits. -/
def toInt (x : ℕ) : ℤ :=
  if x % 2 ^ 32 < 2 ^ 31 then (x % 2 ^ 32 : ℕ) else (x % 2 ^ 32 : ℕ) - 2 ^ 32

/-- An `int` assigned to a `uint64_t`. -/
def ofInt (z : ℤ) : ℕ := (z % 2 ^ 64).toNat

/-- `MAX_TIMEOUT`, in milliseconds. -/
def maxTimeout : ℤ := 3000

/-- The assignment to `next_timeout` at the start of the loop. -/
def clampTimeout (nextTimeout : ℕ) : ℕ :=
  if nextTimeout ≠ 2 ^ 64 - 1 then
    ofInt (if toInt nextTimeout > maxTimeout then maxTimeout else toInt nextTimeout)
  else ofInt maxTimeout

/-- The loop around `epoll_wait`: the time-outs that are passed, given which calls a signal
    interrupts. -/
def pollTimeouts (nextTimeout : ℕ) : List Bool → List ℤ
  | [] => []
  | interrupted :: rest =>
    let nextTimeout := clampTimeout nextTimeout
    toInt nextTimeout :: if interrupted then pollTimeouts nextTimeout rest else []

/-- `IOScheduler::stopping(timeout)` after it has read the timers; `schedulerStopping` is what
    `Scheduler::stopping()` returns. -/
def ioStopping (timeout waitingEvents : ℕ) (schedulerStopping : Bool) : Bool :=
  timeout == 2 ^ 64 - 1 && waitingEvents == 0 && schedulerStopping

/-- The time-outs that one round of `idle()` passes to `epoll_wait` when the clock reads `now`. -/
def idleTimeouts (m : TimerManager) (now waitingEvents : ℕ) (schedulerStopping : Bool)
    (interrupted : List Bool) : List ℤ :=
  let timeout := (m.getNextTimerTimeMs now).1
  if ioStopping timeout waitingEvents schedulerStopping then [] else pollTimeouts timeout interrupted

/-! ### The wait for the earliest timer -/

/-- The wait is the one for the first timer of the set. -/
theorem getNextTimerTimeMs_eq (m : TimerManager) (now : ℕ) :
    (m.getNextTimerTimeMs now).1
      = m.timers.head?.elim (2 ^ 64 - 1) fun t => (m.heap t).next - now := by
  unfold TimerManager.getNextTimerTimeMs
  cases m.timers with
  | nil => rfl
  | cons first later =>
    show (if now ≥ (m.heap first).next then 0 else (m.heap first).next - now) = _
    rw [List.head?_cons, Option.elim_some]
    split <;> omega

/-- No timer of the set is due before the first one. -/
theorem next_head_le {m : TimerManager} (h : m.Inv) {t u : ℕ} (ht : m.timers.head? = some t)
    (hu : u ∈ m.timers) : (m.heap t).next ≤ (m.heap u).next := by
  obtain ⟨later, hl⟩ := List.head?_eq_some_iff.mp ht
  have hsorted := h.sorted
  rw [hl] at hsorted hu
  rcases List.mem_cons.mp hu with rfl | hu
  · exact Nat.le_refl _
  · have hlt := Timer.before_iff.mp ((List.pairwise_cons.mp hsorted).1 u hu)
    omega

/-! ### The loop -/

/-- The time-out the first call gets. -/
def firstTimeout (nextTimeout : ℕ) : ℤ :=
  if nextTimeout = 2 ^ 64 - 1 then maxTimeout else min (toInt nextTimeout) maxTimeout

/-- The assignment keeps the time-out of the first call. -/
theorem clampTimeout_eq (x : ℕ) : clampTimeout x = ofInt (firstTimeout x) := by
  unfold clampTimeout firstTimeout
  by_cases hx : x = 2 ^ 64 - 1
  · rw [if_neg (by simp [hx]), if_pos hx]
  · rw [if_pos hx, if_neg hx]
    congr 1
    split <;> omega

/-- The narrowed number is an `int`. -/
theorem toInt_bounds (x : ℕ) : -2 ^ 31 ≤ toInt x ∧ toInt x < 2 ^ 31 := by
  unfold toInt
  split <;> omega

/-- An `int` comes back from a `uint64_t`. -/
theorem toInt_ofInt {z : ℤ} (h : -2 ^ 31 ≤ z) (h' : z < 2 ^ 31) : toInt (ofInt z) = z := by
  unfold toInt ofInt
  split <;> omega

/-- The first time-out is an `int` and never above the bound. -/
theorem firstTimeout_bounds (x : ℕ) : -2 ^ 31 ≤ firstTimeout x ∧ firstTimeout x ≤ maxTimeout := by
  have hx := toInt_bounds x
  unfold firstTimeout maxTimeout
  split <;> omega

/-- It is what `epoll_wait` gets first. -/
theorem toInt_clampTimeout (x : ℕ) : toInt (clampTimeout x) = firstTimeout x := by
  have hx := firstTimeout_bounds x
  unfold maxTimeout at hx
  rw [clampTimeout_eq, toInt_ofInt hx.1 (by omega)]

/-- The stored value leads to the same time-out again, but for -1, which is stored as the value
    that means no timer. -/
theorem firstTimeout_clampTimeout (x : ℕ) :
    firstTimeout (clampTimeout x) = if firstTimeout x = -1 then maxTimeout else firstTimeout x := by
  have hx := firstTimeout_bounds x
  have hsame := toInt_clampTimeout x
  -- of all values that can be stored only -1 becomes all ones
  have hnone : clampTimeout x = 2 ^ 64 - 1 ↔ firstTimeout x = -1 := by
    rw [clampTimeout_eq]
    unfold ofInt
    unfold maxTimeout at hx
    omega
  conv_lhs => unfold firstTimeout
  rw [hsame]
  simp only [hnone]
  split <;> omega

/-- Every call gets the first time-out, or three seconds after an interrupted -1. -/
theorem mem_pollTimeouts {x : ℕ} {interrupted : List Bool} {z : ℤ}
    (hz : z ∈ pollTimeouts x interrupted) :
    z = firstTimeout x ∨ (firstTimeout x = -1 ∧ z = maxTimeout) := by
  induction interrupted generalizing x with
  | nil => exact absurd hz List.not_mem_nil
  | cons b rest ih =>
    rw [pollTimeouts, toInt_clampTimeout, List.mem_cons] at hz
    rcases hz with rfl | hz
    · exact .inl rfl
    · cases b with
      | false => exact absurd hz (by simp)
      -- an interrupted `epoll_wait` is called again with the clamped timeout
      | true =>
        have hrest := ih hz
        rw [firstTimeout_clampTimeout] at hrest
        unfold maxTimeout at hrest ⊢
        split at hrest <;> omega

/-- The waits for which the first time-out is the wait, cut at three seconds. -/
theorem firstTimeout_eq_iff (x : ℕ) : firstTimeout x = min (x : ℤ) maxTimeout ↔
    x < 3000 ∨ x = 2 ^ 64 - 1 ∨ (3000 ≤ x % 2 ^ 32 ∧ x % 2 ^ 32 < 2 ^ 31) := by
  unfold firstTimeout maxTimeout toInt
  split
  · omega
  · split <;> omega

/-- All calls of a round get the wait, cut at three seconds, exactly when the first one does. -/
theorem idleTimeouts_iff_first (m : TimerManager) (now waitingEvents : ℕ)
    (schedulerStopping : Bool) :
    (∀ (interrupted : List Bool) (z : ℤ),
      z ∈ idleTimeouts m now waitingEvents schedulerStopping interrupted →
      z = min ((m.getNextTimerTimeMs now).1 : ℤ) 3000 ∧ 0 ≤ z ∧ z ≤ 3000) ↔
    firstTimeout (m.getNextTimerTimeMs now).1
      = min ((m.getNextTimerTimeMs now).1 : ℤ) maxTimeout := by
  unfold idleTimeouts
  generalize (m.getNextTimerTimeMs now).1 = timeout
  dsimp only
  constructor
  · intro hall
    by_cases hstop : ioStopping timeout waitingEvents schedulerStopping
    · -- `idle()` ends only when there is no timer
      have hnone : timeout = 2 ^ 64 - 1 := by
        simp only [ioStopping, Bool.and_eq_true, beq_iff_eq] at hstop
        exact hstop.1.1
      rw [firstTimeout_eq_iff]
      exact .inr (.inl hnone)
    · -- one call that is not interrupted is enough
      have hfirst := hall [false] (firstTimeout timeout)
      rw [if_neg hstop, pollTimeouts, toInt_clampTimeout] at hfirst
      exact (hfirst List.mem_cons_self).1
  -- later calls wait no longer than the first
  · intro hfirst interrupted z hz
    split at hz
    · exact absurd hz List.not_mem_nil
    · have hcall := mem_pollTimeouts hz
      unfold maxTimeout at hfirst hcall
      omega

/-- **Poll time-out, exactly.** For every timer manager and clock reading, every call of
    `epoll_wait` in a round of `idle()`, the repeated ones included, gets the minimum of the
    wait and 3000, which is never negative, exactly when there is no timer, or the milliseconds
    until the earliest one is due are below 3000 or all ones, or their low 32 bits are at
    least 3000 and below `2 ^ 31`. -/
theorem idle_timeout_iff (m : TimerManager) (now waitingEvents : ℕ) (schedulerStopping : Bool) :
    (∀ (interrupted : List Bool) (z : ℤ),
      z ∈ idleTimeouts m now waitingEvents schedulerStopping interrupted →
      z = min ((m.getNextTimerTimeMs now).1 : ℤ) 3000 ∧ 0 ≤ z ∧ z ≤ 3000) ↔
    ∀ t, m.timers.head? = some t →
      (m.heap t).next - now < 3000 ∨ (m.heap t).next - now = 2 ^ 64 - 1 ∨
      (3000 ≤ ((m.heap t).next - now) % 2 ^ 32 ∧ ((m.heap t).next - now) % 2 ^ 32 < 2 ^ 31) := by
  rw [idleTimeouts_iff_first, firstTimeout_eq_iff, getNextTimerTimeMs_eq]
  cases m.timers.head? with
  | none => exact iff_of_true (.inr (.inl rfl)) nofun
  | some t => simp only [Option.elim_some, Option.some.injEq, forall_eq']

/-- A timer that is due in 2 ^ 31 ms: the call blocks until an event comes. -/
theorem far_timer_blocks :
    ¬ ∀ (m : TimerManager) (now waitingEvents : ℕ) (schedulerStopping : Bool)
      (interrupted : List Bool) (z : ℤ),
      z ∈ idleTimeouts m now waitingEvents schedulerStopping interrupted →
      z = min ((m.getNextTimerTimeMs now).1 : ℤ) 3000 ∧ 0 ≤ z ∧ z ≤ 3000 := by
  intro h
  have hcall := h ((TimerManager.new 1000).addTimer (2 ^ 31) (some 7) false 1000 64).1 1000 0 false
    [false] (-2 ^ 31) (by decide)
  omega

end LoNetfw.Scheduler
