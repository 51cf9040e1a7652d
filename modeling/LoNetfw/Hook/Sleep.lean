import LoNetfw.Scheduler.IdleTimeout
import LoNetfw.Scheduler.TimerExpiry

namespace LoNetfw.Hook

open Basis
open Scheduler (TimerManager ofInt)

/-!
# Hooked `sleep`, `usleep` and `nanosleep`

On a hooked thread the three calls arm a timer that schedules the fiber again, and yield.  The
period of the timer is in milliseconds: `sleep` multiplies in 32 bits, `usleep` and `nanosleep`
divide, and `nanosleep` adds in `long`.

* `SleepCall.msec`, `SleepCall.run` — the period and the timer of a call;
* `msec_sleep`, `msec_usleep`, `msec_nanosleep_iff` — the period of each call in integers;
* `sleep_never_short_iff` — the arguments whose period is long enough.
-/

/-- `struct timespec`: `time_t` and `long`. -/
structure Timespec where
  tvSec : Int64
  tvNsec : Int64
  deriving DecidableEq, Repr

/-- A call with its argument; `unsigned int` and `useconds_t` have 32 bits. -/
inductive SleepCall
  | sleep (seconds : UInt32)
  | usleep (usec : UInt32)
  | nanosleep (req : Timespec)
  deriving DecidableEq, Repr

/-- The result of an operation on `long`; there is none when it overflows. -/
def long? (z : ℤ) : Option ℤ := if -2 ^ 63 ≤ z ∧ z < 2 ^ 63 then some z else none

namespace SleepCall

/-- The argument of `addTimer`, a `uint64_t`; none after a signed overflow. -/
def msec : SleepCall → Option ℕ
  | .sleep seconds => some (seconds * 1000).toNat
  | .usleep usec => some (usec / 1000).toNat
  | .nanosleep req => do
    let sec ← long? (req.tvSec.toInt * 1000)
    let msec ← long? (sec + req.tvNsec.toInt.tdiv (1000 * 1000))
    return ofInt msec

/-- The call in `fiber` when the clock reads `now`: the timer manager after `addTimer`, the
    timer and the front flag.  The callback of the timer schedules the fiber. -/
def run (m : TimerManager) (fiber now addr : ℕ) (c : SleepCall) :
    Option (TimerManager × ℕ × Bool) :=
  c.msec.map fun ms => m.addTimer ms (some fiber) false now addr

/-- The duration that is asked for, in nanoseconds. -/
def duration : SleepCall → ℤ
  | .sleep seconds => seconds.toNat * 10 ^ 9
  | .usleep usec => usec.toNat * 10 ^ 3
  | .nanosleep req => req.tvSec.toInt * 10 ^ 9 + req.tvNsec.toInt

/-- A `timespec` is not negative and has less than a second in `tv_nsec`. -/
def Valid : SleepCall → Prop
  | .sleep _ | .usleep _ => True
  | .nanosleep req => 0 ≤ req.tvSec.toInt ∧ 0 ≤ req.tvNsec.toInt ∧ req.tvNsec.toInt < 10 ^ 9

/-- Nothing is lost on the way to milliseconds: the product of `sleep` fits its 32 bits, the
    divisions leave no rest, and the sum of `nanosleep` fits `long`. -/
def Exact : SleepCall → Prop
  | .sleep seconds => seconds.toNat * 1000 < 2 ^ 32
  | .usleep usec => 1000 ∣ usec.toNat
  | .nanosleep req =>
    10 ^ 6 ∣ req.tvNsec.toInt ∧ req.tvSec.toInt * 1000 + req.tvNsec.toInt / 10 ^ 6 < 2 ^ 63

/-! ### The period of each call -/

/-- An operation on `long` that does not overflow. -/
theorem long?_eq_some {z w : ℤ} : long? z = some w ↔ (-2 ^ 63 ≤ z ∧ z < 2 ^ 63) ∧ z = w := by
  unfold long?
  rw [Option.ite_none_right_eq_some, Option.some.injEq]

/-- A number below `2 ^ 64` is kept. -/
theorem ofInt_natCast {n : ℕ} (h : n < 2 ^ 64) : ofInt n = n := by
  unfold ofInt
  omega

/-- `seconds * 1000` has 32 bits. -/
theorem msec_sleep (seconds : UInt32) :
    (sleep seconds).msec = some (seconds.toNat * 1000 % 2 ^ 32) :=
  congrArg some (UInt32.toNat_mul seconds 1000)

/-- `usec / 1000` rounds down. -/
theorem msec_usleep (usec : UInt32) : (usleep usec).msec = some (usec.toNat / 1000) :=
  congrArg some (UInt32.toNat_div usec 1000)

/-- `nanosleep` computes the whole milliseconds of its argument when these fit `long`, and
    overflows otherwise. -/
theorem msec_nanosleep_iff {req : Timespec} (h : (nanosleep req).Valid) {ms : ℕ} :
    (nanosleep req).msec = some ms ↔
      (ms : ℤ) = req.tvSec.toInt * 1000 + req.tvNsec.toInt / 10 ^ 6 ∧ ms < 2 ^ 63 := by
  obtain ⟨hsec, hnsec, -⟩ := h
  -- both operands are nonnegative, so that the quotient is the rounded-down one
  have hdiv : req.tvNsec.toInt.tdiv (1000 * 1000) = req.tvNsec.toInt / 10 ^ 6 :=
    Int.tdiv_eq_ediv_of_nonneg hnsec
  have hquot : 0 ≤ req.tvNsec.toInt / 10 ^ 6 := Int.ediv_nonneg hnsec (by decide)
  have hms : (nanosleep req).msec = some ms ↔ ∃ sec, long? (req.tvSec.toInt * 1000) = some sec ∧
      ∃ sum, long? (sec + req.tvNsec.toInt / 10 ^ 6) = some sum ∧ ofInt sum = ms := by
    simp only [msec, hdiv, Option.bind_eq_bind, Option.bind_eq_some_iff, Option.pure_def,
      Option.some.injEq]
  rw [hms]
  constructor
  · rintro ⟨sec, hprod, sum, hsum, hof⟩
    obtain ⟨-, rfl⟩ := long?_eq_some.mp hprod
    obtain ⟨hrange, rfl⟩ := long?_eq_some.mp hsum
    unfold ofInt at hof
    omega
  · rintro ⟨heq, hlt⟩
    refine ⟨_, long?_eq_some.mpr ⟨by omega, rfl⟩, _, long?_eq_some.mpr ⟨by omega, rfl⟩, ?_⟩
    rw [← heq]
    exact ofInt_natCast (by omega)

/-! ### When the period is long enough -/

/-- The timer that the call arms is armed for the duration at least. -/
def NeverShort (m : TimerManager) (fiber now addr : ℕ) (c : SleepCall) : Prop :=
  ∃ m' t isFront, c.run m fiber now addr = some (m', t, isFront) ∧
    c.duration ≤ (m'.heap t).ms * 10 ^ 6

/-- The timer of a call has the period that the call computed. -/
theorem run_eq_some {m m' : TimerManager} {fiber now addr t : ℕ} {isFront : Bool}
    {c : SleepCall} (h : c.run m fiber now addr = some (m', t, isFront)) :
    t = m.allocated ∧ ∃ ms, c.msec = some ms ∧
      m'.heap t = ⟨some fiber, false, ms, wadd now ms, addr⟩ := by
  obtain ⟨ms, hms, hrun⟩ := Option.map_eq_some_iff.mp h
  cases hrun
  exact ⟨rfl, ms, hms, Function.update_self ..⟩

/-- The claim in terms of the period. -/
theorem neverShort_iff {m : TimerManager} {fiber now addr : ℕ} {c : SleepCall} :
    NeverShort m fiber now addr c ↔ ∃ ms, c.msec = some ms ∧ c.duration ≤ ms * 10 ^ 6 := by
  constructor
  · rintro ⟨m', t, isFront, hrun, hle⟩
    obtain ⟨-, ms, hms, hheap⟩ := run_eq_some hrun
    rw [hheap] at hle
    exact ⟨ms, hms, hle⟩
  · rintro ⟨ms, hms, hle⟩
    have hrun : c.run m fiber now addr = some (m.addTimer ms (some fiber) false now addr) := by
      rw [run, hms, Option.map_some]
    obtain ⟨-, ms', hms', hheap⟩ := run_eq_some hrun
    -- the timer has the milliseconds of the call
    obtain rfl : ms = ms' := Option.some.inj (hms.symm.trans hms')
    refine ⟨_, _, _, hrun, ?_⟩
    rw [hheap]
    exact hle

/-- The period of a call is long enough exactly when nothing is lost on the way to it. -/
theorem msec_enough_iff {c : SleepCall} (h : c.Valid) :
    (∃ ms, c.msec = some ms ∧ c.duration ≤ ms * 10 ^ 6) ↔ c.Exact := by
  cases c with
  | sleep seconds =>
    simp only [msec_sleep, Option.some.injEq, exists_eq_left', duration, Exact]
    -- a product that wraps has become smaller
    omega
  | usleep usec =>
    simp only [msec_usleep, Option.some.injEq, exists_eq_left', duration, Exact]
    omega
  | nanosleep req =>
    simp only [msec_nanosleep_iff h, duration, Exact]
    obtain ⟨hsec, hnsec, -⟩ := h
    constructor
    · rintro ⟨ms, ⟨heq, hlt⟩, hle⟩
      constructor <;> omega
    · rintro ⟨hdvd, hlt⟩
      refine ⟨(req.tvSec.toInt * 1000 + req.tvNsec.toInt / 10 ^ 6).toNat, ?_⟩
      omega

/-- The timer of a call is armed for the duration at least exactly when nothing is lost on the
    way to milliseconds. -/
theorem sleep_never_short_iff (m : TimerManager) (fiber now addr : ℕ) (c : SleepCall)
    (h : c.Valid) : NeverShort m fiber now addr c ↔ c.Exact := by
  rw [neverShort_iff]
  exact msec_enough_iff h

/-- Four million seconds, and a bit more than the 32 bits hold. -/
theorem sleep_never_short_4294967 :
    (sleep 4294967).Valid ∧
      NeverShort (.new 0) 7 0 0 (sleep 4294967) := by
  have hvalid : (sleep 4294967).Valid := trivial
  refine ⟨hvalid, (sleep_never_short_iff _ 7 0 0 _ hvalid).mpr ?_⟩
  show (4294967 : UInt32).toNat * 1000 < 2 ^ 32
  decide

/-- Seven weeks, half a millisecond and a second and a nanosecond are all cut short. -/
theorem sleep_short :
    ¬ NeverShort (.new 0) 7 0 0 (sleep 4294968) ∧ ¬ NeverShort (.new 0) 7 0 0 (usleep 500) ∧
      (nanosleep ⟨1, 1⟩).Valid ∧ ¬ NeverShort (.new 0) 7 0 0 (nanosleep ⟨1, 1⟩) := by
  -- a nanosecond is a time that `nanosleep` takes
  have hvalid : (nanosleep ⟨1, 1⟩).Valid := by
    show 0 ≤ (1 : Int64).toInt ∧ 0 ≤ (1 : Int64).toInt ∧ (1 : Int64).toInt < 10 ^ 9
    decide
  refine ⟨?_, ?_, hvalid, ?_⟩
  · rw [neverShort_iff, msec_enough_iff (c := sleep 4294968) trivial]
    show ¬ (4294968 : UInt32).toNat * 1000 < 2 ^ 32
    decide
  · rw [neverShort_iff, msec_enough_iff (c := usleep 500) trivial]
    show ¬ 1000 ∣ (500 : UInt32).toNat
    decide
  · rw [neverShort_iff, msec_enough_iff hvalid]
    intro hexact
    have hdvd : (10 ^ 6 : ℤ) ∣ (1 : Int64).toInt := hexact.1
    exact absurd hdvd (by decide)

end SleepCall

end LoNetfw.Hook
