import LoNetfw.Basis.Word64
import LoNetfw.Basis.OrderedSet
import Mathlib.Logic.Function.Basic

namespace LoNetfw.Scheduler

open Basis

/-!
# `Timer` and `TimerManager`

The timers of `scheduler/timer.cpp`.  A timer object is a number in the heap of timers; its
address, which the comparator of `m_timers` compares, is a field, so that the allocator is
free to choose addresses in any order and to reuse them.  `m_timers` holds timer objects and
is ordered by what the objects contain *now*, which is why every operation that changes
`m_next` first removes the object from the set.

Each function below is one critical section under `m_mutex`; clock readings are arguments.
`m_timers.erase(m_timers.end())` is undefined behaviour and an error of its own.
-/

structure Timer where
  /-- `m_cb`: the callback, `none` when the function object is empty. -/
  cb : Option ℕ
  isLoop : Bool
  ms : ℕ
  next : ℕ
  /-- The address of the object. -/
  addr : ℕ
  deriving DecidableEq, Repr

instance : Inhabited Timer := ⟨⟨none, false, 0, 0, 0⟩⟩

/-- `Timer::Comparator` on two timers: by `m_next`, then by address. -/
def Timer.before (lhs rhs : Timer) : Bool :=
  if lhs.next < rhs.next then true
  else if lhs.next > rhs.next then false
  else lhs.addr < rhs.addr

structure TimerManager where
  heap : ℕ → Timer
  /-- The number of timers created so far. -/
  allocated : ℕ
  timers : List ℕ
  notified : Bool
  previousTime : ℕ

namespace TimerManager

/-- Undefined behaviour of the timer functions. -/
inductive Fault
  | eraseEnd
  deriving DecidableEq, Repr

/-- `TimerManager()`, created when the clock reads `now`. -/
def new (now : ℕ) : TimerManager where
  heap := fun _ => default
  allocated := 0
  timers := []
  notified := false
  previousTime := now

/-- The comparator of `m_timers`, on the current contents of the timers. -/
def lt (m : TimerManager) (a b : ℕ) : Bool := (m.heap a).before (m.heap b)

/-- Assign to the fields of a timer. -/
def setTimer (m : TimerManager) (t : ℕ) (v : Timer) : TimerManager :=
  { m with heap := Function.update m.heap t v }

/-- `addTimer(timer, lock)`: the manager, and whether `onTimerInsertAtFront` is called after
    the lock is released. -/
def insertTimer (m : TimerManager) (t : ℕ) : TimerManager × Bool :=
  let timers := setInsert m.lt t m.timers
  -- `it == m_timers.begin() && !m_notified`; `it` is where the set has an equivalent key
  let isFront := timers.head? == setFind m.lt t timers && !m.notified
  ({ m with timers := timers, notified := m.notified || isFront }, isFront)

/-- `addTimer(ms, cb, is_loop)` when the clock reads `now` and the allocator returns the
    address `addr`: the manager, the new timer and the front flag. -/
def addTimer (m : TimerManager) (ms : ℕ) (cb : Option ℕ) (isLoop : Bool) (now addr : ℕ) :
    TimerManager × ℕ × Bool :=
  let t := m.allocated
  let created := { m.setTimer t ⟨cb, isLoop, ms, wadd now ms, addr⟩ with allocated := t + 1 }
  let (m', isFront) := created.insertTimer t
  (m', t, isFront)

/-- `Timer::cancel()`. -/
def cancel (m : TimerManager) (t : ℕ) : Except Fault (Bool × TimerManager) :=
  if (m.heap t).cb.isSome then
    -- the key is unchanged, so that `find` still reaches the timer
    let m' := m.setTimer t { m.heap t with cb := none }
    match setFind m'.lt t m'.timers with
    -- `find` is not compared with `end()` before `erase`
    | none => .error .eraseEnd
    | some it => .ok (true, { m' with timers := m'.timers.erase it })
  else .ok (false, m)

/-- `Timer::refresh()` when the clock reads `now`. -/
def refresh (m : TimerManager) (t now : ℕ) : Bool × TimerManager :=
  if (m.heap t).cb.isNone then (false, m)
  else
    match setFind m.lt t m.timers with
    | none => (false, m)
    | some it =>
      -- out of the set while the key changes
      let erased := { m with timers := m.timers.erase it }
      let moved := erased.setTimer t { m.heap t with next := wadd now (m.heap t).ms }
      (true, { moved with timers := setInsert moved.lt t moved.timers })

/-- The test of `Timer::reset(ms, from_now)` before the lock: nothing to do. -/
def resetSkips (m : TimerManager) (t ms : ℕ) (fromNow : Bool) : Bool :=
  ms == (m.heap t).ms && !fromNow

/-- The critical section of `Timer::reset(ms, from_now)` when the clock reads `now`. -/
def resetLocked (m : TimerManager) (t ms : ℕ) (fromNow : Bool) (now : ℕ) :
    Bool × TimerManager :=
  if (m.heap t).cb.isNone then (false, m)
  else
    match setFind m.lt t m.timers with
    | none => (false, m)
    | some it =>
      let erased := { m with timers := m.timers.erase it }
      -- `m_next - m_ms`, in `uint64_t`
      let start := if fromNow then now else wsub (m.heap t).next (m.heap t).ms
      let moved := erased.setTimer t { m.heap t with ms := ms, next := wadd start ms }
      (true, (moved.insertTimer t).1)

/-- `getNextTimerTimeMs()` when the clock reads `now`. -/
def getNextTimerTimeMs (m : TimerManager) (now : ℕ) : ℕ × TimerManager :=
  let m' := { m with notified := false }
  match m.timers with
  -- `~0ull`
  | [] => (2 ^ 64 - 1, m')
  | t :: _ => (if now ≥ (m.heap t).next then 0 else (m.heap t).next - now, m')

/-- `detectTimeModified(now_ms)`: the flag; the caller stores `now_ms`. -/
def detectTimeModified (previousTime now : ℕ) : Bool :=
  now < previousTime && now < wsub previousTime (60 * 60 * 1000)

/-- The loop body of `getExpiredCbsList` after the callback is collected: a loop timer is
    armed again, the callback of any other one is cleared. -/
def rearmTimer (m : TimerManager) (now t : ℕ) : TimerManager :=
  if (m.heap t).isLoop then
    let moved := m.setTimer t { m.heap t with next := wadd now (m.heap t).ms }
    { moved with timers := setInsert moved.lt t moved.timers }
  else m.setTimer t { m.heap t with cb := none }

/-- The loop over the expired timers: collects the callbacks, each with the timer it
    belongs to. -/
def rearm (now : ℕ) : List ℕ → TimerManager → TimerManager × List (ℕ × Option ℕ)
  | [], m => (m, [])
  | t :: ts, m =>
    let (m', cbs) := rearm now ts (m.rearmTimer now t)
    (m', (t, (m.heap t).cb) :: cbs)

/-- The timers before the iterator `it` of `getExpiredCbsList`, and those from it on.  The
    probe timer has `m_next = now` and the address `probe`. -/
def splitExpired (m : TimerManager) (isModified : Bool) (now probe : ℕ) : List ℕ × List ℕ :=
  if isModified then (m.timers, [])
  else
    -- `lower_bound` of the probe, and then past the timers with `m_next == now_ms`
    let below := fun t => (m.heap t).before ⟨none, false, 0, now, probe⟩
    let due := fun t => (m.heap t).next == now
    let rest := m.timers.dropWhile below
    (m.timers.takeWhile below ++ rest.takeWhile due, rest.dropWhile due)

/-- The write-locked section of `getExpiredCbsList` for a clock reading `now`: the manager
    and the callbacks appended to the list. -/
def getExpiredCbsList (m : TimerManager) (now probe : ℕ) : TimerManager × List (ℕ × Option ℕ) :=
  match m.timers with
  | [] => (m, [])
  | first :: _ =>
    -- `detectTimeModified` stores its argument whatever it returns
    let isModified := detectTimeModified m.previousTime now
    let m := { m with previousTime := now }
    if !isModified && (m.heap first).next > now then (m, [])
    else
      let (expired, rest) := m.splitExpired isModified now probe
      rearm now expired { m with timers := rest }

end TimerManager

end LoNetfw.Scheduler
