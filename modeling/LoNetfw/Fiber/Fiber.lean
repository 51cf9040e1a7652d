import Mathlib.Data.Nat.Notation

namespace LoNetfw

/-!
# `Fiber`

The states of a fiber, and the fiber object as `Scheduler::run` uses it: `reset`, the
destructor, and `mainFunc`, which runs the callback and turns an exception into the state
`ERROR`.

* `State` — `Fiber::State`;
* `Body` — what a callback does as far as the scheduler can tell;
* `Body.segment` — a callback from where it is switched in to where it switches out.
-/

/-- `Fiber::State`. -/
inductive Fiber.State
  | error
  | init
  | hold
  | exec
  | term
  | ready
  deriving DecidableEq, Repr

/-- The condition under which `reset` and the destructor throw:
    `m_state != TERM && m_state != INIT && m_state == ERROR`. -/
def Fiber.State.isIllegal (s : Fiber.State) : Bool := s ≠ .term && s ≠ .init && s = .error

/-- Of the three comparisons only the last one counts. -/
theorem Fiber.State.isIllegal_iff (s : Fiber.State) : s.isIllegal = true ↔ s = .error := by
  cases s <;> decide

/-- What a callback still does: it returns, throws, yields, or schedules its own fiber and
    goes on. -/
inductive Fiber.Body
  | ret
  | throw
  | yieldToReady (rest : Fiber.Body)
  | yieldToHold (rest : Fiber.Body)
  | schedule (rest : Fiber.Body)
  deriving DecidableEq, Repr

/-- A stretch of a callback from a switch-in to the next switch-out: how often the fiber
    schedules itself, the state it writes, and what is left to run. -/
def Fiber.Body.segment : Fiber.Body → ℕ × Fiber.State × Option Fiber.Body
  | .ret => (0, .term, none)
  -- `m_cb = nullptr` is skipped by the exception
  | .throw => (0, .error, some .throw)
  | .yieldToReady rest => (0, .ready, some rest)
  | .yieldToHold rest => (0, .hold, some rest)
  | .schedule rest =>
    let (n, state, left) := rest.segment
    (n + 1, state, left)

structure Fiber where
  state : Fiber.State
  /-- `m_cb`, or what is left of it after a yield; `none` for an empty function. -/
  body : Option Fiber.Body
  /-- `m_stack` is not null: the fiber is not the main fiber of a thread. -/
  hasStack : Bool
  deriving DecidableEq, Repr

/-- The exceptions the fiber functions throw. -/
inductive Fiber.Exception
  | resetNoStack
  | resetState
  | swapInExec
  | destroyState
  | destroyMain
  deriving DecidableEq, Repr

namespace Fiber

/-- `Fiber(cb, stack_size)`. -/
def new (body : Option Body) : Fiber := ⟨.init, body, true⟩

/-- `reset(cb)`. -/
def reset (f : Fiber) (body : Option Body) : Except Exception Fiber :=
  if !f.hasStack then .error .resetNoStack
  else if f.state.isIllegal then .error .resetState
  else .ok { f with state := .init, body := body }

/-- `~Fiber()`. -/
def destroy (f : Fiber) : Except Exception Unit :=
  if f.hasStack then
    if f.state.isIllegal then .error .destroyState else .ok ()
  -- the main fiber of a thread
  else if f.body.isSome then .error .destroyMain
  else if f.state ≠ .exec then .error .destroyMain
  else .ok ()

/-- The stretch that a fiber runs; to call an empty function throws. -/
def segment (f : Fiber) : ℕ × State × Option Body :=
  match f.body with
  | some body => body.segment
  | none => (0, .error, none)

/-- `swapIn` and what the fiber does until it is back: the fiber, and how often it has
    scheduled itself. -/
def swapIn (f : Fiber) : Except Exception (Fiber × ℕ) :=
  if f.state = .exec then .error .swapInExec
  else
    let (n, state, body) := f.segment
    .ok ({ f with state := state, body := body }, n)

end Fiber

end LoNetfw
