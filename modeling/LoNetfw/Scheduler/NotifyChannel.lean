import LoNetfw.Basis.StepSystem

namespace LoNetfw.Scheduler

open Basis

/-!
# `IOScheduler` — the notify channel

`notify()` writes a byte into a pipe whose read end is registered with epoll, and an idle
fiber that `epoll_wait` reports the read end to reads it until the pipe is empty.  The Linux
build registers the read end edge-triggered, the Windows build one-shot; nothing but the
constructor ever calls `epoll_ctl` for it.

* `NotifyChannel.step` — the writes, the reports and the reads of the draining loop, by any
  number of idle fibers;
* `NextReports`, `LaterReports` — what a byte in the pipe that no fiber is draining is for;
* `stays_armed_iff` — both hold exactly as long as no byte is written to a one-shot
  registration that has been used up.
-/

/-- The trigger mode in the `events` of the registration of `m_notify_pipe_fd[0]`. -/
inductive Trigger
  /-- `EPOLLIN | EPOLLET` (Linux). -/
  | edge
  /-- `EPOLLIN | EPOLLONESHOT` (Windows). -/
  | oneShot
  deriving DecidableEq, Repr

structure NotifyChannel where
  trigger : Trigger
  /-- The bytes in the pipe. -/
  bytes : ℕ
  /-- The registration would report a readable pipe: an edge since the last report, or a
      one-shot that is still enabled. -/
  armed : Bool
  /-- The idle fibers that were reported the read end and have not read `EAGAIN` yet. -/
  draining : ℕ
  deriving DecidableEq, Repr

inductive NotifyAction
  /-- `notify()`.  `hasIdle` is what `hasIdleThreads()` returns; `edge` is the kernel's choice
      to signal data that arrives in a pipe that was not drained. -/
  | notify (hasIdle edge : Bool)
  /-- `epoll_wait` reports the read end to an idle fiber. -/
  | epollWait
  /-- The draining loop reads one byte. -/
  | readByte
  /-- The draining loop finds the pipe empty and ends. -/
  | readAgain
  deriving DecidableEq, Repr

namespace NotifyChannel

/-- The channel after the constructor: an edge-triggered registration of an empty pipe has
    nothing to signal, a one-shot one is enabled. -/
def new (trigger : Trigger) : NotifyChannel :=
  { trigger, bytes := 0, armed := decide (trigger = .oneShot), draining := 0 }

/-- A byte arrives in the pipe.  Data that arrives after the pipe was drained to `EAGAIN` is a
    new edge; a one-shot registration does not notice. -/
def write (s : NotifyChannel) (edge : Bool) : NotifyChannel :=
  let drained := decide (s.bytes = 0 ∧ s.draining = 0)
  { s with bytes := s.bytes + 1
           armed := s.armed || (decide (s.trigger = .edge) && (drained || edge)) }

def step (s : NotifyChannel) : NotifyAction → Option NotifyChannel
  | .notify hasIdle edge => some (if hasIdle then s.write edge else s)
  | .epollWait =>
    if s.armed ∧ 0 < s.bytes then
      -- the edge is consumed, or the one-shot registration disabled
      some { s with armed := false, draining := s.draining + 1 }
    else none
  | .readByte =>
    if 0 < s.draining ∧ 0 < s.bytes then some { s with bytes := s.bytes - 1 } else none
  | .readAgain =>
    if 0 < s.draining ∧ s.bytes = 0 then some { s with draining := s.draining - 1 } else none

/-- A byte that was written after the last drain. -/
def Waiting (s : NotifyChannel) : Prop := 0 < s.bytes ∧ s.draining = 0

instance (s : NotifyChannel) : Decidable s.Waiting := inferInstanceAs (Decidable (_ ∧ _))

/-- The next `epoll_wait` reports a byte that was written after the last drain. -/
def NextReports (s : NotifyChannel) : Prop :=
  s.Waiting → ∃ t, step s .epollWait = some t

/-- Some later `epoll_wait`, after any more writes and rounds, reports a byte that was
    written after the last drain. -/
def LaterReports (s : NotifyChannel) : Prop :=
  s.Waiting → ∃ as t u, runFrom step s as = some t ∧ step t .epollWait = some u

/-- The condition on a `notify()` that writes: the registration is edge-triggered, or has not
    been used up by a report, or the round that it was reported to is still draining. -/
def WriteHeard (s : NotifyChannel) : NotifyAction → Prop
  | .notify true _ => s.trigger = .edge ∨ s.armed = true ∨ 0 < s.draining
  | _ => True

instance (s : NotifyChannel) : (a : NotifyAction) → Decidable (s.WriteHeard a)
  | .notify true _ => inferInstanceAs (Decidable (_ ∨ _ ∨ _))
  | .notify false _ | .epollWait | .readByte | .readAgain => .isTrue trivial

variable {s s' : NotifyChannel} {a : NotifyAction}

/-- `epoll_wait` reports the pipe when it is armed and not empty. -/
theorem epollWait_enabled : (∃ t, step s .epollWait = some t) ↔ s.armed = true ∧ 0 < s.bytes := by
  simp [step]

/-- The next call reports a waiting byte when the pipe is armed. -/
theorem nextReports_iff : s.NextReports ↔ (s.Waiting → s.armed = true) := by
  unfold NextReports
  rw [epollWait_enabled]
  exact ⟨fun h hw => (h hw).1, fun h hw => ⟨h hw, hw.1⟩⟩

/-! ### The channel along a run -/

/-- An edge-triggered registration of a pipe that is not empty has an edge to report, or a
    fiber that drains it. -/
def EdgeKept (s : NotifyChannel) : Prop :=
  s.trigger = .edge → 0 < s.bytes → s.armed = true ∨ 0 < s.draining

/-- Nothing has been written at first. -/
theorem edgeKept_new (trigger : Trigger) : (new trigger).EdgeKept := by
  intro _ hbytes
  exact absurd hbytes (Nat.lt_irrefl 0)

/-- The kind of registration does not change. -/
theorem step_trigger (h : step s a = some s') : s'.trigger = s.trigger := by
  cases a <;> simp only [step, write, Option.ite_none_right_eq_some, Option.some.injEq] at h
  case notify hasIdle edge => subst h; split <;> rfl
  all_goals obtain ⟨-, rfl⟩ := h; rfl

/-- What one step does to the invariant and to the next report. -/
theorem step_edgeKept (hs : s.EdgeKept) (h : step s a = some s') : s'.EdgeKept := by
  intro htr hbytes
  rw [step_trigger h] at htr
  have hkept := hs htr
  cases a <;> simp only [step, Option.ite_none_right_eq_some, Option.some.injEq] at h
  case notify hasIdle edge =>
    subst h
    -- without an idle worker nothing is written
    cases hasIdle
    · exact hkept hbytes
    · by_cases hb : s.bytes = 0
      · by_cases hd : s.draining = 0
        · exact Or.inl (by simp [write, htr, hb, hd])
        · exact Or.inr (Nat.pos_of_ne_zero hd)
      · refine (hkept (Nat.pos_of_ne_zero hb)).imp (fun ha => ?_) id
        simp [write, ha]
  case epollWait =>
    obtain ⟨-, rfl⟩ := h
    exact Or.inr (Nat.succ_pos _)
  case readByte =>
    obtain ⟨hd, rfl⟩ := h
    exact Or.inr hd.1
  -- the pipe is empty
  case readAgain =>
    obtain ⟨hd, rfl⟩ := h
    exact absurd hd.2 (Nat.pos_iff_ne_zero.mp hbytes)

/-- A step keeps the next report exactly if it meets the condition. -/
theorem step_nextReports_iff (hs : s.EdgeKept) (h : step s a = some s') :
    s'.NextReports ↔ s.NextReports ∧ s.WriteHeard a := by
  simp only [nextReports_iff, Waiting]
  cases a <;> simp only [step, Option.ite_none_right_eq_some, Option.some.injEq] at h
  case notify hasIdle edge =>
    subst h
    -- a `notify()` that writes nothing changes nothing
    cases hasIdle
    · simp [WriteHeard]
    · by_cases htr : s.trigger = .edge
      · -- an edge is not lost, before the write or after it
        have hbefore := hs htr
        have hafter := step_edgeKept hs (a := .notify true edge) rfl htr
        refine iff_of_true (fun hw => (hafter hw.1).resolve_right ?_)
          ⟨fun hw => (hbefore hw.1).resolve_right ?_, Or.inl htr⟩
        · exact Nat.not_lt.mpr (Nat.le_of_eq hw.2)
        · exact Nat.not_lt.mpr (Nat.le_of_eq hw.2)
      · simp only [write, WriteHeard, htr, decide_false, Bool.false_and, Bool.or_false, false_or]
        rw [← Nat.ne_zero_iff_zero_lt (n := s.draining)]
        grind
  case epollWait =>
    obtain ⟨hd, rfl⟩ := h
    simp [WriteHeard, hd.1]
  case readByte =>
    obtain ⟨hd, rfl⟩ := h
    simp [WriteHeard, Nat.pos_iff_ne_zero.mp hd.1]
  case readAgain =>
    obtain ⟨hd, rfl⟩ := h
    simp [WriteHeard, hd.2]

/-- A one-shot registration that has been used up reports nothing any more. -/
theorem epollWait_of_usedUp {as : List NotifyAction} (htr : s.trigger = .oneShot)
    (harm : s.armed = false) (hrun : runFrom step s as = some s') :
    step s' .epollWait = none := by
  have hused : s'.trigger = .oneShot ∧ s'.armed = false := by
    refine run_invariant_of_step (I := fun s => s.trigger = .oneShot ∧ s.armed = false) ?_
      ⟨htr, harm⟩ hrun
    rintro t a t' ⟨ht, hta⟩ h
    refine ⟨(step_trigger h).trans ht, ?_⟩
    cases a <;> simp only [step, Option.ite_none_right_eq_some, Option.some.injEq] at h
    case notify hasIdle edge => subst h; cases hasIdle <;> simp [write, ht, hta]
    all_goals obtain ⟨-, rfl⟩ := h; first | exact hta | rfl
  simp [step, hused.2]

/-- A later call reports nothing that the next one does not. -/
theorem laterReports_iff (hs : s.EdgeKept) : s.LaterReports ↔ s.NextReports := by
  constructor
  · intro hlater hw
    obtain ⟨as, t, u, hrun, hreport⟩ := hlater hw
    rw [epollWait_enabled]
    refine ⟨?_, hw.1⟩
    cases htr : s.trigger with
    | edge => exact (hs htr hw.1).resolve_right (by simp [hw.2])
    -- a one-shot channel that has been used up reports no more
    | oneShot =>
      by_contra harm
      rw [epollWait_of_usedUp htr (Bool.eq_false_iff.mpr harm) hrun] at hreport
      cases hreport
  · intro hnext hw
    obtain ⟨t, ht⟩ := hnext hw
    exact ⟨[], s, t, rfl, ht⟩

/-- **The channel stays armed.** After any interleaving of writes and of rounds that report
    and drain the pipe, in either build, a byte written after the last drain is reported by
    the next `epoll_wait`, and by some later one, exactly if every `notify()` that wrote did
    so on an edge-triggered registration, on one that no report had used up, or while the
    fiber it was reported to was still draining. -/
theorem stays_armed_iff (trigger : Trigger) (as : List NotifyAction) (s : NotifyChannel)
    (hrun : runFrom step (new trigger) as = some s) :
    (s.NextReports ↔ Along step WriteHeard (new trigger) as) ∧
    (s.LaterReports ↔ Along step WriteHeard (new trigger) as) := by
  have hkept := run_invariant_of_step (fun _ _ _ => step_edgeKept) (edgeKept_new trigger) hrun
  have hempty : (new trigger).NextReports := fun hw => absurd hw.1 (Nat.lt_irrefl 0)
  have hiff := run_iff_along_of_inv (fun _ _ _ => step_edgeKept)
    (fun _ _ _ => step_nextReports_iff) (edgeKept_new trigger) hrun
  rw [and_iff_right hempty] at hiff
  exact ⟨hiff, (laterReports_iff hkept).trans hiff⟩

/-- Two notifications, the first one reported and drained before the second. -/
def twoNotifications : List NotifyAction :=
  [.notify true false, .epollWait, .readByte, .readAgain, .notify true false]

/-- The Linux build reports the second notification too. -/
theorem stays_armed_iff_edge_twice :
    ∃ s, runFrom step (new .edge) twoNotifications = some s ∧ s.Waiting ∧ s.NextReports := by
  have hrun : runFrom step (new .edge) twoNotifications = some ⟨.edge, 1, true, 0⟩ := by decide
  have hheard : Along step WriteHeard (new .edge) twoNotifications := by decide
  exact ⟨_, hrun, by decide, (stays_armed_iff _ _ _ hrun).1.mpr hheard⟩

/-- The Windows build: once the pipe was reported and drained, a byte written after that
    stays in it and no `epoll_wait` will ever report it. -/
theorem oneShot_not_rearmed :
    ∃ s, runFrom step (new .oneShot) twoNotifications = some s ∧ s.Waiting ∧ ¬ s.LaterReports := by
  have hrun : runFrom step (new .oneShot) twoNotifications = some ⟨.oneShot, 1, false, 0⟩ := by
    decide
  refine ⟨_, hrun, by decide, fun hlater => ?_⟩
  obtain ⟨as, t, u, hmore, hreport⟩ := hlater (by decide)
  rw [epollWait_of_usedUp (by decide) (by decide) hmore] at hreport
  cases hreport

end NotifyChannel

end LoNetfw.Scheduler
