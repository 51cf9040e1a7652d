import LoNetfw.Basis.StepSystem
import LoNetfw.Log.LockDiscipline

namespace LoNetfw.Log

open Basis Util
open Shared (levelValue)

/-!
# `FileLogAppender` — a log file that other processes rotate

`log` reads the clock, opens the file again when its second is not `m_last_time`, and writes its line;
only `reopen` and the write are under the lock, so that several threads may be anywhere in between.
Other processes may rename or remove the file at any time: the stream keeps the file it has opened.

* `FileRun.reopen` — the stream as the standard library has it: a stream that has failed is not
  closed, and a file that is open is not opened again;
* `FileRun.step` — the accesses of the threads, the clock and the other processes;
* `rotation_noticed` — no call that has read the clock after a second writes to a file that was
  renamed in it or before;
* `failed_write_silences` — after one failed insertion the appender never writes again.
-/

/-- A line in a file, with what the call that wrote it has read from the clock. -/
structure Entry where
  now : ℕ
  line : Text
  deriving DecidableEq, Repr

/-- Where a thread is in `FileLogAppender::log`. -/
inductive LogPc
  | idle
  /-- `time(0)`. -/
  | readClock (line : Text)
  /-- The test of `m_last_time`. -/
  | compare (now : ℕ) (line : Text)
  | reopen (now : ℕ) (line : Text)
  /-- The assignment to `m_last_time`. -/
  | assign (now : ℕ) (line : Text)
  /-- `m_file << …`. -/
  | write (now : ℕ) (line : Text)
  deriving DecidableEq, Repr

inductive FileAction
  | tick
  /-- Another process renames or removes the file, and may create a new one. -/
  | rename (creates : Bool)
  /-- A call of `log`, by a thread that is in none. -/
  | log (i : ℕ) (level : Level) (line : Text)
  /-- The next access of a thread: whether the file can be opened, and how many bytes of the line an
      insertion that fails has stored. -/
  | step (i : ℕ) (opens : Bool) (failsAfter : Option ℕ)
  deriving DecidableEq, Repr

structure FileRun where
  /-- `time(0)`. -/
  now : ℕ
  /-- The file that `m_filename` names. -/
  path : Option ℕ
  files : ℕ → List Entry
  /-- The second in which a file lost its name. -/
  gone : ℕ → Option ℕ
  created : ℕ
  level : Level
  /-- The file that `m_file` has open. -/
  file : Option ℕ
  /-- `failbit` or `badbit` of `m_file`. -/
  failed : Bool
  lastTime : ℕ
  threads : ℕ → LogPc

namespace FileRun

/-- `m_file.open(m_filename, std::ios::app)`. -/
def openFile (s : FileRun) (opens : Bool) : FileRun :=
  match s.file, opens, s.path with
  | none, true, some k => { s with file := some k, failed := false }
  | none, true, none =>
    { s with
      path := some s.created
      created := s.created + 1
      file := some s.created
      failed := false }
  | some _, _, _ | none, false, _ => { s with failed := true }

/-- `reopen()`. -/
def reopen (s : FileRun) (opens : Bool) : FileRun :=
  if s.failed then s.openFile opens else { s with file := none }.openFile opens

/-- The appender as it is constructed; the file may be there already. -/
def new (level : Level) (now : ℕ) (present opens : Bool) : FileRun :=
  reopen
    { now
      path := if present then some 0 else none
      files := fun _ => []
      gone := fun _ => none
      created := if present then 1 else 0
      level
      file := none
      failed := false
      lastTime := 0
      threads := fun _ => .idle }
    opens

def setThread (s : FileRun) (i : ℕ) (pc : LogPc) : FileRun :=
  { s with threads := Function.update s.threads i pc }

/-- `m_file << line`. -/
def insert (s : FileRun) (now : ℕ) (line : Text) (failsAfter : Option ℕ) : FileRun :=
  match s.file with
  | none => s
  | some k =>
    if s.failed then s
    else
      match failsAfter with
      | none => { s with files := Function.update s.files k (s.files k ++ [⟨now, line⟩]) }
      | some n =>
        { s with
          files := Function.update s.files k (s.files k ++ [⟨now, line.take n⟩])
          failed := true }

/-- The next access of the thread `i`. -/
def threadStep (s : FileRun) (i : ℕ) (opens : Bool) (failsAfter : Option ℕ) : Option FileRun :=
  match s.threads i with
  | .idle => none
  | .readClock line => some (s.setThread i (.compare s.now line))
  | .compare now line =>
    some (s.setThread i (if now = s.lastTime then .write now line else .reopen now line))
  | .reopen now line => some ((s.reopen opens).setThread i (.assign now line))
  | .assign now line => some ({ s with lastTime := now }.setThread i (.write now line))
  | .write now line => some ((s.insert now line failsAfter).setThread i .idle)

/-- The path comes to name another file, or none. -/
def rename (s : FileRun) (creates : Bool) : FileRun :=
  { s with
    gone := match s.path with
      | none => s.gone
      | some k => Function.update s.gone k (some s.now)
    path := if creates then some s.created else none
    created := if creates then s.created + 1 else s.created }

def step (s : FileRun) : FileAction → Option FileRun
  | .tick => some { s with now := s.now + 1 }
  | .rename creates => some (s.rename creates)
  | .log i level line =>
    if s.threads i ≠ .idle then none
    else if levelValue level < levelValue s.level then some s
    else some (s.setThread i (.readClock line))
  | .step i opens failsAfter => s.threadStep i opens failsAfter

variable {s s' : FileRun} {a : FileAction} {i k : ℕ}

/-! ### Rotation -/

/-- What a thread relies on, when the last `open` was in the second `t`. -/
def PcOk (s : FileRun) (t : ℕ) : LogPc → Prop
  | .idle | .readClock _ => True
  | .compare now _ | .reopen now _ => now ≤ s.now
  | .assign now _ | .write now _ => now ≤ t

/-- The last `open` was in the second `t`: a stream that works has a file that had its name then. -/
structure OpenedAt (s : FileRun) (t : ℕ) : Prop where
  le_now : t ≤ s.now
  lastTime : s.lastTime ≤ t
  threads : ∀ i, s.PcOk t (s.threads i)
  named : ∀ k, s.path = some k → k < s.created ∧ s.gone k = none
  opened : s.failed = false → ∀ k, s.file = some k →
    k < s.created ∧ ∀ g, s.gone k = some g → t ≤ g
  unborn : ∀ k, s.created ≤ k → s.gone k = none ∧ s.files k = []
  entries : ∀ k, ∀ e ∈ s.files k, e.now ≤ s.now ∧ ∀ g, s.gone k = some g → e.now ≤ g

/-- An `open` that works is of the file that has the name. -/
theorem OpenedAt.openFile {t : ℕ} (h : s.OpenedAt t) (opens : Bool) :
    (s.openFile opens).OpenedAt s.now := by
  -- what the threads have read is not later than now
  have hthreads : ∀ i, s.PcOk s.now (s.threads i) := by
    intro i
    have hpc := h.threads i
    cases hi : s.threads i <;> rw [hi] at hpc
    case assign | write => exact Nat.le_trans hpc h.le_now
    all_goals exact hpc
  have hlast := Nat.le_trans h.lastTime h.le_now
  unfold FileRun.openFile
  split
  · next k hfile hpath =>
    -- the path leads to a file, which is opened,
    obtain ⟨hlt, hgone⟩ := h.named k hpath
    refine ⟨Nat.le_refl _, hlast, hthreads, h.named, ?_, h.unborn, h.entries⟩
    rintro - j hj
    obtain rfl := Option.some.inj hj
    exact ⟨hlt, fun g hg => by simp [hgone] at hg⟩
  · next hfile hpath =>
    -- or to none, and one is made
    obtain ⟨hgone, hnil⟩ := h.unborn s.created (Nat.le_refl _)
    refine ⟨Nat.le_refl _, hlast, hthreads, ?_, ?_, ?_, h.entries⟩
    · intro j hj
      obtain rfl := Option.some.inj hj
      exact ⟨Nat.lt_succ_self _, hgone⟩
    · rintro - j hj
      obtain rfl := Option.some.inj hj
      exact ⟨Nat.lt_succ_self _, fun g hg => by simp [hgone] at hg⟩
    · exact fun j hj => h.unborn j (Nat.le_of_succ_le hj)
  all_goals
    exact ⟨Nat.le_refl _, hlast, hthreads, h.named, fun hf => absurd hf (by simp), h.unborn, h.entries⟩

/-- `reopen()` opens the file now. -/
theorem OpenedAt.reopen {t : ℕ} (h : s.OpenedAt t) (opens : Bool) :
    (s.reopen opens).OpenedAt s.now := by
  unfold FileRun.reopen
  split
  · exact h.openFile opens
  · refine OpenedAt.openFile (s := { s with file := none }) (t := t) ?_ opens
    exact ⟨h.le_now, h.lastTime, h.threads, h.named, fun _ k hk => by simp at hk, h.unborn, h.entries⟩

/-- The constructor opens it. -/
theorem opened_new (level : Level) (now : ℕ) (present opens : Bool) :
    (new level now present opens).OpenedAt now := by
  unfold new
  refine OpenedAt.reopen (t := 0) ?_ opens
  refine ⟨Nat.zero_le _, Nat.le_refl _, fun i => trivial, ?_, ?_, ?_, ?_⟩
  · intro k hk
    cases present <;> simp at hk
    subst hk
    exact ⟨by simp, rfl⟩
  · exact fun _ k hk => by simp at hk
  · exact fun k _ => ⟨rfl, rfl⟩
  · exact fun k e he => by simp at he

/-- A thread moves on to where it may be. -/
theorem OpenedAt.setThread {t : ℕ} (h : s.OpenedAt t) {pc : LogPc} (hpc : s.PcOk t pc) :
    (s.setThread i pc).OpenedAt t := by
  refine ⟨h.le_now, h.lastTime, fun j => ?_, h.named, h.opened, h.unborn, h.entries⟩
  by_cases hj : j = i
  · subst hj
    simpa [FileRun.setThread, PcOk] using hpc
  · simpa [FileRun.setThread, Function.update_of_ne hj, PcOk] using h.threads j

/-- A line that goes to a file from a call that has read the clock no later than the last `open`. -/
theorem OpenedAt.append {t now : ℕ} (h : s.OpenedAt t) (hnow : now ≤ t) (hfile : s.file = some k)
    (hgood : s.failed = false) (line : Text) (failed : Bool) :
    OpenedAt { s with
      files := Function.update s.files k (s.files k ++ [⟨now, line⟩])
      failed := failed } t := by
  obtain ⟨hlt, hgone⟩ := h.opened hgood k hfile
  refine ⟨h.le_now, h.lastTime, h.threads, h.named, fun _ => h.opened hgood, ?_, ?_⟩
  · intro j hj
    have hjk : j ≠ k := Nat.ne_of_gt (Nat.lt_of_lt_of_le hlt hj)
    simp only [Function.update_of_ne hjk]
    exact h.unborn j hj
  · intro j e he
    by_cases hjk : j = k
    · subst hjk
      simp only [Function.update_self, List.mem_append, List.mem_singleton] at he
      -- the new line carries a time before the file could be gone
      rcases he with he | rfl
      · exact h.entries j e he
      · exact ⟨Nat.le_trans hnow h.le_now, fun g hg => Nat.le_trans hnow (hgone g hg)⟩
    · simp only [Function.update_of_ne hjk] at he
      exact h.entries j e he

/-- An insertion leaves the time of the opening. -/
theorem OpenedAt.insert {t now : ℕ} (h : s.OpenedAt t) (hnow : now ≤ t) (line : Text)
    (failsAfter : Option ℕ) : (s.insert now line failsAfter).OpenedAt t := by
  unfold FileRun.insert
  split
  · exact h
  · next k hfile =>
    split
    · exact h
    · next hgood =>
      have hgood : s.failed = false := Bool.eq_false_of_not_eq_true hgood
      split
      · exact h.append hnow hfile hgood line s.failed
      · exact h.append hnow hfile hgood _ true

/-- A rename by another program keeps the moment of opening. -/
theorem OpenedAt.rename {t : ℕ} (h : s.OpenedAt t) (creates : Bool) : (s.rename creates).OpenedAt t := by
  -- only the file of the path goes, and it goes now
  have hgone : ∀ k, (s.rename creates).gone k = s.gone k ∨
      s.path = some k ∧ (s.rename creates).gone k = some s.now := by
    intro k
    unfold FileRun.rename
    cases hpath : s.path with
    | none => exact .inl rfl
    | some j =>
      by_cases hkj : k = j
      · exact .inr ⟨by rw [hkj], by simp [hkj]⟩
      · exact .inl (by simp [Function.update_of_ne hkj])
  have hcreated : s.created ≤ (s.rename creates).created := by
    unfold FileRun.rename
    cases creates <;> simp
  refine ⟨h.le_now, h.lastTime, h.threads, ?_, ?_, ?_, ?_⟩
  · intro k hk
    cases creates with
    | false => simp [FileRun.rename] at hk
    | true =>
      obtain rfl := Option.some.inj hk
      refine ⟨Nat.lt_succ_self _, ?_⟩
      rcases hgone s.created with hsame | ⟨hpath, -⟩
      · rw [hsame]
        exact (h.unborn _ (Nat.le_refl _)).1
      · exact absurd (h.named _ hpath).1 (Nat.lt_irrefl _)
  · intro hgood k hk
    obtain ⟨hlt, hle⟩ := h.opened hgood k hk
    refine ⟨Nat.lt_of_lt_of_le hlt hcreated, fun g hg => ?_⟩
    rcases hgone k with hsame | ⟨-, hnow⟩
    · exact hle g (hsame ▸ hg)
    -- the file that is open was open when it went
    · rw [hnow] at hg
      obtain rfl := Option.some.inj hg
      exact h.le_now
  · intro k hk
    obtain ⟨hnone, hnil⟩ := h.unborn k (Nat.le_trans hcreated hk)
    refine ⟨?_, hnil⟩
    rcases hgone k with hsame | ⟨hpath, -⟩
    · rw [hsame]
      exact hnone
    · have := (h.named k hpath).1
      omega
  · intro k e he
    obtain ⟨hnow, hle⟩ := h.entries k e he
    refine ⟨hnow, fun g hg => ?_⟩
    rcases hgone k with hsame | ⟨-, hnow'⟩
    · exact hle g (hsame ▸ hg)
    · rw [hnow'] at hg
      obtain rfl := Option.some.inj hg
      exact hnow

/-- The next access of a thread. -/
theorem OpenedAt.threadStep {t : ℕ} (h : s.OpenedAt t) {opens : Bool} {failsAfter : Option ℕ}
    (hstep : s.threadStep i opens failsAfter = some s') : ∃ t', s'.OpenedAt t' := by
  have hpc := h.threads i
  unfold FileRun.threadStep at hstep
  cases hi : s.threads i <;> simp only [hi, Option.some.injEq, reduceCtorEq] at hstep hpc
  case readClock line =>
    subst hstep
    exact ⟨t, h.setThread (Nat.le_refl _)⟩
  case compare now line =>
    subst hstep
    refine ⟨t, h.setThread ?_⟩
    split
    -- the second of `m_last_time` had begun before the last `open`
    · next hsame => exact hsame ▸ h.lastTime
    · exact hpc
  case reopen now line =>
    subst hstep
    refine ⟨s.now, OpenedAt.setThread (h.reopen opens) ?_⟩
    exact hpc
  case assign now line =>
    subst hstep
    have hassigned : { s with lastTime := now }.OpenedAt t :=
      ⟨h.le_now, hpc, h.threads, h.named, h.opened, h.unborn, h.entries⟩
    exact ⟨t, hassigned.setThread hpc⟩
  case write now line =>
    subst hstep
    exact ⟨t, (h.insert hpc line failsAfter).setThread trivial⟩

/-- **Step lemma.** -/
theorem opened_step (h : ∃ t, s.OpenedAt t) (hstep : step s a = some s') : ∃ t, s'.OpenedAt t := by
  obtain ⟨t, h⟩ := h
  cases a with
  -- time goes on, and what was read is as old as before
  | tick =>
    cases hstep
    refine ⟨t, Nat.le_succ_of_le h.le_now, h.lastTime, fun i => ?_, h.named, h.opened, h.unborn, ?_⟩
    · have hpc := h.threads i
      dsimp only
      cases hi : s.threads i <;> rw [hi] at hpc
      case compare | reopen => exact Nat.le_succ_of_le hpc
      all_goals exact hpc
    · intro k e he
      obtain ⟨hnow, hle⟩ := h.entries k e he
      exact ⟨Nat.le_succ_of_le hnow, hle⟩
  | rename creates =>
    cases hstep
    exact ⟨t, h.rename creates⟩
  | log i level line =>
    simp only [step] at hstep
    split at hstep
    · cases hstep
    · split at hstep
      · cases hstep
        exact ⟨t, h⟩
      · cases hstep
        exact ⟨t, h.setThread trivial⟩
  | step i opens failsAfter => exact h.threadStep hstep

/-- **Rotation.** For any number of threads in any interleaving of their accesses, with files that are
    renamed or removed at any time, and with any failures of `open` and of insertions: a call that has
    read the clock after a second writes to no file that lost its name in that second or before. -/
theorem rotation_noticed (level : Level) (now : ℕ) (present opens : Bool) (as : List FileAction)
    (s : FileRun) (hrun : runFrom step (new level now present opens) as = some s) (k g : ℕ)
    (hgone : s.gone k = some g) (e : Entry) (he : e ∈ s.files k) : e.now ≤ g := by
  obtain ⟨t, h⟩ : ∃ t, s.OpenedAt t :=
    run_invariant_of_step (I := fun s => ∃ t, s.OpenedAt t) (fun _ _ _ h ht => opened_step h ht)
      ⟨now, opened_new level now present opens⟩ hrun
  exact (h.entries k e he).2 g hgone

/-- One thread: the first line goes to the file that is there, the second one to the file after it. -/
def rotated : List FileAction :=
  .flatten [[.log 0 .info [97]], .replicate 5 (.step 0 true none), [.rename false, .tick],
    [.log 0 .info [98]], .replicate 5 (.step 0 true none)]

/-- A file that is renamed in one second gets nothing of the next. -/
theorem rotation_noticed_next_second : ∃ s, runFrom step (new .debug 7 true true) rotated = some s ∧
    s.files 0 = [⟨7, [97]⟩] ∧ s.files 1 = [⟨8, [98]⟩] ∧ ∀ e ∈ s.files 0, e.now ≤ 7 := by
  obtain ⟨s, hrun, hs⟩ := (Option.any_eq_true (fun s : FileRun => decide (s.gone 0 = some 7 ∧
      s.files 0 = [⟨7, [97]⟩] ∧ s.files 1 = [⟨8, [98]⟩]))
    (runFrom step (new .debug 7 true true) rotated)).mp (by decide)
  obtain ⟨hgone, hfirst, hsecond⟩ := of_decide_eq_true hs
  exact ⟨s, hrun, hfirst, hsecond, rotation_noticed .debug 7 true true rotated s hrun 0 7 hgone⟩

/-! ### A failed insertion -/

/-- `m_file` has failed while its file is open. -/
structure Stuck (s : FileRun) (files : ℕ → List Entry) : Prop where
  failed : s.failed = true
  opened : s.file.isSome
  same : s.files = files

variable {files : ℕ → List Entry}

/-- `reopen` neither closes the file nor opens one. -/
theorem Stuck.reopen (h : s.Stuck files) (opens : Bool) : (s.reopen opens).Stuck files := by
  obtain ⟨k, hk⟩ := Option.isSome_iff_exists.mp h.opened
  unfold FileRun.reopen
  rw [if_pos h.failed]
  unfold FileRun.openFile
  split
  · next hnone _ => simp [hnone] at hk
  · next hnone _ => simp [hnone] at hk
  · exact ⟨rfl, h.opened, h.same⟩
  · exact ⟨rfl, h.opened, h.same⟩

/-- A stream that has failed takes no line. -/
theorem Stuck.insert (h : s.Stuck files) (now : ℕ) (line : Text) (failsAfter : Option ℕ) :
    (s.insert now line failsAfter).Stuck files := by
  unfold FileRun.insert
  split
  · exact h
  · rw [if_pos h.failed]
    exact h

/-- No step of a thread mends the stream, the call of `reopen` included. -/
theorem Stuck.step (h : s.Stuck files) (hstep : FileRun.step s a = some s') : s'.Stuck files := by
  -- the place of a thread is no part of the files
  have hthread : ∀ {s : FileRun} (i : ℕ) (pc : LogPc), s.Stuck files → (s.setThread i pc).Stuck files :=
    fun i pc h => ⟨h.failed, h.opened, h.same⟩
  cases a with
  | tick | rename creates =>
    cases hstep
    exact ⟨h.failed, h.opened, h.same⟩
  | log i level line =>
    simp only [FileRun.step] at hstep
    split at hstep
    · cases hstep
    · split at hstep
      · cases hstep
        exact h
      · cases hstep
        exact hthread i _ h
  | step i opens failsAfter =>
    simp only [FileRun.step, FileRun.threadStep] at hstep
    cases hi : s.threads i <;> simp only [hi, Option.some.injEq, reduceCtorEq] at hstep
    case readClock | compare =>
      subst hstep
      exact hthread i _ h
    -- `open` fails on a stream that is open, and `failbit` stays
    case reopen =>
      subst hstep
      exact hthread i _ (h.reopen opens)
    case assign now line =>
      subst hstep
      exact hthread i _ ⟨h.failed, h.opened, h.same⟩
    case write =>
      subst hstep
      exact hthread i _ (h.insert _ _ failsAfter)

/-- **A failed insertion silences the appender.** After an insertion that has failed, in every run
    from there, with every `open` and every insertion of which the file system would be capable: no
    line is ever written again, although the file is to be opened again every second. -/
theorem failed_write_silences (s s' s'' : FileRun) (i k n : ℕ) (now : ℕ) (line : Text) (opens : Bool)
    (as : List FileAction) (hpc : s.threads i = .write now line) (hfile : s.file = some k)
    (hgood : s.failed = false) (hstep : step s (.step i opens (some n)) = some s')
    (hrun : runFrom step s' as = some s'') :
    s''.files = Function.update s.files k (s.files k ++ [⟨now, line.take n⟩]) ∧ s''.failed = true := by
  have hs' : s' = (s.insert now line (some n)).setThread i .idle := by
    simp only [step, threadStep, hpc, Option.some.injEq] at hstep
    exact hstep.symm
  -- the write puts `n` bytes into the file and sets the stream's bit
  have hinsert : s.insert now line (some n) =
      { s with
        files := Function.update s.files k (s.files k ++ [⟨now, line.take n⟩])
        failed := true } := by
    unfold FileRun.insert
    simp only [hfile, hgood, Bool.false_eq_true, if_false]
  have hstuck : s'.Stuck (Function.update s.files k (s.files k ++ [⟨now, line.take n⟩])) := by
    rw [hs', hinsert]
    exact ⟨rfl, by simp [FileRun.setThread, hfile], rfl⟩
  have hstuck' := run_invariant_of_step
    (I := fun t => t.Stuck (Function.update s.files k (s.files k ++ [⟨now, line.take n⟩])))
    (fun _ _ _ h ht => h.step ht) hstuck hrun
  exact ⟨hstuck'.same, hstuck'.failed⟩

/-- The file system is full for the second byte of a line, and has room again a second later. -/
theorem failed_write_silences_full : ∃ s s' s'',
    runFrom step (new .debug 7 true true)
      (.log 0 .info [97, 98] :: .replicate 4 (.step 0 true none)) = some s ∧
    step s (.step 0 true (some 1)) = some s' ∧
    runFrom step s' (.tick :: .log 0 .info [99] :: .replicate 5 (.step 0 true none)) = some s'' ∧
    s''.files 0 = [⟨7, [97]⟩] := by
  -- the state behind the first run is one that the theorem speaks of
  obtain ⟨s, hrun, hs⟩ := (Option.any_eq_true (fun s : FileRun =>
      decide (s.threads 0 = .write 7 [97, 98] ∧ s.file = some 0 ∧ s.failed = false ∧ s.files 0 = []) &&
      ((step s (.step 0 true (some 1))).bind fun t =>
        runFrom step t (.tick :: .log 0 .info [99] :: .replicate 5 (.step 0 true none))).isSome)
    (runFrom step (new .debug 7 true true)
      (.log 0 .info [97, 98] :: .replicate 4 (.step 0 true none)))).mp (by decide)
  obtain ⟨hs, hsome⟩ := Bool.and_eq_true_iff.mp hs
  obtain ⟨hpc, hfile, hgood, hnil⟩ := of_decide_eq_true hs
  obtain ⟨s'', hs''⟩ := Option.isSome_iff_exists.mp hsome
  obtain ⟨s', hstep, hrun'⟩ := Option.bind_eq_some_iff.mp hs''
  obtain ⟨hfiles, -⟩ := failed_write_silences s s' s'' 0 0 1 7 [97, 98] true _ hpc hfile hgood hstep
    hrun'
  refine ⟨s, s', s'', hrun, hstep, hrun', ?_⟩
  rw [hfiles, Function.update_self, hnil]
  rfl

end FileRun

end LoNetfw.Log
