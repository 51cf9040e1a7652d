import LoNetfw.Basis.StepSystem
import Mathlib.Logic.Function.Basic
import Mathlib.Data.Int.Notation

namespace LoNetfw.Scheduler

open Basis

/-!
# `Scheduler::start` — threads that are created under the lock

`start` creates the threads one after the other while it holds `m_mutex`, which all workers need in
`run`.  The constructor of `Thread` waits for a semaphore that the new thread notifies once it has
taken what it needs from the object, and before it runs the callback.

* `StartRun.step` — `start`, the threads with their workers, and other users of `m_mutex`;
* `Inv` — the threads so far are settled, and one may be on its way;
* `start_completes` — `start` is never stuck, no worker works before it is over, the ids are those
  of the threads, and no thread touches its object after the constructor is over.
-/

/-- Where a thread is, in `Thread::run` or in its callback `Scheduler::run`. -/
inductive ThreadPc
  /-- Not created. -/
  | absent
  /-- Before `thread->setId(…)` and the names. -/
  | setId
  /-- Before `cb.swap(thread->m_cb)`. -/
  | takeCb
  /-- Before `thread->m_semaphore.notify()`. -/
  | notify
  /-- In the callback. -/
  | callback
  /-- In a section of `m_mutex` in the callback. -/
  | locked
  deriving DecidableEq, Repr

/-- The thread has the object of the class yet to use. -/
def ThreadPc.Uses : ThreadPc → Prop
  | .setId | .takeCb | .notify => True
  | .absent | .callback | .locked => False

/-- How many steps a thread has made on its way to the semaphore. -/
def ThreadPc.past : ThreadPc → ℕ
  | .setId => 0
  | .takeCb => 1
  | .notify => 2
  | .absent | .callback | .locked => 3

/-- A `Thread`, and the id that the kernel gave to its thread. -/
structure ThreadObject where
  pc : ThreadPc
  tid : ℕ
  id : ℤ
  hasCb : Bool
  semaphore : ℕ
  deriving DecidableEq, Repr

/-- Who holds `m_mutex`. -/
inductive Holder
  | start
  | worker (i : ℕ)
  | other
  deriving DecidableEq, Repr

/-- Where `start` is, with the number of the thread in its loop. -/
inductive StartPc
  | begin
  /-- Before the constructor of the thread. -/
  | create (cnt : ℕ)
  /-- In `m_semaphore.wait()`. -/
  | wait (cnt : ℕ)
  /-- Before `m_threads_id.push_back(…)`. -/
  | push (cnt : ℕ)
  | done
  /-- The thread could not be created. -/
  | thrown (cnt : ℕ)
  deriving DecidableEq, Repr

inductive StartAction
  /-- `start` goes on; `tid` is the thread that `pthread_create` makes, if it does. -/
  | start (tid : Option ℕ)
  /-- `sem_wait` is interrupted. -/
  | interrupted
  | thread (i : ℕ)
  /-- Someone else takes and releases `m_mutex`. -/
  | lock
  | unlock
  deriving DecidableEq, Repr

/-- A step of `start`, of a thread, or of someone else who releases the lock. -/
def StartAction.Drives : StartAction → Prop
  | .start _ | .thread _ | .unlock => True
  | .interrupted | .lock => False

structure StartRun where
  /-- `m_threads_count`. -/
  count : ℕ
  threads : ℕ → ThreadObject
  /-- `m_threads_id`. -/
  threadsId : List ℤ
  mutex : Option Holder
  pc : StartPc

namespace StartRun

def setThread (s : StartRun) (i : ℕ) (t : ThreadObject) : StartRun :=
  { s with threads := Function.update s.threads i t }

/-- The next step of `start`, on a scheduler that is stopped. -/
def startStep (s : StartRun) (tid : Option ℕ) : Option StartRun :=
  match s.pc with
  | .begin =>
    if s.mutex = none then some { s with mutex := some .start, pc := .create 0 } else none
  | .create cnt =>
    if cnt < s.count then
      match tid with
      | some tid => some { s.setThread cnt ⟨.setId, tid, -1, true, 0⟩ with pc := .wait cnt }
      | none => some { s with mutex := none, pc := .thrown cnt }
    else some { s with mutex := none, pc := .done }
  | .wait cnt =>
    let t := s.threads cnt
    if 0 < t.semaphore then
      some { s.setThread cnt { t with semaphore := t.semaphore - 1 } with pc := .push cnt }
    else none
  | .push cnt =>
    some { s with threadsId := s.threadsId ++ [(s.threads cnt).id], pc := .create (cnt + 1) }
  | .done | .thrown _ => none

/-- The next step of a thread; the worker in its callback takes `m_mutex` again and again. -/
def threadStep (s : StartRun) (i : ℕ) : Option StartRun :=
  let t := s.threads i
  match t.pc with
  | .absent => none
  | .setId => some (s.setThread i { t with pc := .takeCb, id := t.tid })
  | .takeCb => some (s.setThread i { t with pc := .notify, hasCb := false })
  | .notify => some (s.setThread i { t with pc := .callback, semaphore := t.semaphore + 1 })
  | .callback =>
    if s.mutex = none then
      some { s.setThread i { t with pc := .locked } with mutex := some (.worker i) }
    else none
  | .locked => some { s.setThread i { t with pc := .callback } with mutex := none }

def step (s : StartRun) : StartAction → Option StartRun
  | .start tid => s.startStep tid
  | .interrupted =>
    match s.pc with
    | .wait _ => some s
    | .begin | .create _ | .push _ | .done | .thrown _ => none
  | .thread i => s.threadStep i
  | .lock => if s.mutex = none then some { s with mutex := some .other } else none
  | .unlock => if s.mutex = some .other then some { s with mutex := none } else none

/-- A stopped scheduler with `count` threads to create; the caller's thread may have its id in
    `m_threads_id`. -/
def new (count : ℕ) (ids : List ℤ) : StartRun where
  count := count
  threads _ := ⟨.absent, 0, -1, false, 0⟩
  threadsId := ids
  mutex := none
  pc := .begin

end StartRun

/-! ### Invariant -/

namespace ThreadObject

/-- The constructor is over. -/
structure Settled (t : ThreadObject) : Prop where
  pc : t.pc = .callback ∨ t.pc = .locked
  id : t.id = t.tid
  hasCb : t.hasCb = false
  semaphore : t.semaphore = 0

/-- The constructor waits. -/
def Starting (t : ThreadObject) : Prop :=
  match t.pc with
  | .setId => t.hasCb = true ∧ t.semaphore = 0
  | .takeCb => t.id = t.tid ∧ t.hasCb = true ∧ t.semaphore = 0
  | .notify => t.id = t.tid ∧ t.hasCb = false ∧ t.semaphore = 0
  | .callback => t.id = t.tid ∧ t.hasCb = false ∧ t.semaphore = 1
  | .absent | .locked => False

end ThreadObject

namespace StartPc

/-- `start` holds `m_mutex`. -/
def inside : StartPc → Bool
  | .create _ | .wait _ | .push _ => true
  | .begin | .done | .thrown _ => false

/-- The number of threads whose constructor is over. -/
def settled (count : ℕ) : StartPc → ℕ
  | .begin => 0
  | .create cnt | .wait cnt | .thrown cnt => cnt
  | .push cnt => cnt + 1
  | .done => count

/-- The number of threads that were created. -/
def created (count : ℕ) : StartPc → ℕ
  | .begin => 0
  | .create cnt | .thrown cnt => cnt
  | .wait cnt | .push cnt => cnt + 1
  | .done => count

/-- The number of ids that were added. -/
def pushed (count : ℕ) : StartPc → ℕ
  | .begin => 0
  | .create cnt | .wait cnt | .thrown cnt | .push cnt => cnt
  | .done => count

end StartPc

namespace StartRun

variable {s s' : StartRun} {a : StartAction} {ids : List ℤ}

structure Inv (ids : List ℤ) (s : StartRun) : Prop where
  bound : s.pc.created s.count ≤ s.count
  settled : ∀ i < s.pc.settled s.count, (s.threads i).Settled
  starting : ∀ cnt, s.pc = .wait cnt → (s.threads cnt).Starting
  absent : ∀ i, s.pc.created s.count ≤ i → (s.threads i).pc = .absent
  start : s.mutex = some .start ↔ s.pc.inside = true
  worker : ∀ i, s.mutex = some (.worker i) ↔ (s.threads i).pc = .locked
  threadsId : s.threadsId = ids ++
    (List.range (s.pc.pushed s.count)).map fun i => ((s.threads i).tid : ℤ)

/-- `start` has not begun. -/
theorem inv_new (count : ℕ) (ids : List ℤ) : (new count ids).Inv ids where
  bound := Nat.zero_le _
  settled _ hi := absurd hi (Nat.not_lt_zero _)
  starting _ h := absurd h (by simp [new])
  absent _ _ := rfl
  start := by simp [new, StartPc.inside]
  worker _ := by simp [new]
  threadsId := (List.append_nil ids).symm

/-- What a thread does to its object and to `m_mutex`. -/
structure ThreadMove (i : ℕ) (m m' : Option Holder) (t t' : ThreadObject) : Prop where
  tid : t'.tid = t.tid
  pc : t.pc ≠ .absent
  settled : t.Settled → t'.Settled
  /-- A worker cannot enter a section while the lock is held. -/
  starting : m ≠ none → t.Starting → t'.Starting
  mutex : m' = m ∧ t.pc ≠ .locked ∧ t'.pc ≠ .locked ∨
    m = none ∧ m' = some (.worker i) ∧ t.pc ≠ .locked ∧ t'.pc = .locked ∨
    t.pc = .locked ∧ m' = none ∧ t'.pc ≠ .locked

/-- The steps of a thread, by the place where it is: it changes its own object, and takes or
    releases the mutex. -/
theorem threadStep_cases {i : ℕ} (hstep : s.threadStep i = some s') :
    ∃ t', s' = { s.setThread i t' with mutex := s'.mutex } ∧
      ThreadMove i s.mutex s'.mutex (s.threads i) t' := by
  unfold threadStep at hstep
  dsimp only at hstep
  cases hpc : (s.threads i).pc <;> rw [hpc] at hstep
  case absent => exact absurd hstep (Option.some_ne_none s').symm
  -- the callback's first scheduling takes the lock that `start()` may hold
  case callback =>
    obtain ⟨hfree, hstep⟩ := Option.ite_none_right_eq_some.mp hstep
    obtain rfl := Option.some.inj hstep
    refine ⟨_, rfl, rfl, by simp [hpc], fun h => ⟨.inr rfl, h.id, h.hasCb, h.semaphore⟩,
      fun hheld => absurd hfree hheld, .inr (.inl ⟨hfree, rfl, by simp [hpc], rfl⟩)⟩
  -- and gives it back
  case locked =>
    obtain rfl := Option.some.inj hstep
    refine ⟨_, rfl, rfl, by simp [hpc], fun h => ⟨.inl rfl, h.id, h.hasCb, h.semaphore⟩,
      fun _ h => ?_, .inr (.inr ⟨hpc, rfl, by simp⟩)⟩
    simp [ThreadObject.Starting, hpc] at h
  -- the other steps are the thread's own business
  all_goals
    obtain rfl := Option.some.inj hstep
    refine ⟨_, rfl, rfl, by simp [hpc], fun h => ?_, fun _ h => ?_,
      .inl ⟨rfl, by simp [hpc], by simp⟩⟩
    · have hsettled := h.pc
      simp [hpc] at hsettled
    · simp only [ThreadObject.Starting, hpc] at h ⊢
      simp [h]

/-- The thread that moves is the one that is set. -/
theorem setThread_self (s : StartRun) (i : ℕ) (t : ThreadObject) :
    (s.setThread i t).threads i = t :=
  Function.update_self ..

/-- A step of a thread leaves the others alone. -/
theorem setThread_of_ne (s : StartRun) {i j : ℕ} (h : j ≠ i) (t : ThreadObject) :
    (s.setThread i t).threads j = s.threads j := Function.update_of_ne h _ _

/-- The ids of the threads depend on their objects only. -/
theorem map_tid_congr {threads threads' : ℕ → ThreadObject} {n : ℕ}
    (h : ∀ j < n, (threads' j).tid = (threads j).tid) :
    ((List.range n).map fun j => ((threads' j).tid : ℤ)) =
      (List.range n).map fun j => ((threads j).tid : ℤ) :=
  List.map_congr_left fun j hj => congrArg _ (h j (List.mem_range.mp hj))

/-- A thread goes on: it does nothing that `start` waits for but the semaphore of its own
    constructor. -/
theorem Inv.thread (h : s.Inv ids) {i : ℕ} (hstep : s.threadStep i = some s') : s'.Inv ids := by
  obtain ⟨t', hs', htid, hpc, hsettled, hstarting, hmutex⟩ := threadStep_cases hstep
  have hself : s'.threads i = t' := by rw [hs']; exact Function.update_self ..
  have hne : ∀ j, j ≠ i → s'.threads j = s.threads j := fun j hj => by
    rw [hs']; exact Function.update_of_ne hj _ _
  have hfields : s'.pc = s.pc ∧ s'.count = s.count ∧ s'.threadsId = s.threadsId := by
    rw [hs']; exact ⟨rfl, rfl, rfl⟩
  obtain ⟨hpc', hcount, hids⟩ := hfields
  refine ⟨?_, fun j hj => ?_, fun cnt hwait => ?_, fun j hj => ?_, ?_, fun j => ?_, ?_⟩
  · rw [hpc', hcount]
    exact h.bound
  · rw [hpc', hcount] at hj
    by_cases hji : j = i
    · rw [hji, hself]
      exact hsettled (hji ▸ h.settled j hj)
    · exact hne j hji ▸ h.settled j hj
  · rw [hpc'] at hwait
    by_cases hji : cnt = i
    · rw [hji, hself]
      -- `start` holds the lock while it waits
      have hheld : s.mutex = some .start := h.start.mpr (by rw [hwait]; rfl)
      exact hstarting (by rw [hheld]; exact Option.some_ne_none _) (hji ▸ h.starting cnt hwait)
    · exact hne cnt hji ▸ h.starting cnt hwait
  · rw [hpc', hcount] at hj
    by_cases hji : j = i
    · exact absurd (hji ▸ h.absent j hj) hpc
    · exact hne j hji ▸ h.absent j hj
  · rw [hpc', ← h.start]
    rcases hmutex with ⟨hsame, -⟩ | ⟨hfree, hheld, -⟩ | ⟨hlocked, hfree, -⟩
    · rw [hsame]
    · rw [hfree, hheld]
      simp
    · rw [(h.worker i).mpr hlocked, hfree]
      simp
  · by_cases hji : j = i
    · subst hji
      rw [hself]
      rcases hmutex with ⟨hsame, hpc, hpc'⟩ | ⟨-, hheld, -, hpc'⟩ | ⟨-, hfree, hpc'⟩
      · rw [hsame, h.worker]
        exact iff_of_false hpc hpc'
      · exact iff_of_true hheld hpc'
      · rw [hfree]
        exact iff_of_false (Option.some_ne_none _).symm hpc'
    · rw [hne j hji, ← h.worker]
      rcases hmutex with ⟨hsame, -⟩ | ⟨hfree, hheld, -⟩ | ⟨hlocked, hfree, -⟩
      · rw [hsame]
      · rw [hfree, hheld]
        simp [Ne.symm hji]
      · rw [(h.worker i).mpr hlocked, hfree]
        simp [Ne.symm hji]
  · rw [hids, h.threadsId, hpc', hcount]
    refine congrArg _ (map_tid_congr fun j _ => ?_).symm
    by_cases hji : j = i
    · rw [hji, hself, htid]
    · rw [hne j hji]

/-- While `start` holds the lock, no worker is in a section. -/
theorem Inv.not_locked (h : s.Inv ids) (hinside : s.pc.inside = true) (i : ℕ) :
    (s.threads i).pc ≠ .locked := by
  rw [ne_eq, ← h.worker, h.start.mpr hinside]
  simp

/-- A thread is created, and the constructor waits. -/
theorem Inv.create (h : s.Inv ids) {cnt : ℕ} (hpc : s.pc = .create cnt) (hlt : cnt < s.count)
    (tid : ℕ) :
    Inv ids { s.setThread cnt ⟨.setId, tid, -1, true, 0⟩ with pc := .wait cnt } := by
  -- the new thread is the one that is waited for; those before it are settled as before
  have habsent := h.absent
  have hsettled := h.settled
  have hids := h.threadsId
  rw [hpc] at habsent hsettled hids
  refine ⟨hlt, fun i hi => ?_, fun cnt' hwait => ?_, fun i hi => ?_, ?_, fun i => ?_, ?_⟩
  · exact setThread_of_ne s (Nat.ne_of_lt hi) _ ▸ hsettled i hi
  · obtain rfl := StartPc.wait.inj hwait
    show ((s.setThread cnt _).threads cnt).Starting
    rw [setThread_self]
    exact ⟨rfl, rfl⟩
  · exact (congrArg ThreadObject.pc (setThread_of_ne s (Nat.ne_of_gt hi) _)).trans
      (habsent i (Nat.le_of_succ_le hi))
  · exact h.start.trans (by rw [hpc]; exact Iff.rfl)
  · refine iff_of_false (fun hheld => ?_) ?_
    · exact h.not_locked (by rw [hpc]; rfl) i ((h.worker i).mp hheld)
    · show ((s.setThread cnt _).threads i).pc ≠ .locked
      by_cases hi : i = cnt
      · rw [hi, setThread_self]
        simp
      · rw [setThread_of_ne s hi]
        exact h.not_locked (by rw [hpc]; rfl) i
  · refine hids.trans (congrArg _ (map_tid_congr fun j hj => ?_).symm)
    exact congrArg ThreadObject.tid (setThread_of_ne s (Nat.ne_of_lt hj) _)

/-- `start` is over and has released the lock. -/
theorem Inv.leave (h : s.Inv ids) (hinside : s.pc.inside = true) {pc : StartPc}
    (hpc : pc.inside = false) (hcreated : pc.created s.count = s.pc.created s.count)
    (hsettled : pc.settled s.count = s.pc.settled s.count)
    (hpushed : pc.pushed s.count = s.pc.pushed s.count) (hwait : ∀ cnt, pc ≠ .wait cnt) :
    Inv ids { s with mutex := none, pc := pc } := by
  refine ⟨Nat.le_trans (Nat.le_of_eq hcreated) h.bound, fun i hi => h.settled i (hsettled ▸ hi),
    fun cnt heq => absurd heq (hwait cnt), fun i hi => h.absent i (hcreated ▸ hi), ?_, fun i => ?_,
    h.threadsId.trans (by rw [hpushed])⟩
  · exact iff_of_false (Option.some_ne_none _).symm (by rw [hpc]; exact Bool.false_ne_true)
  · exact iff_of_false (Option.some_ne_none _).symm (h.not_locked hinside i)

/-- The constructor goes on: the thread has notified the semaphore. -/
theorem Inv.wait (h : s.Inv ids) {cnt : ℕ} (hpc : s.pc = .wait cnt)
    (hpos : 0 < (s.threads cnt).semaphore) :
    Inv ids { s.setThread cnt { s.threads cnt with
      semaphore := (s.threads cnt).semaphore - 1 } with pc := .push cnt } := by
  have hsettled := h.settled
  have habsent := h.absent
  have hids := h.threadsId
  have hbound := h.bound
  rw [hpc] at habsent hsettled hids hbound
  -- the semaphore is up, so the thread has stored its id and gone on to its callback
  have hdone : (s.threads cnt).pc = .callback ∧ (s.threads cnt).id = (s.threads cnt).tid ∧
      (s.threads cnt).hasCb = false ∧ (s.threads cnt).semaphore = 1 := by
    have hstarting := h.starting cnt hpc
    unfold ThreadObject.Starting at hstarting
    split at hstarting <;> simp_all
  obtain ⟨hcallback, hid, hcb, hone⟩ := hdone
  refine ⟨hbound, fun i hi => ?_, fun cnt' hwait => absurd hwait (by simp), fun i hi => ?_, ?_,
    fun i => ?_, ?_⟩
  · by_cases hic : i = cnt
    · subst hic
      show ((s.setThread i _).threads i).Settled
      rw [setThread_self]
      exact ⟨.inl hcallback, hid, hcb, by rw [hone]⟩
    · exact setThread_of_ne s hic _ ▸
        hsettled i (Nat.lt_of_le_of_ne (Nat.le_of_lt_succ hi) hic)
  · exact (congrArg ThreadObject.pc (setThread_of_ne s (Nat.ne_of_gt hi) _)).trans (habsent i hi)
  · exact h.start.trans (by rw [hpc]; exact Iff.rfl)
  · refine (h.worker i).trans ?_
    by_cases hic : i = cnt
    · subst hic
      show _ ↔ ((s.setThread i _).threads i).pc = .locked
      rw [setThread_self]
    · show _ ↔ ((s.setThread cnt _).threads i).pc = .locked
      rw [setThread_of_ne s hic]
  · refine hids.trans (congrArg _ (map_tid_congr fun j hj => ?_).symm)
    exact congrArg ThreadObject.tid (setThread_of_ne s (Nat.ne_of_lt hj) _)

/-- The id of the thread is added. -/
theorem Inv.push (h : s.Inv ids) {cnt : ℕ} (hpc : s.pc = .push cnt) :
    Inv ids { s with
      threadsId := s.threadsId ++ [(s.threads cnt).id]
      pc := .create (cnt + 1) } := by
  have hsettled := h.settled
  have habsent := h.absent
  have hids := h.threadsId
  have hbound := h.bound
  rw [hpc] at habsent hsettled hids hbound
  refine ⟨hbound, hsettled, fun cnt' hwait => absurd hwait (by simp), habsent,
    h.start.trans (by rw [hpc]; exact Iff.rfl), h.worker, ?_⟩
  -- the id that is pushed is the one that the thread has stored
  have hid : (s.threads cnt).id = (s.threads cnt).tid := (hsettled cnt (Nat.lt_succ_self cnt)).id
  show s.threadsId ++ _ = _ ++ (List.range (cnt + 1)).map _
  rw [hids, hid, List.append_assoc, List.range_succ, List.map_append]
  rfl

/-- `start` goes on: it creates the next thread, or waits for it. -/
theorem Inv.startStep (h : s.Inv ids) {tid : Option ℕ} (hstep : s.startStep tid = some s') :
    s'.Inv ids := by
  unfold StartRun.startStep at hstep
  cases hpc : s.pc with
  -- `start()` takes the lock
  | begin =>
    rw [hpc] at hstep
    obtain ⟨hfree, hstep⟩ := Option.ite_none_right_eq_some.mp hstep
    obtain rfl := Option.some.inj hstep
    obtain ⟨hbound, hsettled, -, habsent, -, hworker, hids⟩ := h
    rw [hpc] at hbound hsettled habsent hids
    refine ⟨hbound, hsettled, fun cnt hwait => absurd hwait (by simp), habsent,
      iff_of_true rfl rfl, fun i => ?_, hids⟩
    rw [← hworker, hfree]
    simp
  | create cnt =>
    rw [hpc] at hstep
    dsimp only at hstep
    split at hstep
    · next hlt =>
      cases tid with
      | some tid =>
        obtain rfl := Option.some.inj hstep
        exact h.create hpc hlt tid
      -- `pthread_create` fails, and the constructor throws
      | none =>
        obtain rfl := Option.some.inj hstep
        exact h.leave (by rw [hpc]; rfl) rfl (by rw [hpc]; rfl) (by rw [hpc]; rfl)
          (by rw [hpc]; rfl) (by simp)
    -- all threads are made
    · next hnot =>
      obtain rfl := Option.some.inj hstep
      have hbound := h.bound
      rw [hpc] at hbound
      obtain rfl : cnt = s.count := Nat.le_antisymm hbound (Nat.le_of_not_lt hnot)
      exact h.leave (by rw [hpc]; rfl) rfl (by rw [hpc]; rfl) (by rw [hpc]; rfl) (by rw [hpc]; rfl)
        (by simp)
  | wait cnt =>
    rw [hpc] at hstep
    obtain ⟨hpos, hstep⟩ := Option.ite_none_right_eq_some.mp hstep
    obtain rfl := Option.some.inj hstep
    exact h.wait hpc hpos
  | push cnt =>
    rw [hpc] at hstep
    obtain rfl := Option.some.inj hstep
    exact h.push hpc
  | done =>
    rw [hpc] at hstep
    exact absurd hstep (Option.some_ne_none s').symm
  | thrown cnt =>
    rw [hpc] at hstep
    exact absurd hstep (Option.some_ne_none s').symm

/-- Someone else takes or releases the lock. -/
theorem Inv.setMutex (h : s.Inv ids) {m : Option Holder}
    (hold : s.mutex = none ∨ s.mutex = some .other) (hm : m = none ∨ m = some .other) :
    Inv ids { s with mutex := m } := by
  obtain ⟨hbound, hsettled, hstarting, habsent, hstart, hworker, hids⟩ := h
  have hnone : ∀ {m : Option Holder}, m = none ∨ m = some .other →
      m ≠ some .start ∧ ∀ i, m ≠ some (.worker i) := by
    rintro m (rfl | rfl) <;> simp
  refine ⟨hbound, hsettled, hstarting, habsent, ?_, fun i => ?_, hids⟩
  · rw [← hstart]
    exact iff_of_false (hnone hm).1 (hnone hold).1
  · rw [← hworker]
    exact iff_of_false ((hnone hm).2 i) ((hnone hold).2 i)

/-- **Step.** Each step keeps the invariant. -/
theorem Inv.step (h : s.Inv ids) (hstep : step s a = some s') : s'.Inv ids := by
  cases a with
  | start tid => exact h.startStep hstep
  -- `sem_wait` is interrupted, and called again
  | interrupted =>
    simp only [StartRun.step] at hstep
    split at hstep
    · obtain rfl := Option.some.inj hstep
      exact h
    all_goals exact absurd hstep (Option.some_ne_none s').symm
  | thread i => exact h.thread hstep
  -- somebody else takes the mutex while it is free
  | lock =>
    obtain ⟨hfree, hstep⟩ := Option.ite_none_right_eq_some.mp hstep
    obtain rfl := Option.some.inj hstep
    exact h.setMutex (.inl hfree) (.inr rfl)
  | unlock =>
    obtain ⟨hheld, hstep⟩ := Option.ite_none_right_eq_some.mp hstep
    obtain rfl := Option.some.inj hstep
    exact h.setMutex (.inr hheld) (.inl rfl)

/-! ### The end of `start` -/

/-- A bound on the steps that are left until `start` is over. -/
def left (s : StartRun) : ℕ :=
  match s.pc with
  | .begin => 6 * s.count + 2 + if s.mutex = none then 0 else 1
  | .create cnt => 6 * (s.count - cnt) + 1
  | .wait cnt => 6 * (s.count - cnt) - (s.threads cnt).pc.past
  | .push cnt => 6 * (s.count - cnt) - 4
  | .done | .thrown _ => 0

/-- `start` has been left. -/
def Over (s : StartRun) : Prop := s.pc = .done ∨ ∃ cnt, s.pc = .thrown cnt

/-- The thread that the constructor waits for goes on. -/
theorem Inv.exists_wait_step (h : s.Inv ids) {cnt : ℕ} (hpc : s.pc = .wait cnt) :
    ∃ a s', StartAction.Drives a ∧ StartRun.step s a = some s' ∧ s'.left < s.left ∧
      ∀ cnt, s'.pc ≠ .thrown cnt := by
  have hlt : cnt < s.count := by
    have hbound := h.bound
    rw [hpc] at hbound
    exact hbound
  -- the measure counts the steps of the threads that are not settled yet
  have hleft : s.left = 6 * (s.count - cnt) - (s.threads cnt).pc.past := by
    unfold left
    rw [hpc]
  have hthread : ∀ t, left (s.setThread cnt t) = 6 * (s.count - cnt) - t.pc.past := by
    intro t
    have hpc' : (s.setThread cnt t).pc = .wait cnt := hpc
    unfold left
    rw [hpc']
    show 6 * (s.count - cnt) - ((s.setThread cnt t).threads cnt).pc.past = _
    rw [setThread_self]
  have hstarting := h.starting cnt hpc
  -- either `wait()` returns, or the new thread goes on towards its `notify()`
  by_cases hpos : 0 < (s.threads cnt).semaphore
  · refine ⟨.start none, { s.setThread cnt { s.threads cnt with
      semaphore := (s.threads cnt).semaphore - 1 } with pc := .push cnt }, trivial, ?_, ?_, by simp⟩
    · show s.startStep none = _
      rw [StartRun.startStep, hpc]
      exact if_pos hpos
    · rw [hleft]
      show 6 * (s.count - cnt) - 4 < _
      have hpast : ThreadPc.past (s.threads cnt).pc ≤ 3 := by
        cases (s.threads cnt).pc <;> simp [ThreadPc.past]
      omega
  · obtain ⟨t, hstep, hpast, hle⟩ : ∃ t, s.threadStep cnt = some (s.setThread cnt t) ∧
        (s.threads cnt).pc.past < t.pc.past ∧ t.pc.past ≤ 3 := by
      unfold StartRun.threadStep
      dsimp only
      cases hthreadPc : (s.threads cnt).pc <;>
        simp only [ThreadObject.Starting, hthreadPc] at hstarting
      case setId =>
        refine ⟨{ s.threads cnt with
          pc := .takeCb
          id := (s.threads cnt).tid }, rfl, ?_, ?_⟩ <;> simp [ThreadPc.past]
      case takeCb =>
        refine ⟨{ s.threads cnt with
          pc := .notify
          hasCb := false }, rfl, ?_, ?_⟩ <;> simp [ThreadPc.past]
      case notify =>
        refine ⟨{ s.threads cnt with
          pc := .callback
          semaphore := (s.threads cnt).semaphore + 1 }, rfl, ?_, ?_⟩ <;> simp [ThreadPc.past]
      case callback => exact absurd (hstarting.2.2 ▸ Nat.one_pos) hpos
    refine ⟨.thread cnt, s.setThread cnt t, trivial, hstep, ?_, fun cnt' heq => ?_⟩
    · rw [hthread, hleft]
      omega
    · exact absurd (hpc.symm.trans heq) (by simp)

/-- While `start` is not over, it or a thread that it waits for can go on, or someone who holds the
    lock before it begins; this brings it nearer to its end. -/
theorem Inv.exists_step (h : s.Inv ids) (hover : ¬ s.Over) :
    ∃ a s', StartAction.Drives a ∧ StartRun.step s a = some s' ∧ s'.left < s.left ∧
      ∀ cnt, s'.pc ≠ .thrown cnt := by
  cases hpc : s.pc with
  | begin =>
    by_cases hfree : s.mutex = none
    · refine ⟨.start none, { s with mutex := some .start, pc := .create 0 }, trivial, ?_, ?_,
        by simp⟩
      · show s.startStep none = _
        rw [StartRun.startStep, hpc]
        exact if_pos hfree
      · simp [left, hpc, hfree]
    -- the lock is not with `start()`, and no worker exists, so somebody else gives it back
    · have hother : s.mutex = some .other := by
        have hstart : s.mutex ≠ some .start := by
          rw [ne_eq, h.start, hpc]
          exact Bool.false_ne_true
        have hworker : ∀ i, s.mutex ≠ some (.worker i) := by
          intro i
          rw [ne_eq, h.worker, h.absent i (by rw [hpc]; exact Nat.zero_le i)]
          simp
        cases hm : s.mutex with
        | none => exact absurd hm hfree
        | some holder =>
          cases holder with
          | start => exact absurd hm hstart
          | worker i => exact absurd hm (hworker i)
          | other => rfl
      refine ⟨.unlock, { s with mutex := none }, trivial, if_pos hother, ?_, by simp [hpc]⟩
      simp [left, hpc, hother]
  | create cnt =>
    by_cases hlt : cnt < s.count
    · refine ⟨.start (some 0), { s.setThread cnt ⟨.setId, 0, -1, true, 0⟩ with pc := .wait cnt },
        trivial, ?_, ?_, by simp⟩
      · show s.startStep (some 0) = _
        rw [StartRun.startStep, hpc]
        exact if_pos hlt
      · show 6 * (s.count - cnt) - ((s.setThread cnt _).threads cnt).pc.past < s.left
        rw [setThread_self, left, hpc]
        simp [ThreadPc.past]
    · refine ⟨.start none, { s with mutex := none, pc := .done }, trivial, ?_, ?_, by simp⟩
      · show s.startStep none = _
        rw [StartRun.startStep, hpc]
        exact if_neg hlt
      · show 0 < s.left
        rw [left, hpc]
        exact Nat.succ_pos _
  | wait cnt => exact h.exists_wait_step hpc
  -- `push_back` starts the next turn of the loop
  | push cnt =>
    have hlt : cnt < s.count := by
      have hbound := h.bound
      rw [hpc] at hbound
      exact hbound
    refine ⟨.start none, { s with
      threadsId := s.threadsId ++ [(s.threads cnt).id]
      pc := .create (cnt + 1) }, trivial, ?_, ?_, by simp⟩
    · show s.startStep none = _
      rw [StartRun.startStep, hpc]
    · show 6 * (s.count - (cnt + 1)) + 1 < s.left
      rw [left, hpc]
      dsimp only
      omega
  | done => exact absurd (.inl hpc) hover
  | thrown cnt => exact absurd (.inr ⟨cnt, hpc⟩) hover

/-- Such steps lead to the end. -/
theorem Inv.exists_run (h : s.Inv ids) (hover : ∀ cnt, s.pc ≠ .thrown cnt) :
    ∃ bs s', (∀ b ∈ bs, StartAction.Drives b) ∧ runFrom StartRun.step s bs = some s' ∧
      s'.pc = .done := by
  induction hn : s.left using Nat.strongRecOn generalizing s with
  | _ n ih =>
    by_cases hdone : s.pc = .done
    · exact ⟨[], s, by simp, rfl, hdone⟩
    · obtain ⟨a, t, ha, hstep, hlt, ht⟩ := h.exists_step
        (not_or.mpr ⟨hdone, fun ⟨cnt, hcnt⟩ => hover cnt hcnt⟩)
      obtain ⟨bs, s', hbs, hrun, hend⟩ := ih t.left (hn ▸ hlt) (h.step hstep) ht rfl
      exact ⟨a :: bs, s', List.forall_mem_cons.mpr ⟨ha, hbs⟩,
        runFrom_cons.mpr ⟨t, hstep, hrun⟩, hend⟩

/-- The number of threads is fixed. -/
theorem count_step (hstep : StartRun.step s a = some s') : s'.count = s.count := by
  cases a with
  | thread i =>
    obtain ⟨t', hs', -⟩ := threadStep_cases hstep
    rw [hs', setThread]
  | start tid =>
    simp only [StartRun.step, startStep] at hstep
    repeat' split at hstep
    all_goals cases hstep <;> rfl
  | interrupted | lock | unlock =>
    simp only [StartRun.step] at hstep
    split at hstep <;> cases hstep
    rfl

/-- A thread uses its object only while the constructor waits for it. -/
theorem Inv.eq_wait_of_uses (h : s.Inv ids) {i : ℕ} (huses : (s.threads i).pc.Uses) :
    s.pc = .wait i := by
  have hnot : ¬ (s.threads i).Settled := by
    intro hsettled
    rcases hsettled.pc with hpc | hpc <;> rw [hpc] at huses <;> exact huses
  have hge : s.pc.settled s.count ≤ i := Nat.le_of_not_lt fun hlt => hnot (h.settled i hlt)
  have hlt : i < s.pc.created s.count := by
    refine Nat.lt_of_not_le fun hle => ?_
    rw [h.absent i hle] at huses
    exact huses
  -- a thread that is made and not settled is the one between the two bounds
  cases hpc : s.pc with
  | wait cnt =>
    rw [hpc] at hge hlt
    exact congrArg _ (Nat.le_antisymm hge (Nat.le_of_lt_succ hlt))
  | begin | create cnt | push cnt | done | thrown cnt =>
    rw [hpc] at hge hlt
    exact absurd hlt (Nat.not_lt_of_le hge)

/-- No worker is in a section of the lock before `start` is over. -/
theorem Inv.over_of_locked (h : s.Inv ids) {i : ℕ} (hlocked : (s.threads i).pc = .locked) :
    s.Over := by
  have hinside : s.pc.inside ≠ true := fun hinside => h.not_locked hinside i hlocked
  cases hpc : s.pc with
  | begin =>
    have habsent := h.absent i (by rw [hpc]; exact Nat.zero_le i)
    exact absurd (hlocked.symm.trans habsent) (by simp)
  | create cnt | wait cnt | push cnt => exact absurd (by rw [hpc]; rfl) hinside
  | done => exact .inl hpc
  | thrown cnt => exact .inr ⟨cnt, hpc⟩

/-- Each thread is on its way only while the constructor waits for it; no worker is in a section of
    `m_mutex` before `start` is over; when it has created them all, it has the ids of the threads in
    order, and each object has its id and has given its callback away; and unless a thread could not
    be created, `start` can be brought to its end. -/
theorem start_completes {count : ℕ} {as : List StartAction}
    (hrun : runFrom StartRun.step (new count ids) as = some s) :
    (∀ i, (s.threads i).pc.Uses → s.pc = .wait i) ∧
    (∀ i, (s.threads i).pc = .locked → s.Over) ∧
    (s.pc = .done →
      s.threadsId = ids ++ (List.range count).map (fun i => ((s.threads i).tid : ℤ)) ∧
      ∀ i < count, (s.threads i).id = (s.threads i).tid ∧ (s.threads i).hasCb = false) ∧
    ((∀ cnt, s.pc ≠ .thrown cnt) →
      ∃ bs s', (∀ b ∈ bs, StartAction.Drives b) ∧ runFrom StartRun.step s bs = some s' ∧
        s'.pc = .done) := by
  have hinv : s.Inv ids :=
    run_invariant_of_step (fun _ _ _ h hstep => h.step hstep) (inv_new count ids) hrun
  have hcount : s.count = count :=
    run_invariant_of_step (I := fun t => t.count = count)
      (fun _ _ _ h hstep => (count_step hstep).trans h) rfl hrun
  refine ⟨fun i => hinv.eq_wait_of_uses, fun i => hinv.over_of_locked, fun hdone => ?_,
    hinv.exists_run⟩
  obtain ⟨-, hsettled, -, -, -, -, hids⟩ := hinv
  rw [hdone, hcount] at hsettled hids
  exact ⟨hids, fun i hi => ⟨(hsettled i hi).id, (hsettled i hi).hasCb⟩⟩

/-- Two threads; someone else has the lock when `start` begins, and a worker takes it at the end. -/
theorem start_completes_two : ∃ s,
    runFrom StartRun.step (new 2 [7]) [.lock, .unlock, .start none, .start (some 11),
      .thread 0, .interrupted, .thread 0, .thread 0, .start none, .start none, .start (some 12),
      .thread 1, .thread 1, .thread 1, .start none, .start none, .start none, .thread 1] = some s ∧
    s.threadsId = [7, 11, 12] ∧ s.Over := by
  refine ⟨_, rfl, ?_⟩
  have h := @start_completes _ [7] 2 _ (rfl : runFrom StartRun.step (new 2 [7])
    [.lock, .unlock, .start none, .start (some 11),
      .thread 0, .interrupted, .thread 0, .thread 0, .start none, .start none, .start (some 12),
      .thread 1, .thread 1, .thread 1, .start none, .start none, .start none, .thread 1] = some _)
  exact ⟨(h.2.2.1 rfl).1, h.2.1 1 rfl⟩

end StartRun

end LoNetfw.Scheduler
