import Mathlib.Control.Monad.Basic
import Mathlib.Data.List.Basic

namespace Basis

/-!
# Locks taken in order

Programs of one thread that take non-recursive locks `κ` around reads and updates of data `σ` that
it shares with other threads.  A thread that tries to take a lock it holds waits for itself; a
program that takes its locks in the order of falling ranks never does, whatever the others do.

* `Locking`, `withLock` — the programs, and a block under a lock;
* `Calm` — a run in which the thread does not wait for itself, and which gives back its locks;
* `Below rank r` — a program that takes only locks ranked below `r`, each under higher ones;
* `below_bind`, `below_withLock`, `below_forM`, `below_mapM` — its rules;
* `Gives` — what a program does when the other threads leave the data alone;
* `Gives.bind`, `Gives.withLock`, `Gives.forM` — its rules.
-/

/-- What stops a thread. -/
inductive LockFault (κ ε : Type)
  /-- The thread tries to take a lock that it holds. -/
  | relock (k : κ)
  | other (fault : ε)
  deriving DecidableEq, Repr

/-- A thread with the locks that it holds, the data as it finds it, and what the other threads do to
    the data before each of the locks that it takes from now on. -/
structure Thread (κ σ : Type) where
  held : List κ
  data : σ
  others : ℕ → σ → σ

/-- The thread when it has got the lock `k`. -/
def Thread.locked {κ σ : Type} (k : κ) (t : Thread κ σ) : Thread κ σ :=
  ⟨k :: t.held, t.others 0 t.data, fun n => t.others (n + 1)⟩

/-- Programs that take locks. -/
abbrev Locking (κ σ ε : Type) := StateT (Thread κ σ) (Except (LockFault κ ε))

namespace Locking

variable {κ σ ε α β : Type}

def acquire [DecidableEq κ] (k : κ) : Locking κ σ ε Unit := fun t =>
  if k ∈ t.held then .error (.relock k) else .ok ((), t.locked k)

def release [DecidableEq κ] (k : κ) : Locking κ σ ε Unit := fun t =>
  .ok ((), { t with held := t.held.erase k })

/-- A block under the lock `k`. -/
def withLock [DecidableEq κ] (k : κ) (x : Locking κ σ ε α) : Locking κ σ ε α := do
  acquire k
  let a ← x
  release k
  return a

def readData : Locking κ σ ε σ := fun t => .ok (t.data, t)

def updateData (f : σ → σ) : Locking κ σ ε Unit := fun t => .ok ((), { t with data := f t.data })

def stop (fault : ε) : Locking κ σ ε α := fun _ => .error (.other fault)

/-- The thread takes no lock that it holds, and has the same locks afterwards. -/
def Calm (x : Locking κ σ ε α) (t : Thread κ σ) : Prop :=
  (∃ fault, x t = .error (.other fault)) ∨ ∃ a t', x t = .ok (a, t') ∧ t'.held = t.held

/-- So does every thread that holds only locks ranked `r` or higher. -/
def Below (rank : κ → ℕ) (r : ℕ) (x : Locking κ σ ε α) : Prop :=
  ∀ t : Thread κ σ, (∀ k ∈ t.held, r ≤ rank k) → Calm x t

variable {rank : κ → ℕ} {r r' : ℕ} {x : Locking κ σ ε α} {t t' : Thread κ σ} {a : α}
  {fault : LockFault κ ε} {f : α → Locking κ σ ε β}

/-- A step that returns hands over to the next. -/
theorem bind_of_ok (h : x t = .ok (a, t')) : (x >>= f) t = f a t' := by
  show (x t >>= fun p => f p.1 p.2) = _
  rw [h]
  rfl

/-- A step that fails ends the run. -/
theorem bind_of_error (h : x t = .error fault) : (x >>= f) t = .error fault := by
  show (x t >>= fun p => f p.1 p.2) = _
  rw [h]
  rfl

/-- A calm operation takes no lock that is held. -/
theorem Calm.not_relock (h : Calm x t) (k : κ) : x t ≠ .error (.relock k) := by
  intro hrelock
  obtain ⟨fault, hfault⟩ | ⟨a, t', hok, -⟩ := h
  · cases hrelock.symm.trans hfault
  · cases hrelock.symm.trans hok

/-- Dropping the result keeps an operation calm. -/
theorem calm_discard (h : Calm x t) : Calm (discard x) t := by
  have hrun : discard x t = (x t >>= fun p => pure ((), p.2)) := rfl
  obtain ⟨fault, hfault⟩ | ⟨a, t', hok, hheld⟩ := h
  · exact .inl ⟨fault, by rw [hrun, hfault]; rfl⟩
  · exact .inr ⟨(), t', by rw [hrun, hok]; rfl, hheld⟩

/-! ### Rules -/

/-- A larger bound holds as well. -/
theorem Below.mono (hx : Below rank r x) (h : r ≤ r') : Below rank r' x :=
  fun t ht => hx t fun k hk => Nat.le_trans h (ht k hk)

/-- Returning takes no lock. -/
theorem below_pure (a : α) : Below rank r (pure a : Locking κ σ ε α) :=
  fun t _ => .inr ⟨a, t, rfl, rfl⟩

/-- Reading takes no lock. -/
theorem below_readData : Below rank r (readData : Locking κ σ ε σ) :=
  fun t _ => .inr ⟨t.data, t, rfl, rfl⟩

/-- Updating takes no lock. -/
theorem below_updateData (f : σ → σ) : Below rank r (updateData f : Locking κ σ ε Unit) :=
  fun _ _ => .inr ⟨(), _, rfl, rfl⟩

/-- Failing takes no lock. -/
theorem below_stop (fault : ε) : Below rank r (stop fault : Locking κ σ ε α) :=
  fun _ _ => .inl ⟨fault, rfl⟩

/-- Two operations in turn are below what both are below. -/
theorem below_bind (hx : Below rank r x) (hf : ∀ a, Below rank r (f a)) :
    Below rank r (x >>= f) := by
  intro t ht
  obtain ⟨fault, hfault⟩ | ⟨a, t', hok, hheld⟩ := hx t ht
  · exact .inl ⟨fault, bind_of_error hfault⟩
  · rw [Calm, bind_of_ok hok, ← hheld]
    apply hf a t'
    rwa [hheld]

/-- Dropping the result takes no lock. -/
theorem below_discard (hx : Below rank r x) : Below rank r (discard x) :=
  fun t ht => calm_discard (hx t ht)

section WithLock

variable [DecidableEq κ] {k : κ}

/-- A lock that is held cannot be taken again. -/
theorem withLock_of_held (h : k ∈ t.held) : withLock k x t = .error (.relock k) :=
  bind_of_error (if_pos h)

/-- A critical section that fails fails under the lock. -/
theorem withLock_of_error (hk : k ∉ t.held) (h : x (t.locked k) = .error fault) :
    withLock k x t = .error fault := by
  rw [withLock, bind_of_ok (if_neg hk)]
  exact bind_of_error h

/-- A section of a lock that is free is calm when its body is. -/
theorem calm_withLock (hk : k ∉ t.held) (hx : Calm x (t.locked k)) : Calm (withLock k x) t := by
  obtain ⟨fault, hfault⟩ | ⟨a, t', hok, hheld⟩ := hx
  · exact .inl ⟨fault, withLock_of_error hk hfault⟩
  · refine .inr ⟨a, { t' with held := t'.held.erase k }, ?_, ?_⟩
    · rw [withLock, bind_of_ok (if_neg hk), bind_of_ok hok, bind_of_ok rfl]
      rfl
    · show t'.held.erase k = t.held
      rw [hheld, Thread.locked, List.erase_cons_head]

/-- A block under a lock takes locks that are ranked lower still. -/
theorem below_withLock (hk : rank k < r) (hx : Below rank (rank k) x) :
    Below rank r (withLock k x) := by
  intro t ht
  have hnot : k ∉ t.held := fun hmem => absurd (ht k hmem) (Nat.not_le.mpr hk)
  apply calm_withLock hnot
  apply hx
  intro j hj
  rcases List.mem_cons.mp hj with rfl | hj
  · exact Nat.le_refl _
  · exact Nat.le_trans (Nat.le_of_lt hk) (ht j hj)

end WithLock

/-- A loop is below what its body is below. -/
theorem below_forM {f : β → Locking κ σ ε PUnit} (l : List β) (hf : ∀ b, Below rank r (f b)) :
    Below rank r (l.forM f) := by
  induction l with
  | nil => exact below_pure _
  | cons b l ih => exact below_bind (hf b) fun _ => ih

/-- A loop that collects results likewise. -/
theorem below_mapM {f : β → Locking κ σ ε α} (l : List β) (hf : ∀ b, Below rank r (f b)) :
    Below rank r (l.mapM f) := by
  induction l with
  | nil => exact below_pure _
  | cons b l ih =>
    rw [List.mapM_cons]
    exact below_bind (hf b) fun _ => below_bind ih fun _ => below_pure _

/-! ### A thread alone -/

/-- A thread that holds the locks, beside others that do nothing. -/
def alone (held : List κ) (s : σ) : Thread κ σ := ⟨held, s, fun _ s => s⟩

/-- The program, run by a thread that is alone, gives the value and leaves the data. -/
def Gives (x : Locking κ σ ε α) (held : List κ) (s : σ) (a : α) (s' : σ) : Prop :=
  x (alone held s) = .ok (a, alone held s')

variable {held : List κ} {s s' s'' : σ} {b : β}

/-- Returning gives the value. -/
theorem gives_pure (a : α) : Gives (pure a : Locking κ σ ε α) held s a s := rfl

/-- Reading gives the data. -/
theorem gives_readData : Gives (readData : Locking κ σ ε σ) held s s s := rfl

/-- Updating gives the new data. -/
theorem gives_updateData (f : σ → σ) :
    Gives (updateData f : Locking κ σ ε Unit) held s () (f s) := rfl

/-- Two operations in turn. -/
theorem Gives.bind (hx : Gives x held s a s') (hf : Gives (f a) held s' b s'') :
    Gives (x >>= f) held s b s'' := (bind_of_ok hx).trans hf

/-- What is read under a lock, or in front of one, is the data itself. -/
theorem gives_read_bind {f : σ → Locking κ σ ε β} (hf : Gives (f s) held s b s') :
    Gives (readData >>= f) held s b s' := gives_readData.bind hf

/-- Dropping the result keeps the data. -/
theorem Gives.discard (hx : Gives x held s a s') : Gives (discard x) held s () s' := by
  show (x (alone held s) >>= fun p => pure ((), p.2)) = _
  rw [hx]
  rfl

/-- A block under a lock that the thread does not hold does what it does alone. -/
theorem Gives.withLock [DecidableEq κ] {k : κ} (hk : k ∉ held)
    (hx : Gives x (k :: held) s a s') : Gives (withLock k x) held s a s' := by
  have hlocked : (alone held s).locked k = alone (k :: held) s := rfl
  rw [Gives, Locking.withLock, bind_of_ok (if_neg hk), hlocked, bind_of_ok hx, bind_of_ok rfl]
  show Except.ok (a, alone ((k :: held).erase k) s') = _
  rw [List.erase_cons_head]

/-- A loop keeps what each of its rounds keeps. -/
theorem Gives.forM {f : β → Locking κ σ ε PUnit} {p : σ → Prop} (l : List β)
    (hf : ∀ b ∈ l, ∀ s, p s → ∃ s', Gives (f b) held s () s' ∧ p s') (hs : p s) :
    ∃ s', Gives (l.forM f) held s () s' ∧ p s' := by
  induction l generalizing s with
  | nil => exact ⟨s, gives_pure (), hs⟩
  | cons b l ih =>
    obtain ⟨t, hb, ht⟩ := hf b List.mem_cons_self s hs
    obtain ⟨u, hl, hu⟩ := ih (fun c hc => hf c (List.mem_cons_of_mem b hc)) ht
    exact ⟨u, hb.bind hl, hu⟩

end Locking

end Basis
