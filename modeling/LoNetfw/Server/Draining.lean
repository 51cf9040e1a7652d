import LoNetfw.Server.TcpServer
import Mathlib.Algebra.BigOperators.Group.List.Basic
import Mathlib.Algebra.Ring.Nat

namespace LoNetfw.Server

open Basis

/-!
# `TcpServer` — stopping comes to an end

After `stop` a loop ends when it tests the flag.  One that waits in `accept` gets there when a
client comes, or when the clean-up closes its socket and the call returns.  Whether it does is not
up to the server: `wakes` has the sockets on which every `accept` returns when they are closed.  It
does when the loop has registered its wait before `cancelAll`, as with one worker, where nothing
comes between the test of the flag and the wait.

* `TcpServer.Orderly` — a server is started and bound again when the clean-up is over and the loops
  on the sockets that it closed have ended, and no call of `bind` fails once there are sockets;
* `TcpServer.left` — a bound on the steps that the tasks of a stopped server have left;
* `stop_drains` — in such a run the loops of a started server work on open sockets, and the tasks of
  a stopped one come to an end, in whatever order they run, when all its sockets are closed; loops
  are left only in calls of `accept` that do not return.
-/

/-- A step of a task of the scheduler. -/
def ServerAction.IsTask : ServerAction → Prop
  | .test _ | .accept _ _ | .cleanUp _ => True
  | .bind _ _ | .start | .stop => False

/-- The steps that a loop has left once the flag is set. -/
def AcceptLoop.left (l : AcceptLoop) : ℕ := if l.accepting then 2 else 1

namespace TcpServer

/-- The steps that the tasks have left once the flag is set. -/
def left (s : TcpServer) : ℕ :=
  (s.loops.map AcceptLoop.left).sum + (s.cleanUps.map fun k => s.sockets.length + 1 - k).sum

/-- No call of `bind` comes during a clean-up, or fails once there are sockets. -/
def BoundEarly (s : TcpServer) : ServerAction → Prop
  | .bind _ ok => s.cleanUps = [] ∧ (ok = false → s.sockets = [])
  | .start | .stop | .test _ | .accept _ _ | .cleanUp _ => True

def Orderly (s : TcpServer) (a : ServerAction) : Prop := s.RestartedLate a ∧ s.BoundEarly a

/-- A task goes on that needs no client: an `accept` on a closed socket does so when the socket is
    one of `wakes`. -/
def Driven (wakes : ℕ → Prop) (s : TcpServer) : ServerAction → Prop
  | .test _ | .cleanUp _ => True
  | .accept i client =>
    client = false ∧ ∀ l ∈ s.loops[i]?, s.isOpen l.socket = false ∧ wakes l.socket
  | .bind _ _ | .start | .stop => False

instance decidableRestartedLate (s : TcpServer) : (a : ServerAction) → Decidable (s.RestartedLate a)
  | .start => inferInstanceAs (Decidable (_ → _ ∧ _))
  | .bind _ _ | .stop | .test _ | .accept _ _ | .cleanUp _ => .isTrue trivial

instance decidableBoundEarly (s : TcpServer) : (a : ServerAction) → Decidable (s.BoundEarly a)
  | .bind _ _ => inferInstanceAs (Decidable (_ ∧ _))
  | .start | .stop | .test _ | .accept _ _ | .cleanUp _ => .isTrue trivial

instance decidableOrderly (s : TcpServer) (a : ServerAction) : Decidable (s.Orderly a) :=
  inferInstanceAs (Decidable (_ ∧ _))

/-! ### Invariant -/

variable {s s' t : TcpServer} {a : ServerAction}

structure Inv (s : TcpServer) : Prop extends s.Settled where
  bound : ∀ x ∈ s.sockets, x < s.created
  looped : ∀ l ∈ s.loops, l.socket < s.created
  /-- A loop on an open socket is one of the sockets of the server. -/
  loops : ∀ l ∈ s.loops, s.isOpen l.socket = true → l.socket ∈ s.sockets
  /-- The clean-up is the only one, and the sockets before its place are closed. -/
  cleanUp : s.cleanUps = [] ∨ ∃ k, s.cleanUps = [k] ∧ k ≤ s.sockets.length ∧
    ∀ x ∈ s.sockets.take k, s.isOpen x = false
  ended : s.isStop = true → s.cleanUps = [] → ∀ l ∈ s.loops, s.isOpen l.socket = false

/-- A new server has no sockets, loops and clean-ups. -/
theorem inv_new : new.Inv where
  sockets _ _ hx := absurd hx List.not_mem_nil
  started _ := rfl
  bound _ hx := absurd hx List.not_mem_nil
  looped _ hl := absurd hl List.not_mem_nil
  loops _ hl := absurd hl List.not_mem_nil
  cleanUp := .inl rfl
  ended _ _ _ hl := absurd hl List.not_mem_nil

/-- A loop that goes on closes no socket. -/
theorem Inv.of_loopStep (h : s.Inv) (hsettled : s'.Settled) (hl : LoopStep s s')
    (hcreated : s'.created = s.created) : s'.Inv where
  toSettled := hsettled
  bound x hx := hcreated ▸ h.bound x (hl.sockets ▸ hx)
  looped l hmem := by
    -- a loop that is there was there, with the same socket
    obtain ⟨l₀, hl₀, hsocket⟩ := hl.loops l hmem
    rw [hcreated, ← hsocket]
    exact h.looped l₀ hl₀
  loops l hmem hopen := by
    obtain ⟨l₀, hl₀, hsocket⟩ := hl.loops l hmem
    rw [hl.isOpen, ← hsocket] at hopen
    rw [hl.sockets, ← hsocket]
    exact h.loops l₀ hl₀ hopen
  cleanUp := by
    rw [hl.cleanUps, hl.sockets, hl.isOpen]
    exact h.cleanUp
  ended hstop hnone l hmem := by
    obtain ⟨l₀, hl₀, hsocket⟩ := hl.loops l hmem
    rw [hl.isOpen, ← hsocket]
    exact h.ended (hl.isStop ▸ hstop) (hl.cleanUps ▸ hnone) l₀ hl₀

/-- The test of the flag makes no socket. -/
theorem test_created {i : ℕ} (h : s.test i = some s') : s'.created = s.created := by
  rw [test] at h
  split at h
  · obtain rfl := Option.some.inj h
    rfl
  · exact absurd h (Option.some_ne_none s').symm

/-- `accept` makes no socket that is listened on. -/
theorem accept_created {i : ℕ} {client : Bool} (h : s.accept i client = some s') :
    s'.created = s.created := by
  rw [accept] at h
  split at h
  · split at h
    · exact absurd h (Option.some_ne_none s').symm
    · obtain rfl := Option.some.inj h
      rfl
  · exact absurd h (Option.some_ne_none s').symm

/-- The sockets that are opened are new. -/
theorem bind_isOpen_of_lt {n x : ℕ} {ok : Bool} (hx : x < s.created) :
    (s.bind n ok).isOpen x = s.isOpen x := by
  show (s.isOpen x || (ok && decide (s.created ≤ x ∧ x < s.created + n))) = s.isOpen x
  rw [decide_eq_false fun h => Nat.not_lt_of_le h.1 hx, Bool.and_false, Bool.or_false]

/-- `bind` adds new sockets at the end; a `bind` that fails has no others to forget. -/
theorem Inv.bind (h : s.Inv) {n : ℕ} {ok : Bool} (hearly : s.BoundEarly (.bind n ok)) :
    (s.bind n ok).Inv where
  toSettled := h.toSettled.bind
  bound x hx := by
    cases ok with
    | false => exact absurd hx List.not_mem_nil
    | true =>
      rcases List.mem_append.mp hx with hx | hx
      · exact Nat.lt_add_right n (h.bound x hx)
      · exact (List.mem_range'_1.mp hx).2
  looped l hl := Nat.lt_add_right n (h.looped l hl)
  loops l hl hopen := by
    rw [bind_isOpen_of_lt (h.looped l hl)] at hopen
    have hmem := h.loops l hl hopen
    cases ok with
    -- a `bind` that fails empties the vector, which had no socket of a loop
    | false => exact absurd (hearly.2 rfl ▸ hmem) List.not_mem_nil
    | true => exact List.mem_append_left _ hmem
  cleanUp := .inl hearly.1
  ended hstop hnone l hl :=
    (bind_isOpen_of_lt (h.looped l hl)).trans (h.ended hstop hnone l hl)

/-- `start()` gives every socket a loop, and they are open when it comes late enough. -/
theorem Inv.start (h : s.Inv) (hlate : s.RestartedLate .start) (hsettled : s.start.Settled) :
    s.start.Inv := by
  by_cases hstop : s.isStop = true
  · rw [start_of_isStop hstop] at hsettled ⊢
    -- the server is started again only when no clean-up is left
    have hnone := (hlate hstop).1
    refine ⟨hsettled, h.bound, fun l hl => ?_, fun l hl hopen => ?_, .inl hnone, ?_⟩
    · rcases List.mem_append.mp hl with hl | hl
      · exact h.looped l hl
      · obtain ⟨x, hx, rfl⟩ := List.mem_map.mp hl
        exact h.bound x hx
    · rcases List.mem_append.mp hl with hl | hl
      · exact h.loops l hl hopen
      · obtain ⟨x, hx, rfl⟩ := List.mem_map.mp hl
        exact hx
    · exact fun hstopped => absurd hstopped Bool.false_ne_true
  · rw [start_of_started (Bool.not_eq_true _ ▸ hstop)]
    exact h

/-- `stop()` of a started server adds a clean-up, the only one. -/
theorem Inv.stop (h : s.Inv) (hsettled : s.stop.Settled) : s.stop.Inv := by
  by_cases hstop : s.isStop = true
  · rw [TcpServer.stop, if_pos hstop]
    exact h
  · rw [TcpServer.stop, if_neg hstop] at hsettled ⊢
    have hnone : s.cleanUps = [] := h.started (Bool.not_eq_true _ ▸ hstop)
    refine ⟨hsettled, h.bound, h.looped, h.loops, .inr ⟨0, ?_, Nat.zero_le _, ?_⟩, ?_⟩
    · show s.cleanUps ++ [0] = [0]
      rw [hnone, List.nil_append]
    · exact fun x hx => absurd hx List.not_mem_nil
    · exact fun _ hempty => absurd hempty (List.append_ne_nil_of_right_ne_nil _ (by simp))

/-- What a clean-up that goes on does: it closes its next socket, or ends when all are closed. -/
theorem Inv.cleanUp_cases (h : s.Inv) {i : ℕ} (hstep : s.cleanUp i = some s') :
    (∃ k x, s.cleanUps = [k] ∧ s.sockets[k]? = some x ∧
      s' = { s.close x with cleanUps := [k + 1] }) ∨
    (∃ k, s.cleanUps = [k] ∧ k = s.sockets.length ∧ (∀ x ∈ s.sockets, s.isOpen x = false) ∧
      s' = { s with sockets := [], cleanUps := [] }) := by
  obtain ⟨k, hk, hs'⟩ := Option.map_eq_some_iff.mp hstep
  rcases h.cleanUp with hnone | ⟨k', hone, hle, hclosed⟩
  · rw [hnone] at hk
    exact absurd hk (Option.some_ne_none k).symm
  · rw [hone] at hk
    -- there is one clean-up at most
    obtain ⟨hi, rfl⟩ : i = 0 ∧ k' = k := by
      cases i with
      | zero => exact ⟨rfl, Option.some.inj hk⟩
      | succ i => exact absurd hk (Option.some_ne_none k).symm
    subst hi
    cases hsocket : s.sockets[k']? with
    | some x =>
      rw [hsocket, hone] at hs'
      exact .inl ⟨k', x, hone, hsocket, hs'.symm⟩
    | none =>
      rw [hsocket, hone] at hs'
      have hk' : k' = s.sockets.length := Nat.le_antisymm hle (List.getElem?_eq_none_iff.mp hsocket)
      rw [hk', List.take_length] at hclosed
      exact .inr ⟨k', hone, hk', hclosed, hs'.symm⟩

/-- A clean-up closes its next socket, or ends. -/
theorem Inv.stepCleanUp (h : s.Inv) {i : ℕ} (hsettled : s'.Settled)
    (hstep : s.cleanUp i = some s') : s'.Inv := by
  rcases h.cleanUp_cases hstep with ⟨k, x, hone, hx, rfl⟩ | ⟨k, hone, hk, hclosed, rfl⟩
  -- a socket that is still open was open
  · have hisOpen : ∀ y, (s.close x).isOpen y = true → s.isOpen y = true := by
      intro y hy
      by_cases hyx : y = x
      · exact absurd ((if_pos hyx).symm.trans hy) Bool.false_ne_true
      · exact (if_neg hyx).symm.trans hy
    obtain ⟨hlt, hget⟩ := List.getElem?_eq_some_iff.mp hx
    refine ⟨hsettled, h.bound, h.looped, fun l hl hopen => h.loops l hl (hisOpen _ hopen),
      .inr ⟨k + 1, rfl, hlt, fun y hy => ?_⟩, fun _ hempty => absurd hempty (by simp)⟩
    show (if y = x then false else s.isOpen y) = false
    by_cases hyx : y = x
    · exact if_pos hyx
    · rw [if_neg hyx]
      have hy : y ∈ s.sockets.take (k + 1) := hy
      rw [List.take_add_one, hx] at hy
      have hmem : y ∈ s.sockets.take k := by
        rcases List.mem_append.mp hy with hy | hy
        · exact hy
        · exact absurd (List.mem_singleton.mp hy) hyx
      rcases h.cleanUp with hnone | ⟨k', hone', -, hclosed⟩
      · exact absurd (hnone.symm.trans hone) (by simp)
      · obtain rfl := List.singleton_injective (hone'.symm.trans hone)
        exact hclosed y hmem
  -- the vector is cleared when all of its sockets are closed, and no loop has an open one
  · have hloops : ∀ l ∈ s.loops, s.isOpen l.socket = false := fun l hl =>
      Bool.not_eq_true _ ▸ fun hopen =>
        Bool.false_ne_true ((hclosed _ (h.loops l hl hopen)).symm.trans hopen)
    exact ⟨hsettled, fun x hx => absurd hx List.not_mem_nil, h.looped,
      fun l hl hopen => absurd ((hloops l hl).symm.trans hopen) Bool.false_ne_true, .inl rfl,
      fun _ _ => hloops⟩

/-- **Step.** Each step of an orderly run keeps the invariant. -/
theorem Inv.step (h : s.Inv) (horderly : s.Orderly a) (hstep : step s a = some s') : s'.Inv := by
  -- the orderly server keeps `Settled` as well
  have hsettled := h.toSettled.step horderly.1 hstep
  cases a with
  | bind n ok =>
    obtain rfl := Option.some.inj hstep
    exact h.bind horderly.2
  | start =>
    obtain rfl := Option.some.inj hstep
    exact h.start horderly.1 hsettled
  | stop =>
    obtain rfl := Option.some.inj hstep
    exact h.stop hsettled
  | test i => exact h.of_loopStep hsettled (test_loopStep hstep) (test_created hstep)
  | accept i client => exact h.of_loopStep hsettled (accept_loopStep hstep) (accept_created hstep)
  | cleanUp i => exact h.stepCleanUp hsettled hstep

/-! ### The tasks of a stopped server -/

/-- What the loops have left, with one of them apart. -/
theorem sum_left_eraseIdx {loops : List AcceptLoop} {i : ℕ} {l : AcceptLoop}
    (hi : loops[i]? = some l) :
    (loops.map AcceptLoop.left).sum = l.left + ((loops.eraseIdx i).map AcceptLoop.left).sum := by
  obtain ⟨hlt, rfl⟩ := List.getElem?_eq_some_iff.mp hi
  exact ((List.getElem_cons_eraseIdx_perm hlt).map AcceptLoop.left).sum_eq.symm

/-- What the loops have left when one of them has gone on. -/
theorem sum_left_set {loops : List AcceptLoop} {i : ℕ} {l l' : AcceptLoop}
    (hi : loops[i]? = some l) : ((loops.set i l').map AcceptLoop.left).sum =
      l'.left + ((loops.eraseIdx i).map AcceptLoop.left).sum := by
  obtain ⟨hlt, -⟩ := List.getElem?_eq_some_iff.mp hi
  exact ((List.set_perm_cons_eraseIdx hlt l').map AcceptLoop.left).sum_eq

/-- What the tasks of a stopped server keep, beside the invariant, from a state `s` on. -/
structure Drains (s t : TcpServer) : Prop where
  inv : t.Inv
  isStop : t.isStop = true
  /-- The clean-up forgets all sockets when it ends. -/
  cleanUps : s.cleanUps ≠ [] → t.cleanUps ≠ [] ∨ t.sockets = []
  closed : ∀ x ∈ s.sockets, x ∈ t.sockets ∨ t.isOpen x = false

/-- A loop that goes on leaves the clean-ups as they are. -/
theorem Drains.of_loopStep {t' : TcpServer} (h : s.Drains t) (hinv : t'.Inv) (hl : LoopStep t t') :
    s.Drains t' where
  inv := hinv
  isStop := hl.isStop.trans h.isStop
  cleanUps := by
    rw [hl.cleanUps, hl.sockets]
    exact h.cleanUps
  closed := by
    rw [hl.sockets, hl.isOpen]
    exact h.closed

/-- **Step.** A task goes on, and has one step less. -/
theorem Drains.step {t' : TcpServer} (h : s.Drains t) (ha : a.IsTask)
    (hstep : TcpServer.step t a = some t') : s.Drains t' ∧ t'.left < t.left := by
  -- tasks need no order among each other
  have horderly : t.Orderly a := by
    cases a with
    | test i | accept i client | cleanUp i => exact ⟨trivial, trivial⟩
    | bind n ok | start | stop => exact ha.elim
  have hinv := h.inv.step horderly hstep
  cases a with
  | bind n ok | start | stop => exact ha.elim
  | test i =>
    refine ⟨h.of_loopStep hinv (test_loopStep hstep), ?_⟩
    have htest : t.test i = some t' := hstep
    rw [test] at htest
    split at htest
    · next socket hi =>
      obtain rfl := Option.some.inj htest
      rw [h.isStop, if_pos rfl]
      -- the flag is set, so the loop ends at its test
      show _ + _ < (t.loops.map _).sum + _
      rw [sum_left_eraseIdx hi]
      exact Nat.add_lt_add_right (Nat.lt_add_of_pos_left Nat.one_pos) _
    · exact absurd htest (Option.some_ne_none t').symm
  | accept i client =>
    refine ⟨h.of_loopStep hinv (accept_loopStep hstep), ?_⟩
    have haccept : t.accept i client = some t' := hstep
    rw [accept] at haccept
    split at haccept
    · next socket hi =>
      obtain ⟨-, haccept⟩ := Option.ite_none_left_eq_some.mp haccept
      obtain rfl := Option.some.inj haccept
      show ((t.loops.set i ⟨socket, false⟩).map _).sum + _ < (t.loops.map _).sum + _
      rw [sum_left_set hi, sum_left_eraseIdx hi]
      exact Nat.add_lt_add_right (Nat.add_lt_add_right (Nat.lt_succ_self 1) _) _
    · exact absurd haccept (Option.some_ne_none t').symm
  | cleanUp i =>
    rcases h.inv.cleanUp_cases hstep with ⟨k, x, hone, hx, rfl⟩ | ⟨k, hone, hk, hclosed, rfl⟩
    · obtain ⟨hlt, -⟩ := List.getElem?_eq_some_iff.mp hx
      refine ⟨⟨hinv, h.isStop, fun _ => .inl (by simp), fun y hy => ?_⟩, ?_⟩
      · rcases h.closed y hy with hy | hy
        · exact .inl hy
        · refine .inr ?_
          show (if y = x then false else t.isOpen y) = false
          rw [hy, ite_self]
      · unfold left
        rw [hone]
        refine Nat.add_lt_add_left ?_ _
        show t.sockets.length + 1 - (k + 1) + 0 < t.sockets.length + 1 - k + 0
        omega
    · refine ⟨⟨hinv, h.isStop, fun _ => .inr rfl, fun y hy => .inr ?_⟩, ?_⟩
      · exact (h.closed y hy).elim (hclosed y) id
      · unfold left
        rw [hone, hk]
        refine Nat.add_lt_add_left ?_ _
        show 0 < t.sockets.length + 1 - t.sockets.length + 0
        omega

/-- **Run.** The tasks have fewer steps left the more they have made. -/
theorem Drains.run {t' : TcpServer} {bs : List ServerAction} (hbs : ∀ b ∈ bs, b.IsTask)
    (h : s.Drains t) (hrun : runFrom TcpServer.step t bs = some t') :
    s.Drains t' ∧ bs.length + t'.left ≤ t.left := by
  -- by induction on the tasks: each takes one off the measure
  induction bs generalizing t with
  | nil =>
    obtain rfl := Option.some.inj hrun
    exact ⟨h, Nat.le_of_eq (Nat.zero_add _)⟩
  | cons b bs ih =>
    obtain ⟨hb, hbs⟩ := List.forall_mem_cons.mp hbs
    obtain ⟨u, hstep, hrun⟩ := runFrom_cons.mp hrun
    obtain ⟨hu, hlt⟩ := h.step hb hstep
    obtain ⟨ht', hle⟩ := ih hbs hu hrun
    refine ⟨ht', ?_⟩
    rw [List.length_cons]
    omega

/-- When no task can go on without a client, what is left are calls that do not return. -/
theorem Drains.over {wakes : ℕ → Prop} (h : s.Drains t)
    (hstuck : ∀ b, t.Driven wakes b → TcpServer.step t b = none) : t.cleanUps = [] ∧
      ∀ l ∈ t.loops, l.accepting = true ∧ t.isOpen l.socket = false ∧ ¬ wakes l.socket := by
  have hnone : t.cleanUps = [] := by
    cases hc : t.cleanUps with
    | nil => rfl
    | cons k ks =>
      have hstep : t.cleanUp 0 = none := hstuck (.cleanUp 0) trivial
      rw [TcpServer.cleanUp, hc] at hstep
      exact absurd hstep (Option.some_ne_none _)
  refine ⟨hnone, fun l hl => ?_⟩
  obtain ⟨socket, accepting⟩ := l
  obtain ⟨i, hi⟩ := List.mem_iff_getElem?.mp hl
  have hclosed : t.isOpen socket = false := h.inv.ended h.isStop hnone ⟨socket, accepting⟩ hl
  cases accepting with
  | false =>
    -- the loop tests the flag
    have hstep : t.test i = none := hstuck (.test i) trivial
    rw [test, hi] at hstep
    exact absurd hstep (Option.some_ne_none _)
  | true =>
    refine ⟨rfl, hclosed, fun hwakes => ?_⟩
    have hdriven : t.Driven wakes (.accept i false) := by
      refine ⟨rfl, fun l hl => ?_⟩
      obtain rfl := Option.some.inj (hi.symm.trans hl)
      exact ⟨hclosed, hwakes⟩
    have hstep : t.accept i false = none := hstuck _ hdriven
    rw [accept, hi] at hstep
    exact absurd hstep (Option.some_ne_none _)

/-- **Stopping.**  In an orderly run the loops of a started server work on open sockets.  From a
    state with a stopped server, the tasks of the scheduler have no more steps than `left`, in any
    order and whether clients come or not; and when none of them can go on without a client, there
    is no clean-up, and if there was one, all sockets are closed and forgotten, and the loops that
    are left, if any, are in an `accept` on a closed socket that does not return: there are none when
    every `accept` that waits on a socket returns when this is closed. -/
theorem stop_drains (wakes : ℕ → Prop) {as : List ServerAction}
    (hrun : runFrom step new as = some s) (horderly : Along step Orderly new as) :
    Always step Valid new as ∧
    (s.isStop = true → ∀ bs t, (∀ b ∈ bs, b.IsTask) → runFrom step s bs = some t →
      bs.length ≤ s.left ∧
      ((∀ b, t.Driven wakes b → step t b = none) → t.cleanUps = [] ∧
        (s.cleanUps ≠ [] → t.sockets = [] ∧ ∀ x ∈ s.sockets, t.isOpen x = false) ∧
        (∀ l ∈ t.loops, l.accepting = true ∧ t.isOpen l.socket = false ∧ ¬ wakes l.socket) ∧
        ((∀ x, t.isOpen x = false → wakes x) → t.loops = []))) := by
  -- an orderly run is a safe one
  have hsafe : Along step Safe new as :=
    safe_of_restartedLate (horderly.imp_of_inv (I := fun _ => True) (fun _ _ _ _ _ _ => trivial)
      (fun _ _ _ h => h.1) trivial)
  have hvalid : Always step Valid new as :=
    (always_iff_along (I := fun _ => True) (fun _ _ _ _ _ => trivial)
      (fun _ _ _ _ hvalid hstep => step_valid_iff hvalid hstep) trivial (valid_of_isStop rfl)
      hrun).mpr hsafe
  have hinv : s.Inv := run_invariant (fun _ _ _ h ha hstep => h.step ha hstep) inv_new horderly hrun
  refine ⟨hvalid, fun hstop bs t hbs htasks => ?_⟩
  have hs : s.Drains s := ⟨hinv, hstop, .inl, fun x hx => .inl hx⟩
  obtain ⟨ht, hle⟩ := hs.run hbs htasks
  refine ⟨Nat.le_trans (Nat.le_add_right _ _) hle, fun hstuck => ?_⟩
  obtain ⟨hcleanUps, hloops⟩ := ht.over hstuck
  refine ⟨hcleanUps, fun hsome => ?_, hloops, fun hwakes => ?_⟩
  -- the clean-up that was there has come to its end
  · have hsockets : t.sockets = [] := (ht.cleanUps hsome).resolve_left fun hne => hne hcleanUps
    refine ⟨hsockets, fun x hx => (ht.closed x hx).resolve_left fun hmem => ?_⟩
    exact absurd (hsockets ▸ hmem) List.not_mem_nil
  · apply List.eq_nil_iff_forall_not_mem.mpr
    intro l hl
    exact (hloops l hl).2.2 (hwakes _ (hloops l hl).2.1)

/-- Two sockets; one loop waits for a client while the server is stopped. -/
theorem stop_drains_two :
    ∃ s t, runFrom step new [.bind 2 true, .start, .test 0, .stop] = some s ∧
      runFrom step s [.cleanUp 0, .accept 0 false, .test 1, .cleanUp 0, .test 0, .cleanUp 0] =
        some t ∧
      Always step Valid new [.bind 2 true, .start, .test 0, .stop] ∧ 6 ≤ s.left := by
  refine ⟨_, _, rfl, rfl, ?_⟩
  have h := @stop_drains _ (fun _ => True) [.bind 2 true, .start, .test 0, .stop] rfl (by decide)
  refine ⟨h.1, (h.2 rfl
    [.cleanUp 0, .accept 0 false, .test 1, .cleanUp 0, .test 0, .cleanUp 0] _ ?_ rfl).1⟩
  simp [ServerAction.IsTask]

end TcpServer

end LoNetfw.Server
