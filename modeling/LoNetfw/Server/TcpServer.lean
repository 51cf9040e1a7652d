import LoNetfw.Basis.StepSystem

namespace LoNetfw.Server

open Basis

/-!
# `TcpServer` — accept loops, stopping and clean-up

`start` and `stop` of `server/tcpserver.cpp` set a flag at once and leave the rest to tasks of the
accept scheduler: one `startAccept` loop for each listening socket, and the clean-up that closes and
forgets the sockets.  The tasks run in any order and interleave with each other and with the calls.

* `TcpServer.step` — the calls, the steps of the loops and those of the clean-ups;
* `valid_iff` — while the server is not stopped, all loops have an open socket, exactly when no call
  of `start` finds a closed one and no clean-up closes the socket of a loop of a started server;
* `safe_of_restartedLate` — it suffices to start again when the clean-up is over and the loops on
  the closed sockets have ended;
* `restart_closes` — a server that is started again before that.

A socket is a number; whether its descriptor is valid is part of the state.
-/

/-- A `startAccept` task that has not ended: it is about to test the flag, or in `accept`. -/
structure AcceptLoop where
  socket : ℕ
  accepting : Bool
  deriving DecidableEq, Repr

structure TcpServer where
  /-- `m_is_stop`. -/
  isStop : Bool
  /-- `m_sockets`. -/
  sockets : List ℕ
  /-- Whether the descriptor of a socket is valid. -/
  isOpen : ℕ → Bool
  /-- The number of sockets created. -/
  created : ℕ
  loops : List AcceptLoop
  /-- For each clean-up that has not ended, how many sockets it has closed. -/
  cleanUps : List ℕ

inductive ServerAction
  /-- `bind` with so many addresses that could be bound; `ok` when no address failed. -/
  | bind (n : ℕ) (ok : Bool)
  | start
  | stop
  /-- A loop tests the flag. -/
  | test (i : ℕ)
  /-- `accept` returns in a loop, with a client or without. -/
  | accept (i : ℕ) (client : Bool)
  /-- A clean-up closes the next socket, or ends. -/
  | cleanUp (i : ℕ)
  deriving DecidableEq, Repr

namespace TcpServer

def new : TcpServer where
  isStop := true
  sockets := []
  isOpen := fun _ => false
  created := 0
  loops := []
  cleanUps := []

/-- The sockets of a failed call are forgotten, and so are all others. -/
def bind (n : ℕ) (ok : Bool) (s : TcpServer) : TcpServer where
  isStop := s.isStop
  sockets := if ok then s.sockets ++ List.range' s.created n else []
  isOpen x := s.isOpen x || (ok && decide (s.created ≤ x ∧ x < s.created + n))
  created := s.created + n
  loops := s.loops
  cleanUps := s.cleanUps

def start (s : TcpServer) : TcpServer :=
  if s.isStop then
    { s with
      isStop := false
      loops := s.loops ++ s.sockets.map fun socket => ⟨socket, false⟩ }
  else s

def stop (s : TcpServer) : TcpServer :=
  if s.isStop then s else { s with isStop := true, cleanUps := s.cleanUps ++ [0] }

/-- `while (!isStop())` in the loop `i`. -/
def test (i : ℕ) (s : TcpServer) : Option TcpServer :=
  match s.loops[i]? with
  | some ⟨socket, false⟩ =>
    some { s with loops := if s.isStop then s.loops.eraseIdx i else s.loops.set i ⟨socket, true⟩ }
  | _ => none

/-- `Socket::accept` returns in the loop `i`; without a valid descriptor there is no client.  Nothing
    says that it must return there: a loop that tests the flag before its socket is closed and calls
    `accept` after it ends the program in `FdManager::get(-1)`, and one that comes to wait between the
    `cancelAll` and the `close` of the hook is not woken. -/
def accept (i : ℕ) (client : Bool) (s : TcpServer) : Option TcpServer :=
  match s.loops[i]? with
  | some ⟨socket, true⟩ =>
    if client && !s.isOpen socket then none
    else some { s with loops := s.loops.set i ⟨socket, false⟩ }
  | _ => none

/-- `Socket::close`. -/
def close (socket : ℕ) (s : TcpServer) : TcpServer :=
  { s with isOpen := fun x => if x = socket then false else s.isOpen x }

/-- The socket that the clean-up `i` closes next; `none` when it has closed all, or has ended. -/
def nextClosed (i : ℕ) (s : TcpServer) : Option ℕ := s.cleanUps[i]?.bind fun k => s.sockets[k]?

/-- The clean-up `i` goes on. -/
def cleanUp (i : ℕ) (s : TcpServer) : Option TcpServer :=
  s.cleanUps[i]?.map fun k =>
    match s.sockets[k]? with
    | some socket => { s.close socket with cleanUps := s.cleanUps.set i (k + 1) }
    | none => { s with sockets := [], cleanUps := s.cleanUps.eraseIdx i }

def step (s : TcpServer) : ServerAction → Option TcpServer
  | .bind n ok => some (s.bind n ok)
  | .start => some s.start
  | .stop => some s.stop
  | .test i => s.test i
  | .accept i client => s.accept i client
  | .cleanUp i => s.cleanUp i

/-! ### Loops on open sockets -/

/-- No loop of a started server works on a closed socket. -/
def Valid (s : TcpServer) : Prop := s.isStop = false → ∀ l ∈ s.loops, s.isOpen l.socket = true

/-- What a step must not do: start with a closed socket, or close the socket of a loop of a started
    server. -/
def Safe (s : TcpServer) : ServerAction → Prop
  | .start => s.isStop = true →
    (∀ x ∈ s.sockets, s.isOpen x = true) ∧ ∀ l ∈ s.loops, s.isOpen l.socket = true
  | .cleanUp i => s.isStop = false → ∀ l ∈ s.loops, s.nextClosed i ≠ some l.socket
  | .bind _ _ | .stop | .test _ | .accept _ _ => True

variable {s s' : TcpServer} {a : ServerAction}

/-! ### What the steps change -/

/-- A step of one loop changes no socket and adds no loop. -/
structure LoopStep (s s' : TcpServer) : Prop where
  isStop : s'.isStop = s.isStop
  isOpen : s'.isOpen = s.isOpen
  sockets : s'.sockets = s.sockets
  cleanUps : s'.cleanUps = s.cleanUps
  loops : ∀ l ∈ s'.loops, ∃ l₀ ∈ s.loops, l₀.socket = l.socket

/-- A loop that goes on keeps its socket. -/
theorem exists_of_mem_set {loops : List AcceptLoop} {i : ℕ} {socket : ℕ} {b b' : Bool}
    (hi : loops[i]? = some ⟨socket, b⟩) {l : AcceptLoop} (hl : l ∈ loops.set i ⟨socket, b'⟩) :
    ∃ l₀ ∈ loops, l₀.socket = l.socket := by
  rcases List.mem_or_eq_of_mem_set hl with hl | rfl
  · exact ⟨l, hl, rfl⟩
  · exact ⟨⟨socket, b⟩, List.mem_of_getElem? hi, rfl⟩

/-- The test of the flag: the loop ends, or is about to accept. -/
theorem test_loopStep {i : ℕ} (h : s.test i = some s') : LoopStep s s' := by
  rw [test] at h
  split at h
  · next socket hi =>
    obtain rfl := Option.some.inj h
    refine ⟨rfl, rfl, rfl, rfl, fun l hl => ?_⟩
    by_cases hstop : s.isStop = true
    · -- the loop ends
      rw [show (if s.isStop then s.loops.eraseIdx i else _) = s.loops.eraseIdx i from if_pos hstop]
        at hl
      exact ⟨l, List.mem_of_mem_eraseIdx hl, rfl⟩
    · rw [show (if s.isStop then _ else s.loops.set i ⟨socket, true⟩) = _ from if_neg hstop] at hl
      exact exists_of_mem_set hi hl
  · exact nomatch h

/-- `accept` returns: the loop is in front of its test again. -/
theorem accept_loopStep {i : ℕ} {client : Bool} (h : s.accept i client = some s') :
    LoopStep s s' := by
  rw [accept] at h
  split at h
  · next socket hi =>
    split at h
    · exact nomatch h
    · obtain rfl := Option.some.inj h
      exact ⟨rfl, rfl, rfl, rfl, fun l hl => exists_of_mem_set hi hl⟩
  · exact nomatch h

/-- Loops do not close sockets. -/
theorem LoopStep.valid (h : LoopStep s s') (hvalid : s.Valid) : s'.Valid := by
  intro hstop l hl
  rw [h.isStop] at hstop
  obtain ⟨l₀, hl₀, hsocket⟩ := h.loops l hl
  rw [h.isOpen, ← hsocket]
  exact hvalid hstop l₀ hl₀

/-- A bound socket opens, and no other one changes. -/
theorem bind_isOpen {n : ℕ} {ok : Bool} {x : ℕ} (h : s.isOpen x = true) :
    (s.bind n ok).isOpen x = true := by
  show (s.isOpen x || _) = true
  rw [h, Bool.true_or]

/-- `start()` of a server that is stopped. -/
theorem start_of_isStop (h : s.isStop = true) : s.start =
    { s with
      isStop := false
      loops := s.loops ++ s.sockets.map fun socket => ⟨socket, false⟩ } := if_pos h

/-- A server that is started stays as it is. -/
theorem start_of_started (h : s.isStop = false) : s.start = s := by
  rw [start, h, if_neg Bool.false_ne_true]

/-- Nothing is promised of a server that is stopped. -/
theorem valid_of_isStop (h : s.isStop = true) : s.Valid := fun hstop => by
  rw [h] at hstop
  exact nomatch hstop

/-- `start` schedules a loop on every socket. -/
theorem start_valid_iff (h : s.isStop = true) : s.start.Valid ↔
    (∀ x ∈ s.sockets, s.isOpen x = true) ∧ ∀ l ∈ s.loops, s.isOpen l.socket = true := by
  rw [start_of_isStop h]
  constructor
  · intro hvalid
    refine ⟨fun x hx => ?_, fun l hl => ?_⟩
    · exact hvalid rfl ⟨x, false⟩ (List.mem_append_right _ (List.mem_map_of_mem hx))
    · exact hvalid rfl l (List.mem_append_left _ hl)
  · rintro ⟨hsockets, hloops⟩ - l hl
    rcases List.mem_append.mp hl with hl | hl
    · exact hloops l hl
    · obtain ⟨x, hx, rfl⟩ := List.mem_map.mp hl
      exact hsockets x hx

/-- A clean-up closes its next socket, if there is one. -/
theorem cleanUp_fields {i : ℕ} (h : s.cleanUp i = some s') :
    s'.isStop = s.isStop ∧ s'.loops = s.loops ∧
      ∀ x, s'.isOpen x = if s.nextClosed i = some x then false else s.isOpen x := by
  obtain ⟨k, hk, rfl⟩ := Option.map_eq_some_iff.mp h
  have hnext : s.nextClosed i = s.sockets[k]? := by rw [nextClosed, hk, Option.bind_some]
  rw [hnext]
  cases hsocket : s.sockets[k]? with
  | none => exact ⟨rfl, rfl, fun x => rfl⟩
  | some socket =>
    refine ⟨rfl, rfl, fun x => ?_⟩
    -- the next socket of the vector is closed
    by_cases hx : x = socket
    · rw [if_pos (congrArg some hx.symm)]
      exact if_pos hx
    · rw [if_neg fun heq => hx (Option.some.inj heq).symm]
      exact if_neg hx

/-- A clean-up may close the socket of a loop that has not ended. -/
theorem cleanUp_valid_iff {i : ℕ} (hvalid : s.Valid) (h : s.cleanUp i = some s') :
    s'.Valid ↔ (s.isStop = false → ∀ l ∈ s.loops, s.nextClosed i ≠ some l.socket) := by
  obtain ⟨hstop, hloops, hopen⟩ := cleanUp_fields h
  rw [Valid, hstop, hloops]
  refine forall_congr' fun hstarted => forall₂_congr fun l hl => ?_
  rw [hopen]
  by_cases hnext : s.nextClosed i = some l.socket
  · rw [if_pos hnext]
    -- this loop loses its socket
    exact iff_of_false Bool.false_ne_true fun hne => hne hnext
  · rw [if_neg hnext]
    exact iff_of_true (hvalid hstarted l hl) hnext

/-- **One step.**  It keeps the loops on open sockets exactly when it is safe. -/
theorem step_valid_iff (hvalid : s.Valid) (hstep : step s a = some s') :
    s'.Valid ↔ s.Safe a := by
  cases a with
  | bind n ok =>
    obtain rfl := Option.some.inj hstep
    exact iff_of_true (fun hstop l hl => bind_isOpen (hvalid hstop l hl)) trivial
  | start =>
    obtain rfl := Option.some.inj hstep
    -- `start()` does nothing on a server that runs
    by_cases hstop : s.isStop = true
    · exact (start_valid_iff hstop).trans ⟨fun h _ => h, fun h => h hstop⟩
    · rw [start_of_started (Bool.not_eq_true _ ▸ hstop)]
      exact iff_of_true hvalid fun h => absurd h hstop
  | stop =>
    obtain rfl := Option.some.inj hstep
    refine iff_of_true ?_ trivial
    by_cases hstop : s.isStop = true
    · rw [stop, if_pos hstop]
      exact hvalid
    · rw [stop, if_neg hstop]
      exact valid_of_isStop rfl
  | test i => exact iff_of_true ((test_loopStep hstep).valid hvalid) trivial
  | accept i client => exact iff_of_true ((accept_loopStep hstep).valid hvalid) trivial
  | cleanUp i => exact cleanUp_valid_iff hvalid hstep

/-- **Start and stop.**  In any sequence of calls and any order of the tasks, the loops of a started
    server always work on open sockets exactly when all steps are safe. -/
theorem valid_iff {as : List ServerAction} (hrun : runFrom step new as = some s) :
    Always step Valid new as ↔ Along step Safe new as :=
  always_iff_along (I := fun _ => True) (fun _ _ _ _ _ => trivial)
    (fun _ _ _ _ hvalid hstep => step_valid_iff hvalid hstep) trivial (valid_of_isStop rfl) hrun

/-- One socket, started, stopped and cleaned up. -/
theorem valid_iff_instance :
    Always step Valid new [.bind 1 true, .start, .stop, .cleanUp 0, .test 0, .cleanUp 0] ↔
      Along step Safe new [.bind 1 true, .start, .stop, .cleanUp 0, .test 0, .cleanUp 0] :=
  valid_iff rfl

/-- The server is started again before the clean-up runs, which then closes the socket of both
    loops; neither ends. -/
theorem restart_closes :
    ∃ s, runFrom step new [.bind 1 true, .start, .stop, .start, .cleanUp 0, .cleanUp 0] = some s ∧
      s.isStop = false ∧ s.loops = [⟨0, false⟩, ⟨0, false⟩] ∧ s.isOpen 0 = false ∧ ¬ s.Valid := by
  refine ⟨_, rfl, rfl, rfl, rfl, fun hvalid => ?_⟩
  exact absurd (hvalid rfl ⟨0, false⟩ List.mem_cons_self) (by decide)

/-! ### Starting again late enough -/

/-- A stopped server is started when no clean-up is waiting or running, and no loop is left on a
    closed socket. -/
def RestartedLate (s : TcpServer) : ServerAction → Prop
  | .start => s.isStop = true → s.cleanUps = [] ∧ ∀ l ∈ s.loops, s.isOpen l.socket = true
  | .bind _ _ | .stop | .test _ | .accept _ _ | .cleanUp _ => True

/-- Sockets are closed by clean-ups only, and a started server has none. -/
structure Settled (s : TcpServer) : Prop where
  sockets : s.cleanUps = [] → ∀ x ∈ s.sockets, s.isOpen x = true
  started : s.isStop = false → s.cleanUps = []

/-- New sockets are open. -/
theorem Settled.bind {n : ℕ} {ok : Bool} (h : s.Settled) : (s.bind n ok).Settled := by
  refine ⟨fun hnone x hx => ?_, h.started⟩
  cases ok with
  | false => exact absurd hx List.not_mem_nil
  | true =>
    rcases List.mem_append.mp hx with hx | hx
    · exact bind_isOpen (h.sockets hnone x hx)
    · -- a socket of this call
      have hrange := List.mem_range'_1.mp hx
      show (s.isOpen x || (true && decide _)) = true
      rw [decide_eq_true hrange, Bool.and_true, Bool.or_true]

/-- A clean-up that ends leaves no socket behind. -/
theorem Settled.cleanUp {i : ℕ} (h : s.Settled) (hstep : s.cleanUp i = some s') : s'.Settled := by
  obtain ⟨k, hk, hs'⟩ := Option.map_eq_some_iff.mp hstep
  -- the clean-up that goes on has not ended
  have hsome : s.cleanUps ≠ [] := fun hnone => by
    rw [hnone] at hk
    exact nomatch hk
  have hstopped : s'.isStop = false → s'.cleanUps = [] := fun hstarted =>
    absurd (h.started ((cleanUp_fields hstep).1 ▸ hstarted)) hsome
  refine ⟨fun hnone x hx => ?_, hstopped⟩
  subst hs'
  cases hsocket : s.sockets[k]? with
  | none =>
    rw [hsocket] at hx
    -- it ends and forgets all sockets
    exact absurd hx List.not_mem_nil
  | some socket =>
    rw [hsocket] at hnone
    exact absurd ((List.set_eq_nil_iff i (k + 1)).mp hnone) hsome

/-- Each step keeps it, when the server is restarted late enough. -/
theorem Settled.step (h : s.Settled) (hlate : s.RestartedLate a) (hstep : step s a = some s') :
    s'.Settled := by
  -- the loops touch neither the sockets nor the clean-up
  have hloop : LoopStep s s' → s'.Settled := fun hl =>
    ⟨fun hnone x hx => hl.isOpen ▸ h.sockets (hl.cleanUps ▸ hnone) x (hl.sockets ▸ hx),
      fun hstarted => hl.cleanUps ▸ h.started (hl.isStop ▸ hstarted)⟩
  cases a with
  | bind n ok =>
    obtain rfl := Option.some.inj hstep
    exact h.bind
  | start =>
    obtain rfl := Option.some.inj hstep
    by_cases hstop : s.isStop = true
    · rw [start_of_isStop hstop]
      exact ⟨h.sockets, fun _ => (hlate hstop).1⟩
    · rw [start_of_started (Bool.not_eq_true _ ▸ hstop)]
      exact h
  | stop =>
    obtain rfl := Option.some.inj hstep
    by_cases hstop : s.isStop = true
    · rw [stop, if_pos hstop]
      exact h
    · rw [stop, if_neg hstop]
      -- `stop()` leaves a clean-up behind
      refine ⟨fun hnone => absurd hnone ?_, nofun⟩
      exact List.append_ne_nil_of_right_ne_nil _ (List.cons_ne_nil _ _)
  | test i => exact hloop (test_loopStep hstep)
  | accept i client => exact hloop (accept_loopStep hstep)
  | cleanUp i => exact h.cleanUp hstep

/-- It suffices that the server is started again when the clean-up is over and the loops on the
    sockets that it closed have ended. -/
theorem safe_of_restartedLate {as : List ServerAction} (h : Along step RestartedLate new as) :
    Along step Safe new as := by
  have himp : ∀ (s : TcpServer) a, s.Settled → s.RestartedLate a → s.Safe a := by
    intro s a hs hlate
    cases a with
    | start =>
      intro hstop
      obtain ⟨hnone, hloops⟩ := hlate hstop
      exact ⟨hs.sockets hnone, hloops⟩
    | cleanUp i =>
      -- while the server runs no clean-up is left
      intro hstarted l hl hnext
      rw [nextClosed, hs.started hstarted] at hnext
      exact nomatch hnext
    | bind n ok => trivial
    | stop => trivial
    | test i => trivial
    | accept i client => trivial
  exact Along.imp_of_inv (fun _ _ _ hs hlate hstep => hs.step hlate hstep) himp
    ⟨fun _ x hx => absurd hx List.not_mem_nil, fun _ => rfl⟩ h

end TcpServer

end LoNetfw.Server
