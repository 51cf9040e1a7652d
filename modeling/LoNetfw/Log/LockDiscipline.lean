import LoNetfw.Basis.LockOrder
import LoNetfw.Basis.OrderedSet
import LoNetfw.Log.Logger
import Mathlib.Data.List.Lex
import Mathlib.Logic.Function.Basic

namespace LoNetfw.Log.Shared

open Basis Basis.Locking Util

/-!
# The locks of the log system

The members of `LoggerManager`, and what they call, on loggers and appenders that are shared through
pointers: each manager, logger and appender has a `SpinLock`, which a thread that holds it must not
take again.

* `lonLogLevel` — the macro, which evaluates its argument `logger` three times;
* `getLogger` — warns through the root logger of the instance while it holds the lock;
* `rank` — the order in which locks are taken, `below_lonWarn`, `below_exec`;
* `calm_exec`, `neverRelocks_iff` — the calls that keep the discipline.

What the other threads do to the data before each lock that a call takes is an argument of its run.
What a logger writes is not modelled, nor are the destructors of loggers and appenders, which take
no lock.
-/

/-! ### Data -/

/-- A `LoggerManager`: the instance of the macros, or another one. -/
inductive ManagerId
  | singleton
  | other (n : ℕ)
  deriving DecidableEq, Repr

inductive Lock
  | manager (m : ManagerId)
  | logger (l : ℕ)
  | appender (a : ℕ)
  deriving DecidableEq, Repr

/-- `m_loggers`, in the order of the names, with pointers that may be null, and `m_logger_root`,
    which the constructor makes sure is none. -/
structure Registry where
  loggers : List (Text × Option ℕ)
  root : ℕ

/-- A `Logger` with pointers to its appenders. -/
structure LoggerObject where
  name : Text
  level : Level := .debug
  appenders : List ℕ := []
  formatter : Text := defaultFormat

/-- A `LogAppender`; `m_last_time` is read by file appenders only. -/
structure AppenderObject extends LogAppender where
  lastTime : ℕ := 0

structure World where
  managers : ManagerId → Registry
  loggers : ℕ → LoggerObject
  appenders : ℕ → AppenderObject
  /-- The next object that `make_shared` builds. -/
  next : ℕ
  /-- `time(0)`. -/
  now : ℕ

/-- Undefined behaviour of the log system. -/
inductive PointerFault
  | nullDereferenced
  deriving DecidableEq, Repr

abbrev LogM := Locking Lock World PointerFault

namespace Registry

/-- `m_loggers.find(name)`. -/
def find (name : Text) (r : Registry) : Option (Option ℕ) :=
  (r.loggers.find? fun e => e.1 == name).map (·.2)

/-- `m_loggers[name] = logger`. -/
def assign (name : Text) (logger : Option ℕ) (r : Registry) : Registry :=
  { r with
    loggers := setInsert (keyLt fun e => textKey e.1) (name, logger)
      (r.loggers.filter fun e => e.1 != name) }

def erase (name : Text) (r : Registry) : Registry :=
  { r with loggers := r.loggers.filter fun e => e.1 != name }

end Registry

namespace World

def setManager (m : ManagerId) (r : Registry) (w : World) : World :=
  { w with managers := Function.update w.managers m r }

def setLogger (l : ℕ) (obj : LoggerObject) (w : World) : World :=
  { w with loggers := Function.update w.loggers l obj }

def setAppender (a : ℕ) (obj : AppenderObject) (w : World) : World :=
  { w with appenders := Function.update w.appenders a obj }

end World

/-- The object behind a pointer. -/
def deref : Option ℕ → LogM ℕ
  | some p => pure p
  | none => stop .nullDereferenced

/-- The order of `LogLevel::Level`. -/
def levelValue : Level → ℕ
  | .unknown => 0
  | .debug => 1
  | .info => 2
  | .warn => 3
  | .error => 4
  | .fatal => 5

/-! ### Appenders -/

def getFormatter (a : ℕ) : LogM (Option Text) := withLock (.appender a) do
  return ((← readData).appenders a).formatter

def setFormatter (a : ℕ) (formatter : Text) : LogM Unit := withLock (.appender a) do
  updateData fun w => w.setAppender a { w.appenders a with formatter := some formatter }

/-- `m_formatter->…` of an appender. -/
def useFormatter (a : ℕ) : LogM Text := do
  match ((← readData).appenders a).formatter with
  | some formatter => return formatter
  | none => stop .nullDereferenced

/-- `reopen`, without the file. -/
def reopen (a : ℕ) : LogM Unit := withLock (.appender a) (pure ())

/-- What a file appender does once a second. -/
def reopenLater (a : ℕ) : LogM Unit := do
  let w ← readData
  if w.now ≠ (w.appenders a).lastTime then
    reopen a
    updateData fun w' => w'.setAppender a { w'.appenders a with lastTime := w.now }

/-- `log` of `StdoutLogAppender` and `FileLogAppender`. -/
def appenderLog (level : Level) (a : ℕ) : LogM Unit := do
  let obj := (← readData).appenders a
  if levelValue level < levelValue obj.level then return ()
  else
    match obj.kind with
    | .stdout => withLock (.appender a) do
      discard (useFormatter a)
    | .file _ =>
      reopenLater a
      withLock (.appender a) do
        discard (useFormatter a)

/-- What `getYaml` of an appender puts into its tree. -/
structure AppenderYaml where
  type : ℕ
  format : Text
  level : Text
  logPath : Option Text

def appenderYaml (a : ℕ) : LogM AppenderYaml := withLock (.appender a) do
  let format ← useFormatter a
  let obj := (← readData).appenders a
  match obj.kind with
  | .stdout => return ⟨0, format, getLevelName obj.level, none⟩
  | .file filename => return ⟨1, format, getLevelName obj.level, some filename⟩

/-! ### Loggers -/

/-- `Logger::log`. -/
def loggerLog (l : ℕ) (level : Level) : LogM Unit := withLock (.logger l) do
  let obj := (← readData).loggers l
  if levelValue level < levelValue obj.level then return ()
  else obj.appenders.forM (appenderLog level)

/-- The front part of `addAppender`. -/
def ensureFormatter (l a : ℕ) : LogM Unit := do
  if (← getFormatter a).isNone then
    setFormatter a ((← readData).loggers l).formatter

def addAppender (l a : ℕ) : LogM Unit := withLock (.logger l) do
  ensureFormatter l a
  updateData fun w =>
    w.setLogger l { w.loggers l with appenders := (w.loggers l).appenders ++ [a] }

/-- What `Logger::getYaml` puts into its tree. -/
structure LoggerYaml where
  name : Text
  level : Text
  appenders : List AppenderYaml

def loggerYaml (l : ℕ) : LogM LoggerYaml := withLock (.logger l) do
  let obj := (← readData).loggers l
  let appenders ← obj.appenders.mapM appenderYaml
  return ⟨obj.name, getLevelName obj.level, appenders⟩

/-- `std::make_shared<Logger>(name)`. -/
def makeLogger (name : Text) : LogM ℕ := do
  let l := (← readData).next
  updateData fun w => { w.setLogger l { name } with next := l + 1 }
  return l

/-- `std::make_shared<StdoutLogAppender>(level)`. -/
def makeStdoutLogAppender (level : Level) : LogM ℕ := do
  let a := (← readData).next
  updateData fun w => { w.setAppender a { kind := .stdout, level } with next := a + 1 }
  return a

/-! ### The manager -/

def setLogger (m : ManagerId) (name : Text) (logger : Option ℕ) : LogM Unit :=
  withLock (.manager m) do
    updateData fun w => w.setManager m ((w.managers m).assign name logger)

def getRoot (m : ManagerId) : LogM (Option ℕ) := withLock (.manager m) do
  let r := (← readData).managers m
  match r.find (ascii "root") with
  | none => return some r.root
  | some logger => return logger

/-- `LON_LOG_ROOT`. -/
def lonLogRoot : LogM (Option ℕ) := getRoot .singleton

/-- `LON_LOG_LEVEL(logger, level) << …`.  The text `logger` stands three times in the macro; the
    temporary `LoggerWrapper` logs when it is destroyed. -/
def lonLogLevel (logger : LogM (Option ℕ)) (level : Level) : LogM Unit := do
  if (← logger).isSome then
    let l ← deref (← logger)
    if levelValue ((← readData).loggers l).level ≤ levelValue level then
      loggerLog (← deref (← logger)) level

def lonWarn (logger : LogM (Option ℕ)) : LogM Unit := lonLogLevel logger .warn

/-- `m_loggers[name]` of a name that is registered. -/
def lookup (m : ManagerId) (name : Text) : LogM (Option ℕ) := do
  return (((← readData).managers m).find name).join

def getLogger (m : ManagerId) (name : Text) (autoCreate : Bool) : LogM (Option ℕ) :=
  withLock (.manager m) do
    if (((← readData).managers m).find name).isNone then
      if autoCreate then
        let newLogger ← makeLogger name
        addAppender newLogger (← makeStdoutLogAppender .debug)
        updateData fun w => w.setManager m ((w.managers m).assign name (some newLogger))
        lookup m name
      else
        lonWarn lonLogRoot
        return none
    else lookup m name

def delLogger (m : ManagerId) (name : Text) : LogM Unit := withLock (.manager m) do
  updateData fun w => w.setManager m ((w.managers m).erase name)

def getYaml (m : ManagerId) : LogM (List LoggerYaml) := withLock (.manager m) do
  ((← readData).managers m).loggers.mapM fun it => do loggerYaml (← deref it.2)

/-- A call of a member of a manager. -/
inductive Call
  | setLogger (name : Text) (logger : Option ℕ)
  | getLogger (name : Text) (autoCreate : Bool)
  | delLogger (name : Text)
  | getRoot
  | getYaml

def Call.exec (m : ManagerId) : Call → LogM Unit
  | .setLogger name logger => Shared.setLogger m name logger
  | .getLogger name autoCreate => discard (Shared.getLogger m name autoCreate)
  | .delLogger name => Shared.delLogger m name
  | .getRoot => discard (Shared.getRoot m)
  | .getYaml => discard (Shared.getYaml m)

/-! ### The order of the locks -/

/-- Locks are taken from the top down; the warning of a manager goes to the instance. -/
def rank : Lock → ℕ
  | .manager (.other _) => 3
  | .manager .singleton => 2
  | .logger _ => 1
  | .appender _ => 0

section Below

variable {r : ℕ} {m : ManagerId} {l a : ℕ} {level : Level} {name : Text}

/-- A pointer is followed without a lock. -/
theorem below_deref (p : Option ℕ) : Below rank r (deref p) := by
  cases p with
  | none => exact below_stop _
  | some p => exact below_pure p

/-- The callers hold the lock of the appender already. -/
theorem below_useFormatter : Below rank r (useFormatter a) := by
  refine below_bind below_readData fun w => ?_
  split
  · exact below_pure _
  · exact below_stop _

/-- `getFormatter` takes the lock of its appender, which ranks lowest. -/
theorem below_getFormatter : Below rank 1 (getFormatter a) :=
  below_withLock Nat.one_pos (below_bind below_readData fun _ => below_pure _)

/-- `setFormatter` takes the lock of its appender. -/
theorem below_setFormatter (formatter : Text) : Below rank 1 (setFormatter a formatter) :=
  below_withLock Nat.one_pos (below_updateData _)

/-- Reopening takes the lock of the appender and gives it back. -/
theorem below_reopenLater : Below rank 1 (reopenLater a) := by
  refine below_bind below_readData fun w => ?_
  split
  · exact below_bind (below_withLock Nat.one_pos (below_pure _)) fun _ => below_updateData _
  · exact below_pure _

/-- `log` of an appender takes the lock again to write the line, and no other. -/
theorem below_appenderLog : Below rank 1 (appenderLog level a) := by
  have hwrite : Below rank 1 (withLock (.appender a) (discard (useFormatter a))) :=
    below_withLock Nat.one_pos (below_discard below_useFormatter)
  refine below_bind below_readData fun w => ?_
  dsimp only
  split
  · exact below_pure _
  · split
    · exact hwrite
    · exact below_bind below_reopenLater fun _ => hwrite

/-- The tree of an appender takes the lock of the appender. -/
theorem below_appenderYaml : Below rank 1 (appenderYaml a) := by
  refine below_withLock Nat.one_pos (below_bind below_useFormatter fun format => ?_)
  refine below_bind below_readData fun w => ?_
  dsimp only
  split <;> exact below_pure _

/-- A logger holds its lock while its appenders take theirs. -/
theorem below_loggerLog : Below rank 2 (loggerLog l level) := by
  refine below_withLock Nat.one_lt_two (below_bind below_readData fun w => ?_)
  dsimp only
  split
  · exact below_pure _
  · exact below_forM _ fun a => below_appenderLog

/-- What `addAppender` does with the appender first. -/
theorem below_ensureFormatter : Below rank 1 (ensureFormatter l a) := by
  refine below_bind below_getFormatter fun formatter => ?_
  split
  · exact below_bind below_readData fun w => below_setFormatter _
  · exact below_pure _

/-- It is done under the lock of the logger. -/
theorem below_addAppender : Below rank 2 (addAppender l a) :=
  below_withLock Nat.one_lt_two (below_bind below_ensureFormatter fun _ => below_updateData _)

/-- The tree of a logger takes the lock of the logger, and then those of its appenders. -/
theorem below_loggerYaml : Below rank 2 (loggerYaml l) := by
  refine below_withLock Nat.one_lt_two (below_bind below_readData fun w => ?_)
  exact below_bind (below_mapM _ fun a => below_appenderYaml) fun _ => below_pure _

/-- Objects are made without a lock. -/
theorem below_makeLogger : Below rank r (makeLogger name) :=
  below_bind below_readData fun _ => below_bind (below_updateData _) fun _ => below_pure _

/-- Making an appender takes no lock. -/
theorem below_makeStdoutLogAppender : Below rank r (makeStdoutLogAppender level) :=
  below_bind below_readData fun _ => below_bind (below_updateData _) fun _ => below_pure _

/-- The macro takes the lock of the instance. -/
theorem below_lonLogRoot : Below rank 3 lonLogRoot := by
  refine below_withLock (by decide) (below_bind below_readData fun w => ?_)
  dsimp only
  split <;> exact below_pure _

/-- A manager other than the instance may warn. -/
theorem below_lonWarn : Below rank 3 (lonWarn lonLogRoot) := by
  -- `LON_LOG_ROOT` is evaluated for the null test, for the level and for the wrapper
  refine below_bind below_lonLogRoot fun p => ?_
  split
  · refine below_bind below_lonLogRoot fun p => below_bind (below_deref p) fun l => ?_
    refine below_bind below_readData fun w => ?_
    split
    · refine below_bind below_lonLogRoot fun p => below_bind (below_deref p) fun l => ?_
      exact below_loggerLog.mono (by decide)
    · exact below_pure _
  · exact below_pure _

/-- A look-up is made under the lock of its caller. -/
theorem below_lookup : Below rank r (lookup m name) :=
  below_bind below_readData fun _ => below_pure _

/-- A manager ranks above loggers and appenders. -/
theorem two_le_rank (m : ManagerId) : 2 ≤ rank (.manager m) := by
  cases m <;> simp [rank]

/-- There are four ranks. -/
theorem rank_lt_four (k : Lock) : rank k < 4 := by
  cases k with
  | manager m => cases m <;> simp [rank]
  | logger l => simp [rank]
  | appender a => simp [rank]

/-- What runs under the lock when a logger is built. -/
theorem below_getLogger_true : Below rank 4 (getLogger m name true) := by
  have hle := two_le_rank m
  refine below_withLock (rank_lt_four _) (below_bind below_readData fun w => ?_)
  split
  · refine below_bind below_makeLogger fun l => below_bind below_makeStdoutLogAppender fun a => ?_
    refine below_bind (below_addAppender.mono hle) fun _ => ?_
    exact below_bind (below_updateData _) fun _ => below_lookup
  · exact below_lookup

/-- A manager that is not the instance ranks above it, so its warning is in order. -/
theorem below_getLogger_other (n : ℕ) : Below rank 4 (getLogger (.other n) name false) := by
  refine below_withLock (rank_lt_four _) (below_bind below_readData fun w => ?_)
  split
  · exact below_bind below_lonWarn fun _ => below_pure _
  · exact below_lookup

/-- `getRoot` takes one lock. -/
theorem below_getRoot : Below rank 4 (getRoot m) := by
  refine below_withLock (rank_lt_four _) (below_bind below_readData fun w => ?_)
  dsimp only
  split <;> exact below_pure _

/-- The tree of a manager takes the locks of its loggers under its own. -/
theorem below_getYaml : Below rank 4 (getYaml m) := by
  have hle := two_le_rank m
  refine below_withLock (rank_lt_four _) (below_bind below_readData fun w => ?_)
  exact below_mapM _ fun it => below_bind (below_deref it.2) fun l => below_loggerYaml.mono hle

/-- Only one kind of call does not keep to the order. -/
theorem below_exec {call : Call} (h : m = .singleton → ∀ name, call ≠ .getLogger name false) :
    Below rank 4 (call.exec m) := by
  cases call with
  -- under the lock of a manager these change or read its registry only
  | setLogger name logger => exact below_withLock (rank_lt_four _) (below_updateData _)
  | getLogger name autoCreate =>
    cases autoCreate with
    | true => exact below_discard below_getLogger_true
    | false =>
      cases m with
      | singleton => exact absurd rfl (h rfl name)
      | other n => exact below_discard (below_getLogger_other n)
  | delLogger name => exact below_withLock (rank_lt_four _) (below_updateData _)
  | getRoot => exact below_discard below_getRoot
  | getYaml => exact below_discard below_getYaml

end Below

/-! ### The discipline -/

section Discipline

variable {m : ManagerId} {w : World} {others : ℕ → World → World} {name : Text}

/-- A thread that holds no lock makes the call, and never tries to take the lock of the manager
    while it holds it. -/
def NeverRelocks (m : ManagerId) (w : World) (others : ℕ → World → World) (call : Call) : Prop :=
  call.exec m ⟨[], w, others⟩ ≠ .error (.relock (.manager m))

/-- A name that is registered is looked up. -/
theorem calm_getLogger (h : ((others 0 w).managers m).find name ≠ none) :
    Calm (getLogger m name false) ⟨[], w, others⟩ := by
  have hsome : ¬ (((others 0 w).managers m).find name).isNone = true := by
    rwa [Option.isNone_iff_eq_none]
  apply calm_withLock List.not_mem_nil
  -- under the lock the look-up reads what the other threads have left
  rw [Calm, bind_of_ok rfl]
  show Calm (if (((others 0 w).managers m).find name).isNone = true then _ else _) _
  rw [if_neg hsome]
  exact below_lookup (r := 0) _ fun k _ => Nat.zero_le (rank k)

/-- The warning asks the instance for its root, under the lock of the instance. -/
theorem getLogger_of_missing (h : ((others 0 w).managers .singleton).find name = none) :
    getLogger .singleton name false ⟨[], w, others⟩ =
      .error (.relock (.manager .singleton)) := by
  have hnone : (((others 0 w).managers .singleton).find name).isNone = true := by
    rw [h]
    rfl
  apply withLock_of_error List.not_mem_nil
  rw [bind_of_ok rfl]
  refine (congrFun (if_pos hnone) _).trans ?_
  -- the first of the three evaluations of `LON_LOG_ROOT`
  apply bind_of_error
  apply bind_of_error
  exact withLock_of_held List.mem_cons_self

/-- In any other call no lock is taken twice, and all are given back. -/
theorem calm_exec {call : Call} (h : ¬ ∃ name, m = .singleton ∧ call = .getLogger name false ∧
    ((others 0 w).managers m).find name = none) : Calm (call.exec m) ⟨[], w, others⟩ := by
  by_cases hcall : m = .singleton ∧ ∃ name, call = .getLogger name false
  · obtain ⟨rfl, name, rfl⟩ := hcall
    apply calm_discard
    apply calm_getLogger
    exact fun hmissing => h ⟨name, rfl, rfl, hmissing⟩
  · -- all others keep to the order of the locks, whatever the registry holds
    have hbelow : Below rank 4 (call.exec m) :=
      below_exec fun hm name hname => hcall ⟨hm, name, hname⟩
    exact hbelow _ fun _ hk => absurd hk List.not_mem_nil

/-- **The lock discipline.**  A call deadlocks exactly when it asks the instance for a logger that
    is not registered, and not to be created. -/
theorem neverRelocks_iff (m : ManagerId) (w : World) (others : ℕ → World → World) (call : Call) :
    NeverRelocks m w others call ↔
      ¬ ∃ name, m = .singleton ∧ call = .getLogger name false ∧
        ((others 0 w).managers m).find name = none := by
  constructor
  · rintro h ⟨name, rfl, rfl, hmissing⟩
    apply h
    show Except.map _ (getLogger .singleton name false _) = _
    rw [getLogger_of_missing hmissing]
    rfl
  · exact fun h => (calm_exec h).not_relock _

/-- The managers as they are constructed, with a root logger that writes to the terminal. -/
def initial : World where
  managers := fun _ => ⟨[(ascii "root", some 0)], 0⟩
  loggers := fun _ => { name := ascii "root", appenders := [0] }
  appenders := fun _ => { kind := .stdout, level := .debug, formatter := some defaultFormat }
  next := 1
  now := 0

/-- `LON_LOG_MANAGER.getLogger("a")` at the start. -/
theorem getLogger_deadlock : ¬ ∀ (m : ManagerId) (w : World) (others : ℕ → World → World)
    (call : Call), NeverRelocks m w others call := by
  intro h
  have hnever := h .singleton initial (fun _ w => w) (.getLogger (ascii "a") false)
  exact (neverRelocks_iff _ _ _ _).mp hnever ⟨_, rfl, rfl, by decide⟩

end Discipline

end LoNetfw.Log.Shared
