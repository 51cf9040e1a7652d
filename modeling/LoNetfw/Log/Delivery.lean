import LoNetfw.Basis.StepSystem
import LoNetfw.Log.LockDiscipline
import LoNetfw.Log.LogFormatter

namespace LoNetfw.Log

open Basis Util
open Shared (levelValue)

/-!
# `Logger::log` — what the appenders of a logger receive

Threads log through loggers that share appenders, and change the appenders and levels meanwhile.
A call of `log` holds the lock of its logger while it goes through the appenders, and takes the lock
of each appender for one line.

* `LogRun.step` — the statements of the macros, the calls of `Logger` and the steps of their loops;
* `deliveries` — the lines that an appender should get for a call;
* `delivered_once` — every appender gets these, each once, in one order for each logger, and no
  appender of a logger is without a formatter.

What becomes of a string that is inserted into the stream of an appender is left to the stream.
-/

/-- `getColorStr`, for the number of a color. -/
def getColorStr (str : Text) (color : ℕ) : Text :=
  if color < 1 then str
  else 27 :: ascii "[" ++ natText (29 + color) ++ ascii "m" ++ str ++ 27 :: ascii "[0m"

/-- The color of `StdoutLogAppender::log`. -/
def levelColor : Level → ℕ
  | .info => 3
  | .warn => 4
  | .error => 2
  | .fatal => 6
  | .unknown | .debug => 0

/-- A line of a logger, as it is inserted into the stream of an appender. -/
structure Line where
  logger : ℕ
  level : Level
  event : LogEvent
  text : Text

/-- A `LogAppender`, with the lines it was given. -/
structure AppenderCell where
  kind : AppenderKind
  level : Level
  formatter : Option LogFormatter
  lines : List Line

/-- A call of `Logger::log` that passes the level, with `m_appenders`. -/
structure LogCall where
  level : Level
  event : LogEvent
  appenders : List ℕ

/-- A `Logger`, with the thread that holds its lock and the calls that have passed its level. -/
structure LoggerCell where
  name : Text
  level : Level
  appenders : List ℕ
  formatter : LogFormatter
  holder : Option ℕ
  history : List LogCall

/-- Where a thread is. -/
inductive LoggerPc
  | idle
  /-- In front of the lock of `Logger::log`. -/
  | log (l : ℕ) (level : Level) (event : LogEvent)
  /-- In the loop of `Logger::log`, with the appenders that are left. -/
  | writing (l : ℕ) (level : Level) (event : LogEvent) (rest : List ℕ)
  /-- In `addAppender`, with the result of `!appender->getFormatter()`. -/
  | adding (l a : ℕ) (isNull : Bool)

def LoggerPc.isIdle : LoggerPc → Bool
  | .idle => true
  | .log _ _ _ | .writing _ _ _ _ | .adding _ _ _ => false

inductive LogAction
  /-- `LON_LOG_LEVEL`: the test of the level; the wrapper that is built then logs the event. -/
  | statement (i l : ℕ) (event : LogEvent)
  /-- A call of `log`, or of `debug` and the like. -/
  | call (i l : ℕ) (level : Level) (event : LogEvent)
  | addAppender (i l a : ℕ)
  | delAppender (i l a : ℕ)
  | clearAppenders (i l : ℕ)
  | setLevel (l : ℕ) (level : Level)
  /-- `setFormatter` of an appender, with a pointer that is not null. -/
  | setFormatter (a : ℕ) (formatter : LogFormatter)
  /-- A thread goes on. -/
  | next (i : ℕ)

structure LogRun where
  loggers : ℕ → LoggerCell
  appenders : ℕ → AppenderCell
  threads : ℕ → LoggerPc
  /-- A null formatter was used. -/
  fault : Bool

namespace LogRun

def setLogger (s : LogRun) (l : ℕ) (logger : LoggerCell) : LogRun :=
  { s with loggers := Function.update s.loggers l logger }

def setAppender (s : LogRun) (a : ℕ) (appender : AppenderCell) : LogRun :=
  { s with appenders := Function.update s.appenders a appender }

def setThread (s : LogRun) (i : ℕ) (pc : LoggerPc) : LogRun :=
  { s with threads := Function.update s.threads i pc }

section Updates

variable (s : LogRun) (l a i : ℕ)

@[simp] theorem setLogger_self (logger : LoggerCell) :
    (s.setLogger l logger).loggers l = logger := Function.update_self ..

/-- A change of a logger leaves the others alone. -/
theorem setLogger_of_ne {k : ℕ} (h : k ≠ l) (logger : LoggerCell) :
    (s.setLogger l logger).loggers k = s.loggers k := Function.update_of_ne h _ _

@[simp] theorem setAppender_self (appender : AppenderCell) :
    (s.setAppender a appender).appenders a = appender := Function.update_self ..

/-- A change of an appender leaves the others alone. -/
theorem setAppender_of_ne {b : ℕ} (h : b ≠ a) (appender : AppenderCell) :
    (s.setAppender a appender).appenders b = s.appenders b := Function.update_of_ne h _ _

@[simp] theorem setThread_self (pc : LoggerPc) : (s.setThread i pc).threads i = pc :=
  Function.update_self ..

@[simp] theorem setThread_loggers (pc : LoggerPc) : (s.setThread i pc).loggers = s.loggers := rfl

@[simp] theorem setThread_appenders (pc : LoggerPc) : (s.setThread i pc).appenders = s.appenders :=
  rfl

@[simp] theorem setLogger_appenders (logger : LoggerCell) :
    (s.setLogger l logger).appenders = s.appenders := rfl

/-- A step of a thread leaves the others alone. -/
theorem setThread_of_ne {j : ℕ} (h : j ≠ i) (pc : LoggerPc) :
    (s.setThread i pc).threads j = s.threads j := Function.update_of_ne h _ _

end Updates

section Step

variable (getDateTime : UInt64 → Text → Text)

/-- `log` of the appender `a`, called by the logger `l`. -/
def write (s : LogRun) (l : ℕ) (level : Level) (event : LogEvent) (a : ℕ) : LogRun :=
  let appender := s.appenders a
  if levelValue level < levelValue appender.level then s
  else
    match appender.formatter with
    | none => { s with fault := true }
    | some formatter =>
      let str := formatter.format getDateTime (s.loggers l).name level event
      let text :=
        match appender.kind with
        | .stdout => getColorStr str (levelColor level)
        | .file _ => str
      s.setAppender a { appender with lines := appender.lines ++ [⟨l, level, event, text⟩] }

def threadStep (s : LogRun) (i : ℕ) : Option LogRun :=
  match s.threads i with
  | .idle => none
  | .log l level event =>
    let logger := s.loggers l
    if logger.holder = none then
      if levelValue level < levelValue logger.level then some (s.setThread i .idle)
      else
        some ((s.setLogger l { logger with
          holder := some i
          history := logger.history ++ [⟨level, event, logger.appenders⟩] }).setThread i
            (.writing l level event logger.appenders))
    else none
  | .writing l _ _ [] =>
    some ((s.setLogger l { s.loggers l with holder := none }).setThread i .idle)
  | .writing l level event (a :: rest) =>
    some ((s.write getDateTime l level event a).setThread i (.writing l level event rest))
  | .adding l a isNull =>
    let logger := s.loggers l
    let s := if isNull then
        s.setAppender a { s.appenders a with formatter := some logger.formatter }
      else s
    some ((s.setLogger l { logger with
      appenders := logger.appenders ++ [a]
      holder := none }).setThread i .idle)

/-- The thread is in no call, and the lock of the logger is free. -/
def free (s : LogRun) (i l : ℕ) : Bool := (s.threads i).isIdle && (s.loggers l).holder.isNone

def step (s : LogRun) : LogAction → Option LogRun
  | .statement i l event =>
    if (s.threads i).isIdle then
      some (if levelValue (s.loggers l).level ≤ levelValue event.level then
        s.setThread i (.log l event.level event) else s)
    else none
  | .call i l level event =>
    if (s.threads i).isIdle then some (s.setThread i (.log l level event)) else none
  | .addAppender i l a =>
    if s.free i l then
      some ((s.setLogger l { s.loggers l with holder := some i }).setThread i
        (.adding l a (s.appenders a).formatter.isNone))
    else none
  | .delAppender i l a =>
    if s.free i l then
      some (s.setLogger l { s.loggers l with appenders := (s.loggers l).appenders.erase a })
    else none
  | .clearAppenders i l =>
    if s.free i l then some (s.setLogger l { s.loggers l with appenders := [] }) else none
  | .setLevel l level => some (s.setLogger l { s.loggers l with level := level })
  | .setFormatter a formatter =>
    some (s.setAppender a { s.appenders a with formatter := some formatter })
  | .next i => s.threadStep getDateTime i

end Step

/-- The formatter of a new logger. -/
def defaultFormatter : LogFormatter := (LogFormatter.new defaultFormat).toOption.getD ⟨[], []⟩

/-- New loggers with names and levels, and new appenders. -/
def new (loggers : ℕ → Text × Level) (appenders : ℕ → AppenderKind × Level) : LogRun where
  loggers l := ⟨(loggers l).1, (loggers l).2, [], defaultFormatter, none, []⟩
  appenders a := ⟨(appenders a).1, (appenders a).2, none, []⟩
  threads _ := .idle
  fault := false

end LogRun

/-! ### Lines -/

/-- The lines that an appender with a level should get for a call. -/
def deliveries (level : Level) (a : ℕ) (c : LogCall) : List (Level × LogEvent) :=
  if levelValue c.level < levelValue level then []
  else List.replicate (c.appenders.count a) (c.level, c.event)

/-- Those that the thread still has to write. -/
def LoggerPc.pending (level : Level) (a : ℕ) : LoggerPc → List (Level × LogEvent)
  | .writing _ l event rest => deliveries level a ⟨l, event, rest⟩
  | .idle | .log _ _ _ | .adding _ _ _ => []

/-- The logger whose lock the thread holds. -/
def LoggerPc.holds : LoggerPc → Option ℕ
  | .writing l _ _ _ | .adding l _ _ => some l
  | .idle | .log _ _ _ => none

/-- A call that has no appenders left writes nothing. -/
theorem deliveries_nil (level lv : Level) (a : ℕ) (event : LogEvent) :
    deliveries level a ⟨lv, event, []⟩ = [] := by
  unfold deliveries
  split <;> rfl

/-- What a call writes, appender by appender. -/
theorem deliveries_cons (level lv : Level) (a b : ℕ) (event : LogEvent) (rest : List ℕ) :
    deliveries level b ⟨lv, event, a :: rest⟩ =
      (if a = b ∧ ¬ levelValue lv < levelValue level then [(lv, event)] else []) ++
        deliveries level b ⟨lv, event, rest⟩ := by
  unfold deliveries
  dsimp only
  by_cases hlevel : levelValue lv < levelValue level
  · simp [hlevel]
  · by_cases hab : a = b
    · simp [hlevel, hab, List.replicate_succ]
    · simp [hlevel, hab]

namespace LogRun

variable {getDateTime : UInt64 → Text → Text} {s s' : LogRun} {act : LogAction} {i l a : ℕ}

/-- The lines of the logger that the appender was given. -/
def received (s : LogRun) (l a : ℕ) : List (Level × LogEvent) :=
  ((s.appenders a).lines.filter (·.logger == l)).map fun x => (x.level, x.event)

/-- The lines of a call that is in its loop. -/
def pending (s : LogRun) (l a : ℕ) : List (Level × LogEvent) :=
  (s.loggers l).holder.elim [] fun i => (s.threads i).pending (s.appenders a).level a

/-! ### Invariant -/

/-- What a thread may rely on where it is. -/
def PcOk (s : LogRun) : LoggerPc → Prop
  | .writing _ _ _ rest => ∀ a ∈ rest, (s.appenders a).formatter ≠ none
  | .adding _ a isNull => isNull = false → (s.appenders a).formatter ≠ none
  | .idle | .log _ _ _ => True

structure Inv (s : LogRun) : Prop where
  fault : s.fault = false
  holder : ∀ l i, (s.loggers l).holder = some i ↔ (s.threads i).holds = some l
  attached : ∀ l, ∀ a ∈ (s.loggers l).appenders, (s.appenders a).formatter ≠ none
  threads : ∀ i, s.PcOk (s.threads i)
  delivered : ∀ l a, s.received l a ++ s.pending l a =
    (s.loggers l).history.flatMap (deliveries (s.appenders a).level a)

/-- Nothing has been logged at first, and no lock is held. -/
theorem inv_new (loggers : ℕ → Text × Level) (appenders : ℕ → AppenderKind × Level) :
    (new loggers appenders).Inv where
  fault := rfl
  holder _ _ := iff_of_false (Option.some_ne_none _).symm (Option.some_ne_none _).symm
  attached _ _ ha := absurd ha List.not_mem_nil
  threads _ := trivial
  delivered _ _ := rfl

/-- No appender loses its formatter, and none changes its level. -/
structure Formats (s s' : LogRun) : Prop where
  formatter : ∀ a, (s.appenders a).formatter ≠ none → (s'.appenders a).formatter ≠ none
  level : ∀ a, (s'.appenders a).level = (s.appenders a).level

/-- A step that leaves the appenders alone. -/
theorem Formats.of_eq (h : s'.appenders = s.appenders) : Formats s s' :=
  ⟨fun _ ha => h ▸ ha, fun _ => h ▸ rfl⟩

/-- What a thread relies on is not taken from it. -/
theorem Formats.pcOk (h : Formats s s') {pc : LoggerPc} (hpc : s.PcOk pc) : s'.PcOk pc := by
  cases pc with
  | writing l level event rest => exact fun a ha => h.formatter a (hpc a ha)
  | adding l a isNull => exact fun hnull => h.formatter a (hpc hnull)
  | idle => trivial
  | log l level event => trivial

/-- What a step has to show: an appender is given lines of the loops that go on, and calls that are
    new in a history add to what is to be written. -/
theorem Inv.of_step (h : s.Inv) (hfault : s'.fault = false) (hformats : Formats s s')
    (hholder : ∀ l i, (s'.loggers l).holder = some i ↔ (s'.threads i).holds = some l)
    (hattached : ∀ l, ∀ a ∈ (s'.loggers l).appenders,
      a ∈ (s.loggers l).appenders ∨ (s'.appenders a).formatter ≠ none)
    (hthreads : ∀ i, s'.threads i = s.threads i ∨ s'.PcOk (s'.threads i))
    (hdelivered : ∀ l a, ∃ lines calls, s'.received l a = s.received l a ++ lines ∧
      (s'.loggers l).history = (s.loggers l).history ++ calls ∧
      lines ++ s'.pending l a =
        s.pending l a ++ calls.flatMap (deliveries (s.appenders a).level a)) : s'.Inv where
  fault := hfault
  holder := hholder
  attached l a ha := (hattached l a ha).elim (fun ha => hformats.formatter a (h.attached l a ha)) id
  threads i := (hthreads i).elim (fun hi => hi ▸ hformats.pcOk (h.threads i)) id
  delivered l a := by
    -- what an appender has received and what is on its way grow by the same lines as the history
    obtain ⟨lines, calls, hreceived, hhistory, hnew⟩ := hdelivered l a
    rw [hreceived, hhistory, hformats.level, List.append_assoc, hnew, ← List.append_assoc,
      h.delivered l a, List.flatMap_append]

/-- What is still to be written depends on the holder of the lock and the level of the appender. -/
theorem pending_congr (hholder : (s'.loggers l).holder = (s.loggers l).holder)
    (hlevel : (s'.appenders a).level = (s.appenders a).level)
    (hthreads : ∀ j, (s.loggers l).holder = some j → s'.threads j = s.threads j) :
    s'.pending l a = s.pending l a := by
  unfold pending
  rw [hholder, hlevel]
  cases hl : (s.loggers l).holder with
  | none => rfl
  | some j => simp only [Option.elim_some, hthreads j hl]

/-- A step that logs nothing. -/
theorem Inv.of_quiet (h : s.Inv) (hfault : s'.fault = false) (hformats : Formats s s')
    (hlines : ∀ a, (s'.appenders a).lines = (s.appenders a).lines)
    (hhistory : ∀ l, (s'.loggers l).history = (s.loggers l).history)
    (hholder : ∀ l i, (s'.loggers l).holder = some i ↔ (s'.threads i).holds = some l)
    (hattached : ∀ l, ∀ a ∈ (s'.loggers l).appenders,
      a ∈ (s.loggers l).appenders ∨ (s'.appenders a).formatter ≠ none)
    (hthreads : ∀ i, s'.threads i = s.threads i ∨ s'.PcOk (s'.threads i))
    (hpending : ∀ l a, s'.pending l a = s.pending l a) : s'.Inv := by
  refine h.of_step hfault hformats hholder hattached hthreads fun l a => ⟨[], [], ?_, ?_, ?_⟩
  · rw [List.append_nil, received, hlines]
    rfl
  · rw [hhistory, List.append_nil]
  · rw [hpending, List.flatMap_nil, List.append_nil, List.nil_append]

/-! ### Steps -/

/-- A thread that holds no lock moves to where it holds none. -/
theorem Inv.setThread (h : s.Inv) {pc : LoggerPc} (hold : (s.threads i).holds = none)
    (hpc : pc.holds = none) (hok : s.PcOk pc) : (s.setThread i pc).Inv := by
  -- `i` holds no logger, so the threads that hold one are others
  have hne : ∀ {l j}, (s.threads j).holds = some l → j ≠ i := by
    rintro l j hj rfl
    exact absurd (hold.symm.trans hj) (Option.some_ne_none l).symm
  refine h.of_quiet h.fault (.of_eq rfl) (fun _ => rfl) (fun _ => rfl) (fun l j => ?_)
    (fun _ _ ha => .inl ha) (fun j => ?_) fun l a => ?_
  · by_cases hj : j = i
    · subst hj
      rw [setThread_self, hpc]
      exact iff_of_false (fun hl => hne ((h.holder l j).mp hl) rfl) (Option.some_ne_none l).symm
    · rw [setThread_of_ne s i hj]
      exact h.holder l j
  · by_cases hj : j = i
    · subst hj
      rw [setThread_self]
      exact .inr hok
    · exact .inl (setThread_of_ne s i hj pc)
  · exact pending_congr rfl rfl fun j hj => setThread_of_ne s i (hne ((h.holder l j).mp hj)) pc

/-- The appenders of a logger become fewer, or its level changes. -/
theorem Inv.setLogger (h : s.Inv) {logger : LoggerCell}
    (hholder : logger.holder = (s.loggers l).holder)
    (hhistory : logger.history = (s.loggers l).history)
    (happenders : logger.appenders ⊆ (s.loggers l).appenders) : (s.setLogger l logger).Inv := by
  -- no logger changes its holder or its history
  have hloggers : ∀ k, ((s.setLogger l logger).loggers k).holder = (s.loggers k).holder ∧
      ((s.setLogger l logger).loggers k).history = (s.loggers k).history ∧
      ((s.setLogger l logger).loggers k).appenders ⊆ (s.loggers k).appenders := by
    intro k
    by_cases hk : k = l
    · subst hk
      rw [setLogger_self]
      exact ⟨hholder, hhistory, happenders⟩
    · rw [setLogger_of_ne s l hk]
      exact ⟨rfl, rfl, List.Subset.refl _⟩
  refine h.of_quiet h.fault (.of_eq rfl) (fun _ => rfl) (fun k => (hloggers k).2.1) (fun k j => ?_)
    (fun k a ha => .inl ((hloggers k).2.2 ha)) (fun _ => .inl rfl) fun k a => ?_
  · rw [(hloggers k).1]
    exact h.holder k j
  · exact pending_congr (hloggers k).1 rfl fun _ _ => rfl

/-- An appender gets a formatter. -/
theorem formats_setFormatter (s : LogRun) (a : ℕ) (formatter : LogFormatter) :
    Formats s (s.setAppender a { s.appenders a with formatter := some formatter }) ∧
      ∀ b, ((s.setAppender a { s.appenders a with
        formatter := some formatter }).appenders b).lines = (s.appenders b).lines := by
  -- a formatter is set and none is taken away; level and lines stay
  have happenders : ∀ b, ((s.appenders b).formatter ≠ none →
      ((s.setAppender a { s.appenders a with formatter := some formatter }).appenders b).formatter
        ≠ none) ∧
      ((s.setAppender a { s.appenders a with formatter := some formatter }).appenders b).level
        = (s.appenders b).level ∧
      ((s.setAppender a { s.appenders a with formatter := some formatter }).appenders b).lines
        = (s.appenders b).lines := by
    intro b
    by_cases hb : b = a
    · subst hb
      rw [setAppender_self]
      exact ⟨fun _ => Option.some_ne_none _, rfl, rfl⟩
    · rw [setAppender_of_ne s a hb]
      exact ⟨id, rfl, rfl⟩
  exact ⟨⟨fun b => (happenders b).1, fun b => (happenders b).2.1⟩, fun b => (happenders b).2.2⟩

/-- A formatter may be set at any time. -/
theorem Inv.setFormatter (h : s.Inv) (formatter : LogFormatter) :
    (s.setAppender a { s.appenders a with formatter := some formatter }).Inv := by
  obtain ⟨hformats, hlines⟩ := formats_setFormatter s a formatter
  exact h.of_quiet h.fault hformats hlines (fun _ => rfl) h.holder (fun _ _ ha => .inl ha)
    (fun _ => .inl rfl) fun l b => pending_congr rfl (hformats.level b) fun _ _ => rfl

section Locks

variable {logger : LoggerCell} {pc : LoggerPc}

/-- A thread takes the lock of a logger. -/
theorem Inv.holder_take (h : s.Inv) (hold : (s.threads i).holds = none)
    (hfree : (s.loggers l).holder = none) (hlogger : logger.holder = some i)
    (hpc : pc.holds = some l) (k j : ℕ) :
    (((s.setLogger l logger).setThread i pc).loggers k).holder = some j ↔
      (((s.setLogger l logger).setThread i pc).threads j).holds = some k := by
  show ((s.setLogger l logger).loggers k).holder = some j ↔ _
  by_cases hk : k = l <;> by_cases hj : j = i
  · subst hk hj
    rw [setLogger_self, setThread_self]
    exact iff_of_true hlogger hpc
  · subst hk
    rw [setLogger_self, setThread_of_ne _ i hj, hlogger]
    -- nobody else holds `l`, which was free,
    refine iff_of_false (fun hi => hj (Option.some.inj hi).symm) fun hholds => ?_
    exact absurd (hfree.symm.trans ((h.holder k j).mpr hholds)) (Option.some_ne_none j).symm
  · subst hj
    rw [setLogger_of_ne s l hk, setThread_self, hpc]
    -- and `i` holds nothing else
    refine iff_of_false (fun hholder => ?_) fun hl => hk (Option.some.inj hl).symm
    exact absurd (hold.symm.trans ((h.holder k j).mp hholder)) (Option.some_ne_none k).symm
  · rw [setLogger_of_ne s l hk, setThread_of_ne _ i hj]
    exact h.holder k j

/-- A thread releases the lock that it holds. -/
theorem Inv.holder_release (h : s.Inv) (hold : (s.threads i).holds = some l)
    (hlogger : logger.holder = none) (hpc : pc.holds = none) (k j : ℕ) :
    (((s.setLogger l logger).setThread i pc).loggers k).holder = some j ↔
      (((s.setLogger l logger).setThread i pc).threads j).holds = some k := by
  have hholder := (h.holder l i).mpr hold
  show ((s.setLogger l logger).loggers k).holder = some j ↔ _
  by_cases hk : k = l <;> by_cases hj : j = i
  · subst hk hj
    rw [setLogger_self, setThread_self, hlogger, hpc]
    exact iff_of_false (Option.some_ne_none _).symm (Option.some_ne_none _).symm
  · subst hk
    rw [setLogger_self, setThread_of_ne _ i hj, hlogger]
    -- nobody but `i` has held `l`
    refine iff_of_false (Option.some_ne_none j).symm fun hholds => hj ?_
    exact Option.some.inj (((h.holder k j).mpr hholds).symm.trans hholder)
  · subst hj
    rw [setLogger_of_ne s l hk, setThread_self, hpc]
    refine iff_of_false (fun hholder' => hk ?_) (Option.some_ne_none k).symm
    exact Option.some.inj (((h.holder k j).mp hholder').symm.trans hold)
  · rw [setLogger_of_ne s l hk, setThread_of_ne _ i hj]
    exact h.holder k j

end Locks

/-! ### What is left to write -/

/-- When the lock is free no call is in its loop. -/
theorem pending_of_free (hfree : (s.loggers l).holder = none) : s.pending l a = [] := by
  rw [pending, hfree]
  rfl

/-- Else it is the call of the thread that holds it. -/
theorem pending_of_holder (hholder : (s.loggers l).holder = some i) :
    s.pending l a = (s.threads i).pending (s.appenders a).level a := by
  rw [pending, hholder]
  rfl

/-- A thread in a call on one logger leaves what the others have to write. -/
theorem Inv.pending_of_ne (h : s.Inv) (hold : ∀ k, (s.threads i).holds = some k → k = l) {k b : ℕ}
    (hk : k ≠ l) (hlevel : (s'.appenders b).level = (s.appenders b).level)
    (hlogger : s'.loggers k = s.loggers k)
    (hthreads : ∀ j, j ≠ i → s'.threads j = s.threads j) : s'.pending k b = s.pending k b := by
  refine pending_congr (congrArg _ hlogger) hlevel fun j hj => hthreads j ?_
  rintro rfl
  exact hk (hold k ((h.holder k j).mp hj))

section Locks

variable {logger : LoggerCell} {pc : LoggerPc}

/-- A thread takes the lock of a logger; what it is going to write there are the calls that are new
    in the history. -/
theorem Inv.take (h : s.Inv) {calls : List LogCall} (hold : (s.threads i).holds = none)
    (hfree : (s.loggers l).holder = none) (hlogger : logger.holder = some i)
    (happenders : logger.appenders = (s.loggers l).appenders)
    (hhistory : logger.history = (s.loggers l).history ++ calls) (hpc : pc.holds = some l)
    (hok : s.PcOk pc) (hpending : ∀ b, pc.pending (s.appenders b).level b =
      calls.flatMap (deliveries (s.appenders b).level b)) :
    ((s.setLogger l logger).setThread i pc).Inv := by
  refine h.of_step h.fault (.of_eq rfl) (h.holder_take hold hfree hlogger hpc) (fun k a ha => ?_)
    (fun j => ?_) fun k b => ?_
  · left
    by_cases hk : k = l
    · subst hk
      rwa [setThread_loggers, setLogger_self, happenders] at ha
    · rwa [setThread_loggers, setLogger_of_ne s l hk] at ha
  · by_cases hj : j = i
    · subst hj
      rw [setThread_self]
      exact .inr hok
    · exact .inl (setThread_of_ne _ i hj _)
  · by_cases hk : k = l
    · subst hk
      -- the call is in the history, and all of its lines are on their way
      refine ⟨[], calls, (List.append_nil _).symm, ?_, ?_⟩
      · rw [setThread_loggers, setLogger_self, hhistory]
      · have hholder : (((s.setLogger k logger).setThread i pc).loggers k).holder = some i := by
          rw [setThread_loggers, setLogger_self, hlogger]
        rw [pending_of_free hfree, pending_of_holder hholder, setThread_self]
        exact hpending b
    · refine ⟨[], [], (List.append_nil _).symm, ?_, ?_⟩
      · rw [setThread_loggers, setLogger_of_ne s l hk, List.append_nil]
      · rw [List.flatMap_nil, List.append_nil, List.nil_append]
        refine h.pending_of_ne (fun k' hk' => ?_) hk rfl (setLogger_of_ne s l hk _)
          fun j hj => setThread_of_ne _ i hj _
        exact absurd (hold.symm.trans hk') (Option.some_ne_none k').symm

/-- A thread that has nothing left to write releases the lock of a logger. -/
theorem Inv.release (h : s.Inv) (hold : (s.threads i).holds = some l)
    (hlogger : logger.holder = none) (hhistory : logger.history = (s.loggers l).history)
    (happenders : ∀ a ∈ logger.appenders,
      a ∈ (s.loggers l).appenders ∨ (s.appenders a).formatter ≠ none)
    (hpending : ∀ b, (s.threads i).pending (s.appenders b).level b = []) :
    ((s.setLogger l logger).setThread i .idle).Inv := by
  refine h.of_quiet h.fault (.of_eq rfl) (fun _ => rfl) (fun k => ?_)
    (h.holder_release hold hlogger rfl) (fun k a ha => ?_) (fun j => ?_) fun k b => ?_
  · by_cases hk : k = l
    · subst hk
      rw [setThread_loggers, setLogger_self, hhistory]
    · rw [setThread_loggers, setLogger_of_ne s l hk]
  · by_cases hk : k = l
    · subst hk
      rw [setThread_loggers, setLogger_self] at ha
      exact happenders a ha
    · rw [setThread_loggers, setLogger_of_ne s l hk] at ha
      exact .inl ha
  · by_cases hj : j = i
    · subst hj
      rw [setThread_self]
      exact .inr trivial
    · exact .inl (setThread_of_ne _ i hj _)
  · by_cases hk : k = l
    · subst hk
      have hfree : (((s.setLogger k logger).setThread i .idle).loggers k).holder = none := by
        rw [setThread_loggers, setLogger_self, hlogger]
      -- nothing is on its way any more
      rw [pending_of_free hfree, pending_of_holder ((h.holder k i).mpr hold), hpending]
    · refine h.pending_of_ne (fun k' hk' => ?_) hk rfl (setLogger_of_ne s l hk _)
        fun j hj => setThread_of_ne _ i hj _
      exact Option.some.inj (hk'.symm.trans hold)

end Locks

/-- What an appender with a formatter does for a call. -/
theorem write_spec (getDateTime : UInt64 → Text → Text) (l : ℕ) (level : Level) (event : LogEvent)
    (hformatter : (s.appenders a).formatter ≠ none) :
    (s.write getDateTime l level event a).fault = s.fault ∧
      (s.write getDateTime l level event a).loggers = s.loggers ∧
      (s.write getDateTime l level event a).threads = s.threads ∧
      Formats s (s.write getDateTime l level event a) ∧
      ∀ k b, (s.write getDateTime l level event a).received k b = s.received k b ++
        if k = l ∧ a = b ∧ ¬ levelValue level < levelValue (s.appenders b).level then
          [(level, event)] else [] := by
  obtain ⟨formatter, hsome⟩ := Option.ne_none_iff_exists'.mp hformatter
  unfold LogRun.write
  dsimp only
  split
  · next hlevel =>
    refine ⟨rfl, rfl, rfl, .of_eq rfl, fun k b => ?_⟩
    rw [if_neg, List.append_nil]
    -- below the level of the appender the line is dropped
    rintro ⟨-, rfl, hnot⟩
    exact hnot hlevel
  · next hlevel =>
    rw [hsome]
    refine ⟨rfl, rfl, rfl, ⟨fun b hb => ?_, fun b => ?_⟩, fun k b => ?_⟩
    · by_cases hba : b = a
      · subst hba
        rw [setAppender_self]
        exact Option.some_ne_none formatter
      · rwa [setAppender_of_ne s a hba]
    · by_cases hba : b = a
      · subst hba
        rw [setAppender_self]
      · rw [setAppender_of_ne s a hba]
    · by_cases hba : b = a
      · subst hba
        unfold received
        rw [setAppender_self, List.filter_append, List.map_append]
        -- the line is noted under the logger that wrote it
        by_cases hk : k = l
        · simp [hk, hlevel]
        · simp [hk, Ne.symm hk]
      · unfold received
        rw [setAppender_of_ne s a hba, if_neg, List.append_nil]
        rintro ⟨-, rfl, -⟩
        exact hba rfl

/-- One turn of the loop. -/
theorem Inv.write (h : s.Inv) {level : Level} {event : LogEvent} {rest : List ℕ}
    (hpc : s.threads i = .writing l level event (a :: rest)) :
    ((s.write getDateTime l level event a).setThread i (.writing l level event rest)).Inv := by
  have hok : s.PcOk (.writing l level event (a :: rest)) := hpc ▸ h.threads i
  have hold : (s.threads i).holds = some l := by rw [hpc]; rfl
  obtain ⟨hfault, hloggers, hthreads, hformats, hreceived⟩ :=
    write_spec getDateTime l level event (hok a List.mem_cons_self)
  -- of the write only these five facts are used
  generalize s.write getDateTime l level event a = t
    at hfault hloggers hthreads hformats hreceived ⊢
  have hne : ∀ j, j ≠ i → (t.setThread i (.writing l level event rest)).threads j = s.threads j :=
    fun j hj => (setThread_of_ne t i hj _).trans (congrFun hthreads j)
  refine h.of_step (hfault.trans h.fault) ⟨hformats.formatter, hformats.level⟩ (fun k j => ?_)
    (fun k b hb => .inl ?_) (fun j => ?_) fun k b => ?_
  · rw [setThread_loggers, hloggers, h.holder]
    by_cases hj : j = i
    · subst hj
      rw [setThread_self, hold]
      rfl
    · rw [hne j hj]
  · rwa [setThread_loggers, hloggers] at hb
  · by_cases hj : j = i
    · subst hj
      rw [setThread_self]
      exact .inr fun b hb => hformats.formatter b (hok b (List.mem_cons_of_mem a hb))
    · exact .inl (hne j hj)
  · refine ⟨_, [], hreceived k b, ?_, ?_⟩
    · rw [setThread_loggers, hloggers, List.append_nil]
    · rw [List.flatMap_nil, List.append_nil]
      by_cases hk : k = l
      · subst hk
        have hholder := (h.holder k i).mpr hold
        have hholder' :
            ((t.setThread i (.writing k level event rest)).loggers k).holder = some i := by
          rw [setThread_loggers, hloggers, hholder]
        rw [pending_of_holder hholder, pending_of_holder hholder', hpc, setThread_self,
          setThread_appenders, hformats.level]
        -- the line that was on its way first has arrived
        simp only [LoggerPc.pending, deliveries_cons, true_and]
      · rw [if_neg fun hand => hk hand.1, List.nil_append]
        refine h.pending_of_ne (fun k' hk' => ?_) hk (hformats.level b) (congrFun hloggers k) hne
        exact Option.some.inj (hk'.symm.trans hold)

/-- The test for a thread that is in no call. -/
theorem eq_idle_of_isIdle {pc : LoggerPc} (h : pc.isIdle = true) : pc = .idle := by
  cases pc with
  | idle => rfl
  | log l level event => exact absurd h Bool.false_ne_true
  | writing l level event rest => exact absurd h Bool.false_ne_true
  | adding l a isNull => exact absurd h Bool.false_ne_true

/-- A thread goes on: it takes the lock of the logger if the level is passed, writes for one
    appender, and gives the lock back. -/
theorem Inv.threadStep (h : s.Inv) (hstep : s.threadStep getDateTime i = some s') : s'.Inv := by
  unfold LogRun.threadStep at hstep
  split at hstep
  -- an idle thread has no next step
  · exact absurd hstep (Option.some_ne_none _).symm
  · next l level event hpc =>
    obtain ⟨hfree, hstep⟩ := Option.ite_none_right_eq_some.mp hstep
    -- `log()` takes the lock when the level is passed,
    have hold : (s.threads i).holds = none := by rw [hpc]; rfl
    split at hstep
    · obtain rfl := Option.some.inj hstep
      exact h.setThread hold rfl trivial
    · obtain rfl := Option.some.inj hstep
      exact h.take hold hfree rfl rfl rfl rfl (h.attached l) fun b => (List.append_nil _).symm
  · next l level event hpc =>
    obtain rfl := Option.some.inj hstep
    -- gives it back behind the last appender,
    refine h.release (by rw [hpc]; rfl) rfl rfl (fun a ha => .inl ha) fun b => ?_
    rw [hpc]
    exact deliveries_nil ..
  · next l level event a rest hpc =>
    obtain rfl := Option.some.inj hstep
    -- and writes to one appender after the other
    exact h.write hpc
  · next l a isNull hpc =>
    obtain rfl := Option.some.inj hstep
    -- `addAppender` sets the logger's formatter where the appender has none, and adds it
    have hok : s.PcOk (.adding l a isNull) := hpc ▸ h.threads i
    cases isNull with
    | false =>
      refine h.release (by rw [hpc]; rfl) rfl rfl (fun b hb => ?_) fun b => by rw [hpc]; rfl
      rcases List.mem_append.mp hb with hb | hb
      · exact .inl hb
      · exact .inr (List.mem_singleton.mp hb ▸ hok rfl)
    | true =>
      refine (h.setFormatter (s.loggers l).formatter).release (i := i) (l := l) ?_ rfl rfl
        (fun b hb => ?_) fun b => ?_
      · exact (congrArg LoggerPc.holds hpc).trans rfl
      · rcases List.mem_append.mp hb with hb | hb
        · exact .inl hb
        · right
          rw [List.mem_singleton.mp hb, setAppender_self]
          exact Option.some_ne_none _
      · exact congrArg _ hpc

/-- **Step.** Each step keeps the invariant. -/
theorem Inv.step (h : s.Inv) (hstep : s.step getDateTime act = some s') : s'.Inv := by
  -- a thread that begins a call holds no lock
  have hidle : ∀ {i}, (s.threads i).isIdle = true → (s.threads i).holds = none := by
    intro i hi
    rw [eq_idle_of_isIdle hi]
    rfl
  -- the calls of one step find the logger free
  have hfree : ∀ {i l}, s.free i l = true →
      (s.threads i).holds = none ∧ (s.loggers l).holder = none := by
    intro i l hi
    obtain ⟨hi, hl⟩ := Bool.and_eq_true_iff.mp hi
    exact ⟨hidle hi, Option.isNone_iff_eq_none.mp hl⟩
  cases act with
  | statement i l event =>
    obtain ⟨hi, hstep⟩ := Option.ite_none_right_eq_some.mp hstep
    obtain rfl := Option.some.inj hstep
    split
    · exact h.setThread (hidle hi) rfl trivial
    · exact h
  | call i l level event =>
    obtain ⟨hi, hstep⟩ := Option.ite_none_right_eq_some.mp hstep
    obtain rfl := Option.some.inj hstep
    exact h.setThread (hidle hi) rfl trivial
  | addAppender i l a =>
    obtain ⟨hi, hstep⟩ := Option.ite_none_right_eq_some.mp hstep
    obtain rfl := Option.some.inj hstep
    obtain ⟨hold, hholder⟩ := hfree hi
    have hhistory : (s.loggers l).history = (s.loggers l).history ++ [] := (List.append_nil _).symm
    -- `addAppender` is no statement: the history stays
    refine h.take hold hholder rfl rfl hhistory rfl (fun hnull => ?_) fun _ => rfl
    rwa [ne_eq, ← Option.isNone_iff_eq_none, Bool.not_eq_true]
  | delAppender i l a =>
    obtain ⟨-, hstep⟩ := Option.ite_none_right_eq_some.mp hstep
    obtain rfl := Option.some.inj hstep
    exact h.setLogger rfl rfl List.erase_subset
  | clearAppenders i l =>
    obtain ⟨-, hstep⟩ := Option.ite_none_right_eq_some.mp hstep
    obtain rfl := Option.some.inj hstep
    exact h.setLogger rfl rfl (List.nil_subset _)
  | setLevel l level =>
    obtain rfl := Option.some.inj hstep
    exact h.setLogger rfl rfl (List.Subset.refl _)
  | setFormatter a formatter =>
    obtain rfl := Option.some.inj hstep
    exact h.setFormatter formatter
  | next i => exact h.threadStep hstep

/-- **Delivery.**  In every interleaving, no appender that a logger writes to is without a
    formatter; the lines of a logger in an appender, and those that a call in its loop still has to
    write, are the calls that passed the level of the logger, in the order in which they took its
    lock, each as often as the appender was attached then, and without those that the appender's own
    level keeps out.  So the appenders of one level that were attached alike have the same lines when
    no call is in its loop. -/
theorem delivered_once {loggers : ℕ → Text × Level} {appenders : ℕ → AppenderKind × Level}
    {acts : List LogAction}
    (hrun : runFrom (step getDateTime) (new loggers appenders) acts = some s) :
    s.fault = false ∧
      (∀ l a, s.received l a ++ s.pending l a =
        (s.loggers l).history.flatMap (deliveries (s.appenders a).level a)) ∧
      ∀ l a b, (s.loggers l).holder = none → (s.appenders a).level = (s.appenders b).level →
        (∀ c ∈ (s.loggers l).history, c.appenders.count a = c.appenders.count b) →
        s.received l a = s.received l b := by
  have hinv : s.Inv := run_invariant_of_step (fun _ _ _ h hstep => h.step hstep)
    (inv_new loggers appenders) hrun
  refine ⟨hinv.fault, hinv.delivered, fun l a b hfree hlevel hcount => ?_⟩
  -- the logger is free, so all lines of its history have arrived
  have ha := hinv.delivered l a
  have hb := hinv.delivered l b
  rw [pending_of_free hfree, List.append_nil] at ha hb
  rw [ha, hb, hlevel]
  apply List.flatMap_congr
  intro c hc
  rw [deliveries, deliveries, hcount c hc]

/-- A warning through a logger with two appenders, the second of which takes errors only. -/
def warnTwoAppenders : List LogAction :=
  [.addAppender 7 0 0, .next 7, .addAppender 7 0 1, .next 7, .call 8 0 .warn silent, .next 8,
    .next 8, .next 8, .next 8]

/-- The first appender gets the warning, and the second one nothing. -/
theorem delivered_once_warn :
    ∃ s, runFrom (step fun _ _ => []) (new (fun _ => (ascii "app", .debug))
        fun a => (.stdout, if a = 0 then .debug else .error)) warnTwoAppenders = some s ∧
      s.received 0 0 = [(.warn, silent)] ∧ s.received 0 1 = [] := by
  obtain ⟨s, hrun, hholder, hlevel, hlevel', hhistory⟩ : ∃ s, runFrom (step fun _ _ => [])
      (new (fun _ => (ascii "app", .debug)) fun a => (.stdout, if a = 0 then .debug else .error))
        warnTwoAppenders = some s ∧ (s.loggers 0).holder = none ∧
      (s.appenders 0).level = .debug ∧ (s.appenders 1).level = .error ∧
      (s.loggers 0).history = [⟨.warn, silent, [0, 1]⟩] := ⟨_, rfl, rfl, rfl, rfl, rfl⟩
  -- the first appender takes warnings, and the second errors only
  obtain ⟨-, hdelivered, -⟩ := delivered_once hrun
  have hfirst := hdelivered 0 0
  have hsecond := hdelivered 0 1
  rw [pending_of_free hholder, List.append_nil, hhistory] at hfirst hsecond
  rw [hlevel] at hfirst
  rw [hlevel'] at hsecond
  exact ⟨s, hrun, hfirst, hsecond⟩

end LogRun

end LoNetfw.Log
