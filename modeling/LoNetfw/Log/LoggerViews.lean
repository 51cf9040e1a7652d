import LoNetfw.Log.Delivery

namespace LoNetfw.Log

open Basis Basis.Locking Util

/-!
# Loggers behind pointers, and as values

The log is modelled at three levels: loggers as values (`Logger.lean`), for what a configuration
sets; loggers behind pointers, each with its lock (`LockDiscipline.lean`), for the order of the
locks; and loggers that threads call at the same time (`Delivery.lean`), for the lines.  The levels
agree.

* `World.logger`, `World.manager` — the values behind the pointers;
* `addAppender_refines`, `setLogger_refines`, `getLogger_refines` — the members of a logger and of
  the manager, run by a thread alone, do to the values what the operations on values do;
* `LogRun.world` — the objects of a run of several threads;
* `LogRun.addAppender_refines`, `LogRun.logger_addAppender` — a call of `addAppender` that nothing
  interrupts is the one of the shared objects, and of the values;
* `LogRun.loggerLog_gives` — in every state that a run reaches, `log` finds no null formatter.
-/

namespace Shared

variable {w : World} {m : ManagerId} {l a : ℕ} {name : Text} {held : List Lock} {level : Level}

/-! ### Values behind pointers -/

/-- What the logger at the pointer `l` is as a value. -/
def World.logger (w : World) (l : ℕ) : Logger :=
  let obj := w.loggers l
  ⟨obj.name, obj.level, obj.appenders.map fun a => (w.appenders a).toLogAppender, obj.formatter⟩

/-- The registered loggers as values.  A name that is registered with a null pointer has none. -/
def World.manager (w : World) (m : ManagerId) : LoggerManager :=
  ⟨fun name => ((w.managers m).find name).join.map w.logger⟩

section Updates

variable (lo : LoggerObject) (ao : AppenderObject) (r : Registry)

@[simp] theorem World.setLogger_self : (w.setLogger l lo).loggers l = lo := Function.update_self ..

@[simp] theorem World.setLogger_appenders : (w.setLogger l lo).appenders = w.appenders := rfl

@[simp] theorem World.setAppender_self : (w.setAppender a ao).appenders a = ao :=
  Function.update_self ..

@[simp] theorem World.setAppender_loggers : (w.setAppender a ao).loggers = w.loggers := rfl

@[simp] theorem World.setManager_self : (w.setManager m r).managers m = r :=
  Function.update_self ..

@[simp] theorem World.setManager_logger : (w.setManager m r).logger = w.logger := rfl

end Updates

/-- A logger is the same value as long as the pointed-to objects are. -/
theorem World.logger_congr {w' : World} (hl : w'.loggers l = w.loggers l)
    (ha : ∀ a ∈ (w.loggers l).appenders,
      (w'.appenders a).toLogAppender = (w.appenders a).toLogAppender) : w'.logger l = w.logger l := by
  unfold World.logger
  simp only [hl, List.map_congr_left ha]

namespace Registry

variable {r : Registry} {p : Option ℕ}

@[simp] theorem find_assign_self : (r.assign name p).find name = some p := by
  have hothers : ∀ e ∈ r.loggers.filter fun e => e.1 != name, e.1 ≠ name :=
    fun e he => bne_iff_ne.mp (List.mem_filter.mp he).2
  have hfind : (r.assign name p).loggers.find? (fun e => e.1 == name) = some (name, p) := by
    refine find?_setInsert (fun e he => ?_) (beq_self_eq_true name) fun e he => ?_
    · -- names are ordered by their bytes, and different ones are comparable
      have hkey : textKey e.1 ≠ textKey name := fun h => hothers e he (textKey_injective h)
      simpa only [keyLt_iff] using lt_or_gt_of_ne hkey
    · exact fun h => hothers e he (beq_iff_eq.mp h)
  rw [find, hfind]
  rfl

/-- An assignment leaves the other names. -/
theorem find_assign_of_ne {n : Text} (h : n ≠ name) : (r.assign name p).find n = r.find n := by
  have hp : ¬ (name == n) = true := fun heq => h (beq_iff_eq.mp heq).symm
  have hfind : (r.assign name p).loggers.find? (fun e => e.1 == n) =
      (r.loggers.filter fun e => e.1 != name).find? fun e => e.1 == n :=
    find?_setInsert_of_not hp
  -- taking the entry of `name` out does not touch the entry of `n`
  have hkept : (r.loggers.filter fun e => e.1 != name).find? (fun e => e.1 == n) =
      r.loggers.find? fun e => e.1 == n := by
    rw [List.find?_filter]
    congr 1
    funext e
    by_cases he : e.1 = n
    · simp [he, h]
    · simp [he]
  rw [find, hfind, hkept, find]

end Registry

/-! ### `addAppender` -/

/-- What `addAppender` does to the objects. -/
def World.addAppender (w : World) (l a : ℕ) : World :=
  (w.setAppender a { w.appenders a with
    formatter := some ((w.appenders a).formatter.getD (w.loggers l).formatter) }).setLogger l
      { w.loggers l with appenders := (w.loggers l).appenders ++ [a] }

/-- `getFormatter` reads under the lock of the appender. -/
theorem gives_getFormatter (ha : .appender a ∉ held) :
    Gives (getFormatter a) held w (w.appenders a).formatter w :=
  Gives.withLock ha (gives_read_bind (gives_pure _))

/-- An appender without a formatter takes that of the logger. -/
theorem gives_ensureFormatter (ha : .appender a ∉ held) :
    Gives (ensureFormatter l a) held w () (w.setAppender a { w.appenders a with
      formatter := some ((w.appenders a).formatter.getD (w.loggers l).formatter) }) := by
  refine (gives_getFormatter ha).bind ?_
  cases hf : (w.appenders a).formatter with
  | none => exact gives_read_bind (Gives.withLock ha (gives_updateData _))
  | some formatter =>
    -- nothing is written, and the formatter is what it was
    have hsame : w.setAppender a { w.appenders a with formatter := some formatter } = w := by
      rw [← hf, World.setAppender, Function.update_eq_self]
    rw [Option.getD_some, hsame]
    exact gives_pure ()

/-- `addAppender` takes the lock of the logger, and that of the appender under it. -/
theorem gives_addAppender (hl : .logger l ∉ held) (ha : .appender a ∉ held) :
    Gives (addAppender l a) held w () (w.addAppender l a) := by
  apply Gives.withLock hl
  refine (gives_ensureFormatter ?_).bind (gives_updateData _)
  rw [List.mem_cons, not_or]
  exact ⟨Lock.noConfusion, ha⟩

/-- **Refinement.**  `addAppender` adds the appender to the value of the logger.  An appender that
    the logger has already is the same object, so it must not be given a formatter now. -/
theorem addAppender_refines (h : (w.appenders a).formatter ≠ none ∨ a ∉ (w.loggers l).appenders) :
    (w.addAppender l a).logger l = (w.logger l).addAppender (w.appenders a).toLogAppender := by
  -- an appender that is attached already has a formatter, which `addAppender` leaves as it is
  have hsame : ∀ b ∈ (w.loggers l).appenders,
      ((w.addAppender l a).appenders b).toLogAppender = (w.appenders b).toLogAppender := by
    intro b hb
    by_cases hba : b = a
    · subst hba
      obtain ⟨formatter, hf⟩ := Option.ne_none_iff_exists'.mp (h.resolve_right (not_not.mpr hb))
      rw [World.addAppender, World.setLogger_appenders, World.setAppender_self, hf,
        Option.getD_some, ← hf]
    · exact congrArg AppenderObject.toLogAppender (Function.update_of_ne hba _ _)
  rw [World.logger]
  simp only [World.addAppender, World.setLogger_self, List.map_append] at hsame ⊢
  rw [List.map_congr_left hsame]
  simp [World.logger, Logger.addAppender]

/-- Nor does it change a logger that has not got the appender. -/
theorem logger_addAppender_of_ne {k : ℕ} (h : k ≠ l) (ha : a ∉ (w.loggers k).appenders) :
    (w.addAppender l a).logger k = w.logger k := by
  apply World.logger_congr
  · exact Function.update_of_ne h _ _
  · intro b hb
    have hba : b ≠ a := fun heq => ha (heq ▸ hb)
    exact congrArg AppenderObject.toLogAppender (Function.update_of_ne hba _ _)

/-! ### The manager -/

/-- `setLogger` writes under the lock of the manager. -/
theorem gives_setLogger (p : Option ℕ) (h : .manager m ∉ held) :
    Gives (setLogger m name p) held w ()
      (w.setManager m ((w.managers m).assign name p)) := Gives.withLock h (gives_updateData _)

/-- **Refinement.**  The logger of the name is set, and no other. -/
theorem setLogger_refines :
    (w.setManager m ((w.managers m).assign name (some l))).manager m =
      (w.manager m).setLogger name (w.logger l) := by
  unfold World.manager LoggerManager.setLogger
  rw [World.setManager_self, World.setManager_logger]
  congr 1
  funext n
  by_cases hn : n = name
  · subst hn
    rw [Registry.find_assign_self, if_pos rfl]
    rfl
  · rw [Registry.find_assign_of_ne hn, if_neg hn]

/-- The next objects are not registered, nor attached to what is. -/
def World.Fresh (w : World) (m : ManagerId) : Prop :=
  ∀ name l, (w.managers m).find name = some (some l) → l ≠ w.next ∧
    w.next + 1 ∉ (w.loggers l).appenders

def World.makeLogger (w : World) (name : Text) : World :=
  { w.setLogger w.next { name } with next := w.next + 1 }

def World.makeStdoutLogAppender (w : World) (level : Level) : World :=
  { w.setAppender w.next { kind := .stdout, level } with next := w.next + 1 }

/-- `std::make_shared` gives the next object. -/
theorem gives_makeLogger : Gives (makeLogger name) held w w.next (w.makeLogger name) := rfl

/-- And so for an appender. -/
theorem gives_makeStdoutLogAppender :
    Gives (makeStdoutLogAppender level) held w w.next (w.makeStdoutLogAppender level) := rfl

/-- The objects that `getLogger` makes: a logger, and an appender for the terminal. -/
def World.createLogger (w : World) (name : Text) : World :=
  ((w.makeLogger name).makeStdoutLogAppender .debug).addAppender w.next (w.next + 1)

/-- `getLogger` of a name that is missing. -/
theorem gives_getLogger_of_missing (h : (w.managers m).find name = none) :
    Gives (getLogger m name true) [] w (some w.next) ((w.createLogger name).setManager m
      ((w.managers m).assign name (some w.next))) := by
  apply Gives.withLock List.not_mem_nil
  apply gives_read_bind
  rw [if_pos (by rw [h]; rfl)]
  -- the two objects are made under the lock of the manager
  refine gives_makeLogger.bind (gives_makeStdoutLogAppender.bind ?_)
  refine (gives_addAppender ?_ ?_).bind ((gives_updateData _).bind ?_)
  · exact List.not_mem_cons_of_ne_of_not_mem Lock.noConfusion List.not_mem_nil
  · exact List.not_mem_cons_of_ne_of_not_mem Lock.noConfusion List.not_mem_nil
  · have hfound : (((w.managers m).assign name (some w.next)).find name).join = some w.next := by
      rw [Registry.find_assign_self]
      rfl
    refine gives_read_bind ?_
    show Gives (pure ((((((w.createLogger name).setManager m
      ((w.managers m).assign name (some w.next))).managers m).find name).join))) _ _ _ _
    rw [World.setManager_self, hfound]
    exact gives_pure _

/-- The value of the new logger. -/
theorem logger_createLogger : (w.createLogger name).logger w.next =
    (Logger.mk name .debug [] defaultFormat).addAppender ⟨.stdout, .debug, none⟩ := by
  refine (addAppender_refines (.inr ?_)).trans ?_
  · simp [World.makeLogger, World.makeStdoutLogAppender, World.setAppender, World.setLogger]
  · simp [World.logger, World.makeLogger, World.makeStdoutLogAppender, World.setAppender,
      World.setLogger]

/-- The registered loggers are what they were. -/
theorem manager_createLogger (hfresh : w.Fresh m) :
    (w.createLogger name).manager m = w.manager m := by
  -- the new logger and its appender have numbers that the manager does not know
  have hsame : ∀ n l, (w.managers m).find n = some (some l) →
      (w.createLogger name).logger l = w.logger l := by
    intro n l hn
    obtain ⟨hl, ha⟩ := hfresh n l hn
    apply World.logger_congr
    · exact (Function.update_of_ne hl _ _).trans (Function.update_of_ne hl _ _)
    · intro b hb
      have hb' : b ≠ w.next + 1 := fun heq => ha (heq ▸ hb)
      exact congrArg AppenderObject.toLogAppender
        ((Function.update_of_ne hb' _ _).trans (Function.update_of_ne hb' _ _))
  unfold World.manager
  congr 1
  funext n
  cases hn : (w.managers m).find n with
  | none =>
    have hn' : ((w.createLogger name).managers m).find n = none := hn
    rw [hn']
    rfl
  | some p =>
    have hn' : ((w.createLogger name).managers m).find n = some p := hn
    rw [hn']
    cases p with
    | none => rfl
    | some l => exact congrArg some (hsame n l hn)

/-- **Refinement.**  `getLogger` finds or makes the logger of a name, unless the name is registered
    with a null pointer. -/
theorem getLogger_refines (hnull : (w.managers m).find name ≠ some none) (hfresh : w.Fresh m) :
    ∃ l w', Gives (getLogger m name true) [] w (some l) w' ∧
      w'.logger l = ((w.manager m).getLogger name).1 ∧
      w'.manager m = ((w.manager m).getLogger name).2 := by
  cases hfind : (w.managers m).find name with
  | none =>
    -- the name is not known, and a logger is made for it
    have hvalue : (w.manager m).loggers name = none := by
      show ((w.managers m).find name).join.map w.logger = none
      rw [hfind]
      rfl
    refine ⟨w.next, _, gives_getLogger_of_missing hfind, ?_, ?_⟩
    · rw [World.setManager_logger, logger_createLogger, LoggerManager.getLogger, hvalue]
    · refine setLogger_refines.trans ?_
      rw [logger_createLogger, manager_createLogger hfresh, LoggerManager.getLogger, hvalue]
  | some p =>
    cases p with
    | none => exact absurd hfind hnull
    | some l =>
      have hvalue : (w.manager m).loggers name = some (w.logger l) := by
        show ((w.managers m).find name).join.map w.logger = _
        rw [hfind]
        rfl
      rw [LoggerManager.getLogger_of_some hvalue]
      refine ⟨l, w, Gives.withLock List.not_mem_nil (gives_read_bind ?_), rfl, rfl⟩
      rw [if_neg (by rw [hfind]; exact Bool.false_ne_true)]
      refine gives_read_bind ?_
      rw [hfind]
      exact gives_pure _

/-! ### `log` -/

/-- The loggers and the formatters of the appenders are those of `w`. -/
structure World.SameFormats (w w' : World) : Prop where
  loggers : w'.loggers = w.loggers
  formatter : ∀ a, (w'.appenders a).formatter = (w.appenders a).formatter

/-- Nothing is changed. -/
theorem World.SameFormats.refl (w : World) : w.SameFormats w := ⟨rfl, fun _ => rfl⟩

/-- Two steps that keep the formatters keep them. -/
theorem World.SameFormats.trans {w' w'' : World} (h : w.SameFormats w') (h' : w'.SameFormats w'') :
    w.SameFormats w'' :=
  ⟨h'.loggers.trans h.loggers, fun a => (h'.formatter a).trans (h.formatter a)⟩

/-- A formatter that is there is used. -/
theorem gives_useFormatter {formatter : Text} (h : (w.appenders a).formatter = some formatter) :
    Gives (useFormatter a) held w formatter w := by
  refine gives_read_bind ?_
  rw [h]
  exact gives_pure formatter

/-- Once a second the file is opened again, and the appender remembers the second. -/
theorem gives_reopenLater (ha : .appender a ∉ held) :
    ∃ w', Gives (reopenLater a) held w () w' ∧ w.SameFormats w' := by
  -- in a second that was seen already nothing is reopened
  by_cases hnow : w.now ≠ (w.appenders a).lastTime
  · refine ⟨w.setAppender a { w.appenders a with lastTime := w.now }, gives_read_bind ?_, rfl,
      fun b => ?_⟩
    · rw [if_pos hnow]
      exact (Gives.withLock ha (gives_pure ())).bind (gives_updateData _)
    · by_cases hb : b = a
      · subst hb
        rw [World.setAppender_self]
      · exact congrArg (fun c : AppenderObject => c.formatter) (Function.update_of_ne hb _ _)
  · refine ⟨w, gives_read_bind ?_, .refl w⟩
    rw [if_neg hnow]
    exact gives_pure ()

/-- An appender with a formatter gets its line, and only the time of its file may change. -/
theorem gives_appenderLog (h : (w.appenders a).formatter ≠ none) (ha : .appender a ∉ held) :
    ∃ w', Gives (appenderLog level a) held w () w' ∧ w.SameFormats w' := by
  obtain ⟨formatter, hf⟩ := Option.ne_none_iff_exists'.mp h
  -- the line is written under the lock of the appender
  have hwrite : ∀ w' : World, (w'.appenders a).formatter = some formatter →
      Gives (withLock (.appender a) (discard (useFormatter a))) held w' () w' := by
    exact fun w' hf' => Gives.withLock ha (gives_useFormatter hf').discard
  by_cases hlevel : levelValue level < levelValue (w.appenders a).level
  · refine ⟨w, gives_read_bind ?_, .refl w⟩
    rw [if_pos hlevel]
    exact gives_pure ()
  · cases hkind : (w.appenders a).kind with
    | stdout =>
      refine ⟨w, gives_read_bind ?_, .refl w⟩
      simp only [if_neg hlevel, hkind]
      exact hwrite w hf
    | file filename =>
      obtain ⟨w', hreopen, hsame⟩ := gives_reopenLater (w := w) ha
      refine ⟨w', gives_read_bind ?_, hsame⟩
      simp only [if_neg hlevel, hkind]
      exact hreopen.bind (hwrite w' ((hsame.formatter a).trans hf))

/-- A logger whose appenders have formatters logs. -/
theorem gives_loggerLog (h : ∀ a ∈ (w.loggers l).appenders, (w.appenders a).formatter ≠ none) :
    ∃ w', Gives (loggerLog l level) [] w () w' := by
  -- below the logger's level no appender is called
  by_cases hlevel : levelValue level < levelValue (w.loggers l).level
  · refine ⟨w, Gives.withLock List.not_mem_nil (gives_read_bind ?_)⟩
    rw [if_pos hlevel]
    exact gives_pure ()
  · -- the appenders are those of the start of the loop, and no round takes a formatter away
    have hround : ∀ a ∈ (w.loggers l).appenders, ∀ v, w.SameFormats v →
        ∃ v', Gives (appenderLog level a) [.logger l] v () v' ∧ w.SameFormats v' := by
      intro a ha v hv
      have hformatter : (v.appenders a).formatter ≠ none := hv.formatter a ▸ h a ha
      have hfree : Lock.appender a ∉ [.logger l] :=
        List.not_mem_cons_of_ne_of_not_mem Lock.noConfusion List.not_mem_nil
      obtain ⟨v', hv', hsame⟩ := gives_appenderLog hformatter hfree
      exact ⟨v', hv', hv.trans hsame⟩
    obtain ⟨w', hloop, -⟩ := Gives.forM _ hround (.refl w)
    refine ⟨w', Gives.withLock List.not_mem_nil (gives_read_bind ?_)⟩
    rwa [if_neg hlevel]

end Shared

/-! ### Runs of several threads -/

/-- The appender as a value. -/
def AppenderCell.view (c : AppenderCell) : LogAppender := ⟨c.kind, c.level, c.formatter.map (·.text)⟩

namespace LogRun

variable {getDateTime : UInt64 → Text → Text} {s s₁ s₂ : LogRun} {i l a : ℕ} {w : Shared.World}

/-- The logger as a value. -/
def logger (s : LogRun) (l : ℕ) : Logger :=
  let c := s.loggers l
  ⟨c.name, c.level, c.appenders.map fun a => (s.appenders a).view, c.formatter.text⟩

/-- The shared objects of the run, in a world with the registries and the times of `w`. -/
def world (s : LogRun) (w : Shared.World) : Shared.World :=
  { w with
    loggers := fun l =>
      let c := s.loggers l
      ⟨c.name, c.level, c.appenders, c.formatter.text⟩
    appenders := fun a => ⟨(s.appenders a).view, (w.appenders a).lastTime⟩ }

@[simp] theorem world_logger (s : LogRun) (w : Shared.World) : (s.world w).logger = s.logger := rfl

/-- What the two steps of `addAppender` do when no other thread comes in between. -/
theorem addAppender_steps (hcall : s.step getDateTime (.addAppender i l a) = some s₁)
    (hnext : s₁.step getDateTime (.next i) = some s₂) :
    s₂.loggers = Function.update s.loggers l { s.loggers l with
      appenders := (s.loggers l).appenders ++ [a]
      holder := none } ∧
    s₂.appenders = Function.update s.appenders a { s.appenders a with
      formatter := some ((s.appenders a).formatter.getD (s.loggers l).formatter) } := by
  obtain ⟨-, hcall⟩ := Option.ite_none_right_eq_some.mp hcall
  obtain rfl := Option.some.inj hcall
  rw [step, threadStep] at hnext
  simp only [setThread_self, setThread_loggers, setThread_appenders, setLogger_self,
    setLogger_appenders] at hnext
  obtain rfl := Option.some.inj hnext
  cases hf : (s.appenders a).formatter with
  | none => exact ⟨Function.update_idem .., rfl⟩
  | some formatter =>
    -- the appender keeps its formatter
    have hsame : { s.appenders a with formatter := some formatter } = s.appenders a := by rw [← hf]
    refine ⟨Function.update_idem .., ?_⟩
    rw [Option.getD_some, hsame, Function.update_eq_self]
    rfl

/-- They change the shared objects as `addAppender` does. -/
theorem world_addAppender (hcall : s.step getDateTime (.addAppender i l a) = some s₁)
    (hnext : s₁.step getDateTime (.next i) = some s₂) :
    s₂.world w = (s.world w).addAppender l a := by
  obtain ⟨hloggers, happenders⟩ := addAppender_steps hcall hnext
  unfold world Shared.World.addAppender Shared.World.setLogger Shared.World.setAppender
  congr 1
  · funext k
    -- the logger has the appender more
    by_cases hk : k = l
    · subst hk
      simp [hloggers]
    · simp [hloggers, Function.update_of_ne hk]
  · funext b
    by_cases hb : b = a
    · subst hb
      simp [happenders, AppenderCell.view]
    · simp [happenders, Function.update_of_ne hb]

/-- **Refinement.**  A call of `addAppender` in a run is the one of a thread alone. -/
theorem addAppender_refines (hcall : s.step getDateTime (.addAppender i l a) = some s₁)
    (hnext : s₁.step getDateTime (.next i) = some s₂) :
    Gives (Shared.addAppender l a) [] (s.world w) () (s₂.world w) := by
  rw [world_addAppender hcall hnext]
  exact Shared.gives_addAppender List.not_mem_nil List.not_mem_nil

/-- `addAppender` adds the appender to the value of the logger. -/
theorem logger_addAppender (hcall : s.step getDateTime (.addAppender i l a) = some s₁)
    (hnext : s₁.step getDateTime (.next i) = some s₂)
    (h : (s.appenders a).formatter ≠ none ∨ a ∉ (s.loggers l).appenders) :
    s₂.logger l = (s.logger l).addAppender (s.appenders a).view := by
  -- the values do not depend on the registries
  rw [← world_logger s₂ Shared.initial, ← world_logger s Shared.initial,
    world_addAppender hcall hnext]
  exact Shared.addAppender_refines (h.imp_left Option.map_eq_none_iff.not.mpr)

/-- `clearAppenders` in one step. -/
theorem clearAppenders_refines (hstep : s.step getDateTime (.clearAppenders i l) = some s₁) :
    s₁.logger l = (s.logger l).clearAppenders := by
  obtain ⟨-, hstep⟩ := Option.ite_none_right_eq_some.mp hstep
  obtain rfl := Option.some.inj hstep
  simp [logger, Logger.clearAppenders]

/-- In every state that a run reaches, a call of `log` uses no null formatter. -/
theorem loggerLog_gives {loggers : ℕ → Text × Level} {appenders : ℕ → AppenderKind × Level}
    {acts : List LogAction}
    (hrun : runFrom (step getDateTime) (new loggers appenders) acts = some s) (l : ℕ)
    (level : Level) : ∃ w', Gives (Shared.loggerLog l level) [] (s.world w) () w' := by
  have hinv : s.Inv := run_invariant_of_step (fun _ _ _ h hstep => h.step hstep)
    (inv_new loggers appenders) hrun
  refine Shared.gives_loggerLog fun a ha => ?_
  exact Option.map_eq_none_iff.not.mpr (hinv.attached l a ha)

end LogRun

end LoNetfw.Log
