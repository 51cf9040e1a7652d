import LoNetfw.Basis.OrderedSet
import LoNetfw.Basis.StepSystem
import LoNetfw.Log.LogFormatter
import Mathlib.Data.List.Lex

namespace LoNetfw.Config

open Basis Util Log

/-!
# `GlobalConfig` — the change callback of the logs

The callback of `config/globalconfig.h` that makes the loggers of the manager follow the item
`logs`, a set of `ConfigLog` ordered by name.

* `onLogsChanged` — the two loops of the callback;
* `configure_ok`, `configure_error` — an entry is applied exactly when its formats make a
  `LogFormatter`;
* `foldlM_applyNew`, `foldlM_applyOld` — what each loop does to the manager, and when it goes wrong;
* `follows_iff` — the loggers follow the configuration exactly when every old name is kept, every
  kept entry has changed, but not its level, and every format of an appender is valid.
-/

structure ConfigLogAppender where
  /-- `0` for a `StdoutLogAppender`, `1` for a `FileLogAppender`. -/
  type : UInt8 := 0
  level : Level := .debug
  format : Text := defaultFormat
  logPath : Text := ascii "~/.log/tmp.log"
  deriving DecidableEq, Repr

structure ConfigLog where
  name : Text
  level : Level := .debug
  appenders : List ConfigLogAppender := []
  deriving DecidableEq, Repr

/-- What entries are ordered by. -/
def ConfigLog.key (data : ConfigLog) : List ℕ := textKey data.name

/-- `std::set<ConfigLog>`. -/
structure ConfigLogSet where
  entries : List ConfigLog
  sorted : SetSorted (keyLt ConfigLog.key) entries

/-- `find`: the entry of the same name. -/
def ConfigLogSet.find (data : ConfigLog) (s : ConfigLogSet) : Option ConfigLog :=
  setFind (keyLt ConfigLog.key) data s.entries

/-- What ends the callback before its end: undefined behaviour of its own, or that
    `LogFormatter`'s constructor does not return. -/
inductive CallbackFault
  | nullLogger
  | dereferencedEnd
  | formatter (fault : FormatFault)
  deriving DecidableEq, Repr

/-! ### The callback -/

/-- `std::make_shared<LogFormatter>(format)`, known by its format. -/
def makeFormatter (format : Text) : Except CallbackFault Text :=
  match LogFormatter.new format with
  | .ok formatter => .ok formatter.text
  | .error fault => .error (.formatter fault)

/-- The body of the loop over the appenders of an entry. -/
def addConfigured (logger : Logger) (a : ConfigLogAppender) : Except CallbackFault Logger :=
  if a.type = 0 then
    (makeFormatter a.format).map fun formatter =>
      logger.addAppender ⟨.stdout, a.level, some formatter⟩
  else if a.type = 1 then
    (makeFormatter a.format).map fun formatter =>
      logger.addAppender ⟨.file a.logPath, a.level, some formatter⟩
  else .ok logger

def configure (data : ConfigLog) (logger : Logger) : Except CallbackFault Logger :=
  data.appenders.foldlM addConfigured logger.clearAppenders

/-- The body of the loop over the new entries. -/
def applyNew (old : ConfigLogSet) (m : LoggerManager) (data : ConfigLog) :
    Except CallbackFault LoggerManager :=
  match old.find data with
  | none =>
    let logger : Logger := ⟨data.name, data.level, [], defaultFormat⟩
    (configure data logger).map (m.setLogger data.name)
  | some it =>
    -- `logger` stays null
    if it = data then .error .nullLogger
    else
      let (logger, m) := m.getLogger data.name
      (configure data logger).map (m.setLogger data.name)

/-- The body of the loop over the old entries. -/
def applyOld (new : ConfigLogSet) (m : LoggerManager) (data : ConfigLog) :
    Except CallbackFault LoggerManager :=
  match new.find data with
  -- `delLogger(it->name)`
  | none => .error .dereferencedEnd
  | some _ => .ok m

def onLogsChanged (old new : ConfigLogSet) (m : LoggerManager) :
    Except CallbackFault LoggerManager :=
  match new.entries.foldlM (applyNew old) m with
  | .error e => .error e
  | .ok m => old.entries.foldlM (applyOld new) m

/-! ### Following the configuration -/

/-- The appender that an appender of the configuration asks for. -/
def ConfigLogAppender.logAppender (a : ConfigLogAppender) : Option LogAppender :=
  if a.type = 0 then some ⟨.stdout, a.level, some a.format⟩
  else if a.type = 1 then some ⟨.file a.logPath, a.level, some a.format⟩
  else none

/-- The appenders that an entry asks for. -/
def ConfigLog.logAppenders (data : ConfigLog) : List LogAppender :=
  data.appenders.filterMap ConfigLogAppender.logAppender

/-- The logger under the name of an entry is as the entry says. -/
def Agrees (m : LoggerManager) (data : ConfigLog) : Prop :=
  ∃ logger, m.loggers data.name = some logger ∧ logger.level = data.level ∧
    logger.appenders = data.logAppenders

/-- What the callback is to do from `m`. -/
def Follows (old new : ConfigLogSet) (m : LoggerManager) : Prop :=
  ∃ m', onLogsChanged old new m = .ok m' ∧ (∀ d ∈ new.entries, Agrees m' d) ∧
    (∀ d ∈ new.entries, d ∈ old.entries → m'.loggers d.name = m.loggers d.name) ∧
    ∀ o ∈ old.entries, (∀ d ∈ new.entries, d.name ≠ o.name) → m'.loggers o.name = none

/-- The formats that the callback makes a `LogFormatter` of are valid. -/
def ConfigLog.FormatsValid (data : ConfigLog) : Prop :=
  ∀ a ∈ data.appenders, a.type = 0 ∨ a.type = 1 → ValidFormat a.format

/-- The changes that the callback can make. -/
def Supported (old new : ConfigLogSet) : Prop :=
  (∀ d ∈ new.entries, ∀ o ∈ old.entries, o.name = d.name → o ≠ d ∧ o.level = d.level) ∧
    (∀ o ∈ old.entries, ∃ d ∈ new.entries, d.name = o.name) ∧
    ∀ d ∈ new.entries, d.FormatsValid

/-! ### The entries of a set -/

/-- Entries are equivalent when their names are equal. -/
theorem key_eq_iff {a b : ConfigLog} : a.key = b.key ↔ a.name = b.name :=
  textKey_injective.eq_iff

/-- What is found under a name is the entry of the name. -/
theorem ConfigLogSet.find_eq_some {s : ConfigLogSet} {data it : ConfigLog} :
    s.find data = some it ↔ it ∈ s.entries ∧ it.name = data.name := by
  rw [find, setFind_keyLt_eq_some s.sorted, key_eq_iff]

/-- Nothing is found under a name that no entry has. -/
theorem ConfigLogSet.find_eq_none {s : ConfigLogSet} {data : ConfigLog} :
    s.find data = none ↔ ∀ it ∈ s.entries, it.name ≠ data.name := by
  rw [find, setFind_keyLt_eq_none s.sorted]
  simp only [ne_eq, key_eq_iff]

/-! ### One entry -/

/-- A valid format makes a formatter. -/
theorem makeFormatter_ok {format : Text} (h : ValidFormat format) :
    makeFormatter format = .ok format := by
  obtain ⟨f, hf⟩ := (LogFormatter.new_ok_iff format).mpr h
  rw [makeFormatter, hf]
  exact congrArg _ (LogFormatter.new_text hf)

/-- The constructor throws for any other. -/
theorem makeFormatter_error {format : Text} (h : ¬ ValidFormat format) :
    ∃ e, makeFormatter format = .error e := by
  rw [makeFormatter]
  cases hf : LogFormatter.new format with
  | ok f => exact absurd ((LogFormatter.new_ok_iff format).mp ⟨f, hf⟩) h
  | error fault => exact ⟨_, rfl⟩

/-- An appender with a valid format is added, or left out when its type is unknown. -/
theorem addConfigured_ok {a : ConfigLogAppender}
    (h : a.type = 0 ∨ a.type = 1 → ValidFormat a.format) (logger : Logger) :
    addConfigured logger a =
      .ok { logger with appenders := logger.appenders ++ a.logAppender.toList } := by
  rw [addConfigured, ConfigLogAppender.logAppender]
  by_cases h0 : a.type = 0
  · rw [if_pos h0, if_pos h0, makeFormatter_ok (h (.inl h0))]
    rfl
  · rw [if_neg h0, if_neg h0]
    by_cases h1 : a.type = 1
    · rw [if_pos h1, if_pos h1, makeFormatter_ok (h (.inr h1))]
      rfl
    · rw [if_neg h1, if_neg h1, Option.toList_none, List.append_nil]

/-- An appender of a known type with another format is not built. -/
theorem addConfigured_error {a : ConfigLogAppender}
    (h : ¬ (a.type = 0 ∨ a.type = 1 → ValidFormat a.format)) (logger : Logger) :
    ∃ e, addConfigured logger a = .error e := by
  obtain ⟨htype, hformat⟩ := Classical.not_imp.mp h
  obtain ⟨e, he⟩ := makeFormatter_error hformat
  rw [addConfigured, he]
  by_cases h0 : a.type = 0
  · rw [if_pos h0]
    exact ⟨e, rfl⟩
  · rw [if_neg h0, if_pos (htype.resolve_left h0)]
    exact ⟨e, rfl⟩

/-- The appenders of an entry, when all of their formats are valid. -/
theorem foldlM_addConfigured {as : List ConfigLogAppender}
    (h : ∀ a ∈ as, a.type = 0 ∨ a.type = 1 → ValidFormat a.format) (logger : Logger) :
    as.foldlM addConfigured logger = .ok { logger with
      appenders := logger.appenders ++ as.filterMap ConfigLogAppender.logAppender } := by
  induction as generalizing logger with
  | nil => rw [List.filterMap_nil, List.append_nil]; rfl
  | cons a as ih =>
    rw [List.foldlM_cons, addConfigured_ok (h a List.mem_cons_self)]
    refine (ih (fun b hb => h b (List.mem_cons_of_mem a hb)) _).trans ?_
    rw [List.append_assoc, List.filterMap_cons]
    cases a.logAppender <;> rfl

/-- An entry with valid formats gives the logger its appenders, and leaves the level. -/
theorem configure_ok {data : ConfigLog} (h : data.FormatsValid) (logger : Logger) :
    configure data logger = .ok { logger with appenders := data.logAppenders } :=
  foldlM_addConfigured h logger.clearAppenders

/-- An entry with another format ends the callback. -/
theorem configure_error {data : ConfigLog} (h : ¬ data.FormatsValid) (logger : Logger) :
    ∃ e, configure data logger = .error e := by
  unfold ConfigLog.FormatsValid at h
  push Not at h
  obtain ⟨a, ha, htype, hformat⟩ := h
  apply foldlM_error (P := fun a => a.type = 0 ∨ a.type = 1 → ValidFormat a.format) ?_ ?_ ha
  · exact fun himp => hformat (himp htype)
  · exact fun b hb logger => ⟨_, addConfigured_ok hb logger⟩
  · exact fun b hb logger => addConfigured_error hb logger

/-- The level of the logger that an entry is applied to. -/
def levelBefore (old : ConfigLogSet) (m : LoggerManager) (d : ConfigLog) : Level :=
  match old.find d with
  | none => d.level
  | some _ => (m.getLogger d.name).1.level

/-- An entry that is not new is looked up in a null pointer. -/
theorem applyNew_of_mem {old : ConfigLogSet} {d : ConfigLog} (h : d ∈ old.entries)
    (m : LoggerManager) : applyNew old m d = .error .nullLogger := by
  rw [applyNew, ConfigLogSet.find_eq_some.mpr ⟨h, rfl⟩]
  exact if_pos rfl

/-- The entries that the first loop can apply. -/
def Applies (old : ConfigLogSet) (d : ConfigLog) : Prop := d ∉ old.entries ∧ d.FormatsValid

/-- An entry that is not in the old set and has valid formats changes the logger of its name, and no
    other. -/
theorem applyNew_of_applies {old : ConfigLogSet} {d : ConfigLog} (h : Applies old d)
    (m : LoggerManager) :
    ∃ m' logger, applyNew old m d = .ok m' ∧ m'.loggers d.name = some logger ∧
      logger.level = levelBefore old m d ∧ logger.appenders = d.logAppenders ∧
      ∀ n, n ≠ d.name → m'.loggers n = m.loggers n := by
  rw [applyNew, levelBefore]
  cases hfind : old.find d with
  | none =>
    dsimp only
    rw [configure_ok h.2]
    exact ⟨_, _, rfl, LoggerManager.setLogger_self .., rfl, rfl,
      fun n hn => LoggerManager.setLogger_of_ne hn _ _⟩
  | some it =>
    -- the old entry of the name is another one, so the logger is set up again
    have hne : it ≠ d := fun heq => h.1 (heq ▸ (ConfigLogSet.find_eq_some.mp hfind).1)
    dsimp only
    rw [if_neg hne, configure_ok h.2]
    refine ⟨_, _, rfl, LoggerManager.setLogger_self .., rfl, rfl, fun n hn => ?_⟩
    rw [LoggerManager.setLogger_of_ne hn, LoggerManager.getLogger_of_ne hn]

/-- Any other entry ends the callback. -/
theorem applyNew_error {old : ConfigLogSet} {d : ConfigLog} (h : ¬ Applies old d)
    (m : LoggerManager) : ∃ e, applyNew old m d = .error e := by
  by_cases hmem : d ∈ old.entries
  · exact ⟨_, applyNew_of_mem hmem m⟩
  -- the entry is new, so it is a format that fails
  · have hformats : ¬ d.FormatsValid := fun hvalid => h ⟨hmem, hvalid⟩
    rw [applyNew]
    cases hfind : old.find d with
    | none =>
      obtain ⟨e, he⟩ := configure_error hformats ⟨d.name, d.level, [], defaultFormat⟩
      exact ⟨e, by simp only [he, Except.map]⟩
    | some it =>
      have hne : it ≠ d := fun heq => hmem (heq ▸ (ConfigLogSet.find_eq_some.mp hfind).1)
      obtain ⟨e, he⟩ := configure_error hformats (m.getLogger d.name).1
      exact ⟨e, by simp only [if_neg hne, he, Except.map]⟩

/-- The level before the callback depends on the logger of the name only. -/
theorem levelBefore_congr {old : ConfigLogSet} {m m' : LoggerManager} {d : ConfigLog}
    (h : m'.loggers d.name = m.loggers d.name) : levelBefore old m' d = levelBefore old m d := by
  rw [levelBefore, levelBefore, LoggerManager.getLogger, LoggerManager.getLogger, h]
  cases m.loggers d.name with
  | none => rfl
  | some logger => rfl

/-! ### The loops -/

/-- The first loop over entries of different names that it can apply. -/
theorem foldlM_applyNew {old : ConfigLogSet} {l : List ConfigLog}
    (hnames : l.Pairwise fun a b => a.name ≠ b.name) (hnew : ∀ d ∈ l, Applies old d)
    (m : LoggerManager) :
    ∃ m', l.foldlM (applyNew old) m = .ok m' ∧
      (∀ d ∈ l, ∃ logger, m'.loggers d.name = some logger ∧ logger.level = levelBefore old m d ∧
        logger.appenders = d.logAppenders) ∧
      ∀ n, (∀ d ∈ l, d.name ≠ n) → m'.loggers n = m.loggers n := by
  -- by induction on the new entries, each of which sets the logger of its own name
  induction l generalizing m with
  | nil => exact ⟨m, rfl, fun _ hd => absurd hd List.not_mem_nil, fun _ _ => rfl⟩
  | cons d ds ih =>
    obtain ⟨hd, hds⟩ := List.pairwise_cons.mp hnames
    obtain ⟨m₁, logger, happly, hlogger, hlevel, happenders, hothers⟩ :=
      applyNew_of_applies (hnew d List.mem_cons_self) m
    obtain ⟨m', hrest, hloggers, hkept⟩ :=
      ih hds (fun e he => hnew e (List.mem_cons_of_mem d he)) m₁
    refine ⟨m', ?_, ?_, fun n hn => ?_⟩
    · rw [List.foldlM_cons, happly]
      exact hrest
    · rintro e he
      rcases List.mem_cons.mp he with rfl | he
      · -- the later entries have other names
        exact ⟨logger, (hkept e.name fun x hx => (hd x hx).symm).trans hlogger, hlevel, happenders⟩
      · obtain ⟨logger', hlogger', hlevel', happenders'⟩ := hloggers e he
        refine ⟨logger', hlogger', hlevel'.trans ?_, happenders'⟩
        exact levelBefore_congr (hothers e.name (hd e he).symm)
    · rw [hkept n fun x hx => hn x (List.mem_cons_of_mem d hx)]
      exact hothers n (hn d List.mem_cons_self).symm

/-- An entry that has not changed, or has a format that is not valid, stops the first loop. -/
theorem foldlM_applyNew_error {old : ConfigLogSet} {l : List ConfigLog} {d : ConfigLog}
    (hd : d ∈ l) (hnot : ¬ Applies old d) (m : LoggerManager) :
    ∃ e, l.foldlM (applyNew old) m = .error e := by
  apply foldlM_error (P := Applies old) ?_ (fun _ hx m => applyNew_error hx m) hd hnot
  intro x hx m
  obtain ⟨m₁, _, happly, -⟩ := applyNew_of_applies hx m
  exact ⟨m₁, happly⟩

/-- Old entries whose names stay are left alone. -/
theorem foldlM_applyOld {new : ConfigLogSet} {l : List ConfigLog}
    (h : ∀ o ∈ l, ∃ d ∈ new.entries, d.name = o.name) (m : LoggerManager) :
    l.foldlM (applyOld new) m = .ok m := by
  induction l with
  | nil => rfl
  | cons o os ih =>
    -- every old entry has a new one of its name, so none is deleted
    have hfound : applyOld new m o = .ok m := by
      rw [applyOld]
      cases hfind : new.find o with
      | none =>
        obtain ⟨d, hd, hname⟩ := h o List.mem_cons_self
        exact absurd hname (ConfigLogSet.find_eq_none.mp hfind d hd)
      | some it => rfl
    rw [List.foldlM_cons, hfound]
    exact ih fun x hx => h x (List.mem_cons_of_mem o hx)

/-- The second loop ends without a fault only when every old name is still there. -/
theorem exists_of_foldlM_applyOld {new : ConfigLogSet} {l : List ConfigLog} {m m' : LoggerManager}
    (h : l.foldlM (applyOld new) m = .ok m') : ∀ o ∈ l, ∃ d ∈ new.entries, d.name = o.name := by
  induction l generalizing m with
  | nil => exact fun _ ho => absurd ho List.not_mem_nil
  | cons o os ih =>
    rw [List.foldlM_cons, applyOld] at h
    cases hfind : new.find o with
    -- a deletion dereferences the end of the set
    | none =>
      rw [hfind] at h
      exact nomatch h
    | some it =>
      rw [hfind] at h
      intro x hx
      rcases List.mem_cons.mp hx with rfl | hx
      · obtain ⟨hit, hname⟩ := ConfigLogSet.find_eq_some.mp hfind
        exact ⟨it, hit, hname⟩
      · exact ih h x hx

/-! ### The callback as a whole -/

/-- A logger that agrees with its old entry has the level of it. -/
theorem levelBefore_of_agrees {old : ConfigLogSet} {m : LoggerManager}
    (hm : ∀ o ∈ old.entries, Agrees m o) {d o : ConfigLog} (ho : o ∈ old.entries)
    (hname : o.name = d.name) : levelBefore old m d = o.level := by
  obtain ⟨logger, hlogger, hlevel, -⟩ := hm o ho
  rw [hname] at hlogger
  rw [levelBefore, ConfigLogSet.find_eq_some.mpr ⟨ho, hname⟩,
    LoggerManager.getLogger_of_some hlogger]
  exact hlevel

/-- No two entries have one name. -/
theorem names_pairwise (s : ConfigLogSet) : s.entries.Pairwise fun a b => a.name ≠ b.name :=
  s.sorted.imp fun hab hname => (keyLt_iff.mp hab).ne (key_eq_iff.mpr hname)

/-- **The loggers follow the configuration.**  From loggers that agree with the old entries, the
    callback brings the loggers to the new entries, without undefined behaviour or an exception,
    exactly when every old name is kept, every kept entry has changed, but not its level, and the
    formats of the new entries' appenders are valid. -/
theorem follows_iff {old new : ConfigLogSet} {m : LoggerManager}
    (hm : ∀ o ∈ old.entries, Agrees m o) : Follows old new m ↔ Supported old new := by
  constructor
  · rintro ⟨m', hrun, hagrees, -, -⟩
    rw [onLogsChanged] at hrun
    have hnew : ∀ d ∈ new.entries, Applies old d := by
      intro d hd
      by_contra hnot
      obtain ⟨e, he⟩ := foldlM_applyNew_error hd hnot m
      rw [he] at hrun
      exact nomatch hrun
    obtain ⟨m₁, hfirst, hloggers, -⟩ := foldlM_applyNew (names_pairwise new) hnew m
    rw [hfirst] at hrun
    have hnames := exists_of_foldlM_applyOld hrun
    obtain rfl : m₁ = m' := Except.ok.inj ((foldlM_applyOld hnames m₁).symm.trans hrun)
    refine ⟨fun d hd o ho hname => ⟨fun heq => (hnew d hd).1 (heq ▸ ho), ?_⟩, hnames,
      fun d hd => (hnew d hd).2⟩
    -- the level is that of the logger found, which nobody has set
    obtain ⟨logger, hlogger, hlevel, -⟩ := hloggers d hd
    obtain ⟨logger', hlogger', hlevel', -⟩ := hagrees d hd
    obtain rfl : logger = logger' := Option.some.inj (hlogger.symm.trans hlogger')
    rw [levelBefore_of_agrees hm ho hname] at hlevel
    exact hlevel.symm.trans hlevel'
  · rintro ⟨hchanged, hnames, hformats⟩
    have hnew : ∀ d ∈ new.entries, Applies old d :=
      fun d hd => ⟨fun hold => (hchanged d hd d hold rfl).1 rfl, hformats d hd⟩
    obtain ⟨m₁, hfirst, hloggers, -⟩ := foldlM_applyNew (names_pairwise new) hnew m
    refine ⟨m₁, ?_, fun d hd => ?_, fun d hd hold => absurd hold (hnew d hd).1,
      fun o ho hnone => ?_⟩
    · rw [onLogsChanged, hfirst]
      exact foldlM_applyOld hnames m₁
    · obtain ⟨logger, hlogger, hlevel, happenders⟩ := hloggers d hd
      refine ⟨logger, hlogger, hlevel.trans ?_, happenders⟩
      cases hfind : old.find d with
      | none => rw [levelBefore, hfind]
      | some o =>
        obtain ⟨ho, hname⟩ := ConfigLogSet.find_eq_some.mp hfind
        rw [levelBefore_of_agrees hm ho hname, (hchanged d hd o ho hname).2]
    · obtain ⟨d, hd, hname⟩ := hnames o ho
      exact absurd hname (hnone d hd)

/-- A set of one entry. -/
def ConfigLogSet.single (d : ConfigLog) : ConfigLogSet := ⟨[d], List.pairwise_singleton _ _⟩

/-- `old` has an entry named `a`, `new` the same with one more appender. -/
theorem follows_iff_instance :
    let old := ConfigLogSet.single ⟨[97], .info, []⟩
    let new := ConfigLogSet.single ⟨[97], .info, [⟨0, .info, [], []⟩]⟩
    let m : LoggerManager := ⟨fun n => if n = [97] then some ⟨[97], .info, [], []⟩ else none⟩
    Follows old new m ↔ Supported old new := by
  intro old new m
  refine follows_iff fun o ho => ?_
  obtain rfl := List.mem_singleton.mp ho
  exact ⟨⟨[97], .info, [], []⟩, rfl, rfl, rfl⟩

/-- An entry is added and another one left alone: the null logger of the latter is dereferenced.  An
    entry is removed: the end of the new set is dereferenced. -/
theorem onLogsChanged_faults :
    let old := ConfigLogSet.single ⟨[97], .info, []⟩
    let added : ConfigLogSet :=
      ⟨[⟨[97], .info, []⟩, ⟨[98], .info, []⟩], List.pairwise_pair.mpr (by decide)⟩
    let removed : ConfigLogSet := ⟨[], List.Pairwise.nil⟩
    let m : LoggerManager := ⟨fun n => if n = [97] then some ⟨[97], .info, [], []⟩ else none⟩
    (∀ o ∈ old.entries, Agrees m o) ∧
      onLogsChanged old added m = .error .nullLogger ∧ ¬ Follows old added m ∧
      onLogsChanged old removed m = .error .dereferencedEnd ∧ ¬ Follows old removed m := by
  intro old added removed m
  -- an entry that has not changed gives no logger, and a deletion no entry
  have hadded : onLogsChanged old added m = .error .nullLogger := rfl
  have hremoved : onLogsChanged old removed m = .error .dereferencedEnd := rfl
  refine ⟨fun o ho => ?_, hadded, ?_, hremoved, ?_⟩
  · obtain rfl := List.mem_singleton.mp ho
    exact ⟨⟨[97], .info, [], []⟩, rfl, rfl, rfl⟩
  · rintro ⟨m', hrun, -⟩
    rw [hadded] at hrun
    exact nomatch hrun
  · rintro ⟨m', hrun, -⟩
    rw [hremoved] at hrun
    exact nomatch hrun

end LoNetfw.Config
