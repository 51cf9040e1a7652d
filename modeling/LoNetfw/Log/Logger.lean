import LoNetfw.Util.Yaml

namespace LoNetfw.Log

open Util

/-!
# Loggers — levels, appenders and the `LoggerManager`

The parts of `log/loglevel.h`, `log/logappender.h` and `log/logger.cpp` that hold the configuration
of the log: which logger is registered under which name, its level and its appenders.  What a
logger writes is not modelled.  A logger is shared between the manager and its users through a
pointer; each is registered under its own name, so a change to the logger of a name is a change to
the entry of that name.
-/

/-- `LogLevel::Level`. -/
inductive Level
  | unknown
  | debug
  | info
  | warn
  | error
  | fatal
  deriving DecidableEq, Repr

def getLevelName : Level → Text
  | .debug => ascii "DEBUG"
  | .info => ascii "INFO"
  | .warn => ascii "WARN"
  | .error => ascii "ERROR"
  | .fatal => ascii "FATAL"
  | .unknown => ascii "UNKNOWN"

def getLevelByName (levelName : Text) : Level :=
  if toUpper levelName = ascii "DEBUG" then .debug
  else if toUpper levelName = ascii "INFO" then .info
  else if toUpper levelName = ascii "WARN" then .warn
  else if toUpper levelName = ascii "ERROR" then .error
  else if toUpper levelName = ascii "FATAL" then .fatal
  else .unknown

/-- A level is found under its name. -/
theorem getLevelByName_getLevelName (level : Level) :
    getLevelByName (getLevelName level) = level := by
  cases level <;> decide

/-- Which class of appender; a file appender has the path of its file. -/
inductive AppenderKind
  | stdout
  | file (filename : Text)
  deriving DecidableEq, Repr

/-- `LogAppender`; the formatter is known by its format, and null at first. -/
structure LogAppender where
  kind : AppenderKind
  level : Level
  formatter : Option Text := none
  deriving DecidableEq, Repr

/-- The format of a new logger's own formatter. -/
def defaultFormat : Text :=
  ascii "%d\x7b%Y-%m-%d %H:%M:%S\x7d%T%t%T%N%T%F%T[%p]%T[%c]%T%f:%l%T%m%n"

structure Logger where
  name : Text
  level : Level := .debug
  appenders : List LogAppender := []
  formatter : Text := defaultFormat
  deriving DecidableEq, Repr

namespace Logger

def addAppender (appender : LogAppender) (logger : Logger) : Logger :=
  { logger with
    appenders := logger.appenders ++
      [{ appender with formatter := some (appender.formatter.getD logger.formatter) }] }

def clearAppenders (logger : Logger) : Logger := { logger with appenders := [] }

end Logger

/-- `m_loggers`. -/
structure LoggerManager where
  loggers : Text → Option Logger

namespace LoggerManager

def setLogger (name : Text) (logger : Logger) (m : LoggerManager) : LoggerManager :=
  ⟨fun n => if n = name then some logger else m.loggers n⟩

/-- `getLogger(name, true)`, which creates a logger that is missing. -/
def getLogger (name : Text) (m : LoggerManager) : Logger × LoggerManager :=
  match m.loggers name with
  | some logger => (logger, m)
  | none =>
    let logger := (Logger.mk name .debug [] defaultFormat).addAppender ⟨.stdout, .debug, none⟩
    (logger, m.setLogger name logger)

@[simp] theorem setLogger_self (name : Text) (logger : Logger) (m : LoggerManager) :
    (m.setLogger name logger).loggers name = some logger := if_pos rfl

/-- The loggers of the other names stay. -/
theorem setLogger_of_ne {name n : Text} (h : n ≠ name) (logger : Logger) (m : LoggerManager) :
    (m.setLogger name logger).loggers n = m.loggers n := if_neg h

/-- A name that is registered is looked up. -/
theorem getLogger_of_some {name : Text} {logger : Logger} {m : LoggerManager}
    (h : m.loggers name = some logger) : m.getLogger name = (logger, m) := by
  rw [getLogger, h]

/-- A look-up touches no other name. -/
theorem getLogger_of_ne {name n : Text} (h : n ≠ name) (m : LoggerManager) :
    (m.getLogger name).2.loggers n = m.loggers n := by
  rw [getLogger]
  cases m.loggers name with
  | some logger => rfl
  | none => exact setLogger_of_ne h _ _

end LoggerManager

end LoNetfw.Log
