import CodonGrammar.Log.Record
import CodonGrammar.Environment
import CodonGrammar.Text.Quoted
import CodonGrammar.Text.Trim

/-!
# Log thresholds

A word sets the least level of the records that are kept. The word may come from the environment, or
from a mode of operation: in production only warnings are kept, in development everything. Two words
stand for settings of a log that are no levels, and cannot be used.
-/

namespace CodonGrammar.Log

open Text (isBlank)

/-- The capitals of a letter, if those are letters of the ASCII range. Four letters beyond that
range have such capitals: the dotless i, the long s and the two ligatures of s and t. -/
def capitals (c : Char) : List Char :=
  if c = '\u0131' then ['I']
  else if c = '\u017f' then ['S']
  else if c = '\ufb05' ∨ c = '\ufb06' then ['S', 'T']
  else [c.toUpper]

/-- Why a word sets no level. -/
inductive LevelError where
  /-- The word stands for a text that is no level. -/
  | unknown (text : String)
  /-- The word stands for something other than a text or a number. -/
  | noText
  deriving DecidableEq, Repr

def usualFormat : String := "%(levelname)s:%(name)s:%(message)s"

def LevelError.message : LevelError → String
  | unknown text => "Unknown level: " ++ Text.quoted text
  | noText => "a level is a number or a text"

/-- The least level that is kept, by a word in any case. A word that stands for nothing stands for
the usual level, and the word for no level at all for warnings. -/
def Level.ofSetting (setting : String) : Except LevelError Level :=
  match String.ofList (setting.toList.flatMap capitals) with
  | "DEBUG" => .ok debug
  | "WARNING" | "WARN" | "NOTSET" => .ok warning
  | "ERROR" => .ok error
  | "CRITICAL" | "FATAL" => .ok critical
  | "BASIC_FORMAT" => .error (.unknown usualFormat)
  | "_STYLES" => .error .noText
  | _ => .ok info

def Record.isKept (threshold : Level) (record : Record) : Bool :=
  threshold.rank ≤ record.level.rank

/-- A record as a line of a log file. -/
def Record.line (record : Record) : String :=
  record.level.word ++ " | " ++ record.logger ++ " | " ++ record.message ++ "\n"

/-- The records that are kept, as lines of a log file. -/
def text (threshold : Level) (records : List Record) : String :=
  String.join ((records.filter (·.isKept threshold)).map Record.line)

def settingOfMode (mode : String) : String :=
  let word := String.ofList ((Text.trim isBlank mode.toList).map Char.toLower)
  if word ∈ ["prod", "production"] then "WARNING"
  else if word ∈ ["debug", "dev", "development"] then "DEBUG"
  else "INFO"

/-- The level setting of a mode, or without a mode that of the environment. -/
def settingFrom (mode : Option String) (environment : Environment) : String :=
  match mode with
  | some mode => settingOfMode mode
  | none => (environment.get? "LOG_LEVEL").getD "INFO"

end CodonGrammar.Log
