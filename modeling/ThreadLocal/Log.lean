import ThreadLocal.Text.Template

/-!
Diagnostics: notices with a level, the threshold of a log, and the lines that it writes.
-/

namespace ThreadLocal

/-- Something to report: a template and its arguments. -/
structure Notice where
  level : Int
  template : String
  arguments : List Json
deriving Repr

/-- A level name that means nothing. -/
structure UnknownLevel where
  name : String
deriving DecidableEq, Repr

def UnknownLevel.message (u : UnknownLevel) : String :=
  "Unknown level: " ++ quoted u.name

namespace Level

def debug : Int := 10
def info : Int := 20
def warning : Int := 30
def error : Int := 40
def critical : Int := 50

def names : List (String × Int) := [
  ("CRITICAL", critical), ("FATAL", critical), ("ERROR", error), ("WARN", warning), ("WARNING", warning),
  ("INFO", info), ("DEBUG", debug), ("NOTSET", 0)]

/-- The level of a name in any case. -/
def ofName (name : String) : Except UnknownLevel Int :=
  match Table.get? names name.toUpper with
  | some level => .ok level
  | none => .error ⟨name.toUpper⟩

def name (level : Int) : String :=
  if level = critical then "CRITICAL"
  else if level = error then "ERROR"
  else if level = warning then "WARNING"
  else if level = info then "INFO"
  else if level = debug then "DEBUG"
  else if level = 0 then "NOTSET"
  else "Level " ++ toString level

/-- A log without a level of its own shows warnings. -/
def effective (threshold : Int) : Int :=
  if threshold = 0 then warning else threshold

/-- Notices at or below level zero are never shown. -/
def isShown (threshold level : Int) : Bool :=
  0 < level && effective threshold ≤ level

end Level

namespace Notice

def debug (template : String) (arguments : List Json) : Notice := ⟨Level.debug, template, arguments⟩

def info (template : String) (arguments : List Json) : Notice := ⟨Level.info, template, arguments⟩

def warning (template : String) (arguments : List Json) : Notice := ⟨Level.warning, template, arguments⟩

def error (template : String) (arguments : List Json) : Notice := ⟨Level.error, template, arguments⟩

/-- The notice with a label in front of its template; percent signs of the label thereby count as
directives if the notice has arguments. -/
def labelled (label : String) (n : Notice) : Notice :=
  { n with template := label ++ ": " ++ n.template }

/-- The text of a notice, unless its template does not fit its arguments. -/
def text? (n : Notice) : Option String :=
  Template.render? n.template n.arguments

/-- Level name and text of a notice that a log with this threshold writes. -/
def shown? (threshold : Int) (n : Notice) : Option (String × String) :=
  if Level.isShown threshold n.level then n.text?.map fun t => (Level.name n.level, t) else none

end Notice

namespace Log

/-- Elapsed time is no part of what a run does; it is reported as zero seconds. -/
def noTime : Json := .float (.finite false 0 Binary64.leastExponent)

/-- The process named in every line. -/
def process : Nat := 1

/-- What is written for some notices: level names and texts. -/
def entries (threshold : Int) (notices : List Notice) : List (String × String) :=
  notices.filterMap (Notice.shown? threshold)

def line (entry : String × String) : String :=
  entry.1 ++ " [pid " ++ toString process ++ "] " ++ entry.2 ++ "\n"

/-- The text that a log writes for some notices. -/
def written (threshold : Int) (notices : List Notice) : String :=
  String.join ((entries threshold notices).map line)

end Log
end ThreadLocal
