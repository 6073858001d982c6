import ThreadLocal.CommandLine.Arguments
import ThreadLocal.Files.Access
import ThreadLocal.Text.Integer

/-!
Parameters of a command and the rules that their values keep. Parameters are checked in the order in which
they were given, those not given after the others.
-/

namespace ThreadLocal

inductive Rule where
  | flag
  | file
  | directory (mustExist : Bool)
  | positive
  | oneOf (choices : List String)
deriving DecidableEq, Repr

structure Parameter where
  names : List String
  rule : Rule
  repeatable : Bool
  required : Bool
  /-- the environment variable that stands in for the option -/
  variableName : Option String
deriving DecidableEq, Repr

inductive ValueFault where
  | noFile (path : String)
  | noDirectory (path : String)
  | isFile (path : String)
  | isDirectory (path : String)
  | notInteger (text : String)
  | notPositive (value : Int)
  | notChoice (text : String) (choices : List String)
deriving DecidableEq, Repr

def ValueFault.message : ValueFault → String
  | .noFile path => "File " ++ quoted path ++ " does not exist."
  | .noDirectory path => "Directory " ++ quoted path ++ " does not exist."
  | .isFile path => "Directory " ++ quoted path ++ " is a file."
  | .isDirectory path => "File " ++ quoted path ++ " is a directory."
  | .notInteger text => quoted text ++ " is not a valid integer range."
  | .notPositive value => toString value ++ " is not in the range x>=1."
  | .notChoice text choices =>
    quoted text ++ " is not one of " ++ ", ".intercalate (choices.map fun c => quoted c.toLower) ++ "."

inductive UsageFault where
  | noSuchOption (name : String)
  | noSuchCommand (name : String)
  | noCommand
  | missing (names : List String)
  | badValue (names : List String) (fault : ValueFault)
  | extra (arguments : List String)
deriving DecidableEq, Repr

namespace UsageFault

/-- All names of an option, quoted. -/
def hint (names : List String) : String :=
  " / ".intercalate (names.map quoted)

def message : UsageFault → String
  | .noSuchOption name => "No such option " ++ quoted name ++ "."
  | .noSuchCommand name => "No such command " ++ quoted name ++ "."
  | .noCommand => "Missing command."
  | .missing names => "Missing option " ++ hint names ++ "."
  | .badValue names f => "Invalid value for " ++ hint names ++ ": " ++ f.message
  | .extra [a] => "Got unexpected extra argument (" ++ a ++ ")"
  | .extra arguments => "Got unexpected extra arguments (" ++ " ".intercalate arguments ++ ")"

end UsageFault

/-- Why arguments are refused: a fault of use, an option without its value or with one that it cannot
take, or a path that cannot even be asked for. -/
inductive Refused where
  | usage (fault : UsageFault)
  | needsValue (name : String)
  | takesNoValue (name : String)
  | path (fault : AccessFault)
deriving DecidableEq, Repr

namespace Parameter

def declared (p : Parameter) : OptionForm :=
  ⟨p.names, p.rule ≠ .flag⟩

def choice? (choices : List String) (text : String) : Option String :=
  choices.find? fun c => c.toLower = text.toLower

/-- Checks one value of a parameter. -/
def checkValue (p : Parameter) (fs : Files) (text : String) : Except Refused Unit :=
  let bad (f : ValueFault) : Except Refused Unit := .error (.usage (.badValue p.names f))
  match p.rule with
  | .flag => .ok ()
  | .file =>
    match fs.find text with
    | .ok (_, .directory) => bad (.isDirectory text)
    | .ok _ => .ok ()
    | .error (.refused _ _) => bad (.noFile text)
    | .error f => .error (.path f)
  | .directory mustExist =>
    match fs.find text with
    | .ok (_, .file _) => bad (.isFile text)
    | .ok _ => .ok ()
    | .error (.refused _ _) => if mustExist then bad (.noDirectory text) else .ok ()
    | .error f => .error (.path f)
  | .positive =>
    match Integer.read? text.toList with
    | none => bad (.notInteger text)
    | some n => if n < 1 then bad (.notPositive n) else .ok ()
  | .oneOf choices =>
    match choice? choices text with
    | none => bad (.notChoice text choices)
    | some _ => .ok ()

/-- The values that count: all of a repeatable parameter, the last of any other, and the variable in the
environment if none was given; an empty variable counts as unset. -/
def values (p : Parameter) (environment : Table String String) (given : List Occurrence) : List String :=
  let own := (given.filter fun o => o.option = p.declared).filterMap Occurrence.value
  let own := if p.repeatable then own else own.getLast?.toList
  if own = [] then
    match p.variableName.bind (Table.get? environment) with
    | some v => if v = "" then [] else [v]
    | none => []
  else own

def check (p : Parameter) (fs : Files) (values : List String) : Except Refused Unit :=
  if p.required ∧ values = [] then .error (.usage (.missing p.names))
  else values.forM (p.checkValue fs)

/-- Parameters in the order in which they were given, the others after them as declared. -/
def inOrder (parameters : List Parameter) (given : List Occurrence) : List Parameter :=
  let first := distinct (given.filterMap fun o => parameters.find? fun p => o.option = p.declared)
  first ++ parameters.filter fun p => p ∉ first

end Parameter

/-- The values of a command's parameters, all of them checked. -/
structure Given where
  occurrences : List Occurrence
  environment : Table String String

namespace Given

def values (g : Given) (p : Parameter) : List String :=
  p.values g.environment g.occurrences

def isSet (g : Given) (p : Parameter) : Bool :=
  g.occurrences.any fun o => o.option = p.declared

/-- Reads and checks the arguments of a command that takes no operands. -/
def ofArguments (parameters : List Parameter) (fs : Files) (environment : Table String String)
    (arguments : List String) : Except Refused Given :=
  match Arguments.parse (parameters.map Parameter.declared) true arguments with
  | .error (.noSuchOption name) => .error (.usage (.noSuchOption name))
  | .error (.needsValue name) => .error (.needsValue name)
  | .error (.takesNoValue name) => .error (.takesNoValue name)
  | .ok (occurrences, operands) => do
    let g : Given := ⟨occurrences, environment⟩
    (Parameter.inOrder parameters occurrences).forM fun p => p.check fs (g.values p)
    if operands ≠ [] then throw (.usage (.extra operands))
    return g

end Given
end ThreadLocal
