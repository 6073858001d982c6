import ThreadLocal.Node

/-!
Variable declarations that might need a copy per thread, and which of them do.
-/

namespace ThreadLocal

/-- A declaration as the rules see it. -/
structure Candidate where
  name : String
  typeSpelling : String
  isConstant : Bool
  storage : Option StorageClass
  atFileScope : Bool
  isThreadLocal : Bool
  /-- where the extent starts, if the front end can say -/
  file : Option String
  start : Int
  finish : Int
  finishFile : Option String
  line : Int
  column : Int
deriving DecidableEq, Repr

inductive SkipReason where
  | automatic
  | sentinel
  | constant
  | alreadyThreadLocal
deriving DecidableEq, Repr

def SkipReason.text : SkipReason → String
  | .automatic => "automatic variable"
  | .sentinel => "sentinel declaration"
  | .constant => "constant"
  | .alreadyThreadLocal => "already thread-local"

namespace Candidate

/-- A name that is only ever declared to end a macro with a declaration. -/
def sentinelName : String := "no_such_variable"

def ofNode (node parent : NodeInfo) : Candidate where
  name := node.name
  typeSpelling := node.type.written.spelling
  isConstant := node.type.isConstant
  storage := some node.storage
  atFileScope := parent.kind = NodeKind.unitRoot
  isThreadLocal := node.threadStorage ≠ .none
  file := node.start.file
  start := node.start.offset
  finish := node.finish.offset
  finishFile := node.finish.file
  line := node.place.line
  column := node.place.column

/-- How messages name the place of a candidate; an empty file name counts as none. -/
def location (c : Candidate) : String :=
  let file := match c.file with
    | some "" => "<unknown>"
    | some f => f
    | none => "<unknown>"
  file ++ ":" ++ toString c.line ++ ":" ++ toString c.column

/-- Whether a variable lives as long as the program. -/
def isGlobalOrStatic (c : Candidate) : Bool :=
  c.atFileScope || c.storage = some .static

/-- Why a declaration is left alone, if it is. -/
def skipReason (c : Candidate) : Option SkipReason :=
  if !c.isGlobalOrStatic then some .automatic
  else if c.name = sentinelName then some .sentinel
  else if c.isConstant then some .constant
  else if c.isThreadLocal then some .alreadyThreadLocal
  else none

end Candidate
end ThreadLocal
