import ThreadLocal.Json.Display
import ThreadLocal.Json.Reader
import ThreadLocal.Json.Writer

/-!
Work items and the requests by which they reach a worker: a JSON object with the include paths, the source
files and the source root.
-/

namespace ThreadLocal

/-- Source files to look at, and what all of them share. -/
structure WorkItem where
  includePaths : List String
  sourceFiles : List String
  sourceRoot : String
deriving DecidableEq, Repr

namespace WorkItem

def withSourceFiles (w : WorkItem) (files : List String) : WorkItem :=
  { w with sourceFiles := files }

/-- How messages name a work item; an empty one has no name. -/
def description? (w : WorkItem) : Option String :=
  w.sourceFiles.head?.map fun first =>
    toString w.sourceFiles.length ++ " file(s) starting with " ++ first

def description (w : WorkItem) : String :=
  w.description?.getD "0 file(s)"

end WorkItem

/-- A work item as read from a request, in which null fields stay open. -/
structure Request where
  includePaths : Option (List String)
  sourceFiles : Option (List String)
  sourceRoot : Option String
deriving DecidableEq, Repr

inductive RequestFault where
  | notObject (kind : String)
  | missing (name : String)
  | notIterable (kind : String)
deriving DecidableEq, Repr

def RequestFault.message : RequestFault → String
  | .notObject kind => quoted kind ++ " object has no attribute 'items'"
  | .missing name => quoted name
  | .notIterable kind => quoted kind ++ " object is not iterable"

namespace Request

def ofItem (w : WorkItem) : Request :=
  ⟨some w.includePaths, some w.sourceFiles, some w.sourceRoot⟩

def texts (items : Option (List String)) : Json :=
  match items with
  | some items => .arr (items.map .str)
  | none => .null

def toJson (r : Request) : Json :=
  .obj [("includePaths", texts r.includePaths), ("sourceFiles", texts r.sourceFiles),
    ("sourceRoot", match r.sourceRoot with
      | some s => .str s
      | none => .null)]

def text (r : Request) : String :=
  r.toJson.text

/-- The field of a name in either spelling; the later of two counts. -/
def lookup? (fields : List (String × Json)) (spellings : List String) : Option Json :=
  (fields.reverse.find? fun f => f.1 ∈ spellings).map Prod.snd

/-- A list of texts. Items of other kinds are displayed; a text gives its characters, an object its
names. -/
def textsOf : Json → Except RequestFault (Option (List String))
  | .null => .ok none
  | .arr items => .ok (some (items.map Json.display))
  | .str s => .ok (some (s.toList.map String.singleton))
  | .obj fields => .ok (some (fields.map Prod.fst))
  | x => .error (.notIterable x.kindName)

def textOf : Json → Option String
  | .null => none
  | x => some x.display

def require (fields : List (String × Json)) (camel snake : String) : Except RequestFault Json :=
  match lookup? fields [camel, snake] with
  | some x => .ok x
  | none => .error (.missing snake)

/-- Fields are read in a fixed order, so the first one that is missing or no list decides the error. -/
def ofJson : Json → Except RequestFault Request
  | .obj fields => do
    let includePaths ← textsOf (← require fields "includePaths" "include_paths")
    let sourceFiles ← textsOf (← require fields "sourceFiles" "source_files")
    let sourceRoot := textOf (← require fields "sourceRoot" "source_root")
    return ⟨includePaths, sourceFiles, sourceRoot⟩
  | x => .error (.notObject x.kindName)

end Request

inductive RequestReadFault where
  | syntaxError (fault : Json.SyntaxError)
  | shape (fault : RequestFault)
deriving DecidableEq, Repr

def RequestReadFault.message : RequestReadFault → String
  | .syntaxError f => f.message
  | .shape f => f.message

def Request.read (s : String) : Except RequestReadFault Request :=
  match Json.read s with
  | .error f => .error (.syntaxError f)
  | .ok x => (Request.ofJson x).mapError .shape

end ThreadLocal
