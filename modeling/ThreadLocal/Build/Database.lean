import ThreadLocal.Build.Command
import ThreadLocal.Files.Access
import ThreadLocal.Json.Reader
import ThreadLocal.Text.Lines

/-!
Compilation databases: the source files and include directories named by all entries together.
-/

namespace ThreadLocal

structure Database where
  commands : List CompileCommand
deriving Repr

inductive DatabaseFault where
  | notIterable (kind : String)
  | entry (fault : EntryFault)
  | access (fault : AccessFault)
  | encoding (fault : Utf8.Fault)
  | syntaxError (fault : Json.SyntaxError)
deriving DecidableEq, Repr

def DatabaseFault.message : DatabaseFault → String
  | .notIterable kind => quoted kind ++ " object is not iterable"
  | .entry f => f.message
  | .access f => f.message
  | .encoding f => f.message
  | .syntaxError f => f.message

namespace Database

/-- The entries of a database; an object gives its names and a text its characters, none of which is an
entry. -/
def entriesOf : Json → Except DatabaseFault (List Json)
  | .arr items => .ok items
  | .obj fields => .ok (fields.map fun f => .str f.1)
  | .str s => .ok (s.toList.map fun c => .str (String.singleton c))
  | x => .error (.notIterable x.kindName)

def ofJson (x : Json) : Except DatabaseFault Database := do
  let entries ← entriesOf x
  let commands ← entries.mapM fun e => (CompileCommand.ofJson e).mapError .entry
  return ⟨commands⟩

/-- The database in a file. -/
def ofFile (fs : Files) (path : String) : Except DatabaseFault Database :=
  match fs.read path with
  | .error f => .error (.access f)
  | .ok content =>
    match Utf8.decode content with
    | .error f => .error (.encoding f)
    | .ok cs =>
      match Json.read (String.ofList (unifyLineEnds cs)) with
      | .error f => .error (.syntaxError f)
      | .ok x => ofJson x

/-- The C source of a command, resolved, if it compiles one. -/
def sourceOf (fs : Files) (c : CompileCommand) : Except CommandFault (Option Location) := do
  let p ← c.filePath
  if p.suffix = ".c" then
    return some (← (fs.resolve p).mapError .resolve)
  return none

/-- The C sources in the order in which they first occur. -/
def sources (db : Database) (fs : Files) : Except CommandFault (List Location) := do
  let found ← db.commands.mapM (sourceOf fs)
  return distinct (found.filterMap id)

/-- The include directories in the order in which they first occur. -/
def includeDirectories (db : Database) (fs : Files) : Except CommandFault (List Location) := do
  let found ← db.commands.mapM fun c => c.includeDirectories fs
  return distinct found.flatten

end Database
end ThreadLocal
