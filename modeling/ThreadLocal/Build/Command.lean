import ThreadLocal.Files.Resolve
import ThreadLocal.Json.Display
import ThreadLocal.Shell.Words

/-!
One entry of a compilation database: the directory and file of a compilation, and its command either as
one text or as a list of arguments. Values of a wrong kind are kept until something needs them.
-/

namespace ThreadLocal

structure CompileCommand where
  directory : Json
  file : Json
  command : Json
  arguments : Json
  output : Json
deriving Repr

inductive EntryFault where
  | notMapping (kind : String)
  | unknownField (name : String)
  | missingFile
  | missingDirectory
  | missingBoth
  | noCommand
  | twoCommands
deriving DecidableEq, Repr

def EntryFault.message : EntryFault → String
  | .notMapping kind =>
    "compilation_database.CompileCommand() argument after ** must be a mapping, not " ++ kind
  | .unknownField "self" => "CompileCommand.__init__() got multiple values for argument 'self'"
  | .unknownField name =>
    "CompileCommand.__init__() got an unexpected keyword argument " ++ quoted name
  | .missingFile => "CompileCommand.__init__() missing 1 required positional argument: 'file'"
  | .missingDirectory => "CompileCommand.__init__() missing 1 required positional argument: 'directory'"
  | .missingBoth =>
    "CompileCommand.__init__() missing 2 required positional arguments: 'directory' and 'file'"
  | .noCommand => "Either 'command' or 'arguments' must be provided"
  | .twoCommands => "Cannot specify both 'command' and 'arguments'"

/-- A value of a kind that the operation at hand cannot use. -/
inductive CommandFault where
  | notPath (kind : String)
  | notCommand (kind : String)
  | notArgument (kind : String)
  | notDirectory (kind : String)
  | noLength (kind : String)
  | notList
  | words (fault : Shell.WordsFault)
  | resolve (fault : ResolveFault)
deriving DecidableEq, Repr

def CommandFault.message : CommandFault → String
  | .notPath kind => "expected str, bytes or os.PathLike object, not " ++ kind
  | .notCommand kind => quoted kind ++ " object has no attribute 'read'"
  | .notArgument kind => quoted kind ++ " object has no attribute 'startswith'"
  | .notDirectory kind => "unsupported operand type(s) for /: 'PosixPath' and " ++ quoted kind
  | .noLength kind => "object of type " ++ quoted kind ++ " has no len()"
  | .notList => "0"
  | .words f => f.message
  | .resolve f => f.message

namespace CompileCommand

def fieldNames : List String := ["directory", "file", "command", "arguments", "output"]

/-- An entry has exactly one of command and arguments; a null one counts as absent. -/
def ofJson : Json → Except EntryFault CompileCommand
  | .obj fields =>
    match fields.find? fun f => f.1 ∉ fieldNames with
    | some (name, _) => .error (.unknownField name)
    | none =>
      match Table.get? fields "directory", Table.get? fields "file" with
      | none, none => .error .missingBoth
      | none, some _ => .error .missingDirectory
      | some _, none => .error .missingFile
      | some directory, some file =>
        let optional name := (Table.get? fields name).getD .null
        let c : CompileCommand := ⟨directory, file, optional "command", optional "arguments", optional "output"⟩
        if c.command.isNull && c.arguments.isNull then .error .noCommand
        else if !c.command.isNull && !c.arguments.isNull then .error .twoCommands
        else .ok c
  | x => .error (.notMapping x.kindName)

def pathOf : Json → Except CommandFault Path
  | .str s => .ok (Path.ofText s)
  | x => .error (.notPath x.kindName)

def directoryPath (c : CompileCommand) : Except CommandFault Path :=
  pathOf c.directory

/-- The source file, below the directory unless it is absolute. -/
def filePath (c : CompileCommand) : Except CommandFault Path := do
  let file ← pathOf c.file
  if file.isAbsolute then return file
  return (← c.directoryPath).join file

/-- The words of the command: the arguments if there are any, else the split command. -/
def parts (c : CompileCommand) : Except CommandFault Json :=
  if c.arguments.isTruthy then .ok c.arguments
  else if c.command.isTruthy then
    match c.command with
    | .str s =>
      match Shell.split s with
      | .ok words => .ok (.arr (words.map .str))
      | .error f => .error (.words f)
    | x => .error (.notCommand x.kindName)
  else .ok (.arr [])

def includeFlag : String := "-I"

/-- A directory given as an argument of its own. -/
def separateDirectory (c : CompileCommand) (argument : Json) : Except CommandFault Path := do
  let base ← c.directoryPath
  match argument with
  | .str s => return base.join (Path.ofText s)
  | x => throw (.notDirectory x.kindName)

/-- The directory joined to its flag in one argument, if there is one. -/
def joinedDirectory? (c : CompileCommand) (argument : Json) : Except CommandFault (Option Path) :=
  match argument with
  | .str s =>
    if includeFlag.toList.isPrefixOf s.toList ∧ 2 < s.length then do
      return some ((← c.directoryPath).join (Path.ofText (String.ofList (s.toList.drop 2))))
    else .ok none
  | x => .error (.notArgument x.kindName)

/-- The directories named by include flags; a flag alone takes the next argument, whatever it is. -/
def directoriesIn (c : CompileCommand) : List Json → Except CommandFault (List Path)
  | [] => .ok []
  | .str "-I" :: next :: rest => do
    let d ← c.separateDirectory next
    return d :: (← directoriesIn c rest)
  | argument :: rest => do
    let d ← c.joinedDirectory? argument
    return d.toList ++ (← directoriesIn c rest)

/-- The arguments of a command one by one; those of a text are its characters. -/
def argumentList : Json → Except CommandFault (List Json)
  | .arr items => .ok items
  | .str s => .ok (s.toList.map fun c => .str (String.singleton c))
  | .obj _ => .error .notList
  | x => .error (.noLength x.kindName)

/-- The include directories, each taken below the command's directory and resolved. -/
def includeDirectories (c : CompileCommand) (fs : Files) : Except CommandFault (List Location) := do
  let dirs ← c.directoriesIn (← argumentList (← c.parts))
  dirs.mapM fun d => (fs.resolve d).mapError .resolve

end CompileCommand
end ThreadLocal
