import ThreadLocal.Files.Resolve

/-!
Opening files by path: what is found, or why nothing can be opened.
-/

namespace ThreadLocal

/-- The refusals of the system, by their numbers. -/
inductive Refusal where
  | noEntry
  | notDirectory
  | isDirectory
  | tooManyLinks
deriving DecidableEq, Repr

def Refusal.number : Refusal → Nat
  | .noEntry => 2
  | .notDirectory => 20
  | .isDirectory => 21
  | .tooManyLinks => 40

def Refusal.text : Refusal → String
  | .noEntry => "No such file or directory"
  | .notDirectory => "Not a directory"
  | .isDirectory => "Is a directory"
  | .tooManyLinks => "Too many levels of symbolic links"

inductive AccessFault where
  | embeddedNul
  | refused (refusal : Refusal) (path : String)
deriving DecidableEq, Repr

/-- A refusal in the system's own words, with the file that it names. -/
structure SystemFault where
  number : Int
  text : String
  file : Option String
deriving DecidableEq, Repr

def SystemFault.message (f : SystemFault) : String :=
  "[Errno " ++ toString f.number ++ "] " ++ f.text ++
    match f.file with
    | some file => ": " ++ quoted file
    | none => ""

/-- Whether the system refused something or a value makes no sense; each handler names the kinds that it
takes care of. -/
inductive FaultKind where
  | system
  | value
deriving DecidableEq, Repr

def AccessFault.kind : AccessFault → FaultKind
  | .embeddedNul => .value
  | .refused _ _ => .system

def AccessFault.message : AccessFault → String
  | .embeddedNul => "embedded null byte"
  | .refused r path => "[Errno " ++ toString r.number ++ "] " ++ r.text ++ ": " ++ quoted path

def Stop.refusal : Stop → Refusal
  | .missing => .noEntry
  | .notDirectory => .notDirectory
  | .loop _ => .tooManyLinks

namespace Files

/-- Where an existing path leads. -/
def locate (fs : Files) (path : String) : Except AccessFault Location :=
  if hasNul path then .error .embeddedNul
  else if path = "" then .error (.refused .noEntry path)
  else
    match fs.walk .strict (fs.start (Path.anchorOf path.toList)) (pieces path) with
    | .ok l => .ok l
    | .error s => .error (.refused s.refusal path)

/-- What stands where a path leads. -/
def find (fs : Files) (path : String) : Except AccessFault (Location × Entry) :=
  match fs.locate path with
  | .error f => .error f
  | .ok l =>
    match fs.entryAt? l with
    | some e => .ok (l, e)
    | none => .error (.refused .noEntry path)

/-- The location and content of the regular file at a path. -/
def openFile (fs : Files) (path : String) : Except AccessFault (Location × Bytes) :=
  match fs.find path with
  | .error f => .error f
  | .ok (l, .file content) => .ok (l, content)
  | .ok (_, .directory) => .error (.refused .isDirectory path)
  | .ok (_, .link _) => .error (.refused .tooManyLinks path)

def read (fs : Files) (path : String) : Except AccessFault Bytes :=
  (fs.openFile path).map Prod.snd

end Files
end ThreadLocal
