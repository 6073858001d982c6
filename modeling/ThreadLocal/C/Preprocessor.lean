import ThreadLocal.C.Lexer
import ThreadLocal.Files.Access

/-!
Preprocessing: macros without parameters, conditional groups and included files. What a macro expands to
stands where the macro is used.
-/

namespace ThreadLocal.C

abbrev Macros := Table String (List Token)

namespace Macros

/-- Expands tokens with at most `depth` macros inside one another; an active macro's name stands for
itself. -/
def expandWithin (macros : Macros) : (depth : Nat) → (active : List String) → List Token → List Token
  | 0, _, ts => ts
  | depth + 1, active, ts => ts.flatMap fun t =>
    match Table.get? macros t.text with
    | some body =>
      if t.isName && !active.contains t.text then
        (expandWithin macros depth (t.text :: active) body).map (·.movedTo t.spot)
      else [t]
    | none => [t]

def expand (macros : Macros) (ts : List Token) : List Token :=
  macros.expandWithin (macros.length + 1) [] ts

end Macros

/-- The lines of a file: directives without their `#`, and text. -/
inductive Line where
  | directive (tokens : List Token)
  | text (tokens : List Token)
deriving Repr

def Line.ofTokens : List Token → Line
  | [] => .text []
  | t :: rest => if t.isMark "#" then .directive rest else .text (t :: rest)

def linesOf (ts : List Token) : List Line :=
  (ts.splitBy fun _ t => !t.startsLine).map Line.ofTokens

/-- A conditional group: whether its present branch counts, and whether one of its branches has. -/
structure Branch where
  live : Bool
  taken : Bool
deriving DecidableEq, Repr

/-- What is known while files are read, and the tokens so far, last first. -/
structure Unfolding where
  macros : Macros
  /-- files that are not to be read again -/
  once : List Location
  /-- the name under which each file was first met -/
  names : Table Location String
  output : List Token

namespace Unfolding

def allLive (branches : List Branch) : Bool :=
  branches.all Branch.live

/-- Whether the tokens of a condition stand for a number other than zero. -/
def holds (macros : Macros) (condition : List Token) : Bool :=
  match macros.expand condition with
  | t :: _ => t.kind = .number && t.text ≠ "0"
  | [] => false

def isDefined (macros : Macros) : List Token → Bool
  | t :: _ => (Table.get? macros t.text).isSome
  | [] => false

def opened (branches : List Branch) (condition : Bool) : List Branch :=
  ⟨condition, condition⟩ :: branches

/-- The branch after `#elif` or `#else`: it counts if none before it did. -/
def switched (branches : List Branch) (condition : Bool) : List Branch :=
  match branches with
  | [] => []
  | b :: rest => ⟨!b.taken && condition, b.taken || condition⟩ :: rest

/-- The file named by an include directive. -/
def includeName? : List Token → Option String
  | t :: _ =>
    if t.kind = .literal then some (String.ofList ((t.text.toList.drop 1).dropLast)) else none
  | [] => none

/-- Carries out a directive other than the conditional ones. -/
def obey (u : Unfolding) (enter : Unfolding → String → Unfolding) (here : Location) :
    List Token → Unfolding
  | [] => u
  | d :: rest =>
    match d.text, rest with
    | "define", name :: body => { u with macros := Table.put u.macros name.text body }
    | "undef", name :: _ => { u with macros := Table.erase u.macros name.text }
    | "include", _ =>
      match includeName? rest with
      | some name => enter u name
      | none => u
    | "pragma", p :: _ => if p.text = "once" then { u with once := here :: u.once } else u
    | _, _ => u

/-- Reads the lines of the file at `here`; `enter` reads an included file. -/
def readLines (enter : Unfolding → String → Unfolding) (here : Location) :
    List Line → List Branch → Unfolding → Unfolding
  | [], _, u => u
  | .text ts :: rest, branches, u =>
    let u :=
      if allLive branches then { u with output := (u.macros.expand ts).reverse ++ u.output } else u
    readLines enter here rest branches u
  | .directive ts :: rest, branches, u =>
    let arguments := ts.drop 1
    match (ts.head?.map Token.text).getD "" with
    | "ifdef" => readLines enter here rest (opened branches (isDefined u.macros arguments)) u
    | "ifndef" => readLines enter here rest (opened branches (!isDefined u.macros arguments)) u
    | "if" => readLines enter here rest (opened branches (holds u.macros arguments)) u
    | "elif" => readLines enter here rest (switched branches (holds u.macros arguments)) u
    | "else" => readLines enter here rest (switched branches true) u
    | "endif" => readLines enter here rest (branches.drop 1) u
    | _ =>
      readLines enter here rest branches (if allLive branches then u.obey enter here ts else u)

/-- The directory part of a file name. -/
def directoryOf (file : String) : String :=
  let cs := file.toList
  if cs.contains '/' then String.ofList ((cs.reverse.dropWhile (· ≠ '/')).drop 1).reverse else "."

def below (directory name : String) : String :=
  String.ofList (directory.toList.reverse.dropWhile (· = '/')).reverse ++ "/" ++ name

/-- Where an included file may be: as named if absolute, else beside the including file and then in the
include directories. -/
def candidates (includePaths : List String) (file name : String) : List String :=
  if name.toList.head? = some '/' then [name]
  else below (directoryOf file) name :: includePaths.map fun d => below d name

def isFile (fs : Files) (path : String) : Bool :=
  match fs.openFile path with
  | .ok _ => true
  | .error _ => false

/-- Reads a file with at most `depth` files inside one another. A file read under several names keeps the
first. -/
def readFile (fs : Files) (includePaths : List String) : (depth : Nat) → Unfolding → String → Unfolding
  | 0, u, _ => u
  | depth + 1, u, path =>
    match fs.openFile path with
    | .error _ => u
    | .ok (here, content) =>
      if here ∈ u.once then u
      else
        let name := (Table.get? u.names here).getD path
        let enter (u : Unfolding) (included : String) : Unfolding :=
          match (candidates includePaths name included).find? (isFile fs) with
          | some path => readFile fs includePaths depth u path
          | none => u
        readLines enter here (linesOf (tokens name content)) []
          { u with names := Table.put u.names here name }

/-- Files may include one another this deep. -/
def maximalDepth : Nat := 200

end Unfolding

/-- The tokens of a source file after preprocessing. -/
def preprocess (fs : Files) (includePaths : List String) (path : String) : List Token :=
  (Unfolding.readFile fs includePaths Unfolding.maximalDepth ⟨[], [], [], []⟩ path).output.reverse

end ThreadLocal.C
