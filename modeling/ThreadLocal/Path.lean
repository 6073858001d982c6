/-!
Paths as text and as components. Empty components and single dots drop out, double dots stay; exactly two
leading slashes are kept apart from one.
-/

namespace ThreadLocal

/-- The names from the root directory down to a file or directory. -/
abbrev Location := List String

inductive Anchor where
  | relative
  | root
  | doubleRoot
deriving DecidableEq, Repr

def Anchor.text : Anchor → String
  | .relative => ""
  | .root => "/"
  | .doubleRoot => "//"

structure Path where
  anchor : Anchor
  parts : List String
deriving DecidableEq, Repr

/-- The pieces between slashes, empty ones included. -/
def slashPieces : List Char → List (List Char)
  | [] => [[]]
  | c :: rest =>
    if c = '/' then [] :: slashPieces rest
    else
      match slashPieces rest with
      | [] => [[c]]
      | p :: ps => (c :: p) :: ps

namespace Path

def anchorOf : List Char → Anchor
  | '/' :: '/' :: '/' :: _ => .root
  | '/' :: '/' :: _ => .doubleRoot
  | '/' :: _ => .root
  | _ => .relative

def componentsOf (cs : List Char) : List String :=
  ((slashPieces cs).filter fun p => p ≠ [] ∧ p ≠ ['.']).map String.ofList

def ofText (s : String) : Path :=
  ⟨anchorOf s.toList, componentsOf s.toList⟩

def ofLocation (l : Location) : Path :=
  ⟨.root, l⟩

def text (p : Path) : String :=
  if p.anchor = .relative ∧ p.parts = [] then "."
  else p.anchor.text ++ "/".intercalate p.parts

def isAbsolute (p : Path) : Bool :=
  p.anchor ≠ .relative

/-- A path below a directory; an absolute path replaces the directory. -/
def join (directory p : Path) : Path :=
  if p.isAbsolute then p else ⟨directory.anchor, directory.parts ++ p.parts⟩

/-- The end of the last component from its last dot on; a dot at either end of it does not count. -/
def suffix (p : Path) : String :=
  match p.parts.getLast? with
  | none => ""
  | some name =>
    let cs := name.toList
    let tail := cs.reverse.takeWhile (· ≠ '.')
    if tail = [] ∨ cs.length ≤ tail.length + 1 then "" else String.ofList ('.' :: tail.reverse)

/-- The path as seen from the directory `here`, if it lies at or below it. -/
def seenFrom (here : Location) (p : Path) : Path :=
  if p.anchor = .root ∧ here.isPrefixOf p.parts then ⟨.relative, p.parts.drop here.length⟩ else p

end Path

def Location.text (l : Location) : String :=
  (Path.ofLocation l).text

/-- Whether a location is `root` or lies below it. -/
def Location.isWithin (root l : Location) : Bool :=
  root.isPrefixOf l

/-- How messages name a path: relative to the directory `here` when it lies beneath it. -/
def shownFrom (here : Location) (path : String) : String :=
  ((Path.ofText path).seenFrom here).text

end ThreadLocal
