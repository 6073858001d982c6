import ThreadLocal.Files.Basic
import ThreadLocal.Json.Display
import ThreadLocal.Node

/-!
Front ends: what turns a source file into a syntax tree, and what can keep one from being set up.
-/

namespace ThreadLocal

/-- Gives the tree of a source file, or says why there is none. -/
structure FrontEnd where
  parse : Files → (path : String) → (arguments : List String) → Except String Node

namespace FrontEnd

/-- What is said of a file for which there is no tree. -/
def noTree : String := "Error parsing translation unit."

/-- A front end that knows the trees of some paths. -/
def ofTrees (trees : Table String (Except String Node)) : FrontEnd where
  parse _ path _ :=
    match Table.get? trees path with
    | some tree => tree
    | none => .error noTree

/-- Full preprocessing is recorded, and errors do not stop a parse. -/
def options : Nat := 0x201

end FrontEnd

/-- How the making of a front end can fail. -/
inductive SetupFault where
  | library (text : String)
  | system (parts : List Json)

/-- The files that a system fault names: one, and perhaps a second that was to take its place. -/
def SetupFault.filesText : List Json → String
  | [] => ""
  | .null :: _ => ""
  | file :: _ :: second :: _ =>
    ": " ++ file.quotedDisplay ++ if second.isNull then "" else " -> " ++ second.quotedDisplay
  | file :: _ => ": " ++ file.quotedDisplay

/-- A system fault with a number and a text names both, and its files. -/
def SetupFault.message : SetupFault → String
  | .library text => text
  | .system (number :: text :: files) =>
    "[Errno " ++ number.display ++ "] " ++ text.display ++ SetupFault.filesText files
  | .system [text] => text.display
  | .system [] => ""

/-- No front end, so no file can be looked at. -/
structure Unavailable where
  cause : String
deriving DecidableEq, Repr

def Unavailable.message (u : Unavailable) : String :=
  "could not initialize libclang: " ++ u.cause

/-- The library to load before a front end is made: the configured one, unless one is loaded already or
none is named. -/
def libraryToLoad (loaded : Bool) (configured : Option String) : Option String :=
  if loaded ∨ configured = some "" then none else configured

def setUp {α : Type} (made : Except SetupFault α) : Except Unavailable α :=
  made.mapError fun f => ⟨f.message⟩

end ThreadLocal
