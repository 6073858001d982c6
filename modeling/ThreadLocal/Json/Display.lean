import ThreadLocal.Json.Basic
import ThreadLocal.Text.Quoted

/-!
How a value is shown inside messages: a text as it is, everything else as it would be written in a
program, with texts inside containers quoted.
-/

namespace ThreadLocal
namespace Json

mutual

/-- The display of a value inside a container. -/
def inner : Json → List Char
  | .null => "None".toList
  | .bool b => if b then "True".toList else "False".toList
  | .int i => (toString i).toList
  | .float x => x.text.toList
  | .str s => Quoted.encode s.toList
  | .arr items => '[' :: [',', ' '].intercalate (innerItems items) ++ [']']
  | .obj fields => '\x7b' :: [',', ' '].intercalate (innerFields fields) ++ ['\x7d']

def innerItems : List Json → List (List Char)
  | [] => []
  | x :: rest => inner x :: innerItems rest

def innerFields : List (String × Json) → List (List Char)
  | [] => []
  | (name, x) :: rest => (Quoted.encode name.toList ++ ':' :: ' ' :: inner x) :: innerFields rest

end

/-- The display of a value with texts quoted. -/
def quotedDisplay (x : Json) : String :=
  String.ofList (inner x)

/-- The display of a value with a text as it is. -/
def display : Json → String
  | .str s => s
  | x => x.quotedDisplay

end Json
end ThreadLocal
