import ThreadLocal.Json.Basic
import ThreadLocal.Text.Utf8

/-!
The text of a JSON value: one line of ASCII, with a blank after every comma and colon.
-/

namespace ThreadLocal
namespace Json

/-- The escape of one 16-bit unit. -/
def unitEscape (n : Nat) : List Char :=
  '\\' :: 'u' :: Utf8.hexDigits 4 n

/-- Characters past the first plane are written as a pair of surrogates. -/
def escape (c : Char) : List Char :=
  if c = '"' ∨ c = '\\' then ['\\', c]
  else if c = '\n' then ['\\', 'n']
  else if c = '\r' then ['\\', 'r']
  else if c = '\t' then ['\\', 't']
  else if c = '\x08' then ['\\', 'b']
  else if c = '\x0c' then ['\\', 'f']
  else if ' ' ≤ c ∧ c ≤ '~' then [c]
  else if c.toNat < 0x10000 then unitEscape c.toNat
  else
    let n := c.toNat - 0x10000
    unitEscape (0xd800 + n / 0x400) ++ unitEscape (0xdc00 + n % 0x400)

def writeString (s : String) : List Char :=
  '"' :: s.toList.flatMap escape ++ ['"']

def writeFloat : Binary64 → List Char
  | .nan => "NaN".toList
  | .infinite false => "Infinity".toList
  | .infinite true => "-Infinity".toList
  | x => x.text.toList

/-- Texts joined by `", "`. -/
def separated : List (List Char) → List Char
  | [] => []
  | [x] => x
  | x :: rest => x ++ ',' :: ' ' :: separated rest

mutual

def write : Json → List Char
  | .null => "null".toList
  | .bool b => if b then "true".toList else "false".toList
  | .int i => (toString i).toList
  | .float x => writeFloat x
  | .str s => writeString s
  | .arr items => '[' :: separated (writeItems items) ++ [']']
  | .obj fields => '\x7b' :: separated (writeFields fields) ++ ['\x7d']

def writeItems : List Json → List (List Char)
  | [] => []
  | x :: rest => write x :: writeItems rest

def writeFields : List (String × Json) → List (List Char)
  | [] => []
  | (name, x) :: rest => (writeString name ++ ':' :: ' ' :: write x) :: writeFields rest

end

def text (x : Json) : String :=
  String.ofList (write x)

end Json
end ThreadLocal
