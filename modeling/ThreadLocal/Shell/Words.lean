/-!
Words of a shell command: blanks separate them, quotes and backslashes keep characters together. Quoting
a word is the other direction.
-/

namespace ThreadLocal
namespace Shell

inductive WordsFault where
  | noClosingQuotation
  | noEscapedCharacter
deriving DecidableEq, Repr

def WordsFault.message : WordsFault → String
  | .noClosingQuotation => "No closing quotation"
  | .noEscapedCharacter => "No escaped character"

def isBlank (c : Char) : Bool :=
  c = ' ' || c = '\t' || c = '\r' || c = '\n'

/-- Where a splitter stands: between words, or in a word or its quotes with the part of the word read so
far, in reverse. -/
inductive State where
  | between
  | word (done : List Char)
  | single (done : List Char)
  | double (done : List Char)
deriving DecidableEq, Repr

/-- Splits from a state. Inside double quotes a backslash escapes only a quote or a backslash and
otherwise stands for itself. -/
def splitFrom : State → List Char → Except WordsFault (List (List Char))
  | .between, [] => .ok []
  | .word done, [] => .ok [done.reverse]
  | .single _, [] => .error .noClosingQuotation
  | .double _, [] => .error .noClosingQuotation
  | .between, '\\' :: [] => .error .noEscapedCharacter
  | .word _, '\\' :: [] => .error .noEscapedCharacter
  | .double _, '\\' :: [] => .error .noEscapedCharacter
  | .between, '\\' :: c :: rest => splitFrom (.word [c]) rest
  | .word done, '\\' :: c :: rest => splitFrom (.word (c :: done)) rest
  | .double done, '\\' :: c :: rest =>
    splitFrom (.double (if c = '"' ∨ c = '\\' then c :: done else c :: '\\' :: done)) rest
  | .between, c :: rest =>
    if isBlank c then splitFrom .between rest
    else if c = '\'' then splitFrom (.single []) rest
    else if c = '"' then splitFrom (.double []) rest
    else splitFrom (.word [c]) rest
  | .word done, c :: rest =>
    if isBlank c then (splitFrom .between rest).map (done.reverse :: ·)
    else if c = '\'' then splitFrom (.single done) rest
    else if c = '"' then splitFrom (.double done) rest
    else splitFrom (.word (c :: done)) rest
  | .single done, c :: rest =>
    if c = '\'' then splitFrom (.word done) rest else splitFrom (.single (c :: done)) rest
  | .double done, c :: rest =>
    if c = '"' then splitFrom (.word done) rest else splitFrom (.double (c :: done)) rest

/-- The words of a command. -/
def split (command : String) : Except WordsFault (List String) :=
  (splitFrom .between command.toList).map (·.map String.ofList)

/-- Characters that mean nothing but themselves to a shell. -/
def isPlain (c : Char) : Bool :=
  c.isAlphanum || "_@%+=:,./-".toList.contains c

/-- A word as it is written in a command. -/
def quote (word : String) : String :=
  if word ≠ "" ∧ word.toList.all isPlain then word
  else
    String.ofList ('\'' :: (word.toList.flatMap fun c =>
      if c = '\'' then "'\"'\"'".toList else [c]) ++ ['\''])

end Shell
end ThreadLocal
