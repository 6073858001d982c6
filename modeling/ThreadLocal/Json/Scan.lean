import ThreadLocal.Json.Basic

/-!
The leaves of JSON texts: blanks, words, numbers and strings. A reader takes the characters that are left
and gives back fewer; where it stops, the number of characters left tells the place.
-/

namespace ThreadLocal
namespace Json

inductive SyntaxFault where
  | valueExpected
  | commaExpected
  | colonExpected
  | nameExpected
  | unterminatedString
  | controlCharacter
  | badEscape
  | badUnicodeEscape
  | extraData
  | byteOrderMark
deriving DecidableEq, Repr

/-- What is wrong, and how many characters are left at the place where it is. -/
structure Trouble where
  fault : SyntaxFault
  left : Nat
deriving DecidableEq, Repr

/-- What can be left of `s` once something was read from it. -/
abbrev Left (s : List Char) := { rest : List Char // rest.length < s.length }

def isBlank (c : Char) : Bool :=
  c = ' ' || c = '\t' || c = '\n' || c = '\r'

def skipBlanks (s : List Char) : List Char :=
  s.dropWhile isBlank

theorem length_dropWhile_le {α : Type} (p : α → Bool) (s : List α) : (s.dropWhile p).length ≤ s.length :=
  (List.dropWhile_sublist p).length_le

theorem skipBlanks_length (s : List Char) : (skipBlanks s).length ≤ s.length :=
  length_dropWhile_le isBlank s

/-- Removes a given word from the front. -/
def afterWord? (word s : List Char) : Option (List Char) :=
  if word.isPrefixOf s then some (s.drop word.length) else none

def words : List (List Char × Json) := [
  ("null".toList, .null), ("true".toList, .bool true), ("false".toList, .bool false),
  ("NaN".toList, .float .nan), ("Infinity".toList, .float (.infinite false)),
  ("-Infinity".toList, .float (.infinite true))]

def digitsValue (ds : List Char) : Nat :=
  ds.foldl (fun n c => n * 10 + (c.toNat - 48)) 0

/-- The digits of a whole part; after a leading zero no digit belongs to it. -/
def wholeDigits : List Char → List Char
  | '0' :: _ => ['0']
  | s => s.takeWhile Char.isDigit

/-- The digits after a point, if the point is followed by one. -/
def fractionDigits : List Char → List Char
  | '.' :: s => s.takeWhile Char.isDigit
  | _ => []

/-- The value of an exponent and the number of characters that it takes. -/
def exponent? : List Char → Option (Int × Nat)
  | e :: s =>
    if e = 'e' ∨ e = 'E' then
      let (negative, signed) := match s with
        | '-' :: _ => (true, 1)
        | '+' :: _ => (false, 1)
        | _ => (false, 0)
      let ds := (s.drop signed).takeWhile Char.isDigit
      if ds = [] then none
      else some (if negative then -(digitsValue ds : Int) else digitsValue ds, 1 + signed + ds.length)
    else none
  | [] => none

/-- How many characters a minus at the front takes. -/
def signLength : List Char → Nat
  | '-' :: _ => 1
  | _ => 0

/-- The number at the front of `s` and how many characters it takes. -/
def number? (s : List Char) : Option (Json × Nat) :=
  let sign := signLength s
  let whole := wholeDigits (s.drop sign)
  if whole = [] then none
  else
    let past := sign + whole.length
    let fraction := fractionDigits (s.drop past)
    let past := if fraction = [] then past else past + 1 + fraction.length
    match fraction, exponent? (s.drop past) with
    | [], none =>
      let n : Int := digitsValue whole
      some (.int (if sign = 1 then -n else n), past)
    | _, scale =>
      let (e, size) := scale.getD (0, 0)
      let digits := digitsValue (whole ++ fraction)
      some (.float (.ofDecimal (sign = 1) digits (e - fraction.length)), past + size)

def hexValue? (c : Char) : Option Nat :=
  if '0' ≤ c ∧ c ≤ '9' then some (c.toNat - 48)
  else if 'a' ≤ c ∧ c ≤ 'f' then some (c.toNat - 87)
  else if 'A' ≤ c ∧ c ≤ 'F' then some (c.toNat - 55)
  else none

def hexUnit? (a b c d : Char) : Option Nat := do
  return (((← hexValue? a) * 16 + (← hexValue? b)) * 16 + (← hexValue? c)) * 16 + (← hexValue? d)

def isHigh (n : Nat) : Bool := 0xd800 ≤ n && n < 0xdc00

def isLow (n : Nat) : Bool := 0xdc00 ≤ n && n < 0xe000

/-- The character of a 16-bit unit; a surrogate that stands alone has none and gives the replacement
character. -/
def unitChar (n : Nat) : Char :=
  if isHigh n ∨ isLow n then '\ufffd' else Char.ofNat n

/-- Reads what follows `\u`; the second part is the number of characters taken. A unit is only read if
something follows it. -/
def unicodeEscape (s : List Char) : Except Trouble (Char × Nat) :=
  match s with
  | a :: b :: c :: d :: e :: rest =>
    match hexUnit? a b c d with
    | none => .error ⟨.badUnicodeEscape, s.length + 1⟩
    | some high =>
      match isHigh high, e, rest with
      | true, '\\', 'u' :: a' :: b' :: c' :: d' :: _ :: _ =>
        match hexUnit? a' b' c' d' with
        | none => .error ⟨.badUnicodeEscape, rest.length⟩
        | some low =>
          if isLow low then .ok (Char.ofNat (0x10000 + (high - 0xd800) * 0x400 + (low - 0xdc00)), 10)
          else .ok (unitChar high, 4)
      | _, _, _ => .ok (unitChar high, 4)
  | _ => .error ⟨.badUnicodeEscape, s.length + 1⟩

def simpleEscape? : Char → Option Char
  | '"' => some '"'
  | '\\' => some '\\'
  | '/' => some '/'
  | 'b' => some '\x08'
  | 'f' => some '\x0c'
  | 'n' => some '\n'
  | 'r' => some '\r'
  | 't' => some '\t'
  | _ => none

/-- Reads the characters of a string up to its closing quote. -/
def readCharacters (s : List Char) : Except Trouble (List Char × Left s) :=
  match s with
  | [] => .error ⟨.unterminatedString, 0⟩
  | '"' :: rest => .ok ([], ⟨rest, by simp⟩)
  | '\\' :: [] => .error ⟨.unterminatedString, 0⟩
  | '\\' :: 'u' :: rest =>
    match unicodeEscape rest with
    | .error t => .error t
    | .ok (c, taken) =>
      match readCharacters (rest.drop taken) with
      | .error t => .error t
      | .ok (cs, r) => .ok (c :: cs, ⟨r.1, by have := r.2; simp at this ⊢; omega⟩)
  | '\\' :: e :: rest =>
    match simpleEscape? e with
    | none => .error ⟨.badEscape, rest.length + 2⟩
    | some c =>
      match readCharacters rest with
      | .error t => .error t
      | .ok (cs, r) => .ok (c :: cs, ⟨r.1, by have := r.2; simp; omega⟩)
  | c :: rest =>
    if c.toNat < 0x20 then .error ⟨.controlCharacter, rest.length + 1⟩
    else
      match readCharacters rest with
      | .error t => .error t
      | .ok (cs, r) => .ok (c :: cs, ⟨r.1, by have := r.2; simp; omega⟩)
termination_by s.length
decreasing_by all_goals simp; try omega

/-- Reads a string behind its opening quote; one that never ends is reported at that quote. -/
def readString (s : List Char) : Except Trouble (List Char × Left s) :=
  (readCharacters s).mapError fun t =>
    if t.fault = .unterminatedString then ⟨t.fault, s.length + 1⟩ else t

end Json
end ThreadLocal
