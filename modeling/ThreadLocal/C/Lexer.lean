import ThreadLocal.C.Token
import ThreadLocal.Text.Utf8

/-!
From the bytes of a file to tokens. Blanks and comments separate tokens; every punctuation character is a
token of its own.
-/

namespace ThreadLocal.C
namespace Lexer

inductive PieceKind where
  | newline
  | blank
  | token (kind : TokenKind)
deriving DecidableEq, Repr

def isNewline (b : UInt8) : Bool :=
  b = 10 || b = 13

def isBlank (b : UInt8) : Bool :=
  b = 32 || b = 9 || b = 11 || b = 12 || b = 0

def isDigit (b : UInt8) : Bool :=
  48 ≤ b && b ≤ 57

/-- Letters, the underscore, the dollar sign and everything that is not ASCII. -/
def isLetter (b : UInt8) : Bool :=
  (65 ≤ b && b ≤ 90) || (97 ≤ b && b ≤ 122) || b = 95 || b = 36 || 128 ≤ b

def isNameByte (b : UInt8) : Bool :=
  isLetter b || isDigit b

/-- The length of a comment from behind its opening up to the end of `*/`. -/
def commentLength : Bytes → Nat
  | [] => 0
  | 42 :: 47 :: _ => 2
  | _ :: rest => commentLength rest + 1

/-- The length of a literal behind its opening quote; it ends at the line's end at the latest. -/
def literalLength (quote : UInt8) : Bytes → Nat
  | [] => 0
  | 92 :: _ :: rest => literalLength quote rest + 2
  | b :: rest =>
    if isNewline b then 0 else if b = quote then 1 else literalLength quote rest + 1

/-- The length of what continues a number; a sign belongs to it after the letter of an exponent. -/
def numberLength : Bytes → Nat
  | [] => 0
  | [b] => if isNameByte b || b = 46 then 1 else 0
  | b :: c :: rest =>
    if (b = 101 || b = 69 || b = 112 || b = 80) && (c = 43 || c = 45) then numberLength rest + 2
    else if isNameByte b || b = 46 then numberLength (c :: rest) + 1
    else 0

/-- What stands at the front of a text that starts with `b`, and its length. -/
def piece (b : UInt8) (rest : Bytes) : PieceKind × Nat :=
  if b = 10 then (.newline, 1)
  else if b = 13 then (.newline, if rest.head? = some 10 then 2 else 1)
  else if isBlank b then (.blank, 1)
  else if b = 47 ∧ rest.head? = some 47 then (.blank, (rest.takeWhile (!isNewline ·)).length + 1)
  else if b = 47 ∧ rest.head? = some 42 then (.blank, commentLength (rest.drop 1) + 2)
  else if isDigit b || (b = 46 && rest.head?.any isDigit) then (.token .number, numberLength rest + 1)
  else if isLetter b then (.token .name, (rest.takeWhile isNameByte).length + 1)
  else if b = 34 || b = 39 then (.token .literal, literalLength b rest + 1)
  else (.token .mark, 1)

/-- A place in a text: bytes before it, and line and column from one. -/
structure Cursor where
  offset : Nat
  line : Nat
  column : Nat
deriving DecidableEq, Repr

def Cursor.past (c : Cursor) : Bytes → Cursor
  | [] => c
  | 13 :: 10 :: rest => Cursor.past ⟨c.offset + 2, c.line + 1, 1⟩ rest
  | b :: rest =>
    if isNewline b then Cursor.past ⟨c.offset + 1, c.line + 1, 1⟩ rest
    else Cursor.past ⟨c.offset + 1, c.line, c.column + 1⟩ rest

/-- The text of a token; bytes that are no UTF-8 stand for the characters of the same number. -/
def textOf (bs : Bytes) : String :=
  match bs.text? with
  | .ok s => s
  | .error _ => String.ofList (bs.map fun b => Char.ofNat b.toNat)

/-- The tokens of a text from a place on; `fresh` says that no token stands before it on its line. -/
def tokensFrom (file : String) (c : Cursor) (fresh : Bool) (text : Bytes) : List Token :=
  match text with
  | [] => []
  | b :: rest =>
    let (kind, length) := piece b rest
    let own := b :: rest.take (length - 1)
    let next := c.past own
    match kind with
    | .newline => tokensFrom file next true (rest.drop (length - 1))
    | .blank => tokensFrom file next fresh (rest.drop (length - 1))
    | .token kind =>
      ⟨kind, textOf own, ⟨file, c.offset, next.offset, c.line, c.column⟩, fresh⟩ ::
        tokensFrom file next false (rest.drop (length - 1))
termination_by text.length
decreasing_by all_goals simp only [List.length_cons, List.length_drop]; omega

def byteOrderMark : Bytes := [0xef, 0xbb, 0xbf]

end Lexer

/-- The tokens of a file; a byte order mark at its start is no part of them. -/
def tokens (file : String) (content : Bytes) : List Token :=
  if Lexer.byteOrderMark.isPrefixOf content then
    Lexer.tokensFrom file ⟨3, 1, 4⟩ true (content.drop 3)
  else Lexer.tokensFrom file ⟨0, 1, 1⟩ true content

end ThreadLocal.C
