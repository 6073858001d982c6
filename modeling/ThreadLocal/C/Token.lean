/-!
Tokens of C source text and the places where they stand.
-/

namespace ThreadLocal.C

inductive TokenKind where
  | name
  | number
  | literal
  | mark
deriving DecidableEq, Repr

/-- Where a token stands in a file: its bytes from `start` up to `finish`, and the line and column of the
first of them. -/
structure Spot where
  file : String
  start : Nat
  finish : Nat
  line : Nat
  column : Nat
deriving DecidableEq, Repr

structure Token where
  kind : TokenKind
  text : String
  spot : Spot
  /-- whether no other token stands before it on its line -/
  startsLine : Bool
deriving DecidableEq, Repr

namespace Token

def isName (t : Token) : Bool :=
  t.kind = .name

def isMark (t : Token) (text : String) : Bool :=
  t.kind = .mark && t.text = text

/-- The same token at another spot. -/
def movedTo (t : Token) (spot : Spot) : Token :=
  { t with spot := spot }

end Token
end ThreadLocal.C
