import ThreadLocal.C.Token

/-!
Tokens grouped by their brackets.
-/

namespace ThreadLocal.C

inductive Tree where
  | leaf (token : Token)
  | group (opening : Token) (inner : List Tree) (closing : Token)
deriving Repr

namespace Tree

/-- The last token of a tree. -/
def last : Tree → Token
  | .leaf t => t
  | .group _ _ closing => closing

def first : Tree → Token
  | .leaf t => t
  | .group opening _ _ => opening

def isMark (text : String) : Tree → Bool
  | .leaf t => t.isMark text
  | .group .. => false

def isGroup (opening : String) : Tree → Bool
  | .leaf _ => false
  | .group o _ _ => o.isMark opening

def name? : Tree → Option Token
  | .leaf t => if t.isName then some t else none
  | .group .. => none

mutual

/-- How many tokens and brackets a tree has. -/
def weight : Tree → Nat
  | .leaf _ => 1
  | .group _ inner _ => weights inner + 1

def weights : List Tree → Nat
  | [] => 0
  | t :: rest => weight t + weights rest

end

theorem weights_drop_le (n : Nat) (ts : List Tree) : weights (ts.drop n) ≤ weights ts := by
  induction ts generalizing n with
  | nil => simp
  | cons t rest ih =>
    cases n with
    | zero => simp
    | succ n =>
      have := ih n
      simp only [List.drop_succ_cons, weights]
      omega

theorem weights_dropWhile_le (p : Tree → Bool) (ts : List Tree) :
    weights (ts.dropWhile p) ≤ weights ts := by
  induction ts with
  | nil => simp
  | cons t rest ih =>
    rw [List.dropWhile_cons]
    split
    · simp only [weights]; omega
    · exact Nat.le_refl _

def isOpening (t : Token) : Bool :=
  t.isMark "(" || t.isMark "[" || t.isMark "\x7b"

def isClosing (t : Token) : Bool :=
  t.isMark ")" || t.isMark "]" || t.isMark "\x7d"

/-- Groups tokens; `outer` holds the open brackets with what stands before each, `done` what stands in
the innermost, both last first. A bracket that is never closed ends with the tokens. -/
def build : List (Token × List Tree) → List Tree → List Token → List Tree
  | [], done, [] => done.reverse
  | (o, before) :: outer, done, [] => build outer (.group o done.reverse o :: before) []
  | outer, done, t :: rest =>
    if isOpening t then build ((t, done) :: outer) [] rest
    else if isClosing t then
      match outer with
      | (o, before) :: outer => build outer (.group o done.reverse t :: before) rest
      | [] => build [] done rest
    else build outer (.leaf t :: done) rest
termination_by outer _ ts => (ts.length, outer.length)

def ofTokens (ts : List Token) : List Tree :=
  build [] [] ts

/-- The pieces between commas. -/
def pieces : List Tree → List (List Tree)
  | [] => [[]]
  | t :: rest =>
    if t.isMark "," then [] :: pieces rest
    else
      match pieces rest with
      | [] => [[t]]
      | p :: ps => (t :: p) :: ps

end Tree
end ThreadLocal.C
