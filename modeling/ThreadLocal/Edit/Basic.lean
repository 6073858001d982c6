import ThreadLocal.Table

/-!
Edits of a file and the proposals from which they are made.
-/

namespace ThreadLocal

/-- Replace `length` bytes at `offset` with `text`. -/
structure Edit where
  offset : Int
  length : Int
  text : String
deriving DecidableEq, Repr

/-- By offset, then length, then text. -/
def Edit.atMost (a b : Edit) : Bool :=
  a.offset < b.offset ||
    (a.offset = b.offset && (a.length < b.length || (a.length = b.length && a.text ≤ b.text)))

def Edit.sort (edits : List Edit) : List Edit :=
  edits.mergeSort Edit.atMost

/-- What takes the place of the bytes at some offset. -/
structure Substitution where
  length : Nat
  text : String
deriving DecidableEq, Repr

def Substitution.atMost (a b : Substitution) : Bool :=
  a.length < b.length || (a.length = b.length && a.text ≤ b.text)

/-- An edit of the file at `path`, proposed after looking at one source file. -/
structure Proposal where
  path : String
  offset : Nat
  length : Nat
  text : String
deriving DecidableEq, Repr

def Proposal.substitution (p : Proposal) : Substitution :=
  ⟨p.length, p.text⟩

/-- A span that starts or extends before the start of its file. -/
structure NegativeSpan where
  offset : Int
  length : Int
  path : String
deriving DecidableEq, Repr

def NegativeSpan.message (e : NegativeSpan) : String :=
  "Negative edit span: offset=" ++ toString e.offset ++ ", length=" ++ toString e.length ++ ", file=" ++ e.path

/-- Proposals have no negative numbers. -/
def Proposal.make (path : String) (offset length : Int) (text : String) : Except NegativeSpan Proposal :=
  if offset < 0 ∨ length < 0 then .error ⟨offset, length, path⟩
  else .ok ⟨path, offset.toNat, length.toNat, text⟩

/-- The edits planned for each file. -/
abbrev Plan := Table String (List Edit)

def Plan.editCount (plan : Plan) : Nat :=
  (plan.flatMap fun e => e.2).length

end ThreadLocal
