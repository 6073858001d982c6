import ThreadLocal.Node
import ThreadLocal.Table

/-!
Types of C as far as constness goes, and the names that are visible at some place of a program.
-/

namespace ThreadLocal.C

/-- A type with all type names resolved. -/
inductive CType where
  | object (isConst : Bool)
  | pointer (isConst : Bool)
  | array (element : CType)
  | function
deriving DecidableEq, Repr

namespace CType

/-- The type with a const qualifier: that of an array goes to its elements, functions have none. -/
def qualified : CType → CType
  | .object _ => .object true
  | .pointer _ => .pointer true
  | .array element => .array element.qualified
  | .function => .function

def view : CType → TypeView
  | .object isConst => .mk ⟨"INT"⟩ "" isConst none
  | .pointer isConst => .mk ⟨"POINTER"⟩ "" isConst none
  | .array element => .mk ⟨"CONSTANTARRAY"⟩ "" false (some element.view)
  | .function => .mk ⟨"FUNCTIONPROTO"⟩ "" false none

theorem isConstant_view_array (element : CType) :
    (CType.array element).view.isConstant = element.view.isConstant := by
  simp [view, TypeView.isConstant, TypeKind.arrays]

end CType

/-- The names of one block: type names with their types, other names without, and the tags of structs,
unions and enums. -/
structure Frame where
  names : Table String (Option CType)
  tags : List String
deriving Repr

/-- Visible names, those of the innermost block first. -/
abbrev Scope := List Frame

namespace Scope

def fileLevel : Scope := [⟨[], []⟩]

def nested (s : Scope) : Scope := ⟨[], []⟩ :: s

/-- The type that a name stands for, unless something else of that name hides it. -/
def typeName? (s : Scope) (name : String) : Option CType :=
  (s.findSome? fun f => Table.get? f.names name).join

def hasTag (s : Scope) (tag : String) : Bool :=
  s.any fun f => f.tags.contains tag

def declare (s : Scope) (name : String) (type : Option CType) : Scope :=
  match s with
  | [] => [⟨[(name, type)], []⟩]
  | f :: outer => { f with names := Table.put f.names name type } :: outer

def addTags (s : Scope) (tags : List String) : Scope :=
  match s with
  | [] => [⟨[], tags⟩]
  | f :: outer => { f with tags := tags ++ f.tags } :: outer

end Scope
end ThreadLocal.C
