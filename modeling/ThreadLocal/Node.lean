/-!
Syntax trees as a front end reports them: kinds, declared types, storage, and where each node stands.
-/

namespace ThreadLocal

structure NodeKind where
  name : String
deriving DecidableEq, Repr

namespace NodeKind

def variableDecl : NodeKind := ⟨"VAR_DECL"⟩

def unitRoot : NodeKind := ⟨"TRANSLATION_UNIT"⟩

end NodeKind

inductive StorageClass where
  | invalid
  | none
  | external
  | static
  | privateExternal
  | workGroupLocal
  | automatic
  | register
deriving DecidableEq, Repr

inductive ThreadStorage where
  | none
  | dynamic
  | static
deriving DecidableEq, Repr

structure TypeKind where
  name : String
deriving DecidableEq, Repr

/-- The kinds of array types. -/
def TypeKind.arrays : List TypeKind :=
  [⟨"CONSTANTARRAY"⟩, ⟨"INCOMPLETEARRAY"⟩, ⟨"VARIABLEARRAY"⟩, ⟨"DEPENDENTSIZEDARRAY"⟩]

/-- A type as spelled, with its own const qualifier and, for arrays, the type of the elements. -/
inductive TypeView where
  | mk (kind : TypeKind) (spelling : String) (isConst : Bool) (element : Option TypeView)
deriving Repr

namespace TypeView

def spelling : TypeView → String
  | .mk _ spelling _ _ => spelling

/-- Const-qualified, or an array of elements of such a type. -/
def isConstant : TypeView → Bool
  | .mk _ _ true _ => true
  | .mk kind _ false (some element) => kind ∈ TypeKind.arrays && isConstant element
  | .mk _ _ false none => false

end TypeView

/-- The type of a declaration as written and with all type names resolved. -/
structure DeclaredType where
  written : TypeView
  canonical : TypeView
deriving Repr

def DeclaredType.isConstant (t : DeclaredType) : Bool :=
  t.written.isConstant || t.canonical.isConstant

/-- One end of a node's extent. -/
structure Mark where
  file : Option String
  offset : Int
deriving DecidableEq, Repr

structure SourcePlace where
  file : Option String
  line : Int
  column : Int
deriving DecidableEq, Repr

/-- What a front end says of one node, its children aside. -/
structure NodeInfo where
  kind : NodeKind
  name : String
  type : DeclaredType
  storage : StorageClass
  threadStorage : ThreadStorage
  start : Mark
  finish : Mark
  place : SourcePlace
deriving Repr

inductive Node where
  | mk (info : NodeInfo) (children : List Node)
deriving Repr

namespace Node

def info : Node → NodeInfo
  | .mk info _ => info

def children : Node → List Node
  | .mk _ children => children

mutual

/-- The number of nodes in a tree. -/
def size : Node → Nat
  | .mk _ children => sizeAmong children + 1

def sizeAmong : List Node → Nat
  | [] => 0
  | n :: rest => size n + sizeAmong rest

end

end Node

end ThreadLocal
