import ThreadLocal.C.Scope
import ThreadLocal.C.Tree

/-!
Declarations: their specifiers, and the declarators with the name and type that each of them declares.
-/

namespace ThreadLocal.C

/-- What the specifiers of a declaration say. -/
structure Specifiers where
  storage : StorageClass
  isThreadLocal : Bool
  isTypeDefinition : Bool
  isConst : Bool
  /-- the type named, once one is -/
  type : Option CType
  /-- whether a struct, union or enum is declared by being named or defined here -/
  declaresTag : Bool
  /-- tags and enumerators declared by the specifiers -/
  tags : List String
  enumerators : List String
deriving Repr

namespace Specifiers

def empty : Specifiers := ⟨.none, false, false, false, none, false, [], []⟩

/-- The type that the declarators start from. -/
def baseType (s : Specifiers) : CType :=
  let type := s.type.getD (.object false)
  if s.isConst then type.qualified else type

def storageOf? : String → Option StorageClass
  | "static" => some .static
  | "extern" => some .external
  | "register" => some .register
  | "auto" => some .automatic
  | _ => none

def constWords : List String := ["const", "__const", "__const__"]

/-- Words that may stand among specifiers or pointer qualifiers and say nothing of constness. -/
def idleWords : List String := [
  "volatile", "__volatile", "__volatile__", "restrict", "__restrict", "__restrict__", "_Atomic", "inline",
  "__inline", "__inline__", "_Noreturn"]

def typeWords : List String := [
  "void", "char", "short", "int", "long", "float", "double", "signed", "unsigned", "_Bool", "_Complex",
  "__signed", "__signed__", "__int128", "__int128_t", "__uint128_t", "__builtin_va_list"]

def tagWords : List String := ["struct", "union", "enum"]

def threadWords : List String := ["__thread", "_Thread_local"]

/-- The word in front of an alignment in parentheses. -/
def alignment : String := "_Alignas"

/-- A qualifier; with a type in parentheses behind it, a type. -/
def atomic : String := "_Atomic"

/-- A word that may stand before a declaration or an expression and is no part of it. -/
def extension : String := "__extension__"

/-- Whether a word can only be part of a declaration. -/
def isReserved (word : String) : Bool :=
  (storageOf? word).isSome || word = "typedef" || constWords.contains word || idleWords.contains word ||
    typeWords.contains word || tagWords.contains word || threadWords.contains word || word = alignment

mutual

/-- The tags named within a tree. -/
def tagsIn : Tree → List String
  | .leaf _ => []
  | .group _ inner _ => tagsAmong none inner

/-- The tags named among some trees; `before` is the word in front of them. -/
def tagsAmong (before : Option String) : List Tree → List String
  | [] => []
  | .leaf t :: rest =>
    let own := if t.isName && (before.any tagWords.contains) then [t.text] else []
    own ++ tagsAmong (some t.text) rest
  | .group o inner c :: rest => tagsIn (.group o inner c) ++ tagsAmong none rest

end

/-- The names of the enumerators in the braces of an enum. -/
def enumeratorsIn (inner : List Tree) : List String :=
  (Tree.pieces inner).filterMap fun p => (p.head?.bind Tree.name?).map Token.text

/-- A struct, union or enum: its tag and braces, if it has them, and how many trees they take. -/
def tagged (scope : Scope) (s : Specifiers) (word : String) (rest : List Tree) : Specifiers × Nat :=
  let tag := rest.head?.bind Tree.name?
  let past := if tag.isSome then 1 else 0
  let s := { s with type := some (s.type.getD (.object false)) }
  match (rest.drop past).head? with
  | some (.group o inner c) =>
    if o.isMark "\x7b" then
      let own := (tag.map Token.text).toList
      let enumerators := if word = "enum" then enumeratorsIn inner else []
      ({ s with
        declaresTag := true
        tags := own ++ tagsIn (.group o inner c) ++ s.tags
        enumerators := enumerators ++ s.enumerators }, past + 1)
    else (s, past)
  | _ =>
    match tag with
    | some t =>
      if scope.hasTag t.text then (s, past)
      else ({ s with declaresTag := true, tags := t.text :: s.tags }, past)
    | none => (s, past)

/-- Takes one specifier from the front; also gives how many trees it takes. -/
def take? (scope : Scope) (s : Specifiers) : List Tree → Option (Specifiers × Nat)
  | .leaf t :: rest =>
    let word := t.text
    if !t.isName then none
    else if word = atomic && rest.head?.any (Tree.isGroup "(") then
      some ({ s with type := some (s.type.getD (.object false)) }, 2)
    else if constWords.contains word then some ({ s with isConst := true }, 1)
    else if idleWords.contains word then some (s, 1)
    else if typeWords.contains word then some ({ s with type := some (s.type.getD (.object false)) }, 1)
    else if threadWords.contains word then some ({ s with isThreadLocal := true }, 1)
    else if word = alignment then some (s, 2)
    else if word = "typedef" then some ({ s with isTypeDefinition := true }, 1)
    else if tagWords.contains word then
      let (s, n) := tagged scope s word rest
      some (s, n + 1)
    else
      match storageOf? word with
      | some storage => some ({ s with storage := storage }, 1)
      | none =>
        match s.type, scope.typeName? word with
        | none, some type => some ({ s with type := some type }, 1)
        | _, _ => none
  | _ => none

/-- The specifiers at the front of some trees, added to `s`, and how many trees they take. -/
def readFrom (scope : Scope) (s : Specifiers) (ts : List Tree) : Specifiers × Nat :=
  match ts with
  | [] => (s, 0)
  | t :: rest =>
    match take? scope s (t :: rest) with
    | none => (s, 0)
    | some (s, n) =>
      let (s, more) := readFrom scope s (rest.drop (n - 1))
      (s, n + more)
termination_by ts.length
decreasing_by simp only [List.length_cons, List.length_drop]; omega

def read (scope : Scope) (ts : List Tree) : Specifiers × Nat :=
  readFrom scope empty ts

/-- What the specifiers make visible. -/
def enter (s : Specifiers) (scope : Scope) : Scope :=
  s.enumerators.foldl (fun scope e => scope.declare e none) (scope.addTags s.tags)

end Specifiers

/-- The name that a declarator declares, its type, and the parameters if it is a function. -/
structure Declared where
  name : Token
  type : CType
  parameters : Option (List Tree)
deriving Repr

namespace Declarator

def isQualifier (t : Tree) : Bool :=
  t.name?.any fun t => Specifiers.constWords.contains t.text || Specifiers.idleWords.contains t.text

def isConstWord (t : Tree) : Bool :=
  t.name?.any fun t => Specifiers.constWords.contains t.text

/-- The type after the stars and qualifiers at the front of a declarator, and how many trees they take. -/
def pointers (type : CType) : List Tree → CType × Nat
  | [] => (type, 0)
  | t :: rest =>
    if t.isMark "*" then
      let (type, n) := pointers (.pointer false) rest
      (type, n + 1)
    else if isQualifier t then
      let (type, n) := pointers (if isConstWord t then type.qualified else type) rest
      (type, n + 1)
    else (type, 0)

/-- Applies the brackets behind a declarator's name; the first of them is the outermost type. -/
def suffixed (type : CType) : List Tree → CType
  | .group o _ _ :: rest =>
    if o.isMark "[" then .array (suffixed type rest)
    else if o.isMark "(" then .function
    else type
  | _ => type

/-- The parameters that stand directly behind a name. -/
def parametersOf : List Tree → Option (List Tree)
  | .group o inner _ :: _ => if o.isMark "(" then some inner else none
  | _ => none

/-- Reads a declarator of some type. -/
def read (type : CType) (ts : List Tree) : Option Declared :=
  let (type, n) := pointers type ts
  match _h : ts.drop n with
  | .leaf t :: rest => if t.isName then some ⟨t, suffixed type rest, parametersOf rest⟩ else none
  | .group o inner _ :: rest => if o.isMark "(" then read (suffixed type rest) inner else none
  | [] => none
termination_by Tree.weights ts
decreasing_by
  have := Tree.weights_drop_le n ts
  rw [_h] at this
  simp only [Tree.weights, Tree.weight] at this
  omega

end Declarator

/-- The names of parameters. -/
def parameterNames (scope : Scope) (parameters : List Tree) : List String :=
  (Tree.pieces parameters).filterMap fun p =>
    let (s, n) := Specifiers.read scope p
    (Declarator.read s.baseType (p.drop n)).map fun d => d.name.text

/-- What parameters make visible in the body of their function: their names, which hide type names, and
the tags named among them. -/
def enterParameters (scope : Scope) (parameters : List Tree) : Scope :=
  (parameterNames scope parameters).foldl (fun s n => s.declare n none)
    (scope.nested.addTags (Specifiers.tagsAmong none parameters))

end ThreadLocal.C
