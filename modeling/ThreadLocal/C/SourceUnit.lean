import ThreadLocal.C.Declaration
import ThreadLocal.C.Preprocessor
import ThreadLocal.FrontEnd

/-!
Source units: the variables that a C source file declares, at file scope and in its functions.
-/

namespace ThreadLocal.C

/-- One declarator of a declaration and where its extent starts. -/
structure Item where
  declared : Declared
  start : Token
  last : Token
deriving Repr

/-- A declaration: its specifiers, its declarators, and the tags named in initial values. -/
structure Declaration where
  specifiers : Specifiers
  items : List Item
  valueTags : List String
deriving Repr

namespace Declaration

/-- The declarator in the trees up to a comma; what follows an equals sign or a colon is no part of it. -/
def declaratorPart (piece : List Tree) : List Tree :=
  piece.takeWhile fun t => !(t.isMark "=" || t.isMark ":")

/-- Reads a declaration without the semicolon at its end. At file scope every declarator's extent starts
with the declaration. In a block only the first thing declared starts there, and the type that the
specifiers declare counts as such; any other declarator starts at its own name. -/
def read (scope : Scope) (inBlock : Bool) (ts : List Tree) : Declaration :=
  let (s, n) := Specifiers.read scope ts
  let pieces := Tree.pieces (ts.drop n)
  let items := pieces.zipIdx.filterMap fun (piece, i) => do
    let d ← Declarator.read s.baseType (declaratorPart piece)
    let first ← ts.head?
    let last ← piece.getLast?
    let ownStart := inBlock && (s.declaresTag || i ≠ 0)
    return ⟨d, if ownStart then d.name else first.first, last.last⟩
  let valueTags := pieces.flatMap fun piece =>
    Specifiers.tagsAmong none (piece.drop (declaratorPart piece).length)
  ⟨s, items, valueTags⟩

/-- What a declaration makes visible. -/
def enter (d : Declaration) (scope : Scope) : Scope :=
  d.items.foldl (fun scope i =>
      scope.declare i.declared.name.text
        (if d.specifiers.isTypeDefinition then some i.declared.type else none))
    ((d.specifiers.enter scope).addTags d.valueTags)

def info (kind : NodeKind) (name : Token) (start last : Token) (type : CType) (s : Specifiers) : NodeInfo where
  kind := kind
  name := name.text
  type := ⟨type.view, type.view⟩
  storage := s.storage
  threadStorage := if s.isThreadLocal then .static else .none
  start := ⟨some start.spot.file, start.spot.start⟩
  finish := ⟨some last.spot.file, last.spot.finish⟩
  place := ⟨some name.spot.file, name.spot.line, name.spot.column⟩

/-- The variables declared; functions and type names are none. -/
def variableNodes (d : Declaration) : List Node :=
  d.items.filterMap fun i =>
    if d.specifiers.isTypeDefinition || i.declared.type = .function then none
    else
      some (.mk (info NodeKind.variableDecl i.declared.name i.start i.last i.declared.type d.specifiers) [])

end Declaration

namespace Block

/-- The trees up to the next semicolon, and how many there are with it. -/
def statement (ts : List Tree) : List Tree :=
  ts.takeWhile fun t => !t.isMark ";"

def afterStatement (ts : List Tree) : List Tree :=
  (ts.dropWhile fun t => !t.isMark ";").drop 1

theorem afterStatement_le (ts : List Tree) : Tree.weights (afterStatement ts) ≤ Tree.weights ts :=
  Nat.le_trans (Tree.weights_drop_le _ _) (Tree.weights_dropWhile_le _ _)

def afterColon (ts : List Tree) : List Tree :=
  (ts.dropWhile fun t => !t.isMark ":").drop 1

theorem afterColon_le (ts : List Tree) : Tree.weights (afterColon ts) ≤ Tree.weights ts :=
  Nat.le_trans (Tree.weights_drop_le _ _) (Tree.weights_dropWhile_le _ _)

def isLabel (rest : List Tree) : Bool :=
  rest.head?.any (Tree.isMark ":")

/-- An expression makes the tags visible that it names. -/
def enterExpression (scope : Scope) (ts : List Tree) : Scope :=
  scope.addTags (Specifiers.tagsAmong none (statement ts))

/-- Whether a word starts a declaration. -/
def startsDeclaration (scope : Scope) (word : String) : Bool :=
  Specifiers.isReserved word || (scope.typeName? word).isSome

/-- The declaration in the header of a loop, which starts the trees; without one, nothing is declared. -/
def loopDeclaration (scope : Scope) (ts : List Tree) : Declaration :=
  let first := match ts with
    | .group _ header _ :: _ => statement header
    | _ => []
  Declaration.read scope true
    (if (first.head?.bind Tree.name?).any (fun t => startsDeclaration scope t.text) then first else [])

/-- The inside of the block behind the header of a loop; empty if another statement stands there. -/
def loopBody : List Tree → List Tree
  | _ :: .group o body _ :: _ => if o.isMark "\x7b" then body else []
  | _ => []

/-- What follows the header of a loop and the block behind it. -/
def afterLoop : List Tree → List Tree
  | _ :: .group o body c :: rest => if o.isMark "\x7b" then rest else .group o body c :: rest
  | ts => ts.drop 1

theorem loopBody_add_afterLoop_le (ts : List Tree) :
    Tree.weights (loopBody ts) + Tree.weights (afterLoop ts) ≤ Tree.weights ts := by
  match ts with
  | [] => simp [loopBody, afterLoop, Tree.weights]
  | [t] => simp [loopBody, afterLoop, Tree.weights]
  | t :: .leaf u :: rest => simp [loopBody, afterLoop, Tree.weights]
  | t :: .group o body c :: rest =>
    simp only [loopBody, afterLoop]
    split <;> simp only [Tree.weights, Tree.weight] <;> omega

/-- The variables declared by the statements of a block. -/
def variableNodes (scope : Scope) (ts : List Tree) : List Node :=
  match ts with
  | [] => []
  | .group o inner c :: rest =>
    if o.isMark "\x7b" then variableNodes scope.nested inner ++ variableNodes scope rest
    else variableNodes (enterExpression scope (.group o inner c :: rest)) (afterStatement rest)
  | .leaf t :: rest =>
    if !t.isName then
      if t.isMark ";" then variableNodes scope rest
      else variableNodes (enterExpression scope rest) (afterStatement rest)
    else if ["if", "while", "switch"].contains t.text then variableNodes scope (rest.drop 1)
    else if t.text = "for" then
      let d := loopDeclaration scope rest
      d.variableNodes ++ variableNodes (d.enter scope.nested) (loopBody rest) ++
        variableNodes scope (afterLoop rest)
    else if t.text = "else" || t.text = "do" || t.text = Specifiers.extension then variableNodes scope rest
    else if t.text = "case" || t.text = "default" then variableNodes scope (afterColon rest)
    else if isLabel rest then variableNodes scope (rest.drop 1)
    else if startsDeclaration scope t.text then
      let d := Declaration.read scope true (.leaf t :: statement rest)
      d.variableNodes ++ variableNodes (d.enter scope) (afterStatement rest)
    else variableNodes (enterExpression scope rest) (afterStatement rest)
termination_by Tree.weights ts
decreasing_by
  all_goals
    have := afterStatement_le rest
    have := afterColon_le rest
    have := Tree.weights_drop_le 1 rest
    have := loopBody_add_afterLoop_le rest
    simp only [Tree.weights, Tree.weight]
    omega

end Block

namespace SourceUnit

/-- How many trees a declaration at file scope takes before its semicolon or the body of its function. A
brace is a body if it follows a parameter list and belongs to no initial value. -/
def headLength (afterList inValue : Bool) : List Tree → Nat
  | [] => 0
  | t :: rest =>
    if t.isMark ";" || (afterList && !inValue && t.isGroup "\x7b") then 0
    else
      let inValue := (inValue || t.isMark "=") && !t.isMark ","
      headLength (t.isGroup "(") inValue rest + 1

/-- The node of a function with the variables of its body. -/
def functionNode (scope : Scope) (d : Declaration) (body : List Tree) : List Node :=
  match d.items.getLast? with
  | none => []
  | some i =>
    let inner := enterParameters scope (i.declared.parameters.getD [])
    [.mk (Declaration.info ⟨"FUNCTION_DECL"⟩ i.declared.name i.start i.last i.declared.type d.specifiers)
      (Block.variableNodes inner body)]

/-- A declaration at file scope. -/
def declaration (scope : Scope) (ts : List Tree) : Declaration :=
  Declaration.read scope false (ts.dropWhile fun t => t.name?.any fun t => t.text = Specifiers.extension)

/-- The variables and functions declared by the trees of a unit. -/
def nodes (scope : Scope) (ts : List Tree) : List Node :=
  let n := headLength false false ts
  let d := declaration scope (ts.take n)
  let scope := d.enter scope
  match _h : ts.drop n with
  | [] => d.variableNodes
  | .leaf _ :: rest => d.variableNodes ++ nodes scope rest
  | .group _ body _ :: rest => functionNode scope d body ++ nodes scope rest
termination_by ts.length
decreasing_by
  all_goals
    have := congrArg List.length _h
    simp at this
    omega

def root (path : String) (children : List Node) : Node :=
  .mk {
    kind := NodeKind.unitRoot
    name := path
    type := ⟨.mk ⟨"INVALID"⟩ "" false none, .mk ⟨"INVALID"⟩ "" false none⟩
    storage := .invalid
    threadStorage := .none
    start := ⟨none, 0⟩
    finish := ⟨none, 0⟩
    place := ⟨none, 0, 0⟩ } children

/-- The include directories among the arguments of a front end. -/
def includePaths (arguments : List String) : List String :=
  arguments.filterMap fun a =>
    if "-I".toList.isPrefixOf a.toList then some (String.ofList (a.toList.drop 2)) else none

end SourceUnit

/-- The front end for C sources: a file that cannot be read has no tree. -/
def frontEnd : FrontEnd where
  parse fs path arguments :=
    match fs.openFile path with
    | .error _ => .error FrontEnd.noTree
    | .ok _ =>
      let ts := Tree.ofTokens (preprocess fs (SourceUnit.includePaths arguments) path)
      .ok (SourceUnit.root path (SourceUnit.nodes Scope.fileLevel ts))

end ThreadLocal.C
