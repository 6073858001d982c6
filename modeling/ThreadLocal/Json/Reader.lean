import ThreadLocal.Json.Scan

/-!
Reading JSON texts. A text is one value between blanks; the words `NaN`, `Infinity` and `-Infinity` count
as numbers. The first place where no value can go on is reported by line, column and character.
-/

namespace ThreadLocal
namespace Json

/-- The word or number at the front of `s` and how many characters it takes. -/
def plain? (s : List Char) : Option (Json × Nat) :=
  (words.findSome? fun w => if w.1.isPrefixOf s then some (w.2, w.1.length) else none).or (number? s)

/-- Reads a word or a number. -/
def readPlain (s : List Char) : Except Trouble (Json × Left s) :=
  match s, plain? s with
  | _ :: rest, some (value, n + 1) =>
    .ok (value, ⟨rest.drop n, by simp only [List.length_drop, List.length_cons]; omega⟩)
  | s, _ => .error ⟨.valueExpected, s.length⟩

mutual

def readValue (s : List Char) : Except Trouble (Json × Left s) :=
  match s with
  | '"' :: rest =>
    match readString rest with
    | .error t => .error t
    | .ok (cs, r) => .ok (.str (String.ofList cs), ⟨r.1, by have := r.2; simp; omega⟩)
  | '[' :: rest =>
    match h : skipBlanks rest with
    | ']' :: r => .ok (.arr [], ⟨r, by have := skipBlanks_length rest; simp [h] at this ⊢; omega⟩)
    | _ =>
      match readItems (skipBlanks rest) with
      | .error t => .error t
      | .ok (items, r) =>
        .ok (.arr items, ⟨r.1, by have := r.2; have := skipBlanks_length rest; simp; omega⟩)
  | '\x7b' :: rest =>
    match h : skipBlanks rest with
    | '\x7d' :: r => .ok (.obj [], ⟨r, by have := skipBlanks_length rest; simp [h] at this ⊢; omega⟩)
    | _ =>
      match readFields (skipBlanks rest) with
      | .error t => .error t
      | .ok (fields, r) =>
        .ok (.obj (Table.ofList fields),
          ⟨r.1, by have := r.2; have := skipBlanks_length rest; simp; omega⟩)
  | s => readPlain s
termination_by (s.length, 0)
decreasing_by
  all_goals
    have := skipBlanks_length rest
    simp [Prod.lex_def]
    omega

/-- The items of an array from the first value up to the closing bracket. -/
def readItems (s : List Char) : Except Trouble (List Json × Left s) :=
  match readValue s with
  | .error t => .error t
  | .ok (x, r) =>
    match h : skipBlanks r.1 with
    | ']' :: rest =>
      .ok ([x], ⟨rest, by have := r.2; have := skipBlanks_length r.1; simp [h] at this; omega⟩)
    | ',' :: rest =>
      match readItems (skipBlanks rest) with
      | .error t => .error t
      | .ok (xs, r') =>
        .ok (x :: xs, ⟨r'.1, by
          have := r.2; have := r'.2; have := skipBlanks_length rest
          have := skipBlanks_length r.1; simp [h] at this; omega⟩)
    | rest => .error ⟨.commaExpected, rest.length⟩
termination_by (s.length, 1)
decreasing_by
  · simp [Prod.lex_def]
  · have := r.2; have := skipBlanks_length rest
    have := skipBlanks_length r.1; simp [h] at this
    simp [Prod.lex_def]
    omega

/-- The fields of an object from the first name up to the closing brace. -/
def readFields (s : List Char) : Except Trouble (List (String × Json) × Left s) :=
  match s with
  | '"' :: afterQuote =>
    match readString afterQuote with
    | .error t => .error t
    | .ok (name, r) =>
      match h : skipBlanks r.1 with
      | ':' :: afterColon =>
        match readValue (skipBlanks afterColon) with
        | .error t => .error t
        | .ok (x, r₁) =>
          match h₁ : skipBlanks r₁.1 with
          | '\x7d' :: rest =>
            .ok ([(String.ofList name, x)], ⟨rest, by
              have := r.2; have := r₁.2; have := skipBlanks_length afterColon
              have := skipBlanks_length r.1; simp [h] at this
              have := skipBlanks_length r₁.1; simp [h₁] at this
              simp; omega⟩)
          | ',' :: rest =>
            match readFields (skipBlanks rest) with
            | .error t => .error t
            | .ok (fields, r₂) =>
              .ok ((String.ofList name, x) :: fields, ⟨r₂.1, by
                have := r.2; have := r₁.2; have := r₂.2; have := skipBlanks_length afterColon
                have := skipBlanks_length rest
                have := skipBlanks_length r.1; simp [h] at this
                have := skipBlanks_length r₁.1; simp [h₁] at this
                simp; omega⟩)
          | rest => .error ⟨.commaExpected, rest.length⟩
      | rest => .error ⟨.colonExpected, rest.length⟩
  | s => .error ⟨.nameExpected, s.length⟩
termination_by (s.length, 1)
decreasing_by
  · have := r.2; have := skipBlanks_length afterColon
    have := skipBlanks_length r.1; simp [h] at this
    simp [Prod.lex_def]
    omega
  · have := r.2; have := r₁.2; have := skipBlanks_length afterColon
    have := skipBlanks_length rest
    have := skipBlanks_length r.1; simp [h] at this
    have := skipBlanks_length r₁.1; simp [h₁] at this
    simp [Prod.lex_def]
    omega

end

/-- Where a text stops being JSON; line and column count from one, the position from zero. -/
structure SyntaxError where
  fault : SyntaxFault
  line : Nat
  column : Nat
  position : Nat
deriving DecidableEq, Repr

def SyntaxFault.message : SyntaxFault → String
  | .valueExpected => "Expecting value"
  | .commaExpected => "Expecting ',' delimiter"
  | .colonExpected => "Expecting ':' delimiter"
  | .nameExpected => "Expecting property name enclosed in double quotes"
  | .unterminatedString => "Unterminated string starting at"
  | .controlCharacter => "Invalid control character at"
  | .badEscape => "Invalid \\escape"
  | .badUnicodeEscape => "Invalid \\uXXXX escape"
  | .extraData => "Extra data"
  | .byteOrderMark => "Unexpected UTF-8 BOM (decode using utf-8-sig)"

def SyntaxError.message (e : SyntaxError) : String :=
  e.fault.message ++ ": line " ++ toString e.line ++ " column " ++ toString e.column ++
    " (char " ++ toString e.position ++ ")"

/-- Names the place of a trouble in the whole text. -/
def Trouble.locate (text : List Char) (t : Trouble) : SyntaxError :=
  let position := text.length - t.left
  let before := text.take position
  let column := (before.reverse.takeWhile (· ≠ '\n')).length + 1
  ⟨t.fault, before.count '\n' + 1, column, position⟩

def readText (text : List Char) : Except Trouble Json :=
  if text.head? = some '\ufeff' then .error ⟨.byteOrderMark, text.length⟩
  else
    match readValue (skipBlanks text) with
    | .error t => .error t
    | .ok (x, r) =>
      match skipBlanks r.1 with
      | [] => .ok x
      | rest => .error ⟨.extraData, rest.length⟩

def read (s : String) : Except SyntaxError Json :=
  (readText s.toList).mapError (·.locate s.toList)

end Json
end ThreadLocal
