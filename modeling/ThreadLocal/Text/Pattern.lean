import ThreadLocal.Bytes

/-!
Patterns for the front of a text. The ways to match are tried in a fixed order, and the first one that leads to the end
of the pattern is taken, whether or not another one takes more.
-/

namespace ThreadLocal

/-- What a stretch of a text has to look like. -/
inductive Pattern where
  | never
  | byte (accepts : UInt8 → Bool)
  | word (bytes : Bytes)
  /-- a place with a byte of a word on one side only -/
  | border (inWord : UInt8 → Bool)
  | sequence (first second : Pattern)
  | either (first second : Pattern)
  | repeated (body : Pattern)

namespace Pattern

/-- A place in a text: the byte before it, if there is one, and what follows. -/
structure Point where
  before : Option UInt8
  rest : Bytes
deriving DecidableEq, Repr

/-- Where repetitions of a step can lead: one more repetition is tried before none. Each takes at least a byte. -/
def repeats (step : Point → List Point) (p : Point) : List Point :=
  (step p).flatMap (fun q => if q.rest.length < p.rest.length then repeats step q else []) ++ [p]
termination_by p.rest.length

/-- Where a pattern can lead from a place, in the order in which the ways are tried. -/
def ends : Pattern → Point → List Point
  | .never, _ => []
  | .byte accepts, p =>
    match p.rest with
    | [] => []
    | b :: rest => if accepts b then [⟨some b, rest⟩] else []
  | .word bytes, p =>
    if bytes.isPrefixOf p.rest then [⟨bytes.getLast?.or p.before, p.rest.drop bytes.length⟩] else []
  | .border inWord, p => if p.before.any inWord ≠ p.rest.head?.any inWord then [p] else []
  | .sequence first second, p => (first.ends p).flatMap second.ends
  | .either first second, p => first.ends p ++ second.ends p
  | .repeated body, p => repeats body.ends p

/-- Where the first of all ways to match leads. -/
def first? (pattern : Pattern) (p : Point) : Option Point :=
  (pattern.ends p).head?

/-- How many bytes of a text the pattern takes, from the first one on. -/
def length? (pattern : Pattern) (text : Bytes) : Option Nat :=
  (pattern.first? ⟨none, text⟩).map fun p => text.length - p.rest.length

/-- One of some words, the earlier ones first. -/
def oneOf : List Bytes → Pattern
  | [] => .never
  | first :: others => .either (.word first) (oneOf others)

variable {accepts inWord : UInt8 → Bool} {before : Option UInt8} {b : UInt8} {rest : Bytes}
variable {first second body : Pattern}

@[simp] theorem ends_byte_nil : (byte accepts).ends ⟨before, []⟩ = [] := rfl

@[simp] theorem ends_byte_cons :
    (byte accepts).ends ⟨before, b :: rest⟩ = if accepts b then [⟨some b, rest⟩] else [] := rfl

theorem ends_word (bytes : Bytes) (p : Point) : (word bytes).ends p =
    if bytes.isPrefixOf p.rest then [⟨bytes.getLast?.or p.before, p.rest.drop bytes.length⟩] else [] := rfl

theorem ends_border (p : Point) :
    (border inWord).ends p = if p.before.any inWord ≠ p.rest.head?.any inWord then [p] else [] := rfl

theorem ends_sequence (p : Point) : (sequence first second).ends p = (first.ends p).flatMap second.ends := rfl

theorem ends_oneOf_cons (bytes : Bytes) (others : List Bytes) (p : Point) :
    (oneOf (bytes :: others)).ends p = (word bytes).ends p ++ (oneOf others).ends p := rfl

theorem ends_repeated (p : Point) : (repeated body).ends p = repeats body.ends p := rfl

theorem repeats_eq (step : Point → List Point) (p : Point) : repeats step p =
    (step p).flatMap (fun q => if q.rest.length < p.rest.length then repeats step q else []) ++ [p] := by
  rw [repeats]

end Pattern
end ThreadLocal
