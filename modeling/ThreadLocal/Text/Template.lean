import ThreadLocal.Decimal.Places
import ThreadLocal.Json.Display

/-!
Message templates: text in which `%` directives stand for arguments. A directive names a conversion and may
give flags, a width and a precision; a template that does not fit its arguments has no rendering.
-/

namespace ThreadLocal
namespace Template

/-- A width or precision: absent, written out, or taken from the arguments. -/
inductive Size where
  | absent
  | given (n : Nat)
  | fromArgument
deriving DecidableEq, Repr

structure Directive where
  key : Option (List Char)
  flags : List Char
  width : Size
  precision : Size
  conversion : Char
deriving DecidableEq, Repr

/-- The characters before the parenthesis that closes a key, inner pairs included. -/
def keyText : (depth : Nat) → List Char → Option (List Char)
  | _, [] => none
  | depth, '(' :: rest => (keyText (depth + 1) rest).map ('(' :: ·)
  | 0, ')' :: _ => some []
  | depth + 1, ')' :: rest => (keyText depth rest).map (')' :: ·)
  | depth, c :: rest => (keyText depth rest).map (c :: ·)

def sizeAt (s : List Char) : Size × Nat :=
  match s with
  | '*' :: _ => (.fromArgument, 1)
  | _ =>
    let ds := s.takeWhile Char.isDigit
    if ds = [] then (.absent, 0)
    else (.given (ds.foldl (fun n c => n * 10 + (c.toNat - 48)) 0), ds.length)

/-- A precision without digits counts as zero. -/
def precisionAt (s : List Char) : Size × Nat :=
  match s with
  | '.' :: rest =>
    match sizeAt rest with
    | (.absent, _) => (.given 0, 1)
    | (size, n) => (size, n + 1)
  | _ => (.absent, 0)

def isFlag (c : Char) : Bool :=
  c = '-' || c = '+' || c = ' ' || c = '#' || c = '0'

/-- The directive after a percent sign and the number of characters that it takes. -/
def directive? (s : List Char) : Option (Directive × Nat) := do
  let key ← match s with
    | '(' :: rest => (keyText 0 rest).map some
    | _ => some none
  let past := match key with
    | some k => k.length + 2
    | none => 0
  let flags := (s.drop past).takeWhile isFlag
  let past := past + flags.length
  let (width, n) := sizeAt (s.drop past)
  let past := past + n
  let (precision, n) := precisionAt (s.drop past)
  let past := past + n
  let past := match s.drop past with
    | c :: _ => if c = 'h' ∨ c = 'l' ∨ c = 'L' then past + 1 else past
    | [] => past
  let conversion ← (s.drop past).head?
  return (⟨key, flags, width, precision, conversion⟩, past + 1)

/-- The arguments that are left: a sequence, or the fields of a single object, which can be named and
which is itself the one argument for a directive without a name. -/
inductive Arguments where
  | sequence (rest : List Json)
  | mapping (fields : List (String × Json)) (one : Option Json)

def Arguments.ofList : List Json → Arguments
  | [.obj fields] => if fields.isEmpty then .sequence [.obj fields] else .mapping fields (some (.obj fields))
  | args => .sequence args

def Arguments.next? : Arguments → Option (Json × Arguments)
  | .sequence [] => none
  | .sequence (x :: rest) => some (x, .sequence rest)
  | .mapping _ none => none
  | .mapping fields (some x) => some (x, .mapping fields none)

def Arguments.named? (args : Arguments) (key : Option (List Char)) : Option Arguments :=
  match args, key with
  | args, none => some args
  | .sequence _, some _ => none
  | .mapping fields _, some k =>
    (Table.get? fields (String.ofList k)).map fun x => .mapping fields (some x)

def Arguments.isSpent : Arguments → Bool
  | .sequence rest => rest.isEmpty
  | .mapping _ _ => true

/-- Widths and precisions have to stay below this. -/
def sizeLimit : Nat := Nat.pow 2 31

/-- The value of a width or precision, and the arguments left. -/
def Size.resolve (size : Size) (args : Arguments) : Option (Option Int × Arguments) :=
  let bounded (i : Int) (args : Arguments) : Option (Option Int × Arguments) :=
    if i.natAbs < sizeLimit then some (some i, args) else none
  match size with
  | .absent => some (none, args)
  | .given n => bounded n args
  | .fromArgument =>
    match args.next? with
    | some (.int i, args) => bounded i args
    | some (.bool b, args) => some (some (if b then 1 else 0), args)
    | _ => none

/-- The text of a number before padding: its sign, the mark of its base and its digits. -/
structure Numeral where
  negative : Bool
  mark : List Char
  digits : List Char

def integer? : Json → Option Int
  | .int i => some i
  | .bool b => some (if b then 1 else 0)
  | _ => none

/-- Conversions to decimal also take floating-point numbers and drop their fraction. -/
def truncated? : Json → Option Int
  | .float (.finite negative mantissa exponent) => some (Binary64.truncate negative mantissa exponent)
  | x => integer? x

def real? : Json → Option Binary64
  | .float x => some x
  | x => do
    let i ← integer? x
    match Binary64.ofRatio (i < 0) ⟨i.natAbs, 1⟩ with
    | .infinite _ => none
    | y => some y

def Numeral.ofInt (i : Int) (base : Nat) (mark : List Char) (places : Nat) : Numeral :=
  let ds := Nat.toDigits base i.natAbs
  ⟨i < 0, mark, List.replicate (places - ds.length) '0' ++ ds⟩

def Numeral.upper (n : Numeral) : Numeral :=
  ⟨n.negative, n.mark.map Char.toUpper, n.digits.map Char.toUpper⟩

def Numeral.ofReal (x : Binary64) (form : Char) (places : Nat) (alternate : Bool) : Numeral :=
  match x with
  | .nan => ⟨false, [], "nan".toList⟩
  | .infinite negative => ⟨negative, [], "inf".toList⟩
  | .finite negative mantissa exponent =>
    let x := Binary64.magnitude mantissa exponent
    let digits :=
      if form = 'f' then Places.fixed x places alternate
      else if form = 'e' then Places.scientific x places alternate
      else Places.general x places alternate
    ⟨negative, [], digits⟩

def pad (width : Nat) (left : Bool) (cs : List Char) : List Char :=
  let blanks := List.replicate (width - cs.length) ' '
  if left then cs ++ blanks else blanks ++ cs

/-- Zeros go between the sign or mark and the digits, blanks outside. -/
def Numeral.laidOut (n : Numeral) (flags : List Char) (width : Nat) : List Char :=
  let sign :=
    if n.negative then ['-']
    else if flags.contains '+' then ['+']
    else if flags.contains ' ' then [' ']
    else []
  let front := sign ++ n.mark
  let left := flags.contains '-'
  let zeros := if flags.contains '0' && !left then width - front.length - n.digits.length else 0
  pad width left (front ++ List.replicate zeros '0' ++ n.digits)

/-- Escapes whatever is not ASCII in an already quoted text. -/
def asciiOnly (cs : List Char) : List Char :=
  cs.flatMap fun c =>
    let n := c.toNat
    if n < 0x80 then [c]
    else if n < 0x100 then '\\' :: 'x' :: Utf8.hexDigits 2 n
    else if n < 0x10000 then '\\' :: 'u' :: Utf8.hexDigits 4 n
    else '\\' :: 'U' :: Utf8.hexDigits 8 n

def character? : Json → Option (List Char)
  | .str s => match s.toList with
    | [c] => some [c]
    | _ => none
  | x => do
    let i ← integer? x
    if 0 ≤ i ∧ i < 0x110000 then some [Char.ofNat i.toNat] else none

def convert? (d : Directive) (flags : List Char) (width : Nat) (precision : Option Nat) (x : Json) :
    Option (List Char) :=
  let left := flags.contains '-'
  let alternate := flags.contains '#'
  let cut (cs : List Char) := some (pad width left (match precision with
    | some p => cs.take p
    | none => cs))
  let whole (i : Option Int) (base : Nat) (mark : List Char) :=
    i.map fun i => Numeral.ofInt i base (if alternate then mark else []) (precision.getD 0)
  let real (form : Char) := (real? x).map fun r => Numeral.ofReal r form (precision.getD 6) alternate
  let lay (n : Option Numeral) := n.map fun n => n.laidOut flags width
  match d.conversion with
  | 's' => cut x.display.toList
  | 'r' => cut x.inner
  | 'a' => cut (asciiOnly x.inner)
  | 'c' => (character? x).map (pad width left)
  | 'd' | 'i' | 'u' => lay (whole (truncated? x) 10 [])
  | 'o' => lay (whole (integer? x) 8 ['0', 'o'])
  | 'x' => lay (whole (integer? x) 16 ['0', 'x'])
  | 'X' => lay ((whole (integer? x) 16 ['0', 'x']).map Numeral.upper)
  | 'e' => lay (real 'e')
  | 'f' => lay (real 'f')
  | 'g' => lay (real 'g')
  | 'E' => lay ((real 'e').map Numeral.upper)
  | 'F' => lay ((real 'f').map Numeral.upper)
  | 'G' => lay ((real 'g').map Numeral.upper)
  | _ => none

/-- Renders one directive. A negative width pads on the right, a negative precision counts as zero. -/
def Directive.render? (d : Directive) (args : Arguments) : Option (List Char × Arguments) := do
  let args ← args.named? d.key
  let (width, args) ← d.width.resolve args
  let (precision, args) ← d.precision.resolve args
  let (x, args) ← args.next?
  let width := width.getD 0
  let flags := if width < 0 then '-' :: d.flags else d.flags
  let cs ← convert? d flags width.natAbs (precision.map Int.toNat) x
  return (cs, args)

/-- Renders a template with the arguments left; a doubled percent sign stands for one. -/
def renderFrom (s : List Char) (args : Arguments) : Option (List Char) :=
  match s with
  | [] => if args.isSpent then some [] else none
  | '%' :: '%' :: rest => (renderFrom rest args).map ('%' :: ·)
  | '%' :: rest =>
    match directive? rest with
    | none => none
    | some (d, taken) =>
      match d.render? args with
      | none => none
      | some (cs, args) => (renderFrom (rest.drop taken) args).map (cs ++ ·)
  | c :: rest => (renderFrom rest args).map (c :: ·)
termination_by s.length
decreasing_by all_goals simp; try omega

/-- A template without arguments stands for itself, percent signs included. -/
def render? (template : String) (args : List Json) : Option String :=
  if args.isEmpty then some template
  else (renderFrom template.toList (.ofList args)).map String.ofList

end Template
end ThreadLocal
