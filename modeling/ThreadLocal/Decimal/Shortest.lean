import ThreadLocal.Decimal.Binary64

/-!
The shortest decimal text of a floating-point number: the fewest digits that read back as the same number,
and of those the nearest to it.
-/

namespace ThreadLocal
namespace Shortest

/-- The decimal exponent of the leading digit of a positive fraction. -/
def leading (x : Ratio) : Int :=
  let size (n : Nat) : Int := (Nat.toDigits 10 n).length
  let guess := size x.num - size x.den
  if (x.scale 10 (-guess)).floor = 0 then guess - 1 else guess

/-- Decimals of `count` digits next to `x`, below and above, that read back as `target`. -/
def onGrid (target : Binary64) (x : Ratio) (count : Nat) : Option (Nat × Int) :=
  let step := leading x - (count - 1)
  let scaled := x.scale 10 (-step)
  let low := scaled.floor
  let reads (n : Nat) : Bool := Binary64.ofDecimal false n step = target
  match reads low, reads (low + 1) with
  | false, false => none
  | true, false => some (low, step)
  | false, true => some (low + 1, step)
  | true, true =>
    let below := scaled.distance low
    let above := scaled.distance (low + 1)
    if below < above ∨ (below = above ∧ low % 2 = 0) then some (low, step) else some (low + 1, step)

/-- Digits and exponent of the shortest decimal; 17 digits always suffice. -/
def decimal (mantissa : Nat) (exponent : Int) : Nat × Int :=
  let x := Binary64.magnitude mantissa exponent
  ((List.range 17).findSome? fun n => onGrid (.finite false mantissa exponent) x (n + 1)).getD
    (mantissa, 0)

/-- Drops the zeros at the end of a digit string. -/
def trimmed (ds : List Char) : List Char :=
  (ds.reverse.dropWhile (· = '0')).reverse

/-- Exponents are written with a sign and at least two digits. -/
def exponentText (e : Int) : List Char :=
  let ds := Nat.toDigits 10 e.natAbs
  (if e < 0 then '-' else '+') :: (if ds.length < 2 then '0' :: ds else ds)

/-- Digits with the point after the leading one moved by `e` places; positional from `1e-4` up to `1e16`. -/
def layout (ds : List Char) (e : Int) : List Char :=
  if e < -4 ∨ 16 ≤ e then
    match ds with
    | [] => []
    | d :: [] => d :: 'e' :: exponentText e
    | d :: rest => d :: '.' :: rest ++ 'e' :: exponentText e
  else if e < 0 then
    '0' :: '.' :: List.replicate ((-e).toNat - 1) '0' ++ ds
  else
    let whole := e.toNat + 1
    let tail := ds.drop whole
    ds.take whole ++ List.replicate (whole - ds.length) '0' ++ '.' :: (if tail = [] then ['0'] else tail)

end Shortest

namespace Binary64

def text : Binary64 → String
  | .nan => "nan"
  | .infinite negative => if negative then "-inf" else "inf"
  | .finite negative mantissa exponent =>
    let body :=
      if mantissa = 0 then "0.0".toList
      else
        let (n, step) := Shortest.decimal mantissa exponent
        let ds := Nat.toDigits 10 n
        Shortest.layout (Shortest.trimmed ds) (step + ds.length - 1)
    String.ofList (if negative then '-' :: body else body)

end Binary64
end ThreadLocal
