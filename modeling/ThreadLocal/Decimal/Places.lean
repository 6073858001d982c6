import ThreadLocal.Decimal.Shortest

/-!
Floating-point numbers with a given number of places, in positional, exponent and general form. Rounding
is exact: to the nearest, a tie to the even digit.
-/

namespace ThreadLocal
namespace Places

/-- Digits with a point before the last `places` of them; `keepPoint` writes it even if nothing follows. -/
def pointed (digits places : Nat) (keepPoint : Bool) : List Char :=
  let ds := Nat.toDigits 10 digits
  let ds := List.replicate (places + 1 - ds.length) '0' ++ ds
  let whole := ds.take (ds.length - places)
  let tail := ds.drop (ds.length - places)
  if tail = [] ∧ !keepPoint then whole else whole ++ '.' :: tail

def fixed (x : Ratio) (places : Nat) (keepPoint : Bool) : List Char :=
  pointed (x.scale 10 places).nearest places keepPoint

/-- `places + 1` significant digits and the exponent of the first. -/
def significant (x : Ratio) (places : Nat) : Nat × Int :=
  if x.num = 0 then (0, 0)
  else
    let e := Shortest.leading x
    let n := (x.scale 10 (places - e)).nearest
    if n = Nat.pow 10 (places + 1) then (n / 10, e + 1) else (n, e)

def scientific (x : Ratio) (places : Nat) (keepPoint : Bool) : List Char :=
  let (n, e) := significant x places
  pointed n places keepPoint ++ 'e' :: Shortest.exponentText e

/-- Drops zeros after the point, and the point if nothing is left after it. -/
def withoutZeros (cs : List Char) : List Char :=
  if cs.contains '.' then ((cs.reverse.dropWhile (· = '0')).dropWhile (· = '.')).reverse else cs

/-- General form: positional if the exponent of `count` significant digits is from -4 up to `count`. -/
def general (x : Ratio) (count : Nat) (alternate : Bool) : List Char :=
  let count := max count 1
  let (n, e) := significant x (count - 1)
  let tidy := fun cs => if alternate then cs else withoutZeros cs
  if e < -4 ∨ count ≤ e then
    tidy (pointed n (count - 1) alternate) ++ 'e' :: Shortest.exponentText e
  else tidy (fixed x ((count : Int) - 1 - e).toNat alternate)

end Places
end ThreadLocal
