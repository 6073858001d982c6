import ThreadLocal.Decimal.Nearest

/-!
Binary floating-point numbers of 64 bits, held exactly: a mantissa below `2 ^ 53` times a power of two.
-/

namespace ThreadLocal

/-- A finite number is in lowest form: its mantissa has 53 bits unless the exponent is the least one. -/
inductive Binary64 where
  | nan
  | infinite (negative : Bool)
  | finite (negative : Bool) (mantissa : Nat) (exponent : Int)
deriving DecidableEq, Repr

namespace Binary64

def leastExponent : Int := -1074

/-- The exponent at which a number of the size of `x` keeps 53 bits. -/
def exponentFor (x : Ratio) : Int :=
  let e := (x.num.log2 : Int) - x.den.log2 - 52
  let e := if (x.scale 2 (-e)).floor < Nat.pow 2 52 then e - 1 else e
  max e leastExponent

/-- The number nearest to a fraction; what is too large becomes infinite. -/
def ofRatio (negative : Bool) (x : Ratio) : Binary64 :=
  if x.num = 0 then .finite negative 0 leastExponent
  else
    let e := exponentFor x
    let m := (x.scale 2 (-e)).nearest
    let (m, e) := if m = Nat.pow 2 53 then (Nat.pow 2 52, e + 1) else (m, e)
    if 971 < e then .infinite negative else .finite negative m e

/-- The number nearest to `digits * 10 ^ exponent`. Exponents far outside the range are settled by
the number of digits alone. -/
def ofDecimal (negative : Bool) (digits : Nat) (exponent : Int) : Binary64 :=
  if digits = 0 then .finite negative 0 leastExponent
  else
    let size := ((Nat.toDigits 10 digits).length : Int) + exponent
    if 310 < size then .infinite negative
    else if size < -330 then .finite negative 0 leastExponent
    else ofRatio negative (Ratio.scale ⟨digits, 1⟩ 10 exponent)

/-- The absolute value of a finite number. -/
def magnitude (mantissa : Nat) (exponent : Int) : Ratio :=
  Ratio.scale ⟨mantissa, 1⟩ 2 exponent

/-- The whole part, toward zero, of a finite number. -/
def truncate (negative : Bool) (mantissa : Nat) (exponent : Int) : Int :=
  let n := (magnitude mantissa exponent).floor
  if negative then -(n : Int) else n

end Binary64
end ThreadLocal
