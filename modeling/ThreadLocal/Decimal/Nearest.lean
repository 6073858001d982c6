/-!
Quotients rounded to the nearest whole number, and powers that may have a negative exponent, written as a
fraction.
-/

namespace ThreadLocal

/-- The whole number nearest to `num / den`; of two equally near ones, the even one. -/
def nearest (num den : Nat) : Nat :=
  let q := num / den
  let r := num % den
  if 2 * r < den then q
  else if den < 2 * r then q + 1
  else if q % 2 = 0 then q
  else q + 1

theorem nearest_one (num : Nat) : nearest num 1 = num := by
  simp [nearest, Nat.mod_one]

/-- A non-negative fraction. -/
structure Ratio where
  num : Nat
  den : Nat
deriving Repr

namespace Ratio

/-- The fraction times `base` to the power `e`. -/
def scale (x : Ratio) (base : Nat) (e : Int) : Ratio :=
  if 0 ≤ e then ⟨x.num * base.pow e.toNat, x.den⟩ else ⟨x.num, x.den * base.pow (-e).toNat⟩

def nearest (x : Ratio) : Nat :=
  ThreadLocal.nearest x.num x.den

def floor (x : Ratio) : Nat :=
  x.num / x.den

/-- How far the fraction lies from the whole number `n`, in units of its denominator. -/
def distance (x : Ratio) (n : Nat) : Nat :=
  (x.num - n * x.den) + (n * x.den - x.num)

end Ratio
end ThreadLocal
