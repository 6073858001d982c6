import Mathlib.Algebra.Order.Field.Power
import Mathlib.Data.Rat.Floor
import Mathlib.Tactic.FieldSimp
import Mathlib.Tactic.Linarith
import Mathlib.Tactic.Positivity
import ThreadLocal.Decimal.Binary64

/-!
The rational numbers that fractions and floating-point numbers stand for. A whole number is taken from a floating-point
number by dropping the fraction, and the quotient of two numbers below `2 ^ 53` may be rounded before its ceiling is
taken.
-/

namespace ThreadLocal

namespace Ratio

def value (x : Ratio) : ℚ :=
  x.num / x.den

variable {x : Ratio}

theorem value_scale (x : Ratio) {base : Nat} (positive : 0 < base) (e : Int) :
    (x.scale base e).value = x.value * (base : ℚ) ^ e := by
  have hbase : (base : ℚ) ≠ 0 := Nat.cast_ne_zero.mpr positive.ne'
  unfold scale
  split
  next he =>
    obtain ⟨n, rfl⟩ := Int.eq_ofNat_of_zero_le he
    simp [value, mul_div_right_comm]
  next he =>
    obtain ⟨n, rfl⟩ := Int.exists_eq_neg_ofNat (Int.le_of_lt (Int.not_le.mp he))
    simp only [value, Nat.cast_mul, Nat.cast_pow, Nat.pow_eq, neg_neg, Int.toNat_natCast, zpow_neg, zpow_natCast]
    ring

theorem scale_den_ne_zero (proper : x.den ≠ 0) {base : Nat} (positive : 0 < base) (e : Int) :
    (x.scale base e).den ≠ 0 := by
  unfold scale
  split
  next => exact proper
  next => exact Nat.mul_ne_zero proper (Nat.pow_pos positive).ne'

theorem floor_eq (x : Ratio) : (x.floor : ℤ) = ⌊x.value⌋ := by
  rw [value, Rat.floor_natCast_div_natCast]
  rfl

/-- Rounding moves a fraction by at most a half. -/
theorem nearest_bounds (proper : x.den ≠ 0) :
    (x.nearest : ℚ) ≤ x.value + 1 / 2 ∧ x.value ≤ x.nearest + 1 / 2 := by
  have hbounds : 2 * (x.nearest * x.den) ≤ 2 * x.num + x.den ∧ 2 * x.num ≤ 2 * (x.nearest * x.den) + x.den := by
    have hsplit := Nat.div_add_mod' x.num x.den
    have hlt := Nat.mod_lt x.num (Nat.pos_of_ne_zero proper)
    have hnext := Nat.add_one_mul (x.num / x.den) x.den
    simp only [nearest, ThreadLocal.nearest]
    split_ifs <;> omega
  have hden : (0 : ℚ) < x.den := Nat.cast_pos.mpr (Nat.pos_of_ne_zero proper)
  obtain ⟨hlow, hhigh⟩ := hbounds
  have hlow' : 2 * ((x.nearest : ℚ) * x.den) ≤ 2 * x.num + x.den := by exact_mod_cast hlow
  have hhigh' : 2 * (x.num : ℚ) ≤ 2 * (x.nearest * x.den) + x.den := by exact_mod_cast hhigh
  have hnum : (x.num : ℚ) = x.value * x.den := (div_mul_cancel₀ _ hden.ne').symm
  rw [hnum] at hlow' hhigh'
  constructor
  · exact le_of_mul_le_mul_right (by linarith) hden
  · exact le_of_mul_le_mul_right (by linarith) hden

end Ratio

namespace Binary64

/-- The number that a finite floating-point number stands for. -/
def value? : Binary64 → Option ℚ
  | .nan => none
  | .infinite _ => none
  | .finite negative mantissa exponent => some ((if negative then -1 else 1) * (mantissa * 2 ^ exponent))

theorem value_magnitude (mantissa : Nat) (exponent : Int) :
    (magnitude mantissa exponent).value = mantissa * (2 : ℚ) ^ exponent := by
  have h := Ratio.value_scale ⟨mantissa, 1⟩ Nat.two_pos exponent
  simpa [magnitude, Ratio.value] using h

/-- Dropping the fraction takes a number to the next whole one toward zero. -/
theorem truncate_eq {negative : Bool} {mantissa : Nat} {exponent : Int} {q : ℚ}
    (h : (finite negative mantissa exponent).value? = some q) :
    truncate negative mantissa exponent = if 0 ≤ q then ⌊q⌋ else ⌈q⌉ := by
  have hsize : (0 : ℚ) ≤ mantissa * 2 ^ exponent := by positivity
  have hfloor := (magnitude mantissa exponent).floor_eq
  rw [value_magnitude] at hfloor
  obtain rfl := Option.some.inj h
  cases negative with
  | false => simp [truncate, hfloor, hsize]
  | true =>
    simp only [truncate, hfloor, if_true, neg_one_mul, Left.nonneg_neg_iff, Int.ceil_neg]
    split
    next hle =>
      have hzero : (mantissa : ℚ) * 2 ^ exponent = 0 := le_antisymm hle hsize
      simp [hzero]
    next => rfl

variable {x : Ratio}

/-- Before it is cut off at the least one, the exponent is one of two. -/
theorem exponentFor_cases (x : Ratio) :
    (exponentFor x = max ((x.num.log2 : Int) - x.den.log2 - 52) leastExponent ∧
      2 ^ 52 ≤ (x.scale 2 (-((x.num.log2 : Int) - x.den.log2 - 52))).floor) ∨
    exponentFor x = max ((x.num.log2 : Int) - x.den.log2 - 52 - 1) leastExponent := by
  unfold exponentFor
  simp only
  split
  next => exact .inr rfl
  next h => exact .inl ⟨rfl, Nat.not_lt.mp h⟩

/-- A fraction that is not too small keeps 53 bits. -/
theorem le_scaled (some : x.num ≠ 0) (proper : x.den ≠ 0) (large : leastExponent < exponentFor x) :
    (2 : ℚ) ^ 52 ≤ x.value * 2 ^ (-exponentFor x) := by
  have hvalue := fun e => x.value_scale Nat.two_pos e
  rcases exponentFor_cases x with ⟨he, hfloor⟩ | he
  · rw [max_eq_left (by omega)] at he
    rw [← he] at hfloor
    have hle : (2 ^ 52 : ℤ) ≤ ⌊(x.scale 2 (-exponentFor x)).value⌋ := by
      rw [← Ratio.floor_eq]
      exact_mod_cast hfloor
    have hscaled := Int.le_floor.mp hle
    rw [hvalue] at hscaled
    exact_mod_cast hscaled
  · rw [max_eq_left (by omega)] at he
    have hnum : (2 : ℚ) ^ x.num.log2 ≤ x.num := by exact_mod_cast Nat.log2_self_le some
    have hden : (x.den : ℚ) ≤ 2 ^ (x.den.log2 + 1) := by exact_mod_cast Nat.lt_log2_self.le
    have hpos : (0 : ℚ) < x.den := Nat.cast_pos.mpr (Nat.pos_of_ne_zero proper)
    have hexponent : -exponentFor x = 52 + ((x.den.log2 + 1 : ℕ) : ℤ) - (x.num.log2 : ℤ) := by omega
    have htwo : (2 : ℚ) ≠ 0 := by decide
    rw [hexponent, zpow_sub₀ htwo, zpow_add₀ htwo, zpow_natCast, zpow_natCast, Ratio.value, div_mul_div_comm,
      le_div_iff₀ (by positivity)]
    calc (2 : ℚ) ^ 52 * (x.den * 2 ^ x.num.log2)
      _ ≤ 2 ^ 52 * (2 ^ (x.den.log2 + 1) * x.num) := by gcongr
      _ = x.num * (2 ^ (52 : ℤ) * 2 ^ (x.den.log2 + 1)) := by
        norm_cast
        ring

theorem exponentFor_bounds (x : Ratio) :
    (x.num.log2 : Int) - x.den.log2 - 53 ≤ exponentFor x ∧
      exponentFor x ≤ max ((x.num.log2 : Int) - x.den.log2 - 52) leastExponent := by
  rcases exponentFor_cases x with ⟨he, -⟩ | he <;> omega

/-- What becomes of a quotient that is rounded. -/
theorem ofRatio_value (some : x.num ≠ 0) (small : exponentFor x < 971) (negative : Bool) :
    (ofRatio negative x).value? =
      .some ((if negative then -1 else 1) * ((x.scale 2 (-exponentFor x)).nearest * 2 ^ exponentFor x)) := by
  unfold ofRatio
  rw [if_neg some]
  simp only
  split
  next hcarry =>
    rw [if_neg (by omega), value?, hcarry, zpow_add₀ (by decide)]
    norm_num
    ring_nf
  next =>
    rw [if_neg (by omega), value?]

theorem log2_le {n bits : Nat} (h : n < 2 ^ (bits + 1)) : n.log2 ≤ bits := by
  by_cases hzero : n = 0
  · simp [hzero]
  · exact Nat.lt_succ_iff.mp ((Nat.log2_lt hzero).mpr h)

/-- A number that is rounded to a multiple of `1 / steps` has the ceiling that it had, provided that it lies more than
half a step above the whole number below it. -/
theorem ceil_of_near {x : ℚ} {steps n : Nat} (positive : 0 < steps) (low : (n : ℚ) ≤ x * steps + 1 / 2)
    (high : x * steps ≤ n + 1 / 2) (apart : (⌈x⌉ - 1) * (steps : ℚ) + 1 / 2 < x * steps) :
    ⌈(n : ℚ) / steps⌉ = ⌈x⌉ := by
  have hsteps : (0 : ℚ) < steps := Nat.cast_pos.mpr positive
  rw [Int.ceil_eq_iff]
  constructor
  · rw [lt_div_iff₀ hsteps]
    linarith
  · have hceil : x * steps ≤ ⌈x⌉ * steps := mul_le_mul_of_nonneg_right (Int.le_ceil x) hsteps.le
    have hlt : (n : ℚ) < ((⌈x⌉ * steps : ℤ) : ℚ) + 1 := by
      push_cast
      linarith
    have hle : (n : ℤ) ≤ ⌈x⌉ * steps := Int.lt_add_one_iff.mp (by exact_mod_cast hlt)
    rw [div_le_iff₀ hsteps]
    exact_mod_cast hle

/-- A quotient lies at least a unit of its divisor above the whole number below it. -/
theorem ceil_sub_one_le {count parts : Nat} (positive : 0 < parts) :
    (⌈(count : ℚ) / parts⌉ - 1) * (parts : ℚ) + 1 ≤ count := by
  have hparts : (0 : ℚ) < parts := Nat.cast_pos.mpr positive
  have hbelow : ((⌈(count : ℚ) / parts⌉ : ℚ) - 1) * parts < count := by
    have hceil := Int.ceil_lt_add_one ((count : ℚ) / parts)
    rw [← lt_div_iff₀ hparts]
    linarith
  have hint : (⌈(count : ℚ) / parts⌉ - 1) * (parts : ℤ) < count := by exact_mod_cast hbelow
  exact_mod_cast Int.add_one_le_iff.mpr hint

/-- Rounding the quotient of two numbers below `2 ^ 53` does not change its ceiling. -/
theorem ceil_quotient {count parts : Nat} (few : count < 2 ^ 53) (positive : 0 < parts) (bounded : parts < 2 ^ 53) :
    ∃ q, (ofRatio false ⟨count, parts⟩).value? = some q ∧ ⌈q⌉ = ⌈(count : ℚ) / parts⌉ := by
  by_cases hzero : count = 0
  · subst hzero
    exact ⟨_, rfl, by simp⟩
  have hcount := log2_le few
  have hparts := log2_le bounded
  obtain ⟨hleast, hmost⟩ := exponentFor_bounds ⟨count, parts⟩
  have hend : leastExponent = -1074 := rfl
  dsimp only at hleast hmost
  -- the exponent is not positive, so the rounded quotient is a multiple of a unit fraction
  obtain ⟨steps, hexponent⟩ := Int.exists_eq_neg_ofNat (show exponentFor ⟨count, parts⟩ ≤ 0 by omega)
  have hnear := @Ratio.nearest_bounds (Ratio.scale ⟨count, parts⟩ 2 (-exponentFor ⟨count, parts⟩))
    (Ratio.scale_den_ne_zero positive.ne' Nat.two_pos _)
  have hscaled := @le_scaled ⟨count, parts⟩ hzero positive.ne' (by omega)
  have hvalue := @ofRatio_value ⟨count, parts⟩ hzero (by omega) false
  rw [Ratio.value_scale _ Nat.two_pos] at hnear
  simp only [hexponent, neg_neg, zpow_natCast, zpow_neg, Ratio.value, Nat.cast_two] at hnear hscaled hvalue
  refine ⟨_, hvalue, ?_⟩
  have hparts : (0 : ℚ) < parts := Nat.cast_pos.mpr positive
  -- a step is smaller than two units of the divisor
  have hfine : (parts : ℚ) < 2 * 2 ^ steps := by
    have hfew : (count : ℚ) < 2 ^ 53 := by exact_mod_cast few
    have hpow : (0 : ℚ) < 2 ^ steps := by positivity
    have hless : (count : ℚ) * 2 ^ steps < 2 ^ 53 * 2 ^ steps := mul_lt_mul_of_pos_right hfew hpow
    rw [div_mul_eq_mul_div, le_div_iff₀ hparts] at hscaled
    linarith
  have happart : (⌈(count : ℚ) / parts⌉ - 1) * ((2 ^ steps : ℕ) : ℚ) + 1 / 2 <
      count / parts * ((2 ^ steps : ℕ) : ℚ) := by
    have hunit := mul_le_mul_of_nonneg_right (@ceil_sub_one_le count parts positive)
      (by positivity : (0 : ℚ) ≤ 2 ^ steps)
    rw [div_mul_eq_mul_div, lt_div_iff₀ hparts]
    push_cast
    linarith
  have hceil := @ceil_of_near (count / parts) (2 ^ steps) _ (by positivity) (by exact_mod_cast hnear.1)
    (by exact_mod_cast hnear.2) happart
  rw [← hceil]
  congr 1
  push_cast
  simp [div_eq_mul_inv]

end Binary64
end ThreadLocal
