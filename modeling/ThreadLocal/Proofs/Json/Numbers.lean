import Mathlib.Data.List.Basic
import Mathlib.Data.List.TakeWhile
import ThreadLocal.Json.Scan

/-!
Numbers: digits with a sign, a fraction and a power of ten. Such a text is read as its value if what follows cannot be
taken for more of it, and no other text is read as a number. Integers are written as such texts.
-/

namespace ThreadLocal
namespace Json

/-- What stands behind a number does not go on with it. -/
def Stops (rest : List Char) : Prop :=
  ∀ c, rest.head? = some c → c.isDigit = false ∧ c ≠ '.' ∧ c ≠ 'e' ∧ c ≠ 'E'

theorem stops_nil : Stops [] := by
  intro c h
  simp at h

theorem stops_cons {c : Char} {rest : List Char}
    (h : c.isDigit = false ∧ c ≠ '.' ∧ c ≠ 'e' ∧ c ≠ 'E') : Stops (c :: rest) := by
  intro d hd
  obtain rfl : c = d := by simpa using hd
  exact h

/-- At least one decimal digit. -/
structure Digits (ds : List Char) : Prop where
  nonempty : ds ≠ []
  each : ∀ c ∈ ds, c.isDigit = true

/-- The digits of a whole number: none stands behind a zero in front. -/
structure Whole (ds : List Char) : Prop extends Digits ds where
  plain : ds.head? = some '0' → ds = ['0']

/-- The sign of a negative number. -/
def minus (negative : Bool) : List Char :=
  if negative then ['-'] else []

/-- A power of ten behind a number. -/
inductive Exponent : List Char → Int → Prop where
  | unsigned {mark : Char} {ds : List Char} (marked : mark = 'e' ∨ mark = 'E') (h : Digits ds) :
    Exponent (mark :: ds) (digitsValue ds)
  | plus {mark : Char} {ds : List Char} (marked : mark = 'e' ∨ mark = 'E') (h : Digits ds) :
    Exponent (mark :: '+' :: ds) (digitsValue ds)
  | minus {mark : Char} {ds : List Char} (marked : mark = 'e' ∨ mark = 'E') (h : Digits ds) :
    Exponent (mark :: '-' :: ds) (-digitsValue ds)

/-- Numbers and their values: an integer, or the floating-point number nearest to a decimal one. -/
inductive Number : List Char → Json → Prop where
  | integer (negative : Bool) {ds : List Char} (whole : Whole ds) :
    Number (minus negative ++ ds) (.int (if negative then -digitsValue ds else digitsValue ds))
  | fraction (negative : Bool) {ds fs : List Char} (whole : Whole ds) (digits : Digits fs) :
    Number (minus negative ++ (ds ++ '.' :: fs)) (.float (.ofDecimal negative (digitsValue (ds ++ fs)) (-fs.length)))
  | scaled (negative : Bool) {ds es : List Char} {e : Int} (whole : Whole ds) (exponent : Exponent es e) :
    Number (minus negative ++ (ds ++ es)) (.float (.ofDecimal negative (digitsValue ds) e))
  | scaledFraction (negative : Bool) {ds fs es : List Char} {e : Int} (whole : Whole ds) (digits : Digits fs)
      (exponent : Exponent es e) :
    Number (minus negative ++ (ds ++ '.' :: (fs ++ es)))
      (.float (.ofDecimal negative (digitsValue (ds ++ fs)) (e - fs.length)))

theorem digits_takeWhile {s : List Char} (nonempty : s.takeWhile Char.isDigit ≠ []) :
    Digits (s.takeWhile Char.isDigit) :=
  ⟨nonempty, fun _ hc => List.mem_takeWhile_imp hc⟩

theorem wholeDigits_prefix (s : List Char) : wholeDigits s <+: s := by
  unfold wholeDigits
  split
  next rest => exact ⟨rest, rfl⟩
  next => exact List.takeWhile_prefix _

theorem whole_wholeDigits {s : List Char} (nonempty : wholeDigits s ≠ []) : Whole (wholeDigits s) := by
  unfold wholeDigits at nonempty ⊢
  split at nonempty
  next rest => exact ⟨⟨nonempty, by simp⟩, fun _ => rfl⟩
  next hzero =>
    refine ⟨digits_takeWhile nonempty, fun hhead => ?_⟩
    cases s with
    | nil => exact absurd rfl nonempty
    | cons c more =>
      by_cases hc : c.isDigit = true
      · rw [List.takeWhile_cons_of_pos hc] at hhead
        exact absurd (congrArg (· :: more) (Option.some.inj hhead)) (hzero more)
      · rw [List.takeWhile_cons_of_neg hc] at hhead
        cases hhead

theorem fractionDigits_cases (s : List Char) :
    fractionDigits s = [] ∨ Digits (fractionDigits s) ∧ '.' :: fractionDigits s <+: s := by
  unfold fractionDigits
  split
  next rest =>
    by_cases hnone : rest.takeWhile Char.isDigit = []
    · exact .inl hnone
    · obtain ⟨t, ht⟩ := List.takeWhile_prefix (l := rest) Char.isDigit
      exact .inr ⟨digits_takeWhile hnone, t, congrArg ('.' :: ·) ht⟩
  next => exact .inl rfl

section

variable {mark : Char} (marked : mark = 'e' ∨ mark = 'E')

include marked

theorem exponent?_minus (s : List Char) :
    exponent? (mark :: '-' :: s) = if s.takeWhile Char.isDigit = [] then none
      else some (-(digitsValue (s.takeWhile Char.isDigit) : Int), 2 + (s.takeWhile Char.isDigit).length) := by
  simp [exponent?, marked]

theorem exponent?_plus (s : List Char) :
    exponent? (mark :: '+' :: s) = if s.takeWhile Char.isDigit = [] then none
      else some ((digitsValue (s.takeWhile Char.isDigit) : Int), 2 + (s.takeWhile Char.isDigit).length) := by
  simp [exponent?, marked]

theorem exponent?_unsigned {s : List Char} (minus : s.head? ≠ some '-') (plus : s.head? ≠ some '+') :
    exponent? (mark :: s) = if s.takeWhile Char.isDigit = [] then none
      else some ((digitsValue (s.takeWhile Char.isDigit) : Int), 1 + (s.takeWhile Char.isDigit).length) := by
  unfold exponent?
  dsimp only
  rw [if_pos marked]
  split
  next => exact absurd rfl minus
  next => exact absurd rfl plus
  next => rfl

end

theorem exponent?_sound {s : List Char} {e : Int} {n : Nat} (h : exponent? s = some (e, n)) :
    ∃ es, Exponent es e ∧ es.length = n ∧ es <+: s := by
  cases s with
  | nil => cases h
  | cons mark s =>
  by_cases hmark : mark = 'e' ∨ mark = 'E'
  swap
  · unfold exponent? at h
    dsimp only at h
    rw [if_neg hmark] at h
    cases h
  by_cases hminus : s.head? = some '-'
  · obtain ⟨more, rfl⟩ := List.head?_eq_some_iff.mp hminus
    rw [exponent?_minus hmark] at h
    split at h
    next => cases h
    next hsome =>
      cases h
      refine ⟨_, .minus hmark (digits_takeWhile hsome), by simp only [List.length_cons]; omega, ?_⟩
      exact (List.prefix_append_right_inj [mark, '-']).mpr (List.takeWhile_prefix _)
  by_cases hplus : s.head? = some '+'
  · obtain ⟨more, rfl⟩ := List.head?_eq_some_iff.mp hplus
    rw [exponent?_plus hmark] at h
    split at h
    next => cases h
    next hsome =>
      cases h
      refine ⟨_, .plus hmark (digits_takeWhile hsome), by simp only [List.length_cons]; omega, ?_⟩
      exact (List.prefix_append_right_inj [mark, '+']).mpr (List.takeWhile_prefix _)
  rw [exponent?_unsigned hmark hminus hplus] at h
  split at h
  next => cases h
  next hsome =>
    cases h
    refine ⟨_, .unsigned hmark (digits_takeWhile hsome), by simp only [List.length_cons]; omega, ?_⟩
    exact (List.prefix_append_right_inj [mark]).mpr (List.takeWhile_prefix _)

/-- What follows digits is no digit. -/
theorem Digits.takeWhile_append {ds rest : List Char} (h : Digits ds)
    (stop : ∀ c, rest.head? = some c → c.isDigit = false) : (ds ++ rest).takeWhile Char.isDigit = ds := by
  have hstop : rest.takeWhile Char.isDigit = [] := by
    cases rest with
    | nil => rfl
    | cons c more => rw [List.takeWhile_cons_of_neg (by simp [stop c rfl])]
  rw [List.takeWhile_append_of_pos h.each, hstop, List.append_nil]

theorem Digits.head_append {ds : List Char} (h : Digits ds) (rest : List Char) :
    ∃ d more, ds ++ rest = d :: more ∧ d.isDigit = true := by
  obtain ⟨d, more, rfl⟩ := List.exists_cons_of_ne_nil h.nonempty
  exact ⟨d, more ++ rest, rfl, h.each d List.mem_cons_self⟩

theorem Digits.head?_append_ne {ds : List Char} (h : Digits ds) (rest : List Char) {c : Char}
    (hc : c.isDigit = false) : (ds ++ rest).head? ≠ some c := by
  obtain ⟨d, more, hds, hd⟩ := h.head_append rest
  rw [hds, List.head?_cons]
  intro he
  rw [Option.some.inj he, hc] at hd
  cases hd

theorem exponent?_complete {es rest : List Char} {e : Int} (h : Exponent es e)
    (stop : ∀ c, rest.head? = some c → c.isDigit = false) : exponent? (es ++ rest) = some (e, es.length) := by
  cases h with
  | unsigned marked h =>
    rw [List.cons_append, exponent?_unsigned marked (h.head?_append_ne rest rfl) (h.head?_append_ne rest rfl),
      h.takeWhile_append stop, if_neg h.nonempty, List.length_cons, Nat.add_comm]
  | plus marked h =>
    rw [List.cons_append, List.cons_append, exponent?_plus marked, h.takeWhile_append stop, if_neg h.nonempty,
      List.length_cons, List.length_cons, Nat.add_comm]
  | minus marked h =>
    rw [List.cons_append, List.cons_append, exponent?_minus marked, h.takeWhile_append stop, if_neg h.nonempty,
      List.length_cons, List.length_cons, Nat.add_comm]

theorem Whole.wholeDigits_append {ds rest : List Char} (h : Whole ds)
    (stop : ∀ c, rest.head? = some c → c.isDigit = false) : wholeDigits (ds ++ rest) = ds := by
  unfold wholeDigits
  split
  next more hzero =>
    obtain ⟨d, tail, rfl⟩ := List.exists_cons_of_ne_nil h.nonempty
    obtain ⟨rfl, -⟩ := List.cons.inj hzero
    exact (h.plain rfl).symm
  next => exact h.toDigits.takeWhile_append stop

theorem fractionDigits_append {fs rest : List Char} (h : Digits fs)
    (stop : ∀ c, rest.head? = some c → c.isDigit = false) : fractionDigits ('.' :: (fs ++ rest)) = fs :=
  h.takeWhile_append stop

section

variable (negative : Bool) {ds s : List Char} (h : Digits ds) (whole : wholeDigits (ds ++ s) = ds)

include h

theorem signLength_append (s : List Char) : signLength (minus negative ++ (ds ++ s)) = (minus negative).length := by
  cases negative with
  | true => rfl
  | false =>
    obtain ⟨d, more, hds, hd⟩ := h.head_append s
    rw [minus, if_neg (by simp), List.nil_append, hds]
    unfold signLength
    split
    next he =>
      obtain ⟨rfl, -⟩ := List.cons.inj he
      cases hd
    next => rfl

include whole

/-- Without a fraction a number goes on behind its whole part with a power of ten, or it is an integer. -/
theorem number?_of_no_fraction (fraction : fractionDigits s = []) :
    number? (minus negative ++ (ds ++ s)) =
      match exponent? s with
      | none => some (.int (if negative then -digitsValue ds else digitsValue ds), (minus negative ++ ds).length)
      | some (e, size) =>
        some (.float (.ofDecimal negative (digitsValue ds) e), (minus negative ++ ds).length + size) := by
  have hpast : (minus negative ++ (ds ++ s)).drop ((minus negative).length + ds.length) = s := by
    rw [← List.append_assoc, ← List.length_append, List.drop_left]
  have hnegative : ((minus negative).length = 1) = (negative = true) := by cases negative <;> simp [minus]
  unfold number?
  simp only [signLength_append negative h s, List.drop_left, whole, h.nonempty, if_false, hpast, fraction, if_true,
    hnegative, List.length_append]
  cases exponent? s with
  | none => rfl
  | some scale => simp

/-- With a fraction a number goes on behind it with a power of ten, or with none. -/
theorem number?_of_fraction {fs s' : List Char} (fraction : fractionDigits s = fs) (nonempty : fs ≠ [])
    (shape : s = '.' :: (fs ++ s')) :
    number? (minus negative ++ (ds ++ s)) =
      some (.float (.ofDecimal negative (digitsValue (ds ++ fs)) (((exponent? s').getD (0, 0)).1 - fs.length)),
        (minus negative ++ (ds ++ '.' :: fs)).length + ((exponent? s').getD (0, 0)).2) := by
  have hpast : (minus negative ++ (ds ++ s)).drop ((minus negative).length + ds.length) = s := by
    rw [← List.append_assoc, ← List.length_append, List.drop_left]
  have hrest : (minus negative ++ (ds ++ s)).drop ((minus negative).length + ds.length + 1 + fs.length) = s' := by
    have hsplit : minus negative ++ (ds ++ s) = (minus negative ++ (ds ++ '.' :: fs)) ++ s' := by simp [shape]
    have hlength : (minus negative).length + ds.length + 1 + fs.length =
        (minus negative ++ (ds ++ '.' :: fs)).length := by
      simp only [List.length_append, List.length_cons]
      omega
    rw [hsplit, hlength, List.drop_left]
  have hnegative : ((minus negative).length = 1) = (negative = true) := by cases negative <;> simp [minus]
  unfold number?
  simp only [signLength_append negative h s, List.drop_left, whole, h.nonempty, if_false, hpast, fraction, nonempty,
    hnegative, hrest]
  split
  next => exact absurd rfl nonempty
  next =>
    simp
    omega

end

theorem exists_minus (s : List Char) :
    ∃ negative body, s = minus negative ++ body ∧ signLength s = (minus negative).length := by
  unfold signLength
  split
  next body => exact ⟨true, body, rfl, rfl⟩
  next => exact ⟨false, s, rfl, rfl⟩

/-- What is read from the front of a text is a number. -/
theorem number?_sound {s : List Char} {x : Json} {n : Nat} (h : number? s = some (x, n)) :
    ∃ t, Number t x ∧ t.length = n ∧ t <+: s := by
  obtain ⟨negative, body, hs, hsign⟩ := exists_minus s
  have hbehind : s.drop (signLength s) = body := by rw [hsign, hs, List.drop_left]
  have hnonempty : wholeDigits body ≠ [] := by
    intro hnone
    simp [number?, hbehind, hnone] at h
  have hwhole := whole_wholeDigits hnonempty
  obtain ⟨s₁, hbody⟩ := wholeDigits_prefix body
  generalize hds : wholeDigits body = ds at hbody hwhole
  subst hbody
  rcases fractionDigits_cases s₁ with hnone | ⟨hdigits, s₂, hs₁⟩
  · rw [hs, number?_of_no_fraction negative hwhole.toDigits hds hnone] at h
    cases hexponent : exponent? s₁ with
    | none =>
      simp only [hexponent, Option.some.injEq, Prod.mk.injEq] at h
      obtain ⟨rfl, rfl⟩ := h
      exact ⟨_, .integer negative hwhole, rfl, s₁, by rw [hs, List.append_assoc]⟩
    | some scale =>
      obtain ⟨e, size⟩ := scale
      obtain ⟨es, hes, rfl, s₃, rfl⟩ := exponent?_sound hexponent
      simp only [hexponent, Option.some.injEq, Prod.mk.injEq] at h
      obtain ⟨rfl, rfl⟩ := h
      exact ⟨_, .scaled negative hwhole hes, by simp [Nat.add_assoc], s₃, by simp [hs]⟩
  · rw [hs, number?_of_fraction negative hwhole.toDigits hds rfl hdigits.nonempty hs₁.symm] at h
    generalize fractionDigits s₁ = fs at hdigits hs₁ h
    subst hs₁
    cases hexponent : exponent? s₂ with
    | none =>
      simp only [hexponent, Option.some.injEq, Prod.mk.injEq] at h
      obtain ⟨rfl, rfl⟩ := h
      exact ⟨_, by simpa using Number.fraction negative hwhole hdigits, rfl, s₂, by simp [hs]⟩
    | some scale =>
      obtain ⟨e, size⟩ := scale
      obtain ⟨es, hes, rfl, s₃, rfl⟩ := exponent?_sound hexponent
      simp only [hexponent, Option.some.injEq, Prod.mk.injEq] at h
      obtain ⟨rfl, rfl⟩ := h
      exact ⟨_, .scaledFraction negative hwhole hdigits hes, by simp; omega, s₃, by simp [hs]⟩

theorem Exponent.head?_append {es : List Char} {e : Int} (h : Exponent es e) (rest : List Char) :
    (∃ mark, (es ++ rest).head? = some mark ∧ (mark = 'e' ∨ mark = 'E')) := by
  cases h with
  | unsigned marked => exact ⟨_, rfl, marked⟩
  | plus marked => exact ⟨_, rfl, marked⟩
  | minus marked => exact ⟨_, rfl, marked⟩

/-- A power of ten is no part of the digits in front of it. -/
theorem Exponent.not_digit {es rest : List Char} {e : Int} (h : Exponent es e) (c : Char)
    (front : (es ++ rest).head? = some c) : c.isDigit = false := by
  obtain ⟨mark, hmark, rfl | rfl⟩ := h.head?_append rest <;> cases hmark.symm.trans front <;> rfl

theorem Exponent.fractionDigits_append {es rest : List Char} {e : Int} (h : Exponent es e) :
    fractionDigits (es ++ rest) = [] := by
  obtain ⟨mark, hmark, hmarked⟩ := h.head?_append rest
  unfold fractionDigits
  split
  next hpoint =>
    rw [hpoint] at hmark
    cases hmark
    simp at hmarked
  next => rfl

theorem fractionDigits_of_stops {rest : List Char} (hrest : Stops rest) : fractionDigits rest = [] := by
  cases rest with
  | nil => rfl
  | cons c more =>
    have hc := (hrest c rfl).2.1
    simp [fractionDigits, hc]

theorem exponent?_of_stops {rest : List Char} (hrest : Stops rest) : exponent? rest = none := by
  cases rest with
  | nil => rfl
  | cons c more => simp [exponent?, (hrest c rfl).2.2]

/-- A number is read if what stands behind it does not go on with it. -/
theorem number?_complete {t rest : List Char} {x : Json} (h : Number t x) (hrest : Stops rest) :
    number? (t ++ rest) = some (x, t.length) := by
  have hdigit : ∀ c, rest.head? = some c → c.isDigit = false := fun c hc => (hrest c hc).1
  have hpoint : ∀ s, ∀ c, ('.' :: s).head? = some c → c.isDigit = false := by
    rintro s _ ⟨⟩
    rfl
  cases h with
  | integer negative whole =>
    rw [List.append_assoc, number?_of_no_fraction negative whole.toDigits (whole.wholeDigits_append hdigit)
      (fractionDigits_of_stops hrest), exponent?_of_stops hrest]
  | scaled negative whole exponent =>
    rw [List.append_assoc, List.append_assoc, number?_of_no_fraction negative whole.toDigits
      (whole.wholeDigits_append exponent.not_digit) exponent.fractionDigits_append, exponent?_complete exponent hdigit]
    simp [Nat.add_assoc]
  | @fraction negative ds fs whole digits =>
    have hsplit : minus negative ++ (ds ++ '.' :: fs) ++ rest = minus negative ++ (ds ++ '.' :: (fs ++ rest)) := by simp
    rw [hsplit, number?_of_fraction negative whole.toDigits (whole.wholeDigits_append (hpoint _))
      (fractionDigits_append digits hdigit) digits.nonempty rfl, exponent?_of_stops hrest]
    simp
  | @scaledFraction negative ds fs es e whole digits exponent =>
    have hsplit : minus negative ++ (ds ++ '.' :: (fs ++ es)) ++ rest =
        minus negative ++ (ds ++ '.' :: (fs ++ (es ++ rest))) := by simp
    rw [hsplit, number?_of_fraction negative whole.toDigits (whole.wholeDigits_append (hpoint _))
      (fractionDigits_append digits exponent.not_digit) digits.nonempty rfl, exponent?_complete exponent hdigit]
    simp only [Option.getD_some, Option.some.injEq, Prod.mk.injEq, List.length_append, List.length_cons, true_and]
    omega

/-! What is written for an integer. -/

theorem digitsValue_toDigits (n : Nat) : digitsValue (Nat.toDigits 10 n) = n := by
  have h := @Nat.ofDigitChars_ten_toDigits n
  rw [Nat.ofDigitChars_eq_foldl] at h
  simpa [digitsValue, Nat.mul_comm] using h

theorem digitChar_ne_zero : ∀ n, n < 10 → n ≠ 0 → n.digitChar ≠ '0' := by decide

/-- Only zero is written with a leading zero. -/
theorem head?_toDigits {n : Nat} (h : n ≠ 0) : (Nat.toDigits 10 n).head? ≠ some '0' := by
  induction n using Nat.strongRecOn with
  | ind n ih =>
    by_cases hlt : n < 10
    · rw [Nat.toDigits_of_lt_base hlt]
      intro hz
      exact digitChar_ne_zero n hlt h (Option.some.inj hz)
    · have hhead := ih (n / 10) (by omega) (by omega)
      obtain ⟨d, ds, hds⟩ := List.exists_cons_of_ne_nil (@Nat.toDigits_ne_nil (n / 10) 10)
      rw [Nat.toDigits_of_base_le (by decide) (by omega), hds]
      rw [hds] at hhead
      exact hhead

theorem whole_toDigits (n : Nat) : Whole (Nat.toDigits 10 n) where
  nonempty := Nat.toDigits_ne_nil
  each _ hc := Nat.isDigit_of_mem_toDigits (by decide) (by decide) hc
  plain h := by
    by_cases hzero : n = 0
    · subst hzero
      rfl
    · exact absurd h (head?_toDigits hzero)

/-- An integer is its digits, with a minus before them if it is negative. -/
theorem toList_toString_int (i : Int) :
    (toString i).toList = (if i < 0 then ['-'] else []) ++ Nat.toDigits 10 i.natAbs := by
  rw [Int.toString_eq_repr, Int.repr_eq_if]
  by_cases h : 0 ≤ i
  · have habs : i.toNat = i.natAbs := by omega
    simp [h, Int.not_lt.mpr h, habs, Nat.toList_repr]
  · have habs : (-i).toNat = i.natAbs := by omega
    simp [h, Int.not_le.mp h, habs, Nat.toList_repr]

theorem number_toString (i : Int) : Number (toString i).toList (.int i) := by
  have h := Number.integer (decide (i < 0)) (whole_toDigits i.natAbs)
  have hvalue : (if decide (i < 0) = true then -(i.natAbs : Int) else i.natAbs) = i := by
    simp only [decide_eq_true_eq]
    omega
  rw [digitsValue_toDigits, hvalue] at h
  rw [toList_toString_int]
  simpa [minus] using h

end Json
end ThreadLocal
