import ThreadLocal.Proofs.Text.Template

/-!
How far a directive reads, and how many of a sequence of arguments it takes. A colon ends whatever stands in front of
it, and no directive converts by a colon.
-/

namespace ThreadLocal
namespace Template

section Extent

/-- The letter that sizes an integer, which means nothing here. -/
def modifierAt : List Char → Nat
  | c :: _ => if c = 'h' ∨ c = 'l' ∨ c = 'L' then 1 else 0
  | [] => 0

def flagsEnd (s : List Char) : Nat := (s.takeWhile isFlag).length

def widthEnd (s : List Char) : Nat := flagsEnd s + (sizeAt (s.drop (flagsEnd s))).2

def precisionEnd (s : List Char) : Nat := widthEnd s + (precisionAt (s.drop (widthEnd s))).2

def modifierEnd (s : List Char) : Nat := precisionEnd s + modifierAt (s.drop (precisionEnd s))

theorem modifierEnd_eq (s : List Char) : modifierEnd s = match s.drop (precisionEnd s) with
    | c :: _ => if c = 'h' ∨ c = 'l' ∨ c = 'L' then precisionEnd s + 1 else precisionEnd s
    | [] => precisionEnd s := by
  unfold modifierEnd
  cases s.drop (precisionEnd s) with
  | nil => rfl
  | cons c rest => simp only [modifierAt]; split <;> rfl

/-- Without a key, a directive consists of flags, width, precision and modifier, and the conversion behind them. -/
theorem directive?_unkeyed {s : List Char} (unkeyed : ∀ rest, s ≠ '(' :: rest) :
    directive? s = (s.drop (modifierEnd s)).head?.map fun c =>
      (⟨none, s.takeWhile isFlag, (sizeAt (s.drop (flagsEnd s))).1, (precisionAt (s.drop (widthEnd s))).1, c⟩,
        modifierEnd s + 1) := by
  rw [modifierEnd_eq]
  unfold precisionEnd widthEnd flagsEnd directive?
  dsimp only
  split
  next rest => exact absurd rfl (unkeyed rest)
  next =>
    rw [Option.map_eq_bind]
    simp only [Option.bind_eq_bind, Option.bind_some, Nat.zero_add, List.drop_zero]
    rfl

theorem directive?_keyed {rest : List Char} {d : Directive} {taken : Nat}
    (h : directive? ('(' :: rest) = some (d, taken)) : d.key ≠ none := by
  obtain ⟨key, hkey, h⟩ := Option.bind_eq_some_iff.mp h
  obtain ⟨conversion, -, h⟩ := Option.bind_eq_some_iff.mp h
  obtain ⟨rfl, -⟩ := Prod.mk.inj (Option.some.inj h)
  obtain ⟨text, -, rfl⟩ := Option.map_eq_some_iff.mp hkey
  exact Option.some_ne_none text

theorem conversion_of_directive? {s : List Char} {d : Directive} {taken : Nat}
    (h : directive? s = some (d, taken)) (noKey : d.key = none) :
    taken = modifierEnd s + 1 ∧ (s.drop (modifierEnd s)).head? = some d.conversion := by
  have hunkeyed : ∀ rest, s ≠ '(' :: rest := by
    rintro rest rfl
    exact directive?_keyed h noKey
  rw [directive?_unkeyed hunkeyed] at h
  obtain ⟨conversion, hconversion, h⟩ := Option.map_eq_some_iff.mp h
  obtain ⟨rfl, rfl⟩ := Prod.mk.inj h
  exact ⟨rfl, hconversion⟩

variable (cs rest : List Char)

theorem takeWhile_colon {p : Char → Bool} (stops : p ':' = false) :
    ((cs ++ ':' :: rest).takeWhile p).length ≤ cs.length := by
  rw [List.takeWhile_append]
  split
  · simp [stops]
  · exact (List.takeWhile_prefix p).length_le

theorem sizeAt_colon : (sizeAt (cs ++ ':' :: rest)).2 ≤ cs.length := by
  have hdigits := takeWhile_colon cs rest (p := Char.isDigit) (by decide)
  unfold sizeAt
  split
  next tail h =>
    cases cs with
    | nil => cases h
    | cons c cs => simp
  next =>
    dsimp only
    split
    · exact Nat.zero_le _
    · exact hdigits

theorem precisionAt_colon : (precisionAt (cs ++ ':' :: rest)).2 ≤ cs.length := by
  cases cs with
  | nil => simp [precisionAt]
  | cons c cs =>
    have hsize := sizeAt_colon cs rest
    rw [List.cons_append]
    unfold precisionAt
    split
    next tail h =>
      obtain ⟨-, rfl⟩ := List.cons.inj h
      split <;> simp_all
    next => simp

theorem modifierAt_colon : modifierAt (cs ++ ':' :: rest) ≤ cs.length := by
  cases cs with
  | nil => simp [modifierAt]
  | cons c cs => simp only [List.cons_append, modifierAt, List.length_cons]; split <;> omega

/-- A part that ends by the colon wherever it begins does so behind other parts. -/
theorem end_colon (part : List Char → Nat) (within : ∀ cs rest, part (cs ++ ':' :: rest) ≤ cs.length)
    {n : Nat} (le : n ≤ cs.length) : n + part ((cs ++ ':' :: rest).drop n) ≤ cs.length := by
  have hpart := within (cs.drop n) rest
  rw [List.length_drop] at hpart
  rw [List.drop_append_of_le_length le]
  omega

theorem modifierEnd_colon : modifierEnd (cs ++ ':' :: rest) ≤ cs.length := by
  have hflags : flagsEnd (cs ++ ':' :: rest) ≤ cs.length := takeWhile_colon cs rest (by decide)
  have hwidth : widthEnd (cs ++ ':' :: rest) ≤ cs.length :=
    end_colon cs rest (fun s => (sizeAt s).2) sizeAt_colon hflags
  have hprecision : precisionEnd (cs ++ ':' :: rest) ≤ cs.length :=
    end_colon cs rest (fun s => (precisionAt s).2) precisionAt_colon hwidth
  exact end_colon cs rest modifierAt modifierAt_colon hprecision

variable {cs rest}

/-- A directive without a key ends in front of a colon, unless the colon is its conversion. -/
theorem directive?_colon {d : Directive} {taken : Nat} (h : directive? (cs ++ ':' :: rest) = some (d, taken))
    (noKey : d.key = none) : taken ≤ cs.length ∨ d.conversion = ':' := by
  obtain ⟨rfl, hconversion⟩ := conversion_of_directive? h noKey
  rcases Nat.lt_or_eq_of_le (modifierEnd_colon cs rest) with hlt | heq
  · exact .inl hlt
  · rw [heq, List.drop_left, List.head?_cons] at hconversion
    exact .inr (Option.some.inj hconversion).symm

end Extent

/-! What is taken from a sequence of arguments. -/

def Size.uses : Size → Nat
  | .fromArgument => 1
  | _ => 0

/-- A directive without a key takes the value to convert, and its sizes if they are arguments. -/
def Directive.uses (d : Directive) : Nat := d.width.uses + d.precision.uses + 1

theorem Directive.uses_pos (d : Directive) : 0 < d.uses :=
  Nat.succ_pos _

theorem Arguments.next?_sequence {args : List Json} {x : Json} {left : Arguments}
    (h : (Arguments.sequence args).next? = some (x, left)) : 1 ≤ args.length ∧ left = .sequence (args.drop 1) := by
  cases args with
  | nil => simp [next?] at h
  | cons y rest =>
    obtain ⟨-, rfl⟩ := Prod.mk.inj (Option.some.inj h)
    simp

theorem Size.resolve_sequence {size : Size} {args : List Json} {value : Option Int} {left : Arguments}
    (h : size.resolve (.sequence args) = some (value, left)) :
    size.uses ≤ args.length ∧ left = .sequence (args.drop size.uses) := by
  cases size with
  | absent =>
    obtain ⟨-, rfl⟩ := Prod.mk.inj (Option.some.inj h)
    simp [uses]
  | given n =>
    simp only [resolve, Option.ite_none_right_eq_some] at h
    obtain ⟨-, rfl⟩ := Prod.mk.inj (Option.some.inj h.2)
    simp [uses]
  | fromArgument =>
    unfold resolve at h
    dsimp only at h
    split at h
    next i rest hnext =>
      obtain ⟨-, rfl⟩ := Prod.mk.inj (Option.some.inj (Option.ite_none_right_eq_some.mp h).2)
      exact Arguments.next?_sequence hnext
    next b rest hnext =>
      obtain ⟨-, rfl⟩ := Prod.mk.inj (Option.some.inj h)
      exact Arguments.next?_sequence hnext
    next => cases h

theorem Arguments.named?_sequence {args : List Json} {key : Option (List Char)} {named : Arguments}
    (h : (Arguments.sequence args).named? key = some named) : key = none ∧ named = .sequence args := by
  cases key with
  | none => exact ⟨rfl, (Option.some.inj h).symm⟩
  | some key => simp [named?] at h

theorem Directive.render?_sequence {d : Directive} {args : List Json} {piece : List Char} {left : Arguments}
    (h : d.render? (.sequence args) = some (piece, left)) :
    d.key = none ∧ d.conversion ≠ ':' ∧ d.uses ≤ args.length ∧ left = .sequence (args.drop d.uses) := by
  unfold render? at h
  obtain ⟨named, hnamed, h⟩ := Option.bind_eq_some_iff.mp h
  obtain ⟨⟨width, past⟩, hwidth, h⟩ := Option.bind_eq_some_iff.mp h
  obtain ⟨⟨precision, past'⟩, hprecision, h⟩ := Option.bind_eq_some_iff.mp h
  obtain ⟨⟨x, left'⟩, hnext, h⟩ := Option.bind_eq_some_iff.mp h
  obtain ⟨piece', hconvert, h⟩ := Option.bind_eq_some_iff.mp h
  obtain ⟨rfl, rfl⟩ := Prod.mk.inj (Option.some.inj h)
  obtain ⟨hkey, rfl⟩ := Arguments.named?_sequence hnamed
  obtain ⟨hwidthUses, rfl⟩ := Size.resolve_sequence hwidth
  obtain ⟨hprecisionUses, rfl⟩ := Size.resolve_sequence hprecision
  obtain ⟨hvalueUses, rfl⟩ := Arguments.next?_sequence hnext
  have hconversion : d.conversion ≠ ':' := by
    intro hcolon
    simp [convert?, hcolon] at hconvert
  rw [List.length_drop] at hprecisionUses
  rw [List.drop_drop, List.length_drop] at hvalueUses
  refine ⟨hkey, hconversion, ?_, ?_⟩
  · unfold uses
    omega
  · rw [List.drop_drop, List.drop_drop, uses, Nat.add_assoc]

/-- What a directive that renders has read and taken, and what is left to render. -/
theorem exists_directive {rest : List Char} {args : List Json} {text : List Char}
    (single : ∀ t, rest ≠ '%' :: t) (h : renderFrom ('%' :: rest) (.sequence args) = some text) :
    ∃ d taken, directive? rest = some (d, taken) ∧ d.key = none ∧ d.conversion ≠ ':' ∧ d.uses ≤ args.length ∧
      ∃ piece tail, text = piece ++ tail ∧
        renderFrom (rest.drop taken) (.sequence (args.drop d.uses)) = some tail := by
  rw [renderFrom] at h
  · cases hdirective : directive? rest with
    | none => simp [hdirective] at h
    | some found =>
      obtain ⟨d, taken⟩ := found
      cases hrender : d.render? (.sequence args) with
      | none => simp [hdirective, hrender] at h
      | some rendered =>
        obtain ⟨piece, left⟩ := rendered
        simp only [hdirective, hrender] at h
        obtain ⟨tail, htail, rfl⟩ := Option.map_eq_some_iff.mp h
        obtain ⟨hkey, hconversion, huses, rfl⟩ := Directive.render?_sequence hrender
        exact ⟨d, taken, rfl, hkey, hconversion, huses, piece, tail, rfl, htail⟩
  · exact single

/-- How many arguments a template without keys takes. -/
def arity (s : List Char) : Nat :=
  match s with
  | [] => 0
  | '%' :: '%' :: rest => arity rest
  | '%' :: rest =>
    match directive? rest with
    | none => 0
    | some (d, taken) => d.uses + arity (rest.drop taken)
  | _ :: rest => arity rest
termination_by s.length
decreasing_by all_goals simp; try omega

/-- A template renders sequences of one length only. -/
theorem length_of_renderFrom {s : List Char} {args : List Json} {text : List Char}
    (h : renderFrom s (.sequence args) = some text) : args.length = arity s := by
  fun_induction arity s generalizing args text with
  | case1 =>
    cases args with
    | nil => rfl
    | cons x rest => simp [renderFrom, Arguments.isSpent] at h
  | case2 rest ih =>
    rw [renderFrom] at h
    obtain ⟨tail, htail, -⟩ := Option.map_eq_some_iff.mp h
    exact ih htail
  | case3 rest single hdirective =>
    obtain ⟨d, taken, hfound, -⟩ := exists_directive single h
    simp [hdirective] at hfound
  | case4 rest single d taken hdirective ih =>
    obtain ⟨d', taken', hfound, -, -, huses, piece, tail, -, htail⟩ := exists_directive single h
    obtain ⟨rfl, rfl⟩ := Prod.mk.inj (Option.some.inj (hdirective.symm.trans hfound))
    have hleft := ih htail
    rw [List.length_drop] at hleft
    omega
  | case5 c rest single plain ih =>
    rw [renderFrom_plain plain] at h
    obtain ⟨tail, htail, -⟩ := Option.map_eq_some_iff.mp h
    exact ih htail

end Template
end ThreadLocal
