import ThreadLocal.Text.Template

/-!
Templates whose directives stand for texts: everything but the directives stands for itself.
-/

namespace ThreadLocal
namespace Template

theorem renderFrom_plain {c : Char} (plain : c ≠ '%') (rest : List Char) (args : Arguments) :
    renderFrom (c :: rest) args = (renderFrom rest args).map (c :: ·) := by
  rw [renderFrom]
  · exact fun _ h => absurd h plain
  · exact plain

/-- What stands in front of the first percent sign is kept as it is. -/
theorem renderFrom_append {plain : List Char} (noPercent : '%' ∉ plain) (rest : List Char) (args : Arguments) :
    renderFrom (plain ++ rest) args = (renderFrom rest args).map (plain ++ ·) := by
  induction plain with
  | nil => simp
  | cons c plain ih =>
    obtain ⟨hc, hplain⟩ := not_or.mp (mt List.mem_cons.mpr noPercent)
    rw [List.cons_append, renderFrom_plain (Ne.symm hc), ih hplain, Option.map_map]
    rfl

theorem directive?_letter {c : Char} (letter : c ∈ ['s', 'd']) (rest : List Char) :
    directive? (c :: rest) = some (⟨none, [], .absent, .absent, c⟩, 1) := by
  have hcases : c = 's' ∨ c = 'd' := by simpa using letter
  rcases hcases with rfl | rfl <;> simp [directive?, isFlag, sizeAt, precisionAt]

theorem renderFrom_text (text : String) (rest : List Char) (args : List Json) :
    renderFrom ('%' :: 's' :: rest) (.sequence (.str text :: args)) =
      (renderFrom rest (.sequence args)).map (text.toList ++ ·) := by
  have hrender : Directive.render? ⟨none, [], .absent, .absent, 's'⟩ (.sequence (.str text :: args)) =
      some (text.toList, .sequence args) := by
    simp [Directive.render?, Arguments.named?, Size.resolve, Arguments.next?, convert?, pad, Json.display]
  rw [renderFrom]
  · simp [directive?_letter, hrender]
  · simp

theorem renderFrom_decimal (n : Nat) (rest : List Char) (args : List Json) :
    renderFrom ('%' :: 'd' :: rest) (.sequence (.int n :: args)) =
      (renderFrom rest (.sequence args)).map ((toString n).toList ++ ·) := by
  have hrender : Directive.render? ⟨none, [], .absent, .absent, 'd'⟩ (.sequence (.int n :: args)) =
      some ((toString n).toList, .sequence args) := by
    simp [Directive.render?, Arguments.named?, Size.resolve, Arguments.next?, convert?, pad, truncated?, integer?,
      Numeral.ofInt, Numeral.laidOut]
  rw [renderFrom]
  · simp [directive?_letter, hrender]
  · simp

theorem ofList_texts (texts : List String) : Arguments.ofList (texts.map Json.str) = .sequence (texts.map Json.str) := by
  cases texts with
  | nil => rfl
  | cons text rest => cases rest <;> rfl

theorem renderFrom_pieces {pieces texts : List String} (paired : pieces.length = texts.length)
    (noPercent : ∀ p ∈ pieces, '%' ∉ p.toList) :
    renderFrom (pieces.flatMap fun p => p.toList ++ ['%', 's']) (.sequence (texts.map Json.str)) =
      some ((List.zipWith (· ++ ·) pieces texts).flatMap String.toList) := by
  induction pieces generalizing texts with
  | nil =>
    obtain rfl := List.eq_nil_of_length_eq_zero paired.symm
    simp [renderFrom, Arguments.isSpent]
  | cons p rest ih =>
    cases texts with
    | nil => cases paired
    | cons text texts =>
      obtain ⟨hp, hrest⟩ := List.forall_mem_cons.mp noPercent
      rw [List.flatMap_cons, List.append_assoc, renderFrom_append hp, List.map_cons]
      simp only [List.cons_append, List.nil_append, renderFrom_text, ih (Nat.succ.inj paired) hrest, Option.map_some]
      rw [List.zipWith_cons_cons, List.flatMap_cons, String.toList_append, List.append_assoc]

/-- A template in which a directive for a text ends every piece. -/
theorem render?_pieces {template : String} {pieces texts : List String}
    (shape : template = String.join (pieces.map (· ++ "%s"))) (noPercent : ∀ p ∈ pieces, '%' ∉ p.toList)
    (paired : pieces.length = texts.length) (some : texts ≠ []) :
    render? template (texts.map Json.str) = .some (String.join (List.zipWith (· ++ ·) pieces texts)) := by
  have hchars : template.toList = pieces.flatMap fun p => p.toList ++ ['%', 's'] := by
    rw [shape, String.toList_join, List.flatMap_map]
    simp
  have htexts : (texts.map Json.str).isEmpty = false := by simp [some]
  rw [render?, htexts, if_neg (by simp), ofList_texts, hchars, renderFrom_pieces paired noPercent, Option.map_some,
    Option.some.injEq, ← String.toList_inj, String.toList_ofList, String.toList_join]

/-- A label with a percent sign in it would count as part of the template. -/
theorem render?_labelled {label : String} (noPercent : '%' ∉ label.toList) (template : String) {args : List Json}
    (some : args ≠ []) :
    render? (label ++ ": " ++ template) args = (render? template args).map (label ++ ": " ++ ·) := by
  have hlabel : '%' ∉ (label ++ ": ").toList := by
    rw [String.toList_append, List.mem_append, not_or]
    exact ⟨noPercent, by decide⟩
  simp only [render?, List.isEmpty_iff, some, if_false]
  rw [String.toList_append, renderFrom_append hlabel, Option.map_map, Option.map_map]
  congr 1
  funext cs
  rw [Function.comp_apply, Function.comp_apply, String.ofList_append, String.ofList_toList]

end Template
end ThreadLocal
