import ThreadLocal.Log
import ThreadLocal.Path
import ThreadLocal.Proofs.Text.Directive

/-!
A notice under the label of a path: whether the text behind the label is the one that the notice has by itself.
-/

namespace ThreadLocal
namespace Template

/-- Rendered to `text`, a label, a colon and the rest of the template: the label has become `front` and the rest is
rendered with what the label leaves of the arguments. If that is all of them, the percent signs of the label come in
pairs, and each pair has become one. -/
def RendersBehind (label rest : List Char) (args : List Json) (text : List Char) : Prop :=
  ∃ front uses tail, text = front ++ ':' :: tail ∧ uses ≤ args.length ∧
    renderFrom rest (.sequence (args.drop uses)) = some tail ∧
    (uses = 0 → front.length ≤ label.length ∧ ('%' ∈ label → front.length < label.length))

namespace RendersBehind

variable {label rest : List Char} {args : List Json} {text : List Char}

theorem nil (h : renderFrom rest (.sequence args) = some text) : RendersBehind [] rest args (':' :: text) :=
  ⟨[], 0, text, rfl, Nat.zero_le _, h, fun _ => by simp⟩

theorem plain {c : Char} (plain : c ≠ '%') (h : RendersBehind label rest args text) :
    RendersBehind (c :: label) rest args (c :: text) := by
  obtain ⟨front, uses, tail, rfl, hle, htail, hfront⟩ := h
  refine ⟨c :: front, uses, tail, rfl, hle, htail, fun hnone => ?_⟩
  obtain ⟨hshort, hshorter⟩ := hfront hnone
  refine ⟨Nat.succ_le_succ hshort, fun hmem => Nat.succ_lt_succ (hshorter ?_)⟩
  exact (List.mem_cons.mp hmem).resolve_left plain.symm

theorem percent (h : RendersBehind label rest args text) :
    RendersBehind ('%' :: '%' :: label) rest args ('%' :: text) := by
  obtain ⟨front, uses, tail, rfl, hle, htail, hfront⟩ := h
  refine ⟨'%' :: front, uses, tail, rfl, hle, htail, fun hnone => ?_⟩
  have hshort := (hfront hnone).1
  simp only [List.length_cons]
  omega

theorem directive {taken uses : Nat} (piece : List Char) (pos : 0 < uses) (le : uses ≤ args.length)
    (h : RendersBehind (label.drop taken) rest (args.drop uses) text) :
    RendersBehind ('%' :: label) rest args (piece ++ text) := by
  obtain ⟨front, further, tail, rfl, hle, htail, -⟩ := h
  rw [List.length_drop] at hle
  rw [List.drop_drop] at htail
  have huses : uses + further ≤ args.length := by omega
  refine ⟨piece ++ front, uses + further, tail, by rw [List.append_assoc], huses, htail, fun hnone => ?_⟩
  omega

end RendersBehind

theorem rendersBehind_of_renderFrom {label rest : List Char} {args : List Json} {text : List Char}
    (h : renderFrom (label ++ ':' :: rest) (.sequence args) = some text) : RendersBehind label rest args text := by
  -- A directive may take any number of characters off the label.
  induction hlength : label.length using Nat.strongRecOn generalizing label args text with
  | _ n ih =>
  subst hlength
  rcases label with _ | ⟨c, label⟩
  · rw [List.nil_append, renderFrom_plain (by decide)] at h
    obtain ⟨tail, htail, rfl⟩ := Option.map_eq_some_iff.mp h
    exact .nil htail
  by_cases hpercent : c = '%'
  · subst hpercent
    by_cases hdouble : ∃ label', label = '%' :: label'
    · obtain ⟨label', rfl⟩ := hdouble
      rw [List.cons_append, List.cons_append, renderFrom] at h
      obtain ⟨text', htext', rfl⟩ := Option.map_eq_some_iff.mp h
      exact (ih label'.length (by simp only [List.length_cons]; omega) htext' rfl).percent
    · have hsingle : ∀ t, label ++ ':' :: rest ≠ '%' :: t := by
        intro t ht
        rcases label with _ | ⟨d, label'⟩
        · simp at ht
        · exact hdouble ⟨label', by rw [(List.cons.inj ht).1]⟩
      obtain ⟨d, taken, hdirective, hkey, hconversion, huses, piece, text', rfl, htext'⟩ :=
        exists_directive hsingle h
      -- The directive ends inside the label, since nothing is converted by the colon.
      have htaken := (directive?_colon hdirective hkey).resolve_right hconversion
      rw [List.drop_append_of_le_length htaken] at htext'
      have hshorter : (label.drop taken).length < ('%' :: label).length := by
        rw [List.length_drop, List.length_cons]
        omega
      exact (ih _ hshorter htext' rfl).directive piece d.uses_pos huses
  · rw [List.cons_append, renderFrom_plain hpercent] at h
    obtain ⟨text', htext', rfl⟩ := Option.map_eq_some_iff.mp h
    exact (ih label.length (Nat.lt_succ_self _) htext' rfl).plain hpercent

/-- Behind a label the template needs as many arguments as by itself, so a label that is kept has taken none, and then
a percent sign would have made it shorter. -/
theorem noPercent_of_renderFrom {label template text : List Char} {args : List Json}
    (alone : renderFrom template (.sequence args) = some text)
    (kept : renderFrom (label ++ ':' :: ' ' :: template) (.sequence args) = some (label ++ ':' :: ' ' :: text)) :
    '%' ∉ label := by
  intro hpercent
  obtain ⟨front, uses, tail, htext, hle, htail, hfront⟩ := rendersBehind_of_renderFrom kept
  rw [renderFrom_plain (by decide)] at htail
  obtain ⟨tail', htail', rfl⟩ := Option.map_eq_some_iff.mp htail
  have harity := (length_of_renderFrom alone).trans (length_of_renderFrom htail').symm
  rw [List.length_drop] at harity
  obtain rfl : uses = 0 := by omega
  obtain rfl : text = tail' := Option.some.inj (alone.symm.trans htail')
  have hshorter := (hfront rfl).2 hpercent
  have hlength := congrArg List.length htext
  simp only [List.length_append] at hlength
  omega

theorem noPercent_of_render? {label template text : String} {args : List Json} (some : args ≠ [])
    (positional : Arguments.ofList args = .sequence args) (alone : render? template args = .some text)
    (kept : render? (label ++ ": " ++ template) args = .some (label ++ ": " ++ text)) : '%' ∉ label.toList := by
  have hnonempty : args.isEmpty = false := by simp [some]
  rw [render?, hnonempty, if_neg (by simp), positional] at alone kept
  obtain ⟨cs, hcs, rfl⟩ := Option.map_eq_some_iff.mp alone
  obtain ⟨cs', hcs', htext⟩ := Option.map_eq_some_iff.mp kept
  have hkept : cs' = label.toList ++ ':' :: ' ' :: cs := by
    have hchars := congrArg String.toList htext
    simpa using hchars
  rw [hkept] at hcs'
  refine noPercent_of_renderFrom hcs ?_
  simpa using hcs'

end Template

namespace Notice

/-- The arguments are taken one after the other: they are not a single object whose fields are named. -/
def Positional (n : Notice) : Prop :=
  ∀ fields, n.arguments = [.obj fields] → fields = []

theorem Positional.ofList {n : Notice} (h : n.Positional) :
    Template.Arguments.ofList n.arguments = .sequence n.arguments := by
  unfold Template.Arguments.ofList
  split
  next fields hargs =>
    obtain rfl := h fields hargs
    rw [hargs]
    rfl
  next => rfl

theorem entries_eq_iff {threshold : Int} {n : Notice} (shown : Level.isShown threshold n.level) (text : String) :
    Log.entries threshold [n] = [(Level.name n.level, text)] ↔ n.text? = some text := by
  cases h : n.text? with
  | none => simp [Log.entries, shown?, shown, h]
  | some other => simp [Log.entries, shown?, shown, h]

theorem text?_labelled {label text : String} {n : Notice} (formats : n.text? = some text)
    (fits : n.arguments = [] ∨ '%' ∉ label.toList) : (n.labelled label).text? = some (label ++ ": " ++ text) := by
  unfold text? labelled at *
  dsimp only
  by_cases hargs : n.arguments = []
  · simp_all [Template.render?]
  · rw [Template.render?_labelled (fits.resolve_left hargs) n.template hargs, formats]
    rfl

/-- A shown notice that has a text is written as one line, its text behind its label, if it has no arguments or no
percent sign is in the label. Of the notices with positional arguments no other is: the label takes arguments of the
notice or loses percent signs, if it is written at all. -/
theorem label_kept {here : Location} {path : String} {threshold : Int} {n : Notice} {text : String}
    (shown : Level.isShown threshold n.level) (formats : n.text? = some text) :
    let label := shownFrom here path
    let fits := n.arguments = [] ∨ '%' ∉ label.toList
    let kept := Log.entries threshold [n.labelled label] = [(Level.name n.level, label ++ ": " ++ text)]
    (fits → kept) ∧ (n.Positional → kept → fits) := by
  intro label fits kept
  have hentries := entries_eq_iff (n := n.labelled label) shown (label ++ ": " ++ text)
  refine ⟨fun hfits => hentries.mpr (text?_labelled formats hfits), fun hpositional hkept => ?_⟩
  by_cases hargs : n.arguments = []
  · exact .inl hargs
  · exact .inr (Template.noPercent_of_render? hargs hpositional.ofList formats (hentries.mp hkept))

theorem plain_label_kept :
    let n := error "failed to parse: %s" [.str "no such file"]
    let label := shownFrom ["src"] "/src/a.c"
    label = "a.c" ∧
      Log.entries Level.info [n.labelled label] = [("ERROR", label ++ ": " ++ "failed to parse: no such file")] :=
  ⟨by decide, (label_kept (by decide) (by decide +kernel)).1 (.inr (by decide))⟩

/-- A single percent sign loses the line, a double one changes the path that it names. -/
theorem percent_label_not_kept :
    let n := error "failed to parse: %s" [.str "no such file"]
    let single := shownFrom ["src"] "/src/100%.c"
    let double := shownFrom ["src"] "/src/50%%.c"
    Level.isShown Level.info n.level ∧ n.text? = some "failed to parse: no such file" ∧
      single = "100%.c" ∧ Log.entries Level.info [n.labelled single] = [] ∧
      double = "50%%.c" ∧
      Log.entries Level.info [n.labelled double] = [("ERROR", "50%.c: failed to parse: no such file")] := by
  have hsingle : shownFrom ["src"] "/src/100%.c" = "100%.c" := by decide
  have hdouble : shownFrom ["src"] "/src/50%%.c" = "50%%.c" := by decide
  simp only [hsingle, hdouble]
  exact ⟨by decide, by decide +kernel, trivial, by decide +kernel, trivial, by decide +kernel⟩

end Notice
end ThreadLocal
