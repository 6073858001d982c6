import ThreadLocal.Proofs.Json.Numbers
import ThreadLocal.Proofs.Json.Strings

/-!
JSON texts are written in printable ASCII.
-/

namespace ThreadLocal

def IsPrintable (c : Char) : Prop :=
  ' ' ≤ c ∧ c ≤ '~'

instance (c : Char) : Decidable (IsPrintable c) :=
  inferInstanceAs (Decidable (_ ∧ _))

namespace Json

/-- Values without floating-point numbers in which no object repeats a name. -/
inductive Exact : Json → Prop where
  | null : Exact .null
  | bool (b : Bool) : Exact (.bool b)
  | int (i : Int) : Exact (.int i)
  | str (s : String) : Exact (.str s)
  | arr {items : List Json} (each : ∀ x ∈ items, Exact x) : Exact (.arr items)
  | obj {fields : List (String × Json)} (distinct : (Table.keys fields).Nodup)
    (each : ∀ f ∈ fields, Exact f.2) : Exact (.obj fields)

theorem isPrintable_hexDigit : ∀ d, d < 16 → IsPrintable (Utf8.hexDigit d) := by decide

theorem isPrintable_of_hexDigits {digits n : Nat} : ∀ c ∈ Utf8.hexDigits digits n, IsPrintable c := by
  induction digits generalizing n with
  | zero => simp [Utf8.hexDigits]
  | succ digits ih =>
    intro c hc
    rcases List.mem_append.mp hc with hc | hc
    · exact ih c hc
    · exact List.mem_singleton.mp hc ▸ isPrintable_hexDigit _ (Nat.mod_lt n (by decide))

theorem isPrintable_of_unitEscape {n : Nat} : ∀ c ∈ unitEscape n, IsPrintable c := by
  have hslash : IsPrintable '\\' := by decide
  have hu : IsPrintable 'u' := by decide
  simpa [unitEscape, hslash, hu] using @isPrintable_of_hexDigits 4 n

theorem isPrintable_of_escape (c : Char) : ∀ d ∈ escape c, IsPrintable d := by
  rcases escape_cases c with ⟨e, -, he, hc⟩ | ⟨-, -, hprint, hc⟩ | ⟨-, hc⟩ | ⟨-, hc⟩
  · have hprint : IsPrintable e := by
      unfold simpleEscape? at he
      split at he <;> first | decide | cases he
    rw [hc]
    intro d hd
    rcases List.mem_cons.mp hd with hd | hd
    · subst hd
      decide
    · exact List.mem_singleton.mp hd ▸ hprint
  · rw [hc]
    intro d hd
    exact List.mem_singleton.mp hd ▸ hprint
  · rw [hc]
    exact isPrintable_of_unitEscape
  · rw [hc]
    intro d hd
    rcases List.mem_append.mp hd with hd | hd
    · exact isPrintable_of_unitEscape d hd
    · exact isPrintable_of_unitEscape d hd

theorem isPrintable_of_writeString (s : String) : ∀ c ∈ writeString s, IsPrintable c := by
  intro c hc
  have hquote : IsPrintable '"' := by decide
  unfold writeString at hc
  simp only [List.cons_append, List.mem_cons, List.mem_append, List.mem_flatMap, List.not_mem_nil, or_false] at hc
  rcases hc with hc | ⟨d, -, hc⟩ | hc
  · exact hc ▸ hquote
  · exact isPrintable_of_escape d c hc
  · exact hc ▸ hquote

theorem isPrintable_of_separated {ws : List (List Char)} (each : ∀ w ∈ ws, ∀ c ∈ w, IsPrintable c) :
    ∀ c ∈ separated ws, IsPrintable c := by
  induction ws with
  | nil => simp [separated]
  | cons w rest ih =>
    have hw := each w List.mem_cons_self
    have hrest := ih fun w' hw' => each w' (List.mem_cons_of_mem _ hw')
    cases rest with
    | nil => exact hw
    | cons w' more =>
      intro c hc
      simp only [separated, List.mem_append, List.mem_cons] at hc
      rcases hc with hc | hc | hc | hc
      · exact hw c hc
      · exact hc ▸ (by decide : IsPrintable ',')
      · exact hc ▸ (by decide : IsPrintable ' ')
      · exact hrest c hc

theorem writeItems_eq_map (items : List Json) : writeItems items = items.map write := by
  induction items with
  | nil => rfl
  | cons x rest ih => rw [writeItems, ih, List.map_cons]

theorem writeFields_eq_map (fields : List (String × Json)) :
    writeFields fields = fields.map fun f => writeString f.1 ++ ':' :: ' ' :: write f.2 := by
  induction fields with
  | nil => rfl
  | cons f rest ih => rw [writeFields, ih, List.map_cons]

theorem isPrintable_of_isDigit {c : Char} (h : c.isDigit = true) : IsPrintable c := by
  simp only [Char.isDigit, Bool.and_eq_true, decide_eq_true_eq] at h
  exact ⟨UInt32.le_trans (by decide : (' ' : Char).val ≤ 48) h.1,
    UInt32.le_trans h.2 (by decide : 57 ≤ ('~' : Char).val)⟩

theorem isPrintable_of_toString (i : Int) : ∀ c ∈ (toString i).toList, IsPrintable c := by
  rw [toList_toString_int]
  intro c hc
  rcases List.mem_append.mp hc with hc | hc
  · by_cases h : i < 0
    · rw [if_pos h] at hc
      exact List.mem_singleton.mp hc ▸ (by decide : IsPrintable '-')
    · simp [h] at hc
  · exact isPrintable_of_isDigit (Nat.isDigit_of_mem_toDigits (by decide) (by decide) hc)

theorem isPrintable_of_enclosed {first last : Char} (hfirst : IsPrintable first) (hlast : IsPrintable last)
    {ws : List (List Char)} (each : ∀ w ∈ ws, ∀ c ∈ w, IsPrintable c) :
    ∀ c ∈ first :: separated ws ++ [last], IsPrintable c := by
  intro c hc
  rcases List.mem_append.mp hc with hc | hc
  · rcases List.mem_cons.mp hc with hc | hc
    · exact hc ▸ hfirst
    · exact isPrintable_of_separated each c hc
  · exact List.mem_singleton.mp hc ▸ hlast

theorem isPrintable_of_all {w : List Char} (h : w.all (fun c => decide (IsPrintable c)) = true) :
    ∀ c ∈ w, IsPrintable c := by
  simpa using h

/-- Whatever a value holds, its text is printable ASCII. -/
theorem isPrintable_of_write {x : Json} (hx : Exact x) : ∀ c ∈ write x, IsPrintable c := by
  induction hx with
  | null => exact isPrintable_of_all (by decide)
  | bool b => cases b <;> exact isPrintable_of_all (by decide)
  | int i => exact isPrintable_of_toString i
  | str s => exact isPrintable_of_writeString s
  | arr each ih =>
    apply isPrintable_of_enclosed (by decide) (by decide)
    intro w hw
    rw [writeItems_eq_map] at hw
    obtain ⟨x, hx, hxw⟩ := List.mem_map.mp hw
    exact hxw ▸ ih x hx
  | obj distinct each ih =>
    apply isPrintable_of_enclosed (by decide) (by decide)
    intro w hw c hc
    rw [writeFields_eq_map] at hw
    obtain ⟨f, hf, hfw⟩ := List.mem_map.mp hw
    rw [← hfw] at hc
    simp only [List.mem_append, List.mem_cons] at hc
    rcases hc with hc | hc | hc | hc
    · exact isPrintable_of_writeString f.1 c hc
    · exact hc ▸ (by decide : IsPrintable ':')
    · exact hc ▸ (by decide : IsPrintable ' ')
    · exact ih f hf c hc

end Json
end ThreadLocal
