import ThreadLocal.Proofs.Json.Grammar
import ThreadLocal.Proofs.Json.Printable

/-!
Whatever is written as JSON is read back as it was, floating-point numbers aside.
-/

namespace ThreadLocal
namespace Json

theorem blank_nil : Blank [] :=
  List.forall_mem_nil _

theorem blank_space : Blank [' '] := by
  simp [Blank, isBlank]

theorem row_separated {t : List Char} (ts : List (List Char)) : Row (t :: ts) (separated (t :: ts)) := by
  induction ts generalizing t with
  | nil =>
    have h : Row [t] ([] ++ (t ++ [])) := .last blank_nil blank_nil
    simpa [separated] using h
  | cons t' ts ih =>
    have h : Row (t :: t' :: ts) ([] ++ (t ++ ([] ++ ',' :: ([' '] ++ separated (t' :: ts))))) :=
      .more blank_nil blank_nil ((@ih t').behind_blanks blank_space)
    simpa [separated] using h

theorem value_arr {items : List Json} (each : ∀ x ∈ items, Value (write x) x) :
    Value (write (.arr items)) (.arr items) := by
  have htext : write (.arr items) = '[' :: (separated (items.map write) ++ [']']) := by
    rw [write, writeItems_eq_map, List.cons_append]
  rw [htext]
  cases items with
  | nil => exact .emptyArray blank_nil
  | cons x xs =>
    have hrow : Row (((x :: xs).map fun y => (write y, y)).map Prod.fst) (separated ((x :: xs).map write)) := by
      rw [List.map_map]
      exact row_separated _
    have h := Value.array hrow (List.forall_mem_map.mpr each)
    rwa [List.map_map, Function.comp_def, List.map_id'] at h

/-- A field as it is written. -/
def Member.written (f : String × Json) : Member :=
  ⟨writeString f.1, f.1, [':', ' '], write f.2, f.2⟩

theorem value_obj {fields : List (String × Json)} (distinct : (Table.keys fields).Nodup)
    (each : ∀ f ∈ fields, Value (write f.2) f.2) : Value (write (.obj fields)) (.obj fields) := by
  have htext : write (.obj fields) =
      '\x7b' :: (separated (fields.map fun f => (Member.written f).text) ++ ['\x7d']) := by
    rw [write, writeFields_eq_map, List.cons_append]
    rfl
  rw [htext]
  cases fields with
  | nil => exact .emptyObject blank_nil
  | cons f more =>
    have hrow : Row (((f :: more).map Member.written).map Member.text)
        (separated ((f :: more).map fun f => (Member.written f).text)) := by
      rw [List.map_map]
      exact row_separated _
    have hcolon : Colon [':', ' '] := ⟨[], [' '], blank_nil, blank_space, rfl⟩
    have hfields : ((f :: more).map Member.written).map Member.field = f :: more := by
      rw [List.map_map]
      exact List.map_id _
    refine .object hrow (List.forall_mem_map.mpr fun g _ => ⟨literal_writeString g.1, hcolon⟩)
      (List.forall_mem_map.mpr each) ?_
    rw [hfields, merged_iff, Table.ofList_of_nodup distinct]

/-- What is written for a value spells it. -/
theorem value_write {x : Json} (hx : Exact x) : Value (write x) x := by
  induction hx with
  | null => exact .plain (.inl (by simp [words, write]))
  | bool b => cases b <;> exact .plain (.inl (by simp [words, write]))
  | int i => exact .plain (.inr (number_toString i))
  | str s => exact .string (literal_writeString s)
  | arr each ih => exact value_arr ih
  | obj distinct each ih => exact value_obj distinct ih

/-- A text is read back, also with blanks behind it. -/
theorem read_text_append {x : Json} (hx : Exact x) {blanks : String} (hblanks : skipBlanks blanks.toList = [])
    (hstops : Stops blanks.toList) : read (x.text ++ blanks) = .ok x := by
  have hvalue := value_write hx
  have htext : (x.text ++ blanks).toList = write x ++ blanks.toList := by simp [text]
  have hread : readText (write x ++ blanks.toList) = .ok x := by
    rw [readText_eq_ok_iff_yields]
    obtain ⟨c, more, hw, hc⟩ := hvalue.head
    constructor
    · rw [hw, List.cons_append, List.head?_cons]
      exact fun h => hc.2.2.2 (Option.some.inj h)
    · have hskip := hvalue.skipBlanks_append blank_nil blanks.toList
      rw [List.nil_append] at hskip
      rw [hskip]
      exact ⟨_, hvalue.isRead _ hstops, hblanks⟩
  rw [read, htext, hread]
  rfl

theorem read_text {x : Json} (hx : Exact x) : read x.text = .ok x := by
  have h := @read_text_append x hx "" rfl stops_nil
  simpa using h

end Json
end ThreadLocal
