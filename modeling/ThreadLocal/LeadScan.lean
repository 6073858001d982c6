import ThreadLocal.Bytes

/-!
Where the type of a declaration starts: past blanks and the keywords that may stand before a type. A
keyword counts only if no identifier goes on after it.
-/

namespace ThreadLocal
namespace LeadScan

/-- Blank, tab, newline, vertical tab, form feed and carriage return. -/
def isBlank (b : UInt8) : Bool :=
  b = 32 || (9 ≤ b && b ≤ 13)

/-- ASCII letters, digits and the underscore. -/
def isWord (b : UInt8) : Bool :=
  (48 ≤ b && b ≤ 57) || (65 ≤ b && b ≤ 90) || b = 95 || (97 ≤ b && b ≤ 122)

/-- The keywords `const`, `static`, `extern` and the macro name `NON_EXEC_STATIC`. -/
def keywords : List Bytes :=
  [[99, 111, 110, 115, 116], [115, 116, 97, 116, 105, 99], [101, 120, 116, 101, 114, 110],
    [78, 79, 78, 95, 69, 88, 69, 67, 95, 83, 84, 65, 84, 73, 67]]

/-- Whether a text does not start with an identifier byte. -/
def startsFree : Bytes → Bool
  | [] => true
  | b :: _ => !isWord b

def startsWith (text keyword : Bytes) : Bool :=
  keyword.isPrefixOf text && startsFree (text.drop keyword.length)

theorem keywords_ne_nil : ∀ k ∈ keywords, k ≠ [] := by decide

theorem length_pos_of_find {text k : Bytes} (h : keywords.find? (startsWith text) = some k) :
    0 < k.length ∧ k.length ≤ text.length := by
  have hk := List.find?_some h
  simp only [startsWith, Bool.and_eq_true, List.isPrefixOf_iff_prefix] at hk
  exact ⟨List.length_pos_iff.mpr (keywords_ne_nil k (List.mem_of_find?_eq_some h)), hk.1.length_le⟩

/-- The length of the keywords and blanks at the front of a text that starts with no blank. -/
def keywordsLength (text : Bytes) : Nat :=
  match _h : keywords.find? (startsWith text) with
  | none => 0
  | some k =>
    let rest := text.drop k.length
    let blanks := rest.takeWhile isBlank
    k.length + blanks.length + keywordsLength (rest.drop blanks.length)
termination_by text.length
decreasing_by
  have := length_pos_of_find _h
  simp only [List.length_drop]
  omega

variable {text k : Bytes}

theorem keywordsLength_of_none (h : keywords.find? (startsWith text) = none) : keywordsLength text = 0 := by
  rw [keywordsLength]
  split
  next => rfl
  next k hk => cases h.symm.trans hk

theorem keywordsLength_of_some (h : keywords.find? (startsWith text) = some k) :
    keywordsLength text = k.length + ((text.drop k.length).takeWhile isBlank).length +
      keywordsLength ((text.drop k.length).drop ((text.drop k.length).takeWhile isBlank).length) := by
  rw [keywordsLength]
  split
  next hnone => cases hnone.symm.trans h
  next k' hk' =>
    obtain rfl := Option.some.inj (hk'.symm.trans h)
    rfl

theorem keywordsLength_le (text : Bytes) : keywordsLength text ≤ text.length := by
  induction text using keywordsLength.induct with
  | case1 text h =>
    rw [keywordsLength_of_none h]
    exact Nat.zero_le _
  | case2 text k h rest blanks ih =>
    have hk := length_pos_of_find h
    have hb : blanks.length ≤ rest.length := (List.takeWhile_sublist isBlank).length_le
    rw [keywordsLength_of_some h]
    simp only [rest, blanks, List.length_drop] at ih hb ⊢
    omega

end LeadScan

/-- The length of the blanks and leading keywords of a declaration's text. -/
def leadLength (text : Bytes) : Nat :=
  let blanks := text.takeWhile LeadScan.isBlank
  blanks.length + LeadScan.keywordsLength (text.drop blanks.length)

theorem leadLength_le (text : Bytes) : leadLength text ≤ text.length := by
  have hb : (text.takeWhile LeadScan.isBlank).length ≤ text.length :=
    (List.takeWhile_sublist LeadScan.isBlank).length_le
  have hk := LeadScan.keywordsLength_le (text.drop (text.takeWhile LeadScan.isBlank).length)
  simp only [leadLength, List.length_drop] at hk ⊢
  omega

end ThreadLocal
