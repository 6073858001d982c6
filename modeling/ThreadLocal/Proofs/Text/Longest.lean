import Mathlib.Order.Bounds.Basic
import ThreadLocal.Proofs.Text.Pattern
import ThreadLocal.Text.Utf8

/-!
What may stand in front of a declaration's type, told apart from the scan. The scan takes the longest such front, and
what it leaves has none.
-/

namespace ThreadLocal
namespace LeadScan

/-- Space, tab, newline, carriage return, form feed and vertical tab. -/
def whitespace : Bytes := Bytes.ofText " \t\n\r\x0c\x0b"

/-- The words that may stand before a type. -/
def leadWords : List Bytes := ["const", "static", "extern", "NON_EXEC_STATIC"].map Bytes.ofText

/-- The letters, the digits and the underscore of ASCII. -/
def IsIdentifierByte (b : UInt8) : Prop :=
  (Char.ofNat b.toNat).isAlphanum = true ∨ Char.ofNat b.toNat = '_'

/-- Words in front of a text, each of them ended by its end or by what is no identifier byte, and each with any
whitespace behind it. -/
inductive Words (rest : Bytes) : Bytes → Prop where
  | nil : Words rest []
  | word {k spaces others : Bytes} (known : k ∈ leadWords)
    (ended : ∀ b, (spaces ++ (others ++ rest)).head? = some b → ¬ IsIdentifierByte b)
    (space : ∀ b ∈ spaces, b ∈ whitespace) (behind : Words rest others) : Words rest (k ++ (spaces ++ others))

/-- Whitespace and then words, in front of the rest of a text. -/
def IsLead (front rest : Bytes) : Prop :=
  ∃ spaces words, front = spaces ++ words ∧ (∀ b ∈ spaces, b ∈ whitespace) ∧ Words rest words

theorem isBlank_iff {b : UInt8} : isBlank b = true ↔ b ∈ whitespace := by
  have hwhitespace : whitespace = [32, 9, 10, 13, 12, 11] := by decide
  simp only [hwhitespace, isBlank, List.mem_cons, List.not_mem_nil, Bool.or_eq_true, Bool.and_eq_true,
    decide_eq_true_eq, UInt8.le_iff_toNat_le, ← UInt8.toNat_inj]
  simp
  omega

theorem keywords_eq : keywords = leadWords := by decide

instance : DecidablePred IsIdentifierByte :=
  fun _ => inferInstanceAs (Decidable (_ ∨ _))

theorem isWord_iff {b : UInt8} : isWord b = true ↔ IsIdentifierByte b := by
  have hall : ∀ n : Fin 256, isWord (UInt8.ofFin n) = true ↔ IsIdentifierByte (UInt8.ofFin n) := by decide +kernel
  exact hall b.toFin

variable {front more words rest spaces : Bytes}

theorem forall_blank_iff : (∀ b ∈ spaces, isBlank b = true) ↔ ∀ b ∈ spaces, b ∈ whitespace :=
  forall₂_congr fun _ _ => isBlank_iff

theorem startsFree_iff_ended : startsFree rest = true ↔ ∀ b, rest.head? = some b → ¬ IsIdentifierByte b := by
  simp only [startsFree_iff, ← isWord_iff, Bool.not_eq_true]

theorem keywordsLength_append {k : Bytes} (hk : k ∈ keywords) (free : startsFree rest = true) :
    keywordsLength (k ++ rest) = k.length + leadLength rest := by
  rw [keywordsLength_of_some (find_of_keyword hk free), List.drop_left, Nat.add_assoc]
  rfl

/-- Blanks and words at the front of a text are taken, whatever else is. -/
theorem Words.length_le (h : Words rest words) (blank : ∀ b ∈ spaces, isBlank b = true) :
    spaces.length + words.length ≤ leadLength (spaces ++ (words ++ rest)) := by
  induction h generalizing spaces with
  | nil =>
    obtain ⟨tail, hrest, -, hmore, hstop⟩ := exists_blanks rest
    have hblank : ∀ b ∈ spaces ++ rest.takeWhile isBlank, isBlank b = true :=
      List.forall_mem_append.mpr ⟨blank, hmore⟩
    have hlead := leadLength_of_blanks hblank hstop
    rw [List.append_assoc, ← hrest, List.length_append] at hlead
    rw [List.nil_append, hlead, List.length_nil]
    omega
  | @word k between others known ended space behind ih =>
    have hk : k ∈ keywords := keywords_eq ▸ known
    have hstop : ∀ b, (k ++ (between ++ (others ++ rest))).head? = some b → isBlank b = false :=
      fun _ hb => isBlank_of_isWord (isWord_of_head? hk hb)
    have hlead := leadLength_of_blanks blank hstop
    rw [keywordsLength_append hk (startsFree_iff_ended.mpr ended)] at hlead
    have hothers := ih (forall_blank_iff.mpr space)
    simp only [List.append_assoc, hlead, List.length_append]
    omega

theorem IsLead.length_le (h : IsLead front rest) : front.length ≤ leadLength (front ++ rest) := by
  obtain ⟨spaces, words, rfl, hspaces, hwords⟩ := h
  rw [List.append_assoc, List.length_append]
  exact hwords.length_le (forall_blank_iff.mpr hspaces)

/-- Spaced keywords may stand in front of other words. -/
theorem Spaced.append_words (h : Spaced front) (hwords : Words rest words) : Words rest (front ++ words) := by
  induction h with
  | nil => exact hwords
  | @keyword k blanks others known apart blank _ ih =>
    have hended := startsFree_iff_ended.mp (@startsFree_of_blanks blanks ((others ++ words) ++ rest) apart blank)
    rw [List.append_assoc, List.append_assoc]
    exact .word (keywords_eq ▸ known) hended (forall_blank_iff.mp blank) ih

/-- What the scan takes may stand in front of what it leaves. -/
theorem exists_lead (text : Bytes) :
    ∃ front rest, text = front ++ rest ∧ leadLength text = front.length ∧ IsLead front rest := by
  obtain ⟨body, hsplit, -, hblank, hstop⟩ := exists_blanks text
  generalize text.takeWhile isBlank = blanks at hsplit hblank
  subst hsplit
  have hspace := forall_blank_iff.mp hblank
  rw [leadLength_of_blanks hblank hstop]
  rcases keywordsLength_cases body with
    ⟨front, rest, rfl, hfront, hlength⟩ | ⟨front, k, rest, rfl, hfront, hk, hfree, -, hlength⟩
  · have hwords := hfront.append_words (@Words.nil rest)
    rw [List.append_nil] at hwords
    exact ⟨blanks ++ front, rest, by simp, by simp [hlength], blanks, front, rfl, hspace, hwords⟩
  · have hlast := @Words.word rest k [] [] (keywords_eq ▸ hk) (startsFree_iff_ended.mp hfree) (by simp) .nil
    rw [List.append_nil, List.append_nil] at hlast
    exact ⟨blanks ++ (front ++ k), rest, by simp, by simp [hlength], blanks, front ++ k, rfl, hspace,
      hfront.append_words hlast⟩

theorem Words.append (h : Words (more ++ rest) words) (hmore : IsLead more rest) : IsLead (words ++ more) rest := by
  induction h with
  | nil => exact hmore
  | @word k spaces others known ended space _ ih =>
    obtain ⟨between, behind, heq, hbetween, hbehind⟩ := ih
    have hsplit : k ++ (spaces ++ others) ++ more = k ++ ((spaces ++ between) ++ behind) := by
      simp only [List.append_assoc, ← heq]
    have hended : ∀ b, ((spaces ++ between) ++ (behind ++ rest)).head? = some b → ¬ IsIdentifierByte b := by
      rwa [← List.append_assoc others, heq, List.append_assoc between, ← List.append_assoc spaces] at ended
    have hspace : ∀ b ∈ spaces ++ between, b ∈ whitespace := List.forall_mem_append.mpr ⟨space, hbetween⟩
    exact ⟨[], _, hsplit, by simp, .word known hended hspace hbehind⟩

/-- Two fronts in a row are one front. -/
theorem IsLead.append (h : IsLead front (more ++ rest)) (hmore : IsLead more rest) : IsLead (front ++ more) rest := by
  obtain ⟨spaces, words, rfl, hspaces, hwords⟩ := h
  obtain ⟨between, behind, heq, hbetween, hbehind⟩ := hwords.append hmore
  refine ⟨spaces ++ between, behind, ?_, List.forall_mem_append.mpr ⟨hspaces, hbetween⟩, hbehind⟩
  rw [List.append_assoc, heq, List.append_assoc]

end LeadScan

/-- Matching the pattern never fails. Among all fronts of a text that are whitespace and whole words, each with any
whitespace behind it, the longest is taken, and nothing is left to take in what follows. -/
theorem lead_longest (text : Bytes) :
    LeadScan.pattern.length? text = some (leadLength text) ∧
      IsGreatest {n | n ≤ text.length ∧ LeadScan.IsLead (text.take n) (text.drop n)} (leadLength text) ∧
      leadLength (text.drop (leadLength text)) = 0 := by
  obtain ⟨front, rest, hsplit, hlength, hlead⟩ := LeadScan.exists_lead text
  have htake : text.take (leadLength text) = front := by rw [hlength, hsplit, List.take_left]
  have hdrop : text.drop (leadLength text) = rest := by rw [hlength, hsplit, List.drop_left]
  refine ⟨LeadScan.length?_pattern text, ⟨⟨leadLength_le text, by rwa [htake, hdrop]⟩, ?_⟩, ?_⟩
  · rintro n ⟨hn, hfront⟩
    have hle := hfront.length_le
    rwa [List.take_append_drop, List.length_take, Nat.min_eq_left hn] at hle
  · -- a front of what is left would make the front of the whole text longer
    obtain ⟨more, last, rfl, hmore, hnext⟩ := LeadScan.exists_lead rest
    have hle := (hlead.append hnext).length_le
    rw [List.append_assoc, ← hsplit, hlength, List.length_append] at hle
    rw [hdrop, hmore]
    omega

/-- A name that starts with a keyword is no keyword. -/
example : leadLength (Bytes.ofText "static\tconst extern_name") = 13 := by cbv

end ThreadLocal
