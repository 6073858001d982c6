import ThreadLocal.Proofs.Text.Lead
import ThreadLocal.Text.Pattern

/-!
The pattern for the front of a declaration. It matches every text, and what the first way to match takes is what the
scan takes.
-/

namespace ThreadLocal
namespace Pattern

variable {step : Point → List Point} {first second body : Pattern} {p q : Point}

/-- If the rest of a sequence matches everywhere, there is no way back into its first part. -/
theorem first?_sequence (h : ∀ p, ∃ q, second.first? p = some q) :
    (sequence first second).first? p = (first.first? p).bind second.first? := by
  rw [first?, ends_sequence, List.head?_flatMap]
  cases hends : first.ends p with
  | nil => simp [first?, hends]
  | cons q others =>
    obtain ⟨r, hr⟩ := h q
    rw [first?] at hr
    simp [first?, hends, hr]

theorem exists_head?_repeats (step : Point → List Point) (p : Point) : ∃ q, (repeats step p).head? = some q := by
  rw [repeats_eq]
  cases hwalks : (step p).flatMap fun q => if q.rest.length < p.rest.length then repeats step q else [] with
  | nil => exact ⟨p, rfl⟩
  | cons q others => exact ⟨q, rfl⟩

theorem exists_first?_repeated (body : Pattern) (p : Point) : ∃ q, (repeated body).first? p = some q :=
  exists_head?_repeats body.ends p

theorem first?_repeated_of_none (h : body.first? p = none) : (repeated body).first? p = some p := by
  have hends : body.ends p = [] := List.head?_eq_none_iff.mp h
  rw [first?, ends_repeated, repeats_eq, hends]
  rfl

theorem first?_repeated_of_some (h : body.first? p = some q) (shorter : q.rest.length < p.rest.length) :
    (repeated body).first? p = (repeated body).first? q := by
  obtain ⟨others, hends⟩ := List.head?_eq_some_iff.mp h
  obtain ⟨r, hr⟩ := exists_head?_repeats body.ends q
  rw [first?, first?, ends_repeated, ends_repeated, repeats_eq, hends, List.flatMap_cons, if_pos shorter,
    List.append_assoc, List.head?_append, hr]
  rfl

/-- Any number of bytes of a class are taken as far as the class goes. -/
theorem first?_repeated_byte (accepts : UInt8 → Bool) (before : Option UInt8) (text : Bytes) :
    ∃ last, (repeated (byte accepts)).first? ⟨before, text⟩ =
      some ⟨last, text.drop (text.takeWhile accepts).length⟩ := by
  induction text generalizing before with
  | nil => exact ⟨before, first?_repeated_of_none rfl⟩
  | cons b text ih =>
    by_cases h : accepts b = true
    · obtain ⟨last, hlast⟩ := ih (some b)
      have hone : (byte accepts).first? ⟨before, b :: text⟩ = some ⟨some b, text⟩ := by simp [first?, h]
      refine ⟨last, ?_⟩
      rw [first?_repeated_of_some hone (Nat.lt_succ_self _), hlast, List.takeWhile_cons_of_pos h]
      rfl
    · have hnone : (byte accepts).first? ⟨before, b :: text⟩ = none := by simp [first?, h]
      refine ⟨before, ?_⟩
      rw [first?_repeated_of_none hnone, List.takeWhile_cons_of_neg h]
      rfl

end Pattern

namespace LeadScan

/-- Any number of blanks. -/
def blanks : Pattern :=
  .repeated (.byte isBlank)

/-- One of the keywords, as a whole word. -/
def keyword : Pattern :=
  .sequence (.oneOf keywords) (.border isWord)

/-- Blanks, and then keywords with any number of blanks behind each. -/
def pattern : Pattern :=
  .sequence blanks (.repeated (.sequence keyword blanks))

theorem getLast?_keyword : ∀ k ∈ keywords, ∃ b, k.getLast? = some b ∧ isWord b = true := by
  intro k hk
  obtain ⟨front, b, rfl⟩ := (List.eq_nil_or_concat k).resolve_left (keywords_ne_nil k hk)
  exact ⟨b, by simp, isWord_of_keyword _ hk b (by simp)⟩

/-- Behind a word there is a border just where the scan sees the end of the word. -/
theorem ends_wholeWord {k : Bytes} {b : UInt8} (hlast : k.getLast? = some b) (hword : isWord b = true)
    (p : Pattern.Point) :
    ((Pattern.word k).ends p).flatMap (Pattern.border isWord).ends =
      if startsWith p.rest k then [⟨k.getLast?, p.rest.drop k.length⟩] else [] := by
  have hborder : ∀ text : Bytes, (Option.any isWord (some b) ≠ text.head?.any isWord) ↔ startsFree text = true := by
    intro text
    cases text <;> simp [startsFree, hword]
  by_cases hprefix : k.isPrefixOf p.rest = true
  · simp [Pattern.ends_word, Pattern.ends_border, startsWith, hprefix, hlast, ← hborder]
  · simp [Pattern.ends_word, startsWith, hprefix]

theorem ends_wholeWords {words : List Bytes} (h : ∀ k ∈ words, ∃ b, k.getLast? = some b ∧ isWord b = true)
    (p : Pattern.Point) :
    ((Pattern.oneOf words).ends p).flatMap (Pattern.border isWord).ends =
      (words.filter (startsWith p.rest)).map fun k => ⟨k.getLast?, p.rest.drop k.length⟩ := by
  induction words with
  | nil => rfl
  | cons k words ih =>
    obtain ⟨b, hlast, hword⟩ := h k List.mem_cons_self
    have hothers := ih fun k hk => h k (List.mem_cons_of_mem _ hk)
    rw [Pattern.ends_oneOf_cons, List.flatMap_append, hothers, ends_wholeWord hlast hword]
    by_cases hstarts : startsWith p.rest k = true
    · rw [if_pos hstarts, List.filter_cons_of_pos hstarts]
      rfl
    · rw [if_neg hstarts, List.filter_cons_of_neg hstarts]
      rfl

/-- The keyword that the pattern takes is the one that the scan finds. -/
theorem first?_keyword (p : Pattern.Point) :
    keyword.first? p =
      (keywords.find? (startsWith p.rest)).map fun k => ⟨k.getLast?, p.rest.drop k.length⟩ := by
  rw [Pattern.first?, keyword, Pattern.ends_sequence, ends_wholeWords getLast?_keyword, List.head?_map,
    List.head?_filter]

theorem exists_first?_blanks (p : Pattern.Point) : ∃ q, blanks.first? p = some q :=
  Pattern.exists_first?_repeated _ p

/-- A keyword with its blanks is taken at once, since nothing behind it fails and asks for another way. -/
theorem first?_keyword_blanks (p : Pattern.Point) :
    (Pattern.sequence keyword blanks).first? p =
      (keywords.find? (startsWith p.rest)).bind fun k => blanks.first? ⟨k.getLast?, p.rest.drop k.length⟩ := by
  rw [Pattern.first?_sequence exists_first?_blanks, first?_keyword, Option.bind_map]
  rfl

theorem first?_keywords (before : Option UInt8) (text : Bytes) :
    ∃ last, (Pattern.repeated (.sequence keyword blanks)).first? ⟨before, text⟩ =
      some ⟨last, text.drop (keywordsLength text)⟩ := by
  induction text using keywordsLength.induct generalizing before with
  | case1 text hnone =>
    have hbody : (Pattern.sequence keyword blanks).first? ⟨before, text⟩ = none := by
      rw [first?_keyword_blanks, hnone, Option.bind_none]
    exact ⟨before, by rw [Pattern.first?_repeated_of_none hbody, keywordsLength_of_none hnone, List.drop_zero]⟩
  | case2 text k hfind rest spaces ih =>
    obtain ⟨middle, hmiddle⟩ := Pattern.first?_repeated_byte isBlank k.getLast? rest
    have hbody : (Pattern.sequence keyword blanks).first? ⟨before, text⟩ = some ⟨middle, rest.drop spaces.length⟩ := by
      rw [first?_keyword_blanks, hfind, Option.bind_some]
      exact hmiddle
    have hshorter : (rest.drop spaces.length).length < text.length := by
      have hk := length_pos_of_find hfind
      simp only [rest, List.length_drop]
      omega
    obtain ⟨last, hlast⟩ := ih middle
    refine ⟨last, ?_⟩
    rw [Pattern.first?_repeated_of_some hbody hshorter, hlast, keywordsLength_of_some hfind, List.drop_drop,
      List.drop_drop, Nat.add_assoc]

/-- The pattern matches at the front of every text, and takes what the scan takes. -/
theorem length?_pattern (text : Bytes) : pattern.length? text = some (leadLength text) := by
  obtain ⟨before, hblanks⟩ := Pattern.first?_repeated_byte isBlank none text
  obtain ⟨last, hlast⟩ := first?_keywords before (text.drop (text.takeWhile isBlank).length)
  have hfirst : pattern.first? ⟨none, text⟩ = some ⟨last, text.drop (leadLength text)⟩ := by
    rw [pattern, Pattern.first?_sequence (Pattern.exists_first?_repeated _)]
    rw [List.drop_drop] at hlast
    exact Option.bind_eq_some_iff.mpr ⟨_, hblanks, hlast⟩
  rw [Pattern.length?, hfirst, Option.map_some, List.length_drop, Nat.sub_sub_self (leadLength_le text)]

end LeadScan
end ThreadLocal
