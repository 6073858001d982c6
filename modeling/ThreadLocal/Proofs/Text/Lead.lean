import Mathlib.Data.List.TakeWhile
import ThreadLocal.Analysis
import ThreadLocal.Edit.Patch

/-!
What stands before the place at which the scan of a declaration's front stops: nothing, a blank, or a keyword that no
blank sets apart from what follows it. In the last case a word put in there becomes part of the keyword.
-/

namespace ThreadLocal
namespace LeadScan

/-- Keywords with blanks behind each of them. -/
inductive Spaced : Bytes → Prop where
  | nil : Spaced []
  | keyword {k blanks rest : Bytes} (known : k ∈ keywords) (apart : blanks ≠ [])
    (blank : ∀ b ∈ blanks, isBlank b = true) (others : Spaced rest) :
    Spaced (k ++ (blanks ++ rest))

theorem isBlank_of_isWord {b : UInt8} (h : isWord b = true) : isBlank b = false := by
  simp only [isWord, isBlank, Bool.or_eq_true, Bool.and_eq_true, decide_eq_true_eq, Bool.or_eq_false_iff,
    Bool.and_eq_false_iff, decide_eq_false_iff_not, UInt8.le_iff_toNat_le, ← UInt8.toNat_inj] at h ⊢
  simp at h ⊢
  omega

theorem isWord_of_isBlank {b : UInt8} (h : isBlank b = true) : isWord b = false := by
  cases hword : isWord b with
  | false => rfl
  | true => exact absurd h (by simp [isBlank_of_isWord hword])

theorem isWord_of_keyword : ∀ k ∈ keywords, ∀ b ∈ k, isWord b = true := by decide +kernel

theorem keyword_eq_of_starts : ∀ k ∈ keywords, ∀ k' ∈ keywords, k <+: k' → k = k' := by decide

variable {text front k blanks rest : Bytes}

theorem isWord_of_head? (hk : k ∈ keywords) {b : UInt8} (hb : (k ++ rest).head? = some b) : isWord b = true := by
  cases k with
  | nil => exact absurd rfl (keywords_ne_nil [] hk)
  | cons c k =>
    obtain rfl : c = b := by simpa using hb
    exact isWord_of_keyword _ hk c List.mem_cons_self

theorem startsFree_iff : startsFree text = true ↔ ∀ b, text.head? = some b → isWord b = false := by
  cases text <;> simp [startsFree]

/-- A text that starts with no identifier byte starts with no keyword. -/
theorem find_of_startsFree (free : startsFree text = true) : keywords.find? (startsWith text) = none := by
  rw [List.find?_eq_none]
  intro k hk hstarts
  simp only [startsWith, Bool.and_eq_true, List.isPrefixOf_iff_prefix] at hstarts
  obtain ⟨⟨rest, rfl⟩, -⟩ := hstarts
  cases k with
  | nil => exact keywords_ne_nil [] hk rfl
  | cons b k =>
    have hword := isWord_of_keyword _ hk b List.mem_cons_self
    have hfree := startsFree_iff.mp free b rfl
    simp [hword] at hfree

/-- No keyword starts another one, so the one that a text starts with is found. -/
theorem find_of_keyword (hk : k ∈ keywords) (free : startsFree rest = true) :
    keywords.find? (startsWith (k ++ rest)) = some k := by
  have hstarts : startsWith (k ++ rest) k = true := by
    simp [startsWith, free]
  cases hfind : keywords.find? (startsWith (k ++ rest)) with
  | none => exact absurd hstarts (List.find?_eq_none.mp hfind k hk)
  | some k' =>
    have hk' := List.mem_of_find?_eq_some hfind
    have hstarts' := List.find?_some hfind
    simp only [startsWith, Bool.and_eq_true, List.isPrefixOf_iff_prefix] at hstarts'
    rcases List.prefix_or_prefix_of_prefix hstarts'.1 (List.prefix_append k rest) with h | h
    · rw [keyword_eq_of_starts k' hk' k hk h]
    · rw [keyword_eq_of_starts k hk k' hk' h]

theorem keywordsLength_of_startsFree (free : startsFree text = true) : keywordsLength text = 0 :=
  keywordsLength_of_none (find_of_startsFree free)

/-- A text is the blanks in front and what starts with no blank. -/
theorem exists_blanks (text : Bytes) : ∃ rest, text = text.takeWhile isBlank ++ rest ∧
    text.drop (text.takeWhile isBlank).length = rest ∧ (∀ b ∈ text.takeWhile isBlank, isBlank b = true) ∧
    ∀ b, rest.head? = some b → isBlank b = false := by
  have hsplit := @List.takeWhile_append_dropWhile _ isBlank text
  refine ⟨text.dropWhile isBlank, hsplit.symm, ?_, fun b hb => List.mem_takeWhile_imp hb, ?_⟩
  · have hdrop := congrArg (List.drop (text.takeWhile isBlank).length) hsplit
    rwa [List.drop_left, eq_comm] at hdrop
  · intro b hb
    have hhead := List.head?_dropWhile_not isBlank text
    rwa [hb] at hhead

theorem takeWhile_blanks (blank : ∀ b ∈ blanks, isBlank b = true)
    (stop : ∀ b, rest.head? = some b → isBlank b = false) : (blanks ++ rest).takeWhile isBlank = blanks := by
  have hrest : rest.takeWhile isBlank = [] := by
    cases rest with
    | nil => rfl
    | cons b rest => simp [stop b rfl]
  rw [List.takeWhile_append_of_pos blank, hrest, List.append_nil]

theorem keywordsLength_of_keyword (hk : k ∈ keywords) (free : startsFree (blanks ++ rest) = true)
    (blank : ∀ b ∈ blanks, isBlank b = true) (stop : ∀ b, rest.head? = some b → isBlank b = false) :
    keywordsLength (k ++ (blanks ++ rest)) = k.length + blanks.length + keywordsLength rest := by
  rw [keywordsLength_of_some (find_of_keyword hk free)]
  simp only [List.drop_left, takeWhile_blanks blank stop]

theorem startsFree_of_blanks (apart : blanks ≠ []) (blank : ∀ b ∈ blanks, isBlank b = true) :
    startsFree (blanks ++ rest) = true := by
  rw [startsFree_iff]
  intro b hb
  cases blanks with
  | nil => exact absurd rfl apart
  | cons first others =>
    obtain rfl : first = b := by simpa using hb
    exact isWord_of_isBlank (blank first List.mem_cons_self)

namespace Spaced

theorem head_isWord (h : Spaced front) (hk : k ∈ keywords) {b : UInt8}
    (hb : (front ++ (k ++ rest)).head? = some b) : isWord b = true := by
  cases h with
  | nil => exact isWord_of_head? hk hb
  | keyword known =>
    rw [List.append_assoc] at hb
    exact isWord_of_head? known hb

/-- Spaced keywords and another one with no blank behind it are taken as a whole, and no more than they. -/
theorem keywordsLength_eq (h : Spaced front) (hk : k ∈ keywords) (free : startsFree rest = true)
    (stop : ∀ b, rest.head? = some b → isBlank b = false) :
    keywordsLength (front ++ (k ++ rest)) = front.length + k.length := by
  induction h with
  | nil =>
    have hlength := @keywordsLength_of_keyword k [] rest hk free (by simp) stop
    rw [keywordsLength_of_startsFree free] at hlength
    simpa using hlength
  | @keyword k' blanks others known apart blank hothers ih =>
    have hstop : ∀ b, (others ++ (k ++ rest)).head? = some b → isBlank b = false := by
      intro b hb
      exact isBlank_of_isWord (hothers.head_isWord hk hb)
    have hlength := keywordsLength_of_keyword known (startsFree_of_blanks apart blank) blank hstop
    rw [List.append_assoc, List.append_assoc, hlength, ih]
    simp only [List.length_append]
    omega

/-- The last byte of blanks and spaced keywords is a blank. -/
theorem last_isBlank (h : Spaced front) (blank : ∀ b ∈ blanks, isBlank b = true) {b : UInt8}
    (hb : (blanks ++ front).getLast? = some b) : isBlank b = true := by
  induction h generalizing blanks with
  | nil =>
    rw [List.append_nil] at hb
    exact blank b (List.mem_of_getLast? hb)
  | @keyword k' behind others known apart hbehind _ ih =>
    cases hlast : (behind ++ others).getLast? with
    | none =>
      have hnil := List.getLast?_eq_none_iff.mp hlast
      exact absurd (List.append_eq_nil_iff.mp hnil).1 apart
    | some c =>
      rw [← List.append_assoc, List.getLast?_append, hlast, Option.some_or] at hb
      exact ih hbehind (hlast.trans hb)

end Spaced

/-- What the scan takes: keywords with blanks behind each, and perhaps one with no blank behind it. -/
theorem keywordsLength_cases (text : Bytes) :
    (∃ front rest, text = front ++ rest ∧ Spaced front ∧ keywordsLength text = front.length) ∨
    ∃ front k rest, text = front ++ (k ++ rest) ∧ Spaced front ∧ k ∈ keywords ∧ startsFree rest = true ∧
      (∀ b, rest.head? = some b → isBlank b = false) ∧ keywordsLength text = front.length + k.length := by
  induction text using keywordsLength.induct with
  | case1 text hnone => exact .inl ⟨[], text, rfl, .nil, keywordsLength_of_none hnone⟩
  | case2 text k hfind rest blanks ih =>
    have hk := List.mem_of_find?_eq_some hfind
    have hstarts := List.find?_some hfind
    simp only [startsWith, Bool.and_eq_true, List.isPrefixOf_iff_prefix] at hstarts
    obtain ⟨⟨behind, rfl⟩, hfree⟩ := hstarts
    obtain ⟨tail, hsplit, hdrop, hblank, hstop⟩ := exists_blanks behind
    have htail : rest.drop blanks.length = tail := by
      simp only [blanks, rest, List.drop_left, hdrop]
    rw [htail] at ih
    rw [List.drop_left] at hfree
    generalize behind.takeWhile isBlank = spaces at hsplit hblank
    subst hsplit
    have hlength := keywordsLength_of_keyword hk hfree hblank hstop
    by_cases hnone : spaces = []
    · subst hnone
      rw [List.nil_append] at hfree
      refine .inr ⟨[], k, tail, rfl, .nil, hk, hfree, hstop, ?_⟩
      simpa [keywordsLength_of_startsFree hfree] using hlength
    · rcases ih with ⟨front, left, rfl, hfront, hih⟩ | ⟨front, k', left, rfl, hfront, hk', hfree', hstop', hih⟩
      · refine .inl ⟨_, left, by simp, .keyword hk hnone hblank hfront, ?_⟩
        simp only [hlength, hih, List.length_append]
        omega
      · refine .inr ⟨_, k', left, by simp, .keyword hk hnone hblank hfront, hk', hfree', hstop', ?_⟩
        simp only [hlength, hih, List.length_append]
        omega

end LeadScan

theorem leadLength_of_blanks {blanks body : Bytes} (blank : ∀ b ∈ blanks, LeadScan.isBlank b = true)
    (stop : ∀ b, body.head? = some b → LeadScan.isBlank b = false) :
    leadLength (blanks ++ body) = blanks.length + LeadScan.keywordsLength body := by
  simp only [leadLength, LeadScan.takeWhile_blanks blank stop, List.drop_left]

/-- The scan stops right behind a keyword that is followed at once by a byte which is neither blank nor an identifier
byte. -/
theorem leadLength_before_separator {blanks front k rest : Bytes} {c : UInt8}
    (blank : ∀ b ∈ blanks, LeadScan.isBlank b = true) (spaced : LeadScan.Spaced front) (known : k ∈ LeadScan.keywords)
    (apart : LeadScan.isBlank c = false) (free : LeadScan.isWord c = false) :
    leadLength (blanks ++ (front ++ (k ++ c :: rest))) = blanks.length + (front.length + k.length) := by
  have hstart : ∀ b, (front ++ (k ++ c :: rest)).head? = some b → LeadScan.isBlank b = false := by
    intro b hb
    exact LeadScan.isBlank_of_isWord (spaced.head_isWord known hb)
  have hfollow : LeadScan.startsFree (c :: rest) = true := LeadScan.startsFree_iff.mpr (by simp [free])
  have hstop : ∀ b, (c :: rest).head? = some b → LeadScan.isBlank b = false := by simp [apart]
  rw [leadLength_of_blanks blank hstart, spaced.keywordsLength_eq known hfollow hstop]

/-- The byte before the place where the scan stops, if it stops neither at the start nor at the end, is an identifier
byte just when the text has blanks, spaced keywords and a keyword that is followed at once by a byte which is neither
blank nor an identifier byte. A word put in behind that keyword is joined to it. -/
theorem keyword_joined_iff (text : Bytes) :
    (0 < leadLength text ∧ leadLength text < text.length ∧
      ∃ b, text[leadLength text - 1]? = some b ∧ LeadScan.isWord b = true) ↔
    ∃ blanks front k c rest, text = blanks ++ (front ++ (k ++ c :: rest)) ∧
      (∀ b ∈ blanks, LeadScan.isBlank b = true) ∧ LeadScan.Spaced front ∧ k ∈ LeadScan.keywords ∧
      LeadScan.isBlank c = false ∧ LeadScan.isWord c = false := by
  constructor
  · rintro ⟨hpos, hlt, b, hb, hword⟩
    obtain ⟨body, hsplit, -, hblank, hstop⟩ := LeadScan.exists_blanks text
    generalize text.takeWhile LeadScan.isBlank = blanks at hsplit hblank
    have hlast : (text.take (leadLength text)).getLast? = some b := by
      rw [List.getLast?_take, if_neg (Nat.pos_iff_ne_zero.mp hpos), hb, Option.some_or]
    subst hsplit
    have hlead := leadLength_of_blanks hblank hstop
    rcases LeadScan.keywordsLength_cases body with
      ⟨front, rest, rfl, hfront, hlength⟩ | ⟨front, k, rest, rfl, hfront, hk, hfree, hstop', hlength⟩
    · -- what is taken ends with a blank
      have htake : (blanks ++ (front ++ rest)).take (leadLength (blanks ++ (front ++ rest))) = blanks ++ front := by
        rw [hlead, hlength, ← List.length_append, ← List.append_assoc, List.take_left]
      rw [htake] at hlast
      have hnot := LeadScan.isWord_of_isBlank (hfront.last_isBlank hblank hlast)
      simp [hword] at hnot
    · cases rest with
      | nil =>
        simp only [hlead, hlength, List.length_append, List.length_nil] at hlt
        omega
      | cons c rest =>
        exact ⟨blanks, front, k, c, rest, rfl, hblank, hfront, hk, hstop' c rfl, LeadScan.startsFree_iff.mp hfree c rfl⟩
  · rintro ⟨blanks, front, k, c, rest, rfl, hblank, hfront, hk, hapart, hfree⟩
    have hlead := @leadLength_before_separator blanks front k rest c hblank hfront hk hapart hfree
    obtain ⟨k, b, rfl⟩ := (List.eq_nil_or_concat k).resolve_left (LeadScan.keywords_ne_nil k hk)
    have hlast : (blanks ++ (front ++ (k.concat b ++ c :: rest))) = (blanks ++ front ++ k) ++ b :: c :: rest := by simp
    have hplace : leadLength (blanks ++ (front ++ (k.concat b ++ c :: rest))) =
        (blanks ++ front ++ k).length + 1 := by
      simp only [hlead, List.length_append, List.length_concat]
      omega
    rw [hplace, hlast]
    refine ⟨Nat.succ_pos _, ?_, b, by simp, LeadScan.isWord_of_keyword _ hk b (by simp)⟩
    simp only [List.length_append, List.length_cons]
    omega

/-- A comment right behind a keyword: the word for the variable becomes the end of another word. -/
theorem keyword_joined_before_comment :
    let text := Bytes.ofText "static/*c*/int x;"
    leadLength text = 6 ∧ leadLength text < text.length ∧
      (∃ b, text[leadLength text - 1]? = some b ∧ LeadScan.isWord b = true) ∧
      patch text [⟨leadLength text, 0, threadKeyword⟩] = .ok (Bytes.ofText "static__thread /*c*/int x;") := by
  intro text
  have hlead : leadLength text = 6 := by decide +kernel
  rw [hlead]
  refine ⟨rfl, by decide +kernel, ⟨99, by decide +kernel, by decide⟩, by decide +kernel⟩

end ThreadLocal
