import Mathlib.Data.List.Basic
import ThreadLocal.Json.Scan
import ThreadLocal.Json.Writer

/-!
Strings: what can stand between quotes, and the characters that it stands for. Such a text is read as its characters,
no other text is read, and what is written for a string is such a text.
-/

namespace ThreadLocal
namespace Json

/-- A reader gives a value and leaves the characters `rest`. -/
def Yields {α : Type} {s : List Char} (answer : Except Trouble (α × Left s)) (value : α)
    (rest : List Char) : Prop :=
  ∃ left, answer = .ok (value, left) ∧ left.1 = rest

section

variable {α : Type} {s rest : List Char} {value : α}

theorem not_yields_error (t : Trouble) : ¬ Yields (.error t : Except Trouble (α × Left s)) value rest := by
  rintro ⟨left, h, -⟩
  cases h

theorem yields_ok_iff {found : α} {left : Left s} :
    Yields (.ok (found, left)) value rest ↔ found = value ∧ left.1 = rest := by
  constructor
  · intro ⟨left', h, hrest⟩
    cases h
    exact ⟨rfl, hrest⟩
  · rintro ⟨rfl, hrest⟩
    exact ⟨left, rfl, hrest⟩

/-- What is read is known. -/
theorem exists_yields_ok_iff {found : α} {left : Left s} {P : α → List Char → Prop} :
    (∃ value rest, Yields (.ok (found, left)) value rest ∧ P value rest) ↔ P found left.1 := by
  simp only [yields_ok_iff]
  constructor
  · rintro ⟨value, rest, ⟨rfl, rfl⟩, h⟩
    exact h
  · intro h
    exact ⟨_, _, ⟨rfl, rfl⟩, h⟩

end

/-- The escape of a unit of 16 bits. -/
inductive UnitEscape : List Char → Nat → Prop where
  | mk {a b c d : Char} {n : Nat} (h : hexUnit? a b c d = some n) : UnitEscape ['\\', 'u', a, b, c, d] n

/-- The character of two surrogates. -/
def pairChar (high low : Nat) : Char :=
  Char.ofNat (0x10000 + (high - 0xd800) * 0x400 + (low - 0xdc00))

/-- What stands between the quotes of a string, and the characters that it stands for. Two units that make a pair are
never taken apart. -/
inductive Characters : List Char → List Char → Prop where
  | none : Characters [] []
  | plain {c : Char} {text cs : List Char} (quote : c ≠ '"') (slash : c ≠ '\\') (control : 0x20 ≤ c.toNat)
      (others : Characters text cs) : Characters (c :: text) (c :: cs)
  | escaped {e c : Char} {text cs : List Char} (h : simpleEscape? e = some c) (others : Characters text cs) :
    Characters ('\\' :: e :: text) (c :: cs)
  | unit {u text cs : List Char} {n : Nat} (h : UnitEscape u n)
      (alone : isHigh n = true → ∀ l low, UnitEscape l low → l <+: text → isLow low = false)
      (others : Characters text cs) : Characters (u ++ text) (unitChar n :: cs)
  | pair {u l text cs : List Char} {high low : Nat} (h : UnitEscape u high) (upper : isHigh high = true)
      (h' : UnitEscape l low) (lower : isLow low = true) (others : Characters text cs) :
    Characters (u ++ (l ++ text)) (pairChar high low :: cs)

/-- An escape of a unit is read alone, or with the escape behind it. -/
theorem unicodeEscape_cases {s : List Char} {c : Char} {taken : Nat} (h : unicodeEscape s = .ok (c, taken)) :
    ∃ u n tail, '\\' :: 'u' :: s = u ++ tail ∧ UnitEscape u n ∧
      (c = unitChar n ∧ s.drop taken = tail ∧ (isHigh n = true → ∀ l low more, UnitEscape l low →
          tail = l ++ more → more ≠ [] → isLow low = false) ∨
        ∃ l low more, c = pairChar n low ∧
          isHigh n = true ∧ UnitEscape l low ∧ isLow low = true ∧ tail = l ++ more ∧ s.drop taken = more) := by
  unfold unicodeEscape at h
  split at h
  swap
  · cases h
  next a b c' d e rest =>
  split at h
  · cases h
  next high hhigh =>
  refine ⟨['\\', 'u', a, b, c', d], high, e :: rest, rfl, .mk hhigh, ?_⟩
  split at h
  next a' b' c'' d' f more hsurrogate =>
    split at h
    · cases h
    next low hlow =>
    split at h
    next hpair =>
      obtain ⟨rfl, rfl⟩ := Prod.mk.inj (Except.ok.inj h)
      exact .inr ⟨['\\', 'u', a', b', c'', d'], low, f :: more, rfl, hsurrogate, .mk hlow, hpair, rfl, rfl⟩
    next hsingle =>
      obtain ⟨rfl, rfl⟩ := Prod.mk.inj (Except.ok.inj h)
      refine .inl ⟨rfl, rfl, ?_⟩
      rintro - l low' more' ⟨hl⟩ htail -
      simp only [List.cons_append, List.nil_append, List.cons.injEq] at htail
      obtain ⟨-, -, rfl, rfl, rfl, rfl, -⟩ := htail
      cases hl.symm.trans hlow
      simpa using hsingle
  next hother =>
    cases h
    refine .inl ⟨rfl, rfl, ?_⟩
    rintro hsurrogate l low more ⟨hl⟩ htail hmore
    obtain ⟨f, more', rfl⟩ := List.exists_cons_of_ne_nil hmore
    simp only [List.cons_append, List.nil_append, List.cons.injEq] at htail
    exact absurd htail.2 (hother _ _ _ _ _ _ hsurrogate htail.1)

/-- What is read up to a quote are the characters of a string. -/
theorem readCharacters_sound {s cs rest : List Char} (h : Yields (readCharacters s) cs rest) :
    ∃ text, s = text ++ '"' :: rest ∧ Characters text cs := by
  fun_induction readCharacters s generalizing cs rest with
  | case1 => exact absurd h (not_yields_error _)
  | case2 more =>
    obtain ⟨rfl, rfl⟩ := yields_ok_iff.mp h
    exact ⟨[], rfl, .none⟩
  | case3 => exact absurd h (not_yields_error _)
  | case4 => exact absurd h (not_yields_error _)
  | case5 => exact absurd h (not_yields_error _)
  | case6 more c taken hunit cs' left hread ih =>
    obtain ⟨rfl, hleft⟩ := yields_ok_iff.mp h
    obtain ⟨text, htext, hcs⟩ := ih ⟨left, hread, hleft⟩
    obtain ⟨u, n, tail, hmore, hu, ⟨hc, htail, halone⟩ | ⟨l, low, tail', hc, hhigh, hl, hlow, htail, htail'⟩⟩ :=
      unicodeEscape_cases hunit
    · have hrest : tail = text ++ '"' :: rest := htail.symm.trans htext
      refine ⟨u ++ text, by rw [hmore, hrest, List.append_assoc], hc ▸ .unit hu ?_ hcs⟩
      rintro hhigh l low hl ⟨text', rfl⟩
      exact halone hhigh l low (text' ++ '"' :: rest) hl (by rw [hrest, List.append_assoc]) (by simp)
    · have hrest : tail' = text ++ '"' :: rest := htail'.symm.trans htext
      exact ⟨u ++ (l ++ text), by simp [hmore, htail, hrest], hc ▸ .pair hu hhigh hl hlow hcs⟩
  | case7 => exact absurd h (not_yields_error _)
  | case8 => exact absurd h (not_yields_error _)
  | case9 e more _ c hc cs' left hread ih =>
    obtain ⟨rfl, hleft⟩ := yields_ok_iff.mp h
    obtain ⟨text, htext, hcs⟩ := ih ⟨left, hread, hleft⟩
    exact ⟨'\\' :: e :: text, by rw [htext]; rfl, .escaped hc hcs⟩
  | case10 => exact absurd h (not_yields_error _)
  | case11 => exact absurd h (not_yields_error _)
  | case12 c more hquote hend _ hslash hcontrol cs' left hread ih =>
    obtain ⟨rfl, hleft⟩ := yields_ok_iff.mp h
    obtain ⟨text, htext, hcs⟩ := ih ⟨left, hread, hleft⟩
    have hplain : c ≠ '\\' := by
      intro hc
      obtain ⟨e, tail, htail⟩ : ∃ e tail, more = e :: tail := List.exists_cons_of_ne_nil (by simp [htext])
      exact hslash e tail hc htail
    exact ⟨c :: text, by rw [htext]; rfl, .plain hquote hplain (Nat.not_lt.mp hcontrol) hcs⟩

section

variable {tail : List Char} {cs rest : List Char}

theorem readCharacters_simple {c e : Char} (hu : e ≠ 'u') (he : simpleEscape? e = some c)
    (h : Yields (readCharacters tail) cs rest) :
    Yields (readCharacters ('\\' :: e :: tail)) (c :: cs) rest := by
  obtain ⟨left, hread, hleft⟩ := h
  rw [readCharacters]
  · rw [he, hread]
    exact ⟨_, rfl, hleft⟩
  · exact hu

theorem readCharacters_plain {c : Char} (hquote : c ≠ '"') (hslash : c ≠ '\\') (hlow : ' ' ≤ c)
    (h : Yields (readCharacters tail) cs rest) :
    Yields (readCharacters (c :: tail)) (c :: cs) rest := by
  obtain ⟨left, hread, hleft⟩ := h
  have hnat : 0x20 ≤ c.toNat := hlow
  rw [readCharacters]
  · rw [if_neg (by omega), hread]
    exact ⟨_, rfl, hleft⟩
  all_goals simp_all

theorem readCharacters_unicode {c : Char} {digits : List Char} {taken : Nat}
    (hescape : unicodeEscape (digits ++ tail) = .ok (c, taken)) (hlength : digits.length = taken)
    (h : Yields (readCharacters tail) cs rest) :
    Yields (readCharacters ('\\' :: 'u' :: (digits ++ tail))) (c :: cs) rest := by
  have hdrop : (digits ++ tail).drop taken = tail := by simp [← hlength]
  rw [← hdrop] at h
  obtain ⟨left, hread, hleft⟩ := h
  rw [readCharacters, hescape]
  dsimp only
  rw [hread]
  exact ⟨_, rfl, hleft⟩

end

/-- An escape of a unit in a string is complete. -/
theorem Characters.exists_unit {text cs rest more : List Char} (h : Characters text cs)
    (front : text ++ '"' :: rest = '\\' :: 'u' :: more) : ∃ u n text', UnitEscape u n ∧ text = u ++ text' := by
  cases h with
  | none => cases front
  | plain _ slash =>
    rw [List.cons_append, List.cons.injEq] at front
    exact absurd front.1 slash
  | escaped h =>
    simp only [List.cons_append, List.cons.injEq] at front
    rw [front.2.1] at h
    cases h
  | unit h => exact ⟨_, _, _, h, rfl⟩
  | pair h => exact ⟨_, _, _, h, rfl⟩

theorem unicodeEscape_alone {a b c d : Char} {n : Nat} (h : hexUnit? a b c d = some n) {text cs rest : List Char}
    (alone : isHigh n = true → ∀ l low, UnitEscape l low → l <+: text → isLow low = false)
    (others : Characters text cs) :
    unicodeEscape (a :: b :: c :: d :: (text ++ '"' :: rest)) = .ok (unitChar n, 4) := by
  obtain ⟨e, tail, htail⟩ : ∃ e tail, text ++ '"' :: rest = e :: tail := List.exists_cons_of_ne_nil (by simp)
  rw [htail]
  simp only [unicodeEscape, h]
  split
  next a' b' c' d' f more hhigh =>
    obtain ⟨l, low, text', ⟨hl⟩, rfl⟩ := others.exists_unit htail
    have hlow := alone hhigh _ low (.mk hl) ⟨text', rfl⟩
    simp only [List.cons_append, List.nil_append, List.cons.injEq] at htail
    obtain ⟨-, -, rfl, rfl, rfl, rfl, -⟩ := htail
    simp [hl, hlow]
  next => rfl

theorem unicodeEscape_paired {a b c d : Char} {high low : Nat} (h : hexUnit? a b c d = some high)
    (hhigh : isHigh high = true) {l tail : List Char} (hl : UnitEscape l low) (hlow : isLow low = true)
    (hne : tail ≠ []) : unicodeEscape (a :: b :: c :: d :: (l ++ tail)) = .ok (pairChar high low, 10) := by
  obtain ⟨hl⟩ := hl
  obtain ⟨e, rest, rfl⟩ := List.exists_cons_of_ne_nil hne
  simp only [List.cons_append, List.nil_append, unicodeEscape, h, hhigh, hl, hlow, if_true, pairChar]

/-- The characters of a string are read up to the quote behind them. -/
theorem readCharacters_complete {text cs : List Char} (h : Characters text cs) (rest : List Char) :
    Yields (readCharacters (text ++ '"' :: rest)) cs rest := by
  induction h with
  | none =>
    rw [List.nil_append, readCharacters]
    exact ⟨_, rfl, rfl⟩
  | plain quote slash control _ ih => exact readCharacters_plain quote slash control ih
  | escaped h _ ih =>
    refine readCharacters_simple ?_ h ih
    rintro rfl
    cases h
  | unit h alone others ih =>
    obtain ⟨h⟩ := h
    rw [List.append_assoc]
    exact readCharacters_unicode (unicodeEscape_alone h alone others) rfl ih
  | @pair u l text cs high low h hhigh hl hlow _ ih =>
    have hlength : l.length = 6 := by
      obtain ⟨-⟩ := hl
      rfl
    obtain ⟨h⟩ := h
    have hpair := unicodeEscape_paired h hhigh hl hlow
      (List.append_ne_nil_of_right_ne_nil text (List.cons_ne_nil '"' rest))
    rw [List.append_assoc, List.append_assoc]
    exact @readCharacters_unicode _ _ _ _ (_ :: _ :: _ :: _ :: l) 10 hpair (by simp [hlength]) ih

/-- The text of a string between quotes. -/
def Literal (t : List Char) (s : String) : Prop :=
  ∃ text cs, Characters text cs ∧ t = '"' :: (text ++ ['"']) ∧ s = String.ofList cs

/-- A string is read behind its opening quote. -/
theorem yields_readString_iff {s cs rest : List Char} :
    Yields (readString s) cs rest ↔ ∃ text, s = text ++ '"' :: rest ∧ Characters text cs := by
  have hsame : Yields (readString s) cs rest ↔ Yields (readCharacters s) cs rest := by
    unfold readString
    cases readCharacters s <;> simp [Except.mapError, not_yields_error]
  rw [hsame]
  constructor
  · exact readCharacters_sound
  · rintro ⟨text, rfl, h⟩
    exact readCharacters_complete h rest

/-! What is written for a string. -/

theorem hexValue?_hexDigit : ∀ d, d < 16 → hexValue? (Utf8.hexDigit d) = some d := by decide

theorem hexUnit?_of_lt {n : Nat} (h : n < 0x10000) :
    hexUnit? (Utf8.hexDigit (n / 16 / 16 / 16 % 16)) (Utf8.hexDigit (n / 16 / 16 % 16))
      (Utf8.hexDigit (n / 16 % 16)) (Utf8.hexDigit (n % 16)) = some n := by
  have hdigit : ∀ m, hexValue? (Utf8.hexDigit (m % 16)) = some (m % 16) := fun m =>
    hexValue?_hexDigit _ (Nat.mod_lt _ (by decide))
  have hsum : ((n / 16 / 16 / 16 % 16 * 16 + n / 16 / 16 % 16) * 16 + n / 16 % 16) * 16 + n % 16 = n := by omega
  simp [hexUnit?, hdigit, hsum]

theorem toNat_lt (c : Char) : c.toNat < 0x110000 := by
  have h := c.valid
  simp only [UInt32.isValidChar, Nat.isValidChar] at h
  simp only [Char.toNat]
  omega

/-- No character is half of a pair. -/
theorem not_surrogate (c : Char) : isHigh c.toNat = false ∧ isLow c.toNat = false := by
  have h := c.valid
  simp only [UInt32.isValidChar, Nat.isValidChar] at h
  simp only [isHigh, isLow, Char.toNat, Bool.and_eq_false_iff, decide_eq_false_iff_not]
  omega

theorem unitEscape_of_lt {n : Nat} (h : n < 0x10000) : UnitEscape (unitEscape n) n :=
  .mk (hexUnit?_of_lt h)

/-- A character is escaped by a letter of its own, stands for itself, or is written as one unit or two. -/
theorem escape_cases (c : Char) :
    (∃ e, e ≠ 'u' ∧ simpleEscape? e = some c ∧ escape c = ['\\', e]) ∨
      (c ≠ '"' ∧ c ≠ '\\' ∧ (' ' ≤ c ∧ c ≤ '~') ∧ escape c = [c]) ∨
      (c.toNat < 0x10000 ∧ escape c = unitEscape c.toNat) ∨
      (0x10000 ≤ c.toNat ∧ escape c = unitEscape (0xd800 + (c.toNat - 0x10000) / 0x400) ++
        unitEscape (0xdc00 + (c.toNat - 0x10000) % 0x400)) := by
  unfold escape
  split
  next hc => exact .inl ⟨c, by rcases hc with hc | hc <;> subst hc <;> decide, by
    rcases hc with hc | hc <;> subst hc <;> rfl, rfl⟩
  next hquote =>
  split
  next hc => exact .inl ⟨'n', by decide, hc ▸ rfl, rfl⟩
  next =>
  split
  next hc => exact .inl ⟨'r', by decide, hc ▸ rfl, rfl⟩
  next =>
  split
  next hc => exact .inl ⟨'t', by decide, hc ▸ rfl, rfl⟩
  next =>
  split
  next hc => exact .inl ⟨'b', by decide, hc ▸ rfl, rfl⟩
  next =>
  split
  next hc => exact .inl ⟨'f', by decide, hc ▸ rfl, rfl⟩
  next =>
  split
  next hc =>
    rw [not_or] at hquote
    exact .inr (.inl ⟨hquote.1, hquote.2, hc, rfl⟩)
  next =>
  split
  next hc => exact .inr (.inr (.inl ⟨hc, rfl⟩))
  next hc => exact .inr (.inr (.inr ⟨Nat.not_lt.mp hc, rfl⟩))

theorem Characters.escape {text cs : List Char} (c : Char) (others : Characters text cs) :
    Characters (escape c ++ text) (c :: cs) := by
  rcases escape_cases c with ⟨e, -, he, hc⟩ | ⟨hquote, hslash, hprint, hc⟩ | ⟨hlt, hc⟩ | ⟨hge, hc⟩
  · rw [hc]
    exact .escaped he others
  · rw [hc]
    exact .plain hquote hslash hprint.1 others
  · obtain ⟨hhigh, hlow⟩ := not_surrogate c
    have hchar : unitChar c.toNat = c := by simp [unitChar, hhigh, hlow]
    have h := Characters.unit (unitEscape_of_lt hlt) (fun h => by simp [hhigh] at h) others
    rwa [hchar, ← hc] at h
  · have hc' := toNat_lt c
    have hhigh : isHigh (0xd800 + (c.toNat - 0x10000) / 0x400) = true := by
      simp only [isHigh, Bool.and_eq_true, decide_eq_true_eq]
      omega
    have hlow : isLow (0xdc00 + (c.toNat - 0x10000) % 0x400) = true := by
      simp only [isLow, Bool.and_eq_true, decide_eq_true_eq]
      omega
    have hback : pairChar (0xd800 + (c.toNat - 0x10000) / 0x400) (0xdc00 + (c.toNat - 0x10000) % 0x400) = c := by
      have hsum : 0x10000 + (0xd800 + (c.toNat - 0x10000) / 0x400 - 0xd800) * 0x400 +
          (0xdc00 + (c.toNat - 0x10000) % 0x400 - 0xdc00) = c.toNat := by omega
      rw [pairChar, hsum, Char.ofNat_toNat]
    have h := Characters.pair (unitEscape_of_lt (by omega)) hhigh (unitEscape_of_lt (by omega)) hlow others
    rwa [hback, ← List.append_assoc, ← hc] at h

/-- A string is written as a text of its characters. -/
theorem literal_writeString (s : String) : Literal (writeString s) s := by
  have hcharacters : ∀ cs, Characters (cs.flatMap Json.escape) cs := by
    intro cs
    induction cs with
    | nil => exact .none
    | cons c cs ih => exact ih.escape c
  exact ⟨_, s.toList, hcharacters s.toList, rfl, String.ofList_toList.symm⟩

end Json
end ThreadLocal
