import Mathlib.Data.List.TakeWhile
import ThreadLocal.Text.Integer

/-!
Integers in texts: blanks around a sign and digits, which may have single underscores between them. Exactly such texts
are read, as the numbers that they spell.
-/

namespace ThreadLocal
namespace Integer

/-- Digits, some of them behind an underscore, and the number that they make. -/
inductive Run : List Char → Nat → Prop where
  | one {c : Char} {d : Nat} (h : digit? c = some d) : Run [c] d
  | next {cs : List Char} {c : Char} {n d : Nat} (others : Run cs n) (h : digit? c = some d) :
    Run (cs ++ [c]) (n * 10 + d)
  | apart {cs : List Char} {c : Char} {n d : Nat} (others : Run cs n) (h : digit? c = some d) :
    Run (cs ++ ['_', c]) (n * 10 + d)

/-- Digits with or without a sign. -/
inductive Signed : List Char → Int → Prop where
  | bare {cs : List Char} {n : Nat} (h : Run cs n) : Signed cs n
  | plus {cs : List Char} {n : Nat} (h : Run cs n) : Signed ('+' :: cs) n
  | minus {cs : List Char} {n : Nat} (h : Run cs n) : Signed ('-' :: cs) (-n)

/-- Nothing but blanks. -/
def Blank (s : List Char) : Prop :=
  ∀ c ∈ s, isBlank c = true

/-- A text that spells an integer, with blanks around it. -/
def Spells (s : List Char) (i : Int) : Prop :=
  ∃ before t after, Blank before ∧ Signed t i ∧ Blank after ∧ s = before ++ (t ++ after)

/-- No run of digits holds a blank. -/
theorem zeros_apart : ∀ z ∈ zeros, ∀ k < 10,
    ((0x09 ≤ z + k && z + k ≤ 0x0d) || z + k = 0x20 || z + k = 0x85 || z + k = 0xa0 || z + k = 0x1680 ||
      (0x2000 ≤ z + k && z + k ≤ 0x200a) || z + k = 0x2028 || z + k = 0x2029 || z + k = 0x202f || z + k = 0x205f ||
      z + k = 0x3000) = false := by
  decide

/-- A digit is no mark and no blank. -/
theorem digit_plain {c : Char} {d : Nat} (h : digit? c = some d) : c ≠ '_' ∧ c ≠ '+' ∧ c ≠ '-' ∧ isBlank c = false := by
  have hne : ∀ {mark : Char}, digit? mark = none → c ≠ mark := by
    rintro mark hmark rfl
    rw [hmark] at h
    cases h
  refine ⟨hne rfl, hne rfl, hne rfl, ?_⟩
  obtain ⟨z, hz, -⟩ := Option.map_eq_some_iff.mp h
  have hrange := List.find?_some hz
  simp only [Bool.and_eq_true, decide_eq_true_eq] at hrange
  obtain ⟨k, hk⟩ := Nat.exists_eq_add_of_le hrange.1
  have hapart := zeros_apart z (List.mem_of_find?_eq_some hz) k (by omega)
  rw [← hk] at hapart
  exact hapart

theorem more_digit {c : Char} {d : Nat} (h : digit? c = some d) (v : Nat) (rest : List Char) :
    more v (c :: rest) = more (v * 10 + d) rest := by
  rw [more, h]
  exact fun _ _ hcons => absurd hcons (digit_plain h).1

theorem more_append {v n : Nat} {s : List Char} (h : more v s = some n) (t : List Char) :
    more v (s ++ t) = more n t := by
  fun_induction more v s with
  | case1 v =>
    obtain rfl := Option.some.inj h
    rfl
  | case2 v c rest d hd ih =>
    rw [List.cons_append, List.cons_append, more, hd]
    exact ih h
  | case3 => cases h
  | case4 v c rest _ d hd ih =>
    rw [List.cons_append, more_digit hd]
    exact ih h
  | case5 => cases h

theorem run_of_more {v n : Nat} {s cs : List Char} (h : more v s = some n) (run : Run cs v) : Run (cs ++ s) n := by
  fun_induction more v s generalizing cs with
  | case1 v =>
    obtain rfl := Option.some.inj h
    rwa [List.append_nil]
  | case2 v c rest d hd ih =>
    simpa using ih h (run.apart hd)
  | case3 => cases h
  | case4 v c rest _ d hd ih =>
    simpa using ih h (run.next hd)
  | case5 => cases h

theorem Run.exists_first {cs : List Char} {n : Nat} (h : Run cs n) :
    ∃ c rest d, cs = c :: rest ∧ digit? c = some d ∧ more d rest = some n := by
  induction h with
  | @one c d h => exact ⟨c, [], d, rfl, h, rfl⟩
  | @next _ c _ d _ h ih =>
    obtain ⟨first, rest, v, rfl, hfirst, hrest⟩ := ih
    refine ⟨first, rest ++ [c], v, rfl, hfirst, ?_⟩
    rw [more_append hrest, more_digit h]
    rfl
  | @apart _ c _ d _ h ih =>
    obtain ⟨first, rest, v, rfl, hfirst, hrest⟩ := ih
    refine ⟨first, rest ++ ['_', c], v, rfl, hfirst, ?_⟩
    rw [more_append hrest, more, h]
    rfl

theorem natural?_eq_some_iff {cs : List Char} {n : Nat} : natural? cs = some n ↔ Run cs n := by
  constructor
  · intro h
    unfold natural? at h
    split at h
    next => cases h
    next c rest =>
      split at h
      next d hd => exact run_of_more h (.one hd)
      next => cases h
  · intro h
    obtain ⟨c, rest, d, rfl, hd, hrest⟩ := h.exists_first
    rw [natural?, hd]
    exact hrest

theorem Run.head {cs : List Char} {n : Nat} (h : Run cs n) : ∃ c rest d, cs = c :: rest ∧ digit? c = some d := by
  obtain ⟨c, rest, d, rfl, hd, -⟩ := h.exists_first
  exact ⟨c, rest, d, rfl, hd⟩

theorem Run.last {cs : List Char} {n : Nat} (h : Run cs n) : ∃ before c d, cs = before ++ [c] ∧ digit? c = some d := by
  cases h with
  | one h => exact ⟨[], _, _, rfl, h⟩
  | next _ h => exact ⟨_, _, _, rfl, h⟩
  | @apart cs _ _ _ _ h => exact ⟨cs ++ ['_'], _, _, by simp, h⟩

/-- An integer begins and ends with a character that is no blank. -/
theorem Signed.ends {t : List Char} {i : Int} (h : Signed t i) :
    (∃ c rest, t = c :: rest ∧ isBlank c = false) ∧ ∃ before c, t = before ++ [c] ∧ isBlank c = false := by
  cases h with
  | bare h =>
    obtain ⟨c, rest, d, hc, hd⟩ := h.head
    obtain ⟨before, c', d', hc', hd'⟩ := h.last
    exact ⟨⟨c, rest, hc, (digit_plain hd).2.2.2⟩, before, c', hc', (digit_plain hd').2.2.2⟩
  | plus h =>
    obtain ⟨before, c', d', rfl, hd'⟩ := h.last
    exact ⟨⟨_, _, rfl, by decide⟩, '+' :: before, c', rfl, (digit_plain hd').2.2.2⟩
  | minus h =>
    obtain ⟨before, c', d', rfl, hd'⟩ := h.last
    exact ⟨⟨_, _, rfl, by decide⟩, '-' :: before, c', rfl, (digit_plain hd').2.2.2⟩

theorem exists_trim (s : List Char) : ∃ before after, Blank before ∧ Blank after ∧ s = before ++ (trim s ++ after) := by
  have hall : ∀ t : List Char, Blank (t.takeWhile isBlank) := fun t _ hc => List.mem_takeWhile_imp hc
  refine ⟨s.takeWhile isBlank, ((s.dropWhile isBlank).reverse.takeWhile isBlank).reverse, hall s, ?_, ?_⟩
  · intro c hc
    exact hall _ c (List.mem_reverse.mp hc)
  · rw [trim, ← List.reverse_append, List.takeWhile_append_dropWhile, List.reverse_reverse,
      List.takeWhile_append_dropWhile]

theorem trim_of_ends {before t after : List Char} (hbefore : Blank before) (hafter : Blank after)
    (head : ∃ c rest, t = c :: rest ∧ isBlank c = false) (last : ∃ front c, t = front ++ [c] ∧ isBlank c = false) :
    trim (before ++ (t ++ after)) = t := by
  obtain ⟨c, rest, ht, hc⟩ := head
  obtain ⟨front, c', ht', hc'⟩ := last
  have hfront : (before ++ (t ++ after)).dropWhile isBlank = t ++ after := by
    rw [List.dropWhile_append_of_pos hbefore, ht, List.cons_append, List.dropWhile_cons_of_neg (by simp [hc])]
  have hback : (t ++ after).reverse.dropWhile isBlank = t.reverse := by
    rw [List.reverse_append, List.dropWhile_append_of_pos fun c hc => hafter c (List.mem_reverse.mp hc), ht',
      List.reverse_append, List.reverse_singleton, List.singleton_append, List.dropWhile_cons_of_neg (by simp [hc'])]
  rw [trim, hfront, hback, List.reverse_reverse]

/-- A text is read as an integer just when it spells it. -/
theorem read?_eq_some_iff {s : List Char} {i : Int} : read? s = some i ↔ Spells s i := by
  constructor
  · intro h
    obtain ⟨before, after, hbefore, hafter, hs⟩ := exists_trim s
    refine ⟨before, trim s, after, hbefore, ?_, hafter, hs⟩
    unfold read? at h
    split at h
    next rest ht =>
      obtain ⟨m, hm, rfl⟩ := Option.map_eq_some_iff.mp h
      obtain ⟨n, hn, hcast⟩ := Option.bind_eq_some_iff.mp hm
      obtain rfl := Option.some.inj hcast
      rw [ht]
      exact .minus (natural?_eq_some_iff.mp hn)
    next rest ht =>
      obtain ⟨n, hn, rfl⟩ := Option.map_eq_some_iff.mp h
      rw [ht]
      exact .plus (natural?_eq_some_iff.mp hn)
    next =>
      obtain ⟨n, hn, rfl⟩ := Option.map_eq_some_iff.mp h
      exact .bare (natural?_eq_some_iff.mp hn)
  · rintro ⟨before, t, after, hbefore, hsigned, hafter, rfl⟩
    unfold read?
    rw [trim_of_ends hbefore hafter hsigned.ends.1 hsigned.ends.2]
    cases hsigned with
    | plus h => simp [natural?_eq_some_iff.mpr h]
    | minus h => simp [natural?_eq_some_iff.mpr h]
    | bare h =>
      obtain ⟨c, rest, d, rfl, hd⟩ := h.head
      obtain ⟨-, hplus, hminus, -⟩ := digit_plain hd
      split
      next hcons => exact absurd (List.cons.inj hcons).1 hminus
      next hcons => exact absurd (List.cons.inj hcons).1 hplus
      next => rw [natural?_eq_some_iff.mpr h]; rfl

end Integer
end ThreadLocal
