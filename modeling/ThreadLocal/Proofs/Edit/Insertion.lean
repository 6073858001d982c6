import Mathlib.Data.List.Basic
import ThreadLocal.Edit.Patch

/-!
Patching with insertions only: the bytes that were there stay, in order, and every marked place gets the word
once.
-/

namespace ThreadLocal

/-- A stretch of a content, the first byte at `position`, with `word` put in at every marked place, the end
included. -/
def insertedFrom (word : Bytes) (marks : List Nat) (position : Nat) : Bytes → Bytes
  | [] => if position ∈ marks then word else []
  | b :: rest =>
    (if position ∈ marks then word else []) ++ b :: insertedFrom word marks (position + 1) rest

def inserted (word : Bytes) (marks : List Nat) (content : Bytes) : Bytes :=
  insertedFrom word marks 0 content

variable {word : Bytes} {marks marks' : List Nat}

theorem insertedFrom_congr (position : Nat) (h : ∀ n, position ≤ n → (n ∈ marks ↔ n ∈ marks')) (bytes : Bytes) :
    insertedFrom word marks position bytes = insertedFrom word marks' position bytes := by
  induction bytes generalizing position with
  | nil => simp only [insertedFrom, h position (Nat.le_refl _)]
  | cons b rest ih =>
    have hrest := ih (position + 1) fun n hn => h n (by omega)
    simp only [insertedFrom, h position (Nat.le_refl _), hrest]

/-- Only which places are marked counts. -/
theorem inserted_congr (h : ∀ n, n ∈ marks ↔ n ∈ marks') (content : Bytes) :
    inserted word marks content = inserted word marks' content :=
  insertedFrom_congr 0 (fun n _ => h n) content

theorem insertedFrom_nil (position : Nat) (bytes : Bytes) : insertedFrom word [] position bytes = bytes := by
  induction bytes generalizing position with
  | nil => rfl
  | cons b rest ih => simp [insertedFrom, ih]

theorem inserted_nil (content : Bytes) : inserted word [] content = content :=
  insertedFrom_nil 0 content

/-- Up to the first mark nothing is put in. -/
theorem insertedFrom_skip (position count : Nat) {bytes : Bytes} (hc : count ≤ bytes.length)
    (h : ∀ n ∈ marks, position + count ≤ n) :
    insertedFrom word marks position bytes =
      bytes.take count ++ insertedFrom word marks (position + count) (bytes.drop count) := by
  induction bytes generalizing position count with
  | nil =>
    have h0 : count = 0 := by simpa using hc
    simp [h0]
  | cons b rest ih =>
    cases count with
    | zero => simp
    | succ count =>
      have hfree : position ∉ marks := by
        intro hm
        have := h position hm
        omega
      have hrest := ih (position + 1) count (by simpa using hc)
        (fun n hn => by have := h n hn; omega)
      have hpos : position + 1 + count = position + (count + 1) := by omega
      simp [insertedFrom, hfree, hrest, hpos]

theorem insertedFrom_mark {position : Nat} (h : ∀ n ∈ marks, position < n) (bytes : Bytes) :
    insertedFrom word (position :: marks) position bytes = word ++ insertedFrom word marks position bytes := by
  have hfree : position ∉ marks := fun hm => absurd (h position hm) (by omega)
  have hcongr : ∀ rest, insertedFrom word (position :: marks) (position + 1) rest =
      insertedFrom word marks (position + 1) rest := by
    intro rest
    apply insertedFrom_congr (position + 1)
    intro n hn
    simp only [List.mem_cons]
    constructor
    · intro hm
      rcases hm with he | hm
      · omega
      · exact hm
    · exact Or.inr
  cases bytes with
  | nil => simp [insertedFrom, hfree]
  | cons b rest => simp [insertedFrom, hfree, hcongr]

/-- Edits in ascending order are sorted as they stand. -/
theorem Edit.sort_of_ascending {edits : List Edit} (ascending : edits.Pairwise fun a b => a.offset < b.offset) :
    Edit.sort edits = edits := by
  apply List.mergeSort_of_pairwise
  apply ascending.imp
  intro a b hab
  simp [Edit.atMost, hab]

/-- Edits that only put `text` in, at ascending places of a content of `size` bytes. -/
structure Insertions (text : String) (size : Nat) (edits : List Edit) : Prop where
  ascending : edits.Pairwise fun a b => a.offset < b.offset
  length_eq : ∀ e ∈ edits, e.length = 0
  text_eq : ∀ e ∈ edits, e.text = text
  nonneg : ∀ e ∈ edits, 0 ≤ e.offset
  le_size : ∀ e ∈ edits, e.offset ≤ size

namespace Insertions

variable {text : String} {size : Nat} {edits : List Edit}

theorem tail {e : Edit} (h : Insertions text size (e :: edits)) : Insertions text size edits where
  ascending := (List.pairwise_cons.mp h.ascending).2
  length_eq e he := h.length_eq e (List.mem_cons_of_mem _ he)
  text_eq e he := h.text_eq e (List.mem_cons_of_mem _ he)
  nonneg e he := h.nonneg e (List.mem_cons_of_mem _ he)
  le_size e he := h.le_size e (List.mem_cons_of_mem _ he)

theorem applyFrom_eq {content : Bytes} (h : Insertions text content.length edits) (cursor : Nat)
    (hc : cursor ≤ content.length) (hfrom : ∀ e ∈ edits, (cursor : Int) ≤ e.offset) :
    Patch.applyFrom content cursor edits =
      .ok (insertedFrom (Bytes.ofText text) (edits.map fun e => e.offset.toNat) cursor (content.drop cursor)) := by
  induction edits generalizing cursor with
  | nil =>
    have hi : Bytes.index content.length cursor = cursor := by
      rw [Bytes.index_of_nonneg (by omega)]
      omega
    simp only [Patch.applyFrom, List.map_nil, insertedFrom_nil, hi]
  | cons e rest ih =>
    obtain ⟨o, ho⟩ := Int.eq_ofNat_of_zero_le (h.nonneg e List.mem_cons_self)
    have hlow := hfrom e List.mem_cons_self
    have hhigh := h.le_size e List.mem_cons_self
    have hlater := (List.pairwise_cons.mp h.ascending).1
    have hrest := ih h.tail o (by omega) fun e' he' => by
      have := hlater e' he'
      omega
    have hmarks : ∀ n ∈ rest.map fun e => e.offset.toNat, o < n := by
      intro n hn
      obtain ⟨e', he', hn'⟩ := List.mem_map.mp hn
      have := hlater e' he'
      omega
    have hfirst : ∀ n ∈ o :: rest.map fun e => e.offset.toNat, cursor + (o - cursor) ≤ n := by
      intro n hn
      rcases List.mem_cons.mp hn with hn | hn
      · omega
      · have := hmarks n hn
        omega
    have hroom : o - cursor ≤ (content.drop cursor).length := by
      rw [List.length_drop]
      omega
    have hskip := @insertedFrom_skip (Bytes.ofText text) _ cursor (o - cursor) _ hroom hfirst
    have hback : cursor + (o - cursor) = o := by omega
    have hslice : content.slice cursor e.offset = (content.drop cursor).take (o - cursor) := by
      rw [Bytes.slice_of_nonneg (by omega) (by omega), ho, List.drop_take]
      simp
    have htext := h.text_eq e List.mem_cons_self
    simp only [Patch.applyFrom, h.length_eq e List.mem_cons_self, Int.add_zero, List.map_cons, htext, hslice]
    rw [if_neg (by omega), if_neg (by omega), ho, hrest]
    rw [Int.toNat_natCast, hskip, hback, List.drop_drop, hback, insertedFrom_mark hmarks, ← List.append_assoc]

/-- The insertions are accepted, and put the text in once at each of their places. -/
theorem patch_eq {content : Bytes} (h : Insertions text content.length edits) :
    patch content (Edit.sort edits) =
      .ok (inserted (Bytes.ofText text) (edits.map fun e => e.offset.toNat) content) := by
  rw [Edit.sort_of_ascending h.ascending]
  exact h.applyFrom_eq 0 (Nat.zero_le _) h.nonneg

end Insertions
end ThreadLocal
