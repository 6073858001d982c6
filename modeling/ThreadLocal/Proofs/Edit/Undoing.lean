import Mathlib.Algebra.GroupWithZero.Nat
import ThreadLocal.Proofs.Edit.Splicing

/-!
Insertions with texts of any kind: where each text comes to stand in what is written, and that cutting the texts out
there gives the content back.
-/

namespace ThreadLocal

/-- How many bytes an edit puts in. -/
def Edit.size (e : Edit) : Nat :=
  (Bytes.ofText e.text).length

/-- How many bytes the edits before index `i` put in. -/
def Edit.shift (edits : List Edit) (i : Nat) : Nat :=
  ((edits.take i).map Edit.size).sum

/-- The edits that cut every text out where it has come to stand. -/
def Edit.removals (edits : List Edit) : List Edit :=
  edits.mapIdx fun i e => ⟨e.offset + Edit.shift edits i, e.size, ""⟩

/-- Edits that only put something in, in order, inside a content of `size` bytes. -/
structure Edit.Inserting (size : Nat) (edits : List Edit) : Prop where
  length_eq : ∀ e ∈ edits, e.length = 0
  ordered : edits.Pairwise fun a b => a.offset ≤ b.offset
  nonneg : ∀ e ∈ edits, 0 ≤ e.offset
  le_size : ∀ e ∈ edits, e.offset ≤ size

namespace Edit

theorem shift_cons_succ (e : Edit) (rest : List Edit) (i : Nat) :
    shift (e :: rest) (i + 1) = e.size + shift rest i := by
  simp [shift]

/-- The removals behind `shift` bytes that were put in before. -/
def removalsFrom (shift : Nat) : List Edit → List Edit
  | [] => []
  | e :: rest => ⟨e.offset + shift, e.size, ""⟩ :: removalsFrom (shift + e.size) rest

theorem removalsFrom_eq (before : Nat) (edits : List Edit) :
    removalsFrom before edits = edits.mapIdx fun i e => ⟨e.offset + (before + shift edits i : Nat), e.size, ""⟩ := by
  induction edits generalizing before with
  | nil => rfl
  | cons e rest ih =>
    have hstep : ∀ i, before + shift (e :: rest) (i + 1) = before + e.size + shift rest i := by
      intro i
      rw [shift_cons_succ]
      omega
    rw [List.mapIdx_cons, removalsFrom, ih]
    simp only [hstep]
    simp [shift]

theorem removals_eq (edits : List Edit) : removals edits = removalsFrom 0 edits := by
  simp [removals, removalsFrom_eq]

end Edit

namespace Edit.Inserting

variable {content written : Bytes} {size : Nat} {cursor : Int} {e : Edit} {edits : List Edit}

theorem tail (h : Inserting size (e :: edits)) : Inserting size edits where
  length_eq e he := h.length_eq e (List.mem_cons_of_mem _ he)
  ordered := (List.pairwise_cons.mp h.ordered).2
  nonneg e he := h.nonneg e (List.mem_cons_of_mem _ he)
  le_size e he := h.le_size e (List.mem_cons_of_mem _ he)

theorem fits (h : Inserting size edits) : Patch.Fits size 0 edits := by
  have hend : ∀ e ∈ edits, e.offset + e.length = e.offset := by
    intro e he
    rw [h.length_eq e he, Int.add_zero]
  have happart : edits.Pairwise fun a b => a.offset + a.length ≤ b.offset := by
    apply h.ordered.imp_of_mem
    intro a b ha _ hab
    rwa [hend a ha]
  refine Patch.fits_iff.mpr ⟨fun e he => h.nonneg e (List.mem_of_mem_head? he), happart.isChain, ?_⟩
  intro e he
  rw [hend e he]
  exact h.le_size e he

theorem applyFrom_cons (h : Inserting content.length (e :: edits))
    (done : Patch.applyFrom content cursor (e :: edits) = .ok written) :
    cursor ≤ e.offset ∧ ∃ tail, Patch.applyFrom content e.offset edits = .ok tail ∧
      written = content.slice cursor e.offset ++ Bytes.ofText e.text ++ tail := by
  obtain ⟨hlow, -, tail, htail, hwritten⟩ := Patch.applyFrom_cons_eq_ok_iff.mp done
  rw [h.length_eq e List.mem_cons_self, Int.add_zero] at htail
  exact ⟨hlow, tail, htail, hwritten⟩

theorem length_applyFrom (h : Inserting content.length edits) (hc : 0 ≤ cursor) (hs : cursor ≤ content.length)
    (done : Patch.applyFrom content cursor edits = .ok written) :
    cursor + written.length = content.length + (edits.map Edit.size).sum := by
  induction edits generalizing cursor written with
  | nil =>
    rw [Patch.applyFrom, Except.ok.injEq, Bytes.index_of_nonneg hc] at done
    rw [← done, List.length_drop]
    simp only [List.map_nil, List.sum_nil]
    omega
  | cons e rest ih =>
    obtain ⟨hlow, tail, htail, rfl⟩ := h.applyFrom_cons done
    have hhigh := h.le_size e List.mem_cons_self
    have hrest := ih h.tail (by omega) hhigh htail
    have hslice := Bytes.length_slice hc hlow hhigh
    simp only [List.length_append, List.map_cons, List.sum_cons, hslice, Edit.size] at hrest ⊢
    omega

theorem text_applyFrom (h : Inserting content.length edits) (hc : 0 ≤ cursor)
    (done : Patch.applyFrom content cursor edits = .ok written) {i : Nat} {e : Edit} (at_ : edits[i]? = some e) :
    ∃ before after, written = before ++ Bytes.ofText e.text ++ after ∧
      cursor + before.length = e.offset + Edit.shift edits i := by
  induction edits generalizing cursor written i with
  | nil => simp at at_
  | cons first rest ih =>
    obtain ⟨hlow, tail, htail, rfl⟩ := h.applyFrom_cons done
    have hslice := Bytes.length_slice hc hlow (h.le_size first List.mem_cons_self)
    cases i with
    | zero =>
      obtain rfl : first = e := by simpa using at_
      refine ⟨_, tail, rfl, ?_⟩
      rw [hslice]
      simp only [Edit.shift, List.take_zero, List.map_nil, List.sum_nil]
      omega
    | succ i =>
      obtain ⟨before, after, rfl, hplace⟩ := ih h.tail (by omega) htail at_
      refine ⟨content.slice cursor first.offset ++ Bytes.ofText first.text ++ before, after, by simp, ?_⟩
      rw [Edit.shift_cons_succ]
      simp only [List.length_append, hslice, Edit.size] at hplace ⊢
      omega

/-- Behind any bytes of the right number, the removals give back what the content holds from the cursor on. -/
theorem removals_applyFrom (h : Inserting content.length edits) (hc : 0 ≤ cursor)
    (done : Patch.applyFrom content cursor edits = .ok written) {front : Bytes} {shift : Nat}
    (place : (front.length : Int) = cursor + shift) :
    Patch.applyFrom (front ++ written) (cursor + shift) (Edit.removalsFrom shift edits) =
      .ok (content.drop cursor.toNat) := by
  induction edits generalizing cursor written front shift with
  | nil =>
    rw [Patch.applyFrom, Except.ok.injEq, Bytes.index_of_nonneg hc, ← List.drop_eq_drop_min] at done
    have hindex : Bytes.index (front ++ written).length (cursor + shift) = front.length := by
      rw [← place, Bytes.index_of_nonneg (Int.natCast_nonneg _), List.length_append]
      omega
    rw [Edit.removalsFrom, Patch.applyFrom, hindex, List.drop_left, done]
  | cons e rest ih =>
    obtain ⟨hlow, tail, htail, rfl⟩ := h.applyFrom_cons done
    have hhigh := h.le_size e List.mem_cons_self
    have hgap := Bytes.length_slice hc hlow hhigh
    have hnext : ((front ++ content.slice cursor e.offset ++ Bytes.ofText e.text).length : Int) =
        e.offset + (shift + e.size : Nat) := by
      simp only [List.length_append, hgap, Edit.size]
      omega
    have hrest := ih h.tail (by omega) htail hnext
    have hkept : (front ++ (content.slice cursor e.offset ++ Bytes.ofText e.text ++ tail)).slice
        (cursor + shift) (e.offset + shift) = content.slice cursor e.offset := by
      rw [List.append_assoc]
      exact Bytes.slice_middle place.symm (by omega)
    have hempty : Bytes.ofText "" = [] := rfl
    have happart : cursor + shift ≤ e.offset + shift := by omega
    refine Patch.applyFrom_cons_eq_ok_iff.mpr ⟨happart, ?_, content.drop e.offset.toNat, ?_, ?_⟩
    · simp only [List.length_append, hgap, Edit.size]
      omega
    · simpa [Int.add_assoc] using hrest
    · rw [hkept, hempty, List.append_nil, Bytes.slice_append_drop hc hlow hhigh]

end Edit.Inserting

/-- Insertions are accepted, whatever they put in. What is written is longer by all the texts, holds each of them where
those before it have pushed it, and cutting them out there gives the content back. -/
theorem insertions_undone {content : Bytes} {edits : List Edit} (h : Edit.Inserting content.length edits) :
    ∃ written, patch content edits = .ok written ∧
      written.length = content.length + (edits.map Edit.size).sum ∧
      (∀ i e, edits[i]? = some e → ∃ before after, written = before ++ Bytes.ofText e.text ++ after ∧
        (before.length : Int) = e.offset + Edit.shift edits i) ∧
      patch written (Edit.removals edits) = .ok content := by
  obtain ⟨written, hwritten⟩ := Patch.exists_applyFrom_iff.mpr h.fits
  have hsize := h.length_applyFrom (Int.le_refl 0) (Int.natCast_nonneg _) hwritten
  have hfront : (([] : Bytes).length : Int) = 0 + (0 : Nat) := by simp
  have hback := h.removals_applyFrom (Int.le_refl 0) hwritten hfront
  have hundone : patch written (Edit.removals edits) = .ok content := by
    simpa [patch, Edit.removals_eq] using hback
  refine ⟨written, hwritten, by omega, ?_, hundone⟩
  intro i e he
  obtain ⟨before, after, hsplit, hplace⟩ := h.text_applyFrom (Int.le_refl 0) hwritten he
  exact ⟨before, after, hsplit, by omega⟩

/-- Two texts at one place, the second of several bytes a character, and one at the very end. -/
theorem int_insertions_undone :
    let content := Bytes.ofText "int x;"
    let edits : List Edit := [⟨4, 0, "*"⟩, ⟨4, 0, "größe_"⟩, ⟨6, 0, "\n"⟩]
    Edit.Inserting content.length edits ∧ patch content edits = .ok (Bytes.ofText "int *größe_x;\n") ∧
      Edit.removals edits = [⟨4, 1, ""⟩, ⟨5, 8, ""⟩, ⟨15, 1, ""⟩] ∧
      patch (Bytes.ofText "int *größe_x;\n") (Edit.removals edits) = .ok content := by
  intro content edits
  have hinserting : Edit.Inserting content.length edits := ⟨by decide, by decide, by decide, by decide⟩
  have hpatch : patch content edits = .ok (Bytes.ofText "int *größe_x;\n") := by decide +kernel
  obtain ⟨written, hwritten, -, -, hback⟩ := insertions_undone hinserting
  obtain rfl : Bytes.ofText "int *größe_x;\n" = written := Except.ok.inj (hpatch.symm.trans hwritten)
  exact ⟨hinserting, hpatch, by decide +kernel, hback⟩

end ThreadLocal
