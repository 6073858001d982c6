import Mathlib.Data.List.Chain
import ThreadLocal.Edit.Writer
import ThreadLocal.Proofs.Edit.Overlap

/-!
Patching in one pass against making the edits one at a time: which lists of edits are accepted, that both ways
come to the same content, and which edit a refusal is about.
-/

namespace ThreadLocal

/-- One edit made on its own. -/
def Edit.splice (e : Edit) (content : Bytes) : Bytes :=
  content.take e.offset.toNat ++ Bytes.ofText e.text ++ content.drop (e.offset + e.length).toNat

namespace Patch

variable {content written : Bytes} {size : Nat} {cursor : Int} {edits : List Edit}

theorem fits_iff : Fits size cursor edits ↔
    (∀ e ∈ edits.head?, cursor ≤ e.offset) ∧ (edits.IsChain fun a b => a.offset + a.length ≤ b.offset) ∧
      ∀ e ∈ edits, e.offset + e.length ≤ size := by
  induction edits generalizing cursor with
  | nil => simp [Fits]
  | cons e rest ih =>
    rw [Fits, ih, List.isChain_cons, List.forall_mem_cons]
    simp only [List.head?_cons, Option.mem_some_iff, forall_eq']
    tauto

/-- What comes before the cursor and what is written from there on are the content with every edit spliced in. -/
theorem splices_of_applyFrom (nonneg : ∀ e ∈ edits, 0 ≤ e.offset ∧ 0 ≤ e.length) (hc : 0 ≤ cursor)
    (hs : cursor ≤ content.length) (h : applyFrom content cursor edits = .ok written) :
    content.take cursor.toNat ++ written = edits.foldr Edit.splice content := by
  induction edits generalizing cursor written with
  | nil =>
    have hindex : Bytes.index content.length cursor = cursor.toNat := by
      rw [Bytes.index_of_nonneg hc]
      omega
    rw [applyFrom, Except.ok.injEq, hindex] at h
    rw [← h, List.take_append_drop]
    rfl
  | cons e rest ih =>
    obtain ⟨hlow, hhigh, tail, htail, rfl⟩ := applyFrom_cons_eq_ok_iff.mp h
    obtain ⟨⟨ho, hl⟩, hrest⟩ := List.forall_mem_cons.mp nonneg
    have hspliced := ih hrest (by omega) hhigh htail
    have hkept : (content.take (e.offset + e.length).toNat).length = (e.offset + e.length).toNat := by
      rw [List.length_take]
      omega
    have hbefore : (content.take (e.offset + e.length).toNat ++ tail).take e.offset.toNat =
        content.take e.offset.toNat := by
      rw [List.take_append_of_le_length (by omega), List.take_take, Nat.min_eq_left (by omega)]
    have hafter : (content.take (e.offset + e.length).toNat ++ tail).drop (e.offset + e.length).toNat = tail := by
      rw [List.drop_append_of_le_length (by omega), List.drop_of_length_le (by omega), List.nil_append]
    rw [List.foldr_cons, ← hspliced, Edit.splice, hbefore, hafter, ← Bytes.take_append_slice hc hlow]
    simp only [List.append_assoc]

/-- Where the last of some edits ends, or the cursor if there are none. -/
def endOf (cursor : Int) : List Edit → Int
  | [] => cursor
  | e :: rest => endOf (e.offset + e.length) rest

/-- Why an edit is refused behind others that end at `previousEnd`. -/
inductive Refused (size : Nat) (previousEnd : Int) (e : Edit) : PatchFault → Prop where
  | overlap (early : e.offset < previousEnd) : Refused size previousEnd e (.overlap e.offset previousEnd)
  | outOfBounds (apart : previousEnd ≤ e.offset) (late : (size : Int) < e.offset + e.length) :
    Refused size previousEnd e (.outOfBounds e.offset e.length size)

theorem refused_of_applyFrom {fault : PatchFault} (h : applyFrom content cursor edits = .error fault) :
    ∃ before e after, edits = before ++ e :: after ∧ Fits content.length cursor before ∧
      Refused content.length (endOf cursor before) e fault := by
  induction edits generalizing cursor with
  | nil => simp [applyFrom] at h
  | cons e rest ih =>
    rw [applyFrom] at h
    split at h
    next hlow =>
      obtain rfl := Except.error.inj h
      exact ⟨[], e, rest, rfl, trivial, .overlap hlow⟩
    next hlow =>
      have hapart := Int.not_lt.mp hlow
      split at h
      next hhigh =>
        obtain rfl := Except.error.inj h
        exact ⟨[], e, rest, rfl, trivial, .outOfBounds hapart hhigh⟩
      next hhigh =>
        split at h
        next f hrest =>
          obtain rfl := Except.error.inj h
          obtain ⟨before, e', after, rfl, hfits, hrefused⟩ := ih hrest
          exact ⟨e :: before, e', after, rfl, ⟨hapart, Int.not_lt.mp hhigh, hfits⟩, hrefused⟩
        next => cases h

end Patch

/-- Edits are accepted just when each begins where the one before it ends or later and none ends past the content. Then
they come to what they come to when they are made one at a time, the last one first; otherwise the first one that does
not fit is refused, for its value. -/
theorem patch_as_one_at_a_time {content : Bytes} {edits : List Edit}
    (nonneg : ∀ e ∈ edits, 0 ≤ e.offset ∧ 0 ≤ e.length) :
    ((∃ written, patch content edits = .ok written) ↔
      (edits.IsChain fun a b => a.offset + a.length ≤ b.offset) ∧ ∀ e ∈ edits, e.offset + e.length ≤ content.length) ∧
    (∀ written, patch content edits = .ok written → written = edits.foldr Edit.splice content) ∧
    ∀ fault, patch content edits = .error fault → (WriteFault.patch fault).kind = .value ∧
      ∃ before e after, edits = before ++ e :: after ∧ Patch.Fits content.length 0 before ∧
        Patch.Refused content.length (Patch.endOf 0 before) e fault := by
  have hfirst : ∀ e ∈ edits.head?, 0 ≤ e.offset := fun e he => (nonneg e (List.mem_of_mem_head? he)).1
  refine ⟨?_, ?_, fun fault h => ⟨rfl, Patch.refused_of_applyFrom h⟩⟩
  · exact Patch.exists_applyFrom_iff.trans (Patch.fits_iff.trans (and_iff_right hfirst))
  · intro written h
    have hspliced := Patch.splices_of_applyFrom nonneg (Int.le_refl 0) (Int.natCast_nonneg _) h
    simpa using hspliced

/-- An insertion, two edits that meet, a deletion and an insertion at the very end. -/
theorem patch_int_as_one_at_a_time :
    let content := Bytes.ofText "int x = 1;"
    let edits : List Edit := [⟨0, 0, "static "⟩, ⟨0, 3, "längd"⟩, ⟨3, 1, "\t"⟩, ⟨5, 4, ""⟩, ⟨10, 0, "\n"⟩]
    (∀ e ∈ edits, 0 ≤ e.offset ∧ 0 ≤ e.length) ∧
      patch content edits = .ok (Bytes.ofText "static längd\tx;\n") ∧
      edits.foldr Edit.splice content = Bytes.ofText "static längd\tx;\n" := by
  intro content edits
  have hnonneg : ∀ e ∈ edits, 0 ≤ e.offset ∧ 0 ≤ e.length := by decide
  have hpatch : patch content edits = .ok (Bytes.ofText "static längd\tx;\n") := by decide +kernel
  obtain ⟨-, hspliced, -⟩ := @patch_as_one_at_a_time content edits hnonneg
  exact ⟨hnonneg, hpatch, (hspliced _ hpatch).symm⟩

end ThreadLocal
