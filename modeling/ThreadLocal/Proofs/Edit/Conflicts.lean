import ThreadLocal.Proofs.Edit.Agreement

/-!
When merging reports the conflicts, and when it stops at one instead: a position is asked for in the file of every
conflict, and a path with a NUL character cannot be asked for.
-/

namespace ThreadLocal
namespace Files

theorem find_eq_embeddedNul_iff {fs : Files} {path : String} :
    fs.find path = .error .embeddedNul ↔ hasNul path = true := by
  unfold find locate
  by_cases hnul : hasNul path = true
  · simp [hnul]
  · grind

/-- Only a NUL character keeps a path from being looked up. -/
theorem read_eq_embeddedNul_iff {fs : Files} {path : String} :
    fs.read path = .error .embeddedNul ↔ hasNul path = true := by
  rw [← @find_eq_embeddedNul_iff fs]
  unfold read openFile
  grind [Except.map]

end Files

/-- A conflict has a position unless its path cannot be looked up. -/
theorem Conflict.ofSite_eq_error_iff {fs : Files} {s : Site} {f : AccessFault} :
    Conflict.ofSite fs s = .error f ↔ hasNul s.path = true ∧ f = .embeddedNul := by
  rw [← @Files.read_eq_embeddedNul_iff fs]
  unfold Conflict.ofSite
  cases hread : fs.read s.path with
  | ok content => simp
  | error fault => cases fault <;> simp [AccessFault.kind, eq_comm]

/-- The conflicts are all reported unless one of them is in a file that cannot be looked up. -/
theorem conflictsAt_fault (fs : Files) (sites : List Site) :
    (conflictsAt fs sites).2 = if ∃ s ∈ sites, hasNul s.path = true then some .embeddedNul else none := by
  induction sites with
  | nil => simp [conflictsAt]
  | cons s rest ih =>
    unfold conflictsAt
    cases hs : Conflict.ofSite fs s with
    | error f =>
      obtain ⟨hnul, hf⟩ := Conflict.ofSite_eq_error_iff.mp hs
      simp [hnul, hf]
    | ok c =>
      have hnul : ¬ hasNul s.path = true := by
        intro hnul
        cases hs.symm.trans (Conflict.ofSite_eq_error_iff.mpr ⟨hnul, rfl⟩)
      simp [ih, hnul]

theorem agree_eq_access_iff_fault {fs : Files} {proposals : List Proposal} {f : AccessFault} :
    (agree fs proposals).outcome = .error (.access f) ↔
      (conflictsAt fs ((Groups.ofProposals proposals).sites.filter Site.isContested)).2 = some f := by
  unfold agree
  dsimp only
  generalize conflictsAt fs ((Groups.ofProposals proposals).sites.filter Site.isContested) = r
  obtain ⟨conflicts, fault⟩ := r
  cases fault with
  | some fault => simp
  | none => cases conflicts <;> simp

/-- Merging stops at a fault other than the conflicts just when two proposals differ at a place of a file that cannot
be looked up. -/
theorem agree_eq_access_iff {fs : Files} {proposals : List Proposal} {f : AccessFault} :
    (agree fs proposals).outcome = .error (.access f) ↔
      (∃ path offset, Contested proposals path offset ∧ hasNul path = true) ∧ f = .embeddedNul := by
  have hsites : (∃ s ∈ (Groups.ofProposals proposals).sites.filter Site.isContested, hasNul s.path = true) ↔
      ∃ path offset, Contested proposals path offset ∧ hasNul path = true := by
    simp only [← (Groups.hold_ofProposals proposals).contested_iff]
    constructor
    · intro ⟨s, hs, hnul⟩
      exact ⟨s.path, s.offset, ⟨s, hs, rfl, rfl⟩, hnul⟩
    · rintro ⟨path, offset, ⟨s, hs, rfl, rfl⟩, hnul⟩
      exact ⟨s, hs, hnul⟩
  rw [← hsites, agree_eq_access_iff_fault, conflictsAt_fault]
  split
  next hnul => rw [and_iff_right hnul, Option.some.injEq, eq_comm]
  next hnul => simp only [reduceCtorEq, hnul, false_and]

end ThreadLocal
