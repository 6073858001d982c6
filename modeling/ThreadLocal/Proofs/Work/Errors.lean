import ThreadLocal.Proofs.Analysis.Errors
import ThreadLocal.Proofs.Work.Performance

/-!
The errors that are logged when a request is performed: those of its source files, in order.
-/

namespace ThreadLocal

variable {fs : Files} {threshold : Int}

theorem Performance.errors_ofFiles (enabled : Level.effective threshold ≤ Level.error) {a : Analyzer}
    (sound : a.known.Sound fs a.root) {files : List String}
    (noPercent : ∀ path ∈ files, '%' ∉ (fs.shown path).toList) {proposals : List Proposal}
    (done : (ofFiles fs a files).outcome = .ok proposals) :
    Log.errors threshold (ofFiles fs a files).notices =
      files.flatMap fun path => (a.complaints fs path).map (Log.errorAbout (fs.shown path)) := by
  induction files generalizing a proposals with
  | nil => rfl
  | cons path rest ih =>
    obtain ⟨hpath, hrest⟩ := List.forall_mem_cons.mp noPercent
    obtain ⟨hnotices, houtcome, hsound⟩ := Analyzer.analyze_of_sound sound path
    unfold ofFiles at done ⊢
    cases hfirst : (a.analyze fs path).outcome with
    | error f => simp [hfirst] at done
    | ok first =>
      simp only [hfirst] at done ⊢
      cases hothers : (ofFiles fs { a with known := (a.analyze fs path).known } rest).outcome with
      | error f => simp [hothers, Except.map] at done
      | ok others =>
        rw [Log.errors_append, List.flatMap_cons, hnotices,
          Analyzer.errors_analyze enabled hpath (houtcome.symm.trans hfirst)]
        exact congrArg _ (@ih { a with known := (a.analyze fs path).known } hsound hrest others hothers)

/-- What is complained of in the source files of an item. -/
def WorkItem.complaints (w : WorkItem) (fs : Files) (frontEnd : FrontEnd) : List (String × String) :=
  match Analyzer.make fs frontEnd w.sourceRoot w.includePaths with
  | .error _ => []
  | .ok a => w.sourceFiles.flatMap fun path => (a.complaints fs path).map (Log.errorAbout (fs.shown path))

theorem WorkItem.complaints_parts {w : WorkItem} {parts : List (List String)} (whole : parts.flatten = w.sourceFiles)
    (frontEnd : FrontEnd) :
    (parts.flatMap fun part => (w.withSourceFiles part).complaints fs frontEnd) = w.complaints fs frontEnd := by
  simp only [complaints, withSourceFiles, ← whole]
  cases Analyzer.make fs frontEnd w.sourceRoot w.includePaths with
  | error f => simp
  | ok a =>
    dsimp only
    rw [← List.flatMap_id, List.flatMap_assoc]
    rfl

/-- The errors of a performed request are the complaints about its source files. -/
theorem Request.errors_perform (enabled : Level.effective threshold ≤ Level.error) {w : WorkItem}
    {frontEnd : FrontEnd} (noPercent : ∀ path ∈ w.sourceFiles, '%' ∉ (fs.shown path).toList)
    {proposals : List Proposal} (done : ((Request.ofItem w).perform fs (.ok frontEnd)).outcome = .ok proposals) :
    Log.errors threshold ((Request.ofItem w).perform fs (.ok frontEnd)).notices = w.complaints fs frontEnd := by
  obtain ⟨a, hmake, -⟩ := Request.perform_eq_ok_iff.mp done
  simp only [perform, ofItem, setUp, Except.mapError, Option.getD_some, hmake, WorkItem.complaints] at done ⊢
  rw [Performance.outcome_ofAnalyzer] at done
  simp only [Performance.ofAnalyzer, done]
  rw [Log.errors_append, Performance.errors_ofFiles enabled (Analyzer.sound_of_make hmake) noPercent done,
    Log.errors_cons_of_mild (by simp [Performance.summary, Notice.info]), Log.errors_nil, List.append_nil]

end ThreadLocal
