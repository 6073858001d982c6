import ThreadLocal.Proofs.CommandLine.Collection
import ThreadLocal.Proofs.Run.Commit
import ThreadLocal.Proofs.Run.Keyword

/-!
A whole run by the program's own workers depends on which source files there are: their order, repetitions
among them and the number of workers make no difference.
-/

namespace ThreadLocal

variable {fs : Files} {frontEnd : FrontEnd} {launcher : List String} {level : Int} {work : WorkItem}
  {parallelism : Int} {fate : Fate}

theorem run_of_not_analyzable (low : 1 ≤ parallelism) (high : parallelism < Nat.pow 2 53)
    (hnot : ¬ work.Analyzable fs frontEnd) :
    let r := run fs (launcher ++ CommandLine.workerArguments (forwardedLevel level))
      (CommandLine.ownWorkers fs (.ok frontEnd) launcher) work parallelism false fate.disk
    ∃ f, r.outcome = .error (.collect (.worker f)) ∧ r.files = fs := by
  obtain ⟨f, hf⟩ := (@CommandLine.collect_ownWorkers fs frontEnd launcher level work parallelism low high).2 hnot
  exact ⟨f, run_of_collect_error hf⟩

/-- If every source file can be analyzed, the run returns a plan of all that they propose, and leaves of it
what the fate of each file makes of it. -/
theorem run_of_analyzable (tree : fs.IsTree) (low : 1 ≤ parallelism) (high : parallelism < Nat.pow 2 53)
    (hall : work.Analyzable fs frontEnd) :
    let r := run fs (launcher ++ CommandLine.workerArguments (forwardedLevel level))
      (CommandLine.ownWorkers fs (.ok frontEnd) launcher) work parallelism false fate.disk
    ∃ (proposals : List Proposal) (plan : Plan) (w : Writing), (∀ p, p ∈ proposals ↔ work.Proposes fs frontEnd p) ∧
      plan.Represents proposals ∧ w.Leaves fs fate proposals ∧
      r.outcome = .ok ⟨plan, w.failures⟩ ∧ r.files = w.files := by
  obtain ⟨proposals, hcollect, hmem⟩ :=
    (@CommandLine.collect_ownWorkers fs frontEnd launcher level work parallelism low high).1 hall
  have grounded : ∀ p ∈ proposals, p.Grounded fs := fun p hp => ((hmem p).mp hp).grounded
  have hagree : (agree fs proposals).outcome = .ok (Groups.ofProposals proposals).plan :=
    agree_eq_ok_iff.mpr ⟨agreeing_of_grounded grounded, rfl⟩
  have hrep := represents_of_agree hagree
  exact ⟨proposals, _, _, hmem, hrep, hrep.leaves grounded tree fate, run_of_agree hcollect hagree⟩

/-- Two runs over the same source files, in any order and with any repetitions, by any numbers of workers: if
some source file cannot be analyzed, a worker fails in both and no file changes; otherwise both return the same
edits for every path and the same failures, and every file ends the same. -/
theorem run_independent_of_order (tree : fs.IsTree) {files : List String}
    (same : ∀ path, path ∈ work.sourceFiles ↔ path ∈ files) {parallelism' : Int} (low : 1 ≤ parallelism)
    (high : parallelism < Nat.pow 2 53) (low' : 1 ≤ parallelism') (high' : parallelism' < Nat.pow 2 53) :
    let command := launcher ++ CommandLine.workerArguments (forwardedLevel level)
    let workers := CommandLine.ownWorkers fs (.ok frontEnd) launcher
    let r := run fs command workers work parallelism false fate.disk
    let r' := run fs command workers (work.withSourceFiles files) parallelism' false fate.disk
    (¬ work.Analyzable fs frontEnd ∧ ∃ f f', r.outcome = .error (.collect (.worker f)) ∧
      r'.outcome = .error (.collect (.worker f')) ∧ r.files = fs ∧ r'.files = fs) ∨
    work.Analyzable fs frontEnd ∧ ∃ o o', r.outcome = .ok o ∧ r'.outcome = .ok o' ∧
      (∀ path, Table.get? o.plan path = Table.get? o'.plan path) ∧
      (∀ path, Table.get? o.failures path = Table.get? o'.failures path) ∧
      ∀ l, r.files.entryAt? l = r'.files.entryAt? l := by
  intro command workers r r'
  by_cases hall : work.Analyzable fs frontEnd
  · right
    obtain ⟨proposals, plan, w, hmem, hrep, hleaves, hr, hfiles⟩ :=
      @run_of_analyzable fs frontEnd launcher level work parallelism fate tree low high hall
    have hall' := (WorkItem.analyzable_congr same).mp hall
    obtain ⟨proposals', plan', w', hmem', hrep', hleaves', hr', hfiles'⟩ :=
      @run_of_analyzable fs frontEnd launcher level _ parallelism' fate tree low' high' hall'
    have hsame : ∀ p, p ∈ proposals ↔ p ∈ proposals' := by
      intro p
      rw [hmem, hmem', WorkItem.proposes_congr same]
    obtain ⟨hfailures, hentries⟩ := hleaves.congr hleaves' hsame fun p hp => ((hmem p).mp hp).grounded
    refine ⟨hall, _, _, hr, hr', hrep.get?_eq hrep' hsame, hfailures, ?_⟩
    intro l
    rw [show r.files = w.files from hfiles, show r'.files = w'.files from hfiles']
    exact hentries l
  · left
    obtain ⟨f, hf, hkept⟩ :=
      @run_of_not_analyzable fs frontEnd launcher level work parallelism fate low high hall
    obtain ⟨f', hf', hkept'⟩ :=
      @run_of_not_analyzable fs frontEnd launcher level _ parallelism' fate low' high'
        (mt (WorkItem.analyzable_congr same).mpr hall)
    exact ⟨hall, f, f', hf, hf', hkept, hkept'⟩

namespace SharedHeader

/-- A run of the program over some source files. -/
def runOver (files : List String) (parallelism : Int) : Run :=
  run SharedHeader.files (["cli"] ++ CommandLine.workerArguments (forwardedLevel Level.info))
    (CommandLine.ownWorkers SharedHeader.files (.ok SharedHeader.frontEnd) ["cli"])
    (SharedHeader.work.withSourceFiles files) parallelism false Fate.sound.disk

end SharedHeader

/-- One worker for two source files does what two workers do for three, the same ones in another order. -/
theorem sharedHeader_run_independent : ∃ o o',
    (SharedHeader.runOver ["/src/one.c", "/src/two.c"] 1).outcome = .ok o ∧
    (SharedHeader.runOver ["/src/two.c", "/src/one.c", "/src/two.c"] 2).outcome = .ok o' ∧
    (∀ path, Table.get? o.plan path = Table.get? o'.plan path) ∧
    (∀ path, Table.get? o.failures path = Table.get? o'.failures path) ∧
    ∀ l, (SharedHeader.runOver ["/src/one.c", "/src/two.c"] 1).files.entryAt? l =
      (SharedHeader.runOver ["/src/two.c", "/src/one.c", "/src/two.c"] 2).files.entryAt? l := by
  have hall : SharedHeader.work.Analyzable SharedHeader.files SharedHeader.frontEnd :=
    (WorkItem.perform_ok_iff (by decide)).mp ⟨SharedHeader.answers.flatten, by decide +kernel⟩
  have same : ∀ path, path ∈ SharedHeader.work.sourceFiles ↔ path ∈ ["/src/two.c", "/src/one.c", "/src/two.c"] := by
    intro path
    simp only [SharedHeader.work, List.mem_cons, List.not_mem_nil, or_false]
    grind
  rcases @run_independent_of_order SharedHeader.files SharedHeader.frontEnd ["cli"] Level.info
    SharedHeader.work 1 Fate.sound SharedHeader.isTree ["/src/two.c", "/src/one.c", "/src/two.c"] same 2
    (by decide) (by decide) (by decide) (by decide) with ⟨hnot, -⟩ | ⟨-, h⟩
  · exact absurd hall hnot
  · exact h

end ThreadLocal
