import ThreadLocal.Proofs.Analysis.Again
import ThreadLocal.Proofs.CommandLine.Collection
import ThreadLocal.Proofs.CommandLine.Logs
import ThreadLocal.Proofs.Run.Independence
import ThreadLocal.Proofs.Work.Errors

/-!
Running again: after a run that returned, and once the variables that got the keyword are reported as thread-local,
there is nothing left to do.
-/

namespace ThreadLocal

namespace WorkItem

variable {w : WorkItem} {fs gs : Files} {frontEnd frontEnd' : FrontEnd}

/-- Every source file is reported again: under the root of the sources, with the include paths. -/
def ReportedAgain (w : WorkItem) (fs gs : Files) (frontEnd frontEnd' : FrontEnd) : Prop :=
  ∀ root, fs.resolve (Path.ofText w.sourceRoot) = .ok root → ∀ path ∈ w.sourceFiles,
    Node.ReportedAgain fs gs root (frontEnd.parse fs path (Analyzer.includeArguments w.includePaths))
      (frontEnd'.parse gs path (Analyzer.includeArguments w.includePaths))

/-- Source files that could be analyzed can be analyzed again, and nothing is proposed for them. -/
theorem analyzable_again (same : Files.SameShape fs gs) (again : w.ReportedAgain fs gs frontEnd frontEnd')
    (first : w.Analyzable fs frontEnd) :
    w.Analyzable gs frontEnd' ∧ ∀ p, ¬ w.Proposes gs frontEnd' p := by
  have hquiet : ∀ path ∈ w.sourceFiles, ∃ a, Analyzer.make gs frontEnd' w.sourceRoot w.includePaths = .ok a ∧
      (a.forgetful.analyze gs path).outcome = .ok [] := by
    intro path hpath
    obtain ⟨a, hmake, proposals, hdone⟩ := first path hpath
    obtain ⟨root, hroot, rfl⟩ := Analyzer.make_eq_ok_iff.mp hmake
    let a : Analyzer := ⟨frontEnd, root, Analyzer.includeArguments w.includePaths, Memory.empty⟩
    let a' : Analyzer := ⟨frontEnd', root, Analyzer.includeArguments w.includePaths, Memory.empty⟩
    have hmake' : Analyzer.make gs frontEnd' w.sourceRoot w.includePaths = .ok a' :=
      Analyzer.make_eq_ok_iff.mpr ⟨root, (same.resolve_eq _).trans hroot, rfl⟩
    exact ⟨a', hmake', @Analyzer.analyze_again a a' fs gs path same rfl (again root hroot path hpath) _ hdone⟩
  constructor
  · intro path hpath
    obtain ⟨a, hmake, hdone⟩ := hquiet path hpath
    exact ⟨a, hmake, [], hdone⟩
  · intro p ⟨path, hpath, a, hmake, found, hfound, hproposed⟩
    obtain ⟨a', hmake', hdone⟩ := hquiet path hpath
    obtain rfl := Except.ok.inj (hmake.symm.trans hmake')
    have hnone := (Analyzer.proposals_of_analyze hdone).symm
    rw [List.filterMap_eq_nil_iff.mp hnone found hfound] at hproposed
    cases hproposed

end WorkItem

section Run

variable {fs : Files} {command : List String} {workers : Workers} {work : WorkItem} {parallelism : Int}
  {dryRun : Bool}

/-- Whatever becomes of the files, a run changes only what they hold. -/
theorem run_sameShape (fs : Files) (command : List String) (workers : Workers) (work : WorkItem) (parallelism : Int)
    (dryRun : Bool) (fate : Fate) :
    Files.SameShape fs (run fs command workers work parallelism dryRun fate.disk).files := by
  cases hc : (collect command workers work parallelism).outcome with
  | error f =>
    rw [(run_of_collect_error hc).2]
    exact .refl fs
  | ok proposals =>
    cases ha : (agree fs proposals).outcome with
    | error f =>
      rw [(run_of_disagreement hc ha).2]
      exact .refl fs
    | ok plan =>
      cases dryRun with
      | true =>
        rw [(run_dry hc ha).2]
        exact .refl fs
      | false =>
        rw [(run_of_agree hc ha).2]
        exact writePlan_sameShape fs [] plan fate

/-- After its collection a run only logs. -/
theorem run_steps (fs : Files) (command : List String) (workers : Workers) (work : WorkItem) (parallelism : Int)
    (dryRun : Bool) (disk : Disk) : ∃ notices : List Notice,
      (run fs command workers work parallelism dryRun disk).steps =
        (collect command workers work parallelism).steps ++ notices.map .said := by
  unfold run
  dsimp only
  split
  next => exact ⟨[], (List.append_nil _).symm⟩
  next proposals _ =>
    split
    next => exact ⟨_, rfl⟩
    next plan _ =>
      split
      next => exact ⟨(agree fs proposals).notices ++ [Run.planned plan], by simp⟩
      next =>
        split <;>
          exact ⟨(agree fs proposals).notices ++ [Run.planned plan] ++ (writePlan fs [] plan disk).notices, by simp⟩

/-- Only workers write to the error stream of a run, its own log aside. -/
theorem complaints_run (fs : Files) (command : List String) (workers : Workers) (work : WorkItem) (parallelism : Int)
    (dryRun : Bool) (disk : Disk) :
    String.join ((run fs command workers work parallelism dryRun disk).steps.map Step.complaints) =
      String.join ((collect command workers work parallelism).steps.map Step.complaints) := by
  obtain ⟨notices, hsteps⟩ := run_steps fs command workers work parallelism dryRun disk
  have hsilent : String.join ((notices.map Step.said).map Step.complaints) = "" := by
    apply join_map_eq_empty
    simp [Step.complaints]
  rw [hsteps, List.map_append, String.join_append, hsilent, String.append_empty]

/-- If nothing is collected, nothing is planned and nothing is written. -/
theorem run_of_nothing {gs : Files} {disk : Disk} (hc : (collect command workers work parallelism).outcome = .ok []) :
    (run gs command workers work parallelism dryRun disk).outcome = .ok ⟨[], []⟩ ∧
      (run gs command workers work parallelism dryRun disk).files = gs := by
  have hagree : (agree gs []).outcome = .ok [] := rfl
  cases dryRun with
  | true => exact run_dry hc hagree
  | false => exact run_of_agree hc hagree

end Run

/-- A run by the program's own workers, started at a level. -/
def CommandLine.ownRun (fs : Files) (frontEnd : FrontEnd) (launcher : List String) (level : Int) (work : WorkItem)
    (parallelism : Int) (dryRun : Bool) (disk : Disk) : Run :=
  run fs (launcher ++ workerArguments (forwardedLevel level)) (ownWorkers fs (.ok frontEnd) launcher) work parallelism
    dryRun disk

/-- After a run that returned, when every source file is reported again: another run, by any number of workers, dry or
not, collects and plans nothing and leaves the files as they are. What its workers log are the complaints about the
source files. -/
theorem run_again_idle {fs gs : Files} {frontEnd frontEnd' : FrontEnd} {launcher launcher' : List String}
    {level level' : Int} {work : WorkItem} {parallelism parallelism' : Int} {fate : Fate} {o : Outcome}
    (low : 1 ≤ parallelism) (high : parallelism < Nat.pow 2 53)
    (returned : (CommandLine.ownRun fs frontEnd launcher level work parallelism false fate.disk).outcome = .ok o)
    (left : (CommandLine.ownRun fs frontEnd launcher level work parallelism false fate.disk).files = gs)
    (again : work.ReportedAgain fs gs frontEnd frontEnd')
    (low' : 1 ≤ parallelism') (high' : parallelism' < Nat.pow 2 53) (dryRun : Bool) (disk : Disk) :
    let r := CommandLine.ownRun gs frontEnd' launcher' level' work parallelism' dryRun disk
    (collect (launcher' ++ CommandLine.workerArguments (forwardedLevel level'))
      (CommandLine.ownWorkers gs (.ok frontEnd') launcher') work parallelism').outcome = .ok [] ∧
    r.outcome = .ok ⟨[], []⟩ ∧ r.files = gs ∧
    ∃ parts : List (List String), parts.flatten = work.sourceFiles ∧
      let log := parts.flatMap fun part => CommandLine.workerLog gs frontEnd' level' (work.withSourceFiles part)
      String.join (r.steps.map Step.complaints) = String.join (log.map Log.line) ∧
      ((∀ path ∈ work.sourceFiles, '%' ∉ (gs.shown path).toList) →
        (log.filter fun e => e.1 = Level.name Level.error) = work.complaints gs frontEnd') := by
  have same : Files.SameShape fs gs := left ▸ run_sameShape fs _ _ work parallelism false fate
  -- with a source file that cannot be analyzed the first run would not have returned
  have hall : work.Analyzable fs frontEnd := by
    by_contra hnot
    obtain ⟨f, hf⟩ := (@CommandLine.collect_ownWorkers fs frontEnd launcher level work parallelism low high).2 hnot
    cases returned.symm.trans (run_of_collect_error hf).1
  obtain ⟨hall', hnothing⟩ := WorkItem.analyzable_again same again hall
  obtain ⟨proposals, hcollect, hmem⟩ :=
    (@CommandLine.collect_ownWorkers gs frontEnd' launcher' level' work parallelism' low' high').1 hall'
  obtain rfl : proposals = [] := List.eq_nil_iff_forall_not_mem.mpr fun p hp => hnothing p ((hmem p).mp hp)
  obtain ⟨houtcome, hfiles⟩ := @run_of_nothing _ _ work parallelism' dryRun gs disk hcollect
  obtain ⟨parts, hwhole, hlog, hperformed⟩ := CommandLine.complaints_of_collect low' high' hcollect
  refine ⟨hcollect, houtcome, hfiles, parts, hwhole, ?_, ?_⟩
  · rw [CommandLine.ownRun, complaints_run, hlog]
  · intro hplain
    rw [List.filter_flatMap, ← WorkItem.complaints_parts hwhole]
    apply List.flatMap_congr
    intro part hpart
    obtain ⟨answer, hdone⟩ := hperformed part hpart
    have hnames : ∀ path ∈ part, '%' ∉ (gs.shown path).toList := fun path hpath =>
      hplain path (hwhole ▸ List.mem_flatten.mpr ⟨part, hpart, hpath⟩)
    exact Request.errors_perform (CommandLine.errors_enabled level') hnames hdone

/-! The header again, now that its variable is thread-local. -/

namespace SharedHeader

theorem analyzable : work.Analyzable files frontEnd :=
  (WorkItem.perform_ok_iff (by decide)).mp ⟨answers.flatten, by decide +kernel⟩

/-- The declaration as it is reported after the keyword was put in. -/
def declarationAgain (header : String) : NodeInfo :=
  { declaration header with threadStorage := .dynamic, finish := ⟨some header, 21⟩, place := ⟨some header, 1, 21⟩ }

def unitAgain (header : String) : Node :=
  .mk { declarationAgain header with kind := .unitRoot } [.mk (declarationAgain header) []]

def frontEndAgain : FrontEnd :=
  .ofTrees [("/src/one.c", .ok (unitAgain "/src/a.h")), ("/src/two.c", .ok (unitAgain "/src/./alias.h"))]

theorem unit_reportedAgain {header : String} {p : Proposal} (gs : Files)
    (proposed : Found.verdict ⟨declaration header, [{ declaration header with kind := .unitRoot }]⟩ files ["src"] =
      .ok (some (.proposed p))) :
    Node.ReportedAgain files gs ["src"] (.ok (unit header)) (.ok (unitAgain header)) := by
  have hroot : NodeKind.unitRoot ≠ NodeKind.variableDecl := by decide
  refine .tree (.cons ⟨rfl, rfl, rfl, rfl, rfl, ?_, ?_⟩ (.cons ⟨rfl, rfl, rfl, rfl, rfl, ?_, ?_⟩ .nil .nil) .nil)
  · intro hkind
    exact absurd hkind hroot
  · intro hkind
    exact absurd hkind hroot
  · intro _ _ hnone
    cases hnone
  · intro _ cause hcause
    cases proposed.symm.trans hcause

theorem work_reportedAgain (gs : Files) : work.ReportedAgain files gs frontEnd frontEndAgain := by
  intro root hroot path hpath
  have hsrc : files.resolve (Path.ofText "/src") = .ok ["src"] := by decide +kernel
  obtain rfl : ["src"] = root := Except.ok.inj (hsrc.symm.trans hroot)
  simp only [work, List.mem_cons, List.not_mem_nil, or_false] at hpath
  rcases hpath with rfl | rfl
  · exact @unit_reportedAgain "/src/a.h" ⟨"/src/a.h", 7, 0, threadKeyword⟩ gs (by decide +kernel)
  · exact @unit_reportedAgain "/src/./alias.h" ⟨"/src/a.h", 7, 0, threadKeyword⟩ gs (by decide +kernel)

end SharedHeader

/-- Two workers put the keyword into the header, and one worker then finds nothing to do. -/
theorem sharedHeader_run_again_idle : ∃ o,
    (CommandLine.ownRun SharedHeader.files SharedHeader.frontEnd ["cli"] Level.info SharedHeader.work 2 false
      Fate.sound.disk).outcome = .ok o ∧
    let gs := (CommandLine.ownRun SharedHeader.files SharedHeader.frontEnd ["cli"] Level.info SharedHeader.work 2 false
      Fate.sound.disk).files
    let r := CommandLine.ownRun gs SharedHeader.frontEndAgain ["cli"] Level.error SharedHeader.work 1 false Disk.sound
    r.outcome = .ok ⟨[], []⟩ ∧ r.files = gs := by
  have hlow : (1 : Int) ≤ 2 := by decide
  have hhigh : (2 : Int) < Nat.pow 2 53 := by decide
  have hlow' : (1 : Int) ≤ 1 := by decide
  have hhigh' : (1 : Int) < Nat.pow 2 53 := by decide
  obtain ⟨proposals, plan, w, -, -, -, houtcome, -⟩ := @run_of_analyzable SharedHeader.files SharedHeader.frontEnd ["cli"]
    Level.info SharedHeader.work 2 Fate.sound SharedHeader.isTree hlow hhigh SharedHeader.analyzable
  refine ⟨_, houtcome, ?_⟩
  obtain ⟨-, hnothing, hkept, -⟩ := @run_again_idle SharedHeader.files _ SharedHeader.frontEnd
    SharedHeader.frontEndAgain ["cli"] ["cli"] Level.info Level.error SharedHeader.work 2 1 Fate.sound _ hlow hhigh houtcome rfl
    (SharedHeader.work_reportedAgain _) hlow' hhigh' false Disk.sound
  exact ⟨hnothing, hkept⟩

end ThreadLocal
