import ThreadLocal.Proofs.Edit.Agreement
import ThreadLocal.Proofs.Edit.Failures
import ThreadLocal.Run

/-!
A run fails before it writes or not at all.
-/

namespace ThreadLocal

variable {fs : Files} {command : List String} {workers : Workers} {work : WorkItem} {parallelism : Int}
  {dryRun : Bool} {disk : Disk}

theorem run_of_collect_error {f : CollectFault} (h : (collect command workers work parallelism).outcome = .error f) :
    (run fs command workers work parallelism dryRun disk).outcome = .error (.collect f) ∧
      (run fs command workers work parallelism dryRun disk).files = fs := by
  simp [run, h]

theorem run_of_disagreement {proposals : List Proposal} {f : Disagreement}
    (hc : (collect command workers work parallelism).outcome = .ok proposals)
    (ha : (agree fs proposals).outcome = .error f) :
    (run fs command workers work parallelism dryRun disk).outcome = .error (.disagreement f) ∧
      (run fs command workers work parallelism dryRun disk).files = fs := by
  simp [run, hc, ha]

theorem run_dry {proposals : List Proposal} {plan : Plan}
    (hc : (collect command workers work parallelism).outcome = .ok proposals)
    (ha : (agree fs proposals).outcome = .ok plan) :
    (run fs command workers work parallelism true disk).outcome = .ok ⟨plan, []⟩ ∧
      (run fs command workers work parallelism true disk).files = fs := by
  simp [run, hc, ha]

/-- Once all proposals are there and agree, the run returns what writing the plan comes to. -/
theorem run_of_agree {proposals : List Proposal} {plan : Plan}
    (hc : (collect command workers work parallelism).outcome = .ok proposals)
    (ha : (agree fs proposals).outcome = .ok plan) :
    (run fs command workers work parallelism false disk).outcome =
        .ok ⟨plan, (writePlan fs [] plan disk).failures⟩ ∧
      (run fs command workers work parallelism false disk).files = (writePlan fs [] plan disk).files := by
  simp [run, hc, ha, writePlan_escaped]

/-- A run returns only a plan of proposals that all agree. -/
theorem agree_of_run {o : Outcome} (returned : (run fs command workers work parallelism dryRun disk).outcome = .ok o) :
    ∃ proposals, (collect command workers work parallelism).outcome = .ok proposals ∧
      (agree fs proposals).outcome = .ok o.plan := by
  cases hc : (collect command workers work parallelism).outcome with
  | error f => cases returned.symm.trans (run_of_collect_error hc).1
  | ok proposals =>
    cases ha : (agree fs proposals).outcome with
    | error f => cases returned.symm.trans (run_of_disagreement hc ha).1
    | ok plan =>
      cases dryRun with
      | true =>
        cases returned.symm.trans (run_dry hc ha).1
        exact ⟨proposals, rfl, ha⟩
      | false =>
        cases returned.symm.trans (run_of_agree hc ha).1
        exact ⟨proposals, rfl, ha⟩

/-- A run leaves the files as they were, or it is no dry run and returns. -/
theorem run_cases (fs : Files) (command : List String) (workers : Workers) (work : WorkItem) (parallelism : Int)
    (dryRun : Bool) (disk : Disk) :
    let r := run fs command workers work parallelism dryRun disk
    r.files = fs ∨ dryRun = false ∧ ∃ o, r.outcome = .ok o := by
  cases hc : (collect command workers work parallelism).outcome with
  | error f => exact .inl (run_of_collect_error hc).2
  | ok proposals =>
    cases ha : (agree fs proposals).outcome with
    | error f => exact .inl (run_of_disagreement hc ha).2
    | ok plan =>
      cases dryRun with
      | true => exact .inl (run_dry hc ha).2
      | false => exact .inr ⟨rfl, _, (run_of_agree hc ha).1⟩

end ThreadLocal
