import ThreadLocal.Proofs.Edit.Conflicts
import ThreadLocal.Proofs.Run.Commit
import ThreadLocal.Proofs.Work.Messages
import ThreadLocal.Proofs.Work.Pool

/-!
With what a run can fail: a failure of a worker or conflicting proposals, and one thing more.
-/

namespace ThreadLocal

/-- The failures that callers are told of. -/
inductive RunFault.IsDocumented : RunFault → Prop where
  | worker (failure : WorkerFailure) : IsDocumented (.collect (.worker failure))
  | conflicts (conflicts : List Conflict) : IsDocumented (.disagreement (.conflicts conflicts))

theorem run_error_cases {fs : Files} {command : List String} {workers : Workers} {work : WorkItem} {parallelism : Int}
    {dryRun : Bool} {disk : Disk} {f : RunFault}
    (failed : (run fs command workers work parallelism dryRun disk).outcome = .error f) :
    (∃ g, (collect command workers work parallelism).outcome = .error g ∧ f = .collect g) ∨
      ∃ proposals g, (collect command workers work parallelism).outcome = .ok proposals ∧
        (agree fs proposals).outcome = .error g ∧ f = .disagreement g := by
  cases hc : (collect command workers work parallelism).outcome with
  | error g =>
    cases failed.symm.trans (run_of_collect_error hc).1
    exact .inl ⟨g, rfl, rfl⟩
  | ok proposals =>
    cases ha : (agree fs proposals).outcome with
    | error g =>
      cases failed.symm.trans (run_of_disagreement hc ha).1
      exact .inr ⟨proposals, g, rfl, ha, rfl⟩
    | ok plan =>
      cases dryRun with
      | true => cases failed.symm.trans (run_dry hc ha).1
      | false => cases failed.symm.trans (run_of_agree hc ha).1

namespace Clash

def proposals (path : String) : List Proposal :=
  [⟨path, 0, 0, "__thread "⟩, ⟨path, 0, 1, "__thread "⟩]

def workers (path : String) : Workers := fun _ _ _ =>
  .ok ⟨false, true, Bytes.ofText (Response.encode (proposals path) ++ "\n"), 0, ""⟩

def work : WorkItem := ⟨[], ["/a.c"], "/"⟩

theorem contested (path : String) : Contested (proposals path) path 0 :=
  ⟨⟨path, 0, 0, "__thread "⟩, by simp [proposals], ⟨path, 0, 1, "__thread "⟩, by simp [proposals], rfl, rfl, rfl, rfl,
    by simp [Proposal.substitution]⟩

theorem collected (path : String) : (collect ["cli"] (workers path) work 1).outcome = .ok (proposals path) :=
  collect_sending ["cli"] (proposals path) rfl

end Clash

end ThreadLocal
