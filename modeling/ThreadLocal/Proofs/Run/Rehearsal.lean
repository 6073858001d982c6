import ThreadLocal.Proofs.CommandLine.Listing
import ThreadLocal.Proofs.Run.Commit
import ThreadLocal.Proofs.Run.Keyword
import ThreadLocal.Proofs.Work.Messages

/-!
A dry run tells what a run that writes does.
-/

namespace ThreadLocal

variable {fs : Files} {command : List String} {workers : Workers} {work : WorkItem} {parallelism : Int} {disk : Disk}

/-- With and without writing, a run fails alike or returns the same plan. -/
theorem run_plan_of_dry : (run fs command workers work parallelism true disk).outcome.map Outcome.plan =
    (run fs command workers work parallelism false disk).outcome.map Outcome.plan := by
  cases hc : (collect command workers work parallelism).outcome with
  | error f => rw [(run_of_collect_error hc).1, (run_of_collect_error hc).1]
  | ok proposals =>
    cases ha : (agree fs proposals).outcome with
    | error f => rw [(run_of_disagreement hc ha).1, (run_of_disagreement hc ha).1]
    | ok plan =>
      rw [(run_dry hc ha).1, (run_of_agree hc ha).1]
      rfl

namespace CommandLine

/-- A dry run that returned ends by printing its plan. -/
theorem endingOf_dry {r : Run} {o : Outcome} (returned : r.outcome = .ok o) {text : String}
    (printed : planText r.files (byPath o.plan) = (text, none)) (level : Int) :
    (endingOf r level true).code = 0 ∧ (endingOf r level true).output = text ∧ (endingOf r level true).abort = none := by
  simp [endingOf, returned, printed]

end CommandLine

end ThreadLocal
