import ThreadLocal.Edit.Agreement
import ThreadLocal.Edit.Writer
import ThreadLocal.Work.Performance
import ThreadLocal.Work.Pool

/-!
A whole run: collect the proposals of all workers, merge them into a plan, and write it. Nothing is written
before every worker has succeeded and all proposals agree.
-/

namespace ThreadLocal

inductive RunFault where
  | collect (fault : CollectFault)
  | disagreement (fault : Disagreement)
  | write (fault : WriteFault)
deriving DecidableEq, Repr

def RunFault.message : RunFault → String
  | .collect f => f.message
  | .disagreement f => f.message
  | .write f => f.message

structure Outcome where
  plan : Plan
  failures : Failures
deriving DecidableEq, Repr

/-- Whether every planned file was written. -/
def Outcome.isComplete (o : Outcome) : Bool :=
  o.failures.isEmpty

/-- The steps of a run, the files after it, and what it comes to. -/
structure Run where
  steps : List Step
  files : Files
  outcome : Except RunFault Outcome

namespace Run

def planned (plan : Plan) : Notice :=
  .info "%d rewrite(s) across %d file(s)" [.int plan.editCount, .int plan.length]

end Run

/-- Runs with workers started by `command`; a dry run stops at the plan. -/
def run (fs : Files) (command : List String) (workers : Workers) (work : WorkItem) (parallelism : Int)
    (dryRun : Bool) (disk : Disk := Disk.sound) : Run :=
  let collection := collect command workers work parallelism
  match collection.outcome with
  | .error f => ⟨collection.steps, fs, .error (.collect f)⟩
  | .ok proposals =>
    let agreement := agree fs proposals
    let steps := collection.steps ++ agreement.notices.map .said
    match agreement.outcome with
    | .error f => ⟨steps, fs, .error (.disagreement f)⟩
    | .ok plan =>
      let steps := steps ++ [.said (Run.planned plan)]
      if dryRun then ⟨steps, fs, .ok ⟨plan, []⟩⟩
      else
        let r := writePlan fs [] plan disk
        let steps := steps ++ r.notices.map .said
        match r.escaped with
        | some f => ⟨steps, r.files, .error (.write f)⟩
        | none => ⟨steps, r.files, .ok ⟨plan, r.failures⟩⟩

end ThreadLocal
