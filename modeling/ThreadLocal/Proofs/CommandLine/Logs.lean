import ThreadLocal.Proofs.CommandLine.Worker
import ThreadLocal.Proofs.Work.Course
import ThreadLocal.Proofs.Work.Shards

/-!
What reaches the error stream of a collection by the program's own workers: the logs of all workers, one after the
other.
-/

namespace ThreadLocal

theorem join_flatMap {α : Type} (xs : List α) (f : α → List String) :
    String.join (xs.flatMap f) = String.join (xs.map fun x => String.join (f x)) := by
  induction xs with
  | nil => rfl
  | cons x rest ih => rw [List.flatMap_cons, String.join_append, List.map_cons, String.join_cons, ih]

theorem join_map_eq_empty {α : Type} {xs : List α} {f : α → String} (h : ∀ x ∈ xs, f x = "") :
    String.join (xs.map f) = "" := by
  induction xs with
  | nil => rfl
  | cons x rest ih =>
    obtain ⟨hx, hrest⟩ := List.forall_mem_cons.mp h
    rw [List.map_cons, String.join_cons, hx, ih hrest, String.append_empty]

theorem Running.complaints_handOver {r : Running} (takes : r.worker.breaksPipe = false) (command : List String) :
    String.join ((r.handOver command).map Step.complaints) = r.worker.complaints := by
  simp [handOver, takes, Step.complaints]

/-- The steps of a collection in which every worker answers carry what the workers complain of. -/
theorem complaints_of_steps {command : List String} {running : List Running} {announced summary : Notice}
    (take : ∀ r ∈ running, r.worker.breaksPipe = false) :
    String.join ((Step.said announced :: running.flatMap (Running.handOver command) ++
      (running.flatMap Running.heard ++ [Step.said summary])).map Step.complaints) =
        String.join (running.map fun r => r.worker.complaints) := by
  -- a log belongs to the step that closes the request, so the answers carry none
  have hheard : String.join ((running.flatMap Running.heard).map Step.complaints) = "" := by
    apply join_map_eq_empty
    simp only [Running.heard, List.mem_flatMap, List.mem_cons, List.not_mem_nil, or_false]
    rintro _ ⟨r, -, rfl | rfl⟩ <;> rfl
  have hhanded : String.join ((running.flatMap (Running.handOver command)).map Step.complaints) =
      String.join (running.map fun r => r.worker.complaints) := by
    rw [List.map_flatMap, join_flatMap]
    exact congrArg _ (List.map_congr_left fun r hr => Running.complaints_handOver (take r hr) command)
  rw [List.cons_append, List.map_cons, List.map_append, List.map_append, String.join_cons, String.join_append,
    String.join_append, hheard, hhanded]
  simp [Step.complaints]

namespace CommandLine

variable {fs : Files} {frontEnd : FrontEnd} {launcher : List String} {level : Int}

/-- What a worker that was started at a level logs about its item. -/
def workerLog (fs : Files) (frontEnd : FrontEnd) (level : Int) (item : WorkItem) : List (String × String) :=
  Log.entries (threshold (workerOptions level)) ((Request.ofItem item).perform fs (.ok frontEnd)).notices

/-- A collection that succeeds writes the logs of its workers, and each of these has performed its item. -/
theorem complaints_of_collect {work : WorkItem} {parallelism : Int} (low : 1 ≤ parallelism)
    (high : parallelism < Nat.pow 2 53) {proposals : List Proposal}
    (done : (collect (launcher ++ workerArguments (forwardedLevel level))
      (ownWorkers fs (.ok frontEnd) launcher) work parallelism).outcome = .ok proposals) :
    ∃ parts : List (List String), parts.flatten = work.sourceFiles ∧
      String.join ((collect (launcher ++ workerArguments (forwardedLevel level))
        (ownWorkers fs (.ok frontEnd) launcher) work parallelism).steps.map Step.complaints) =
          String.join ((parts.flatMap fun part => workerLog fs frontEnd level (work.withSourceFiles part)).map
            Log.line) ∧
      ∀ part ∈ parts, ∃ answer,
        ((Request.ofItem (work.withSourceFiles part)).perform fs (.ok frontEnd)).outcome = .ok answer := by
  obtain ⟨parts, hcut, hwhole, -⟩ := shards_ok work.sourceFiles low high
  rcases collect_cases (launcher ++ workerArguments (forwardedLevel level)) (ownWorkers fs (.ok frontEnd) launcher)
    hcut with ⟨running, answers, hstaffed, hanswers, hcollect⟩ | ⟨_, _, _, _, _, -, -, -, hcollect⟩ |
      ⟨_, _, _, _, -, -, -, hcollect⟩
  · have hperformed : ∀ r ∈ running, ∃ answer,
        ((Request.ofItem r.item).perform fs (.ok frontEnd)).outcome = .ok answer := by
      intro r hr
      obtain ⟨answer, hanswer⟩ := Running.answer_of_map_eq hanswers r hr
      exact ⟨answer, (answer_eq_ok_iff (hstaffed.worker_eq r hr) answer).mp hanswer⟩
    have hworkers : ∀ r ∈ running, r.worker.breaksPipe = false ∧
        r.worker.complaints = String.join ((workerLog fs frontEnd level r.item).map Log.line) := by
      intro r hr
      obtain ⟨answer, hdone⟩ := hperformed r hr
      exact complaints_of_ownWorkers (hstaffed.worker_eq r hr) hdone
    refine ⟨parts, hwhole, ?_, ?_⟩
    · have hsteps := congrArg Collection.steps hcollect
      have hlogs : (running.map fun r => r.worker.complaints) =
          (running.map Running.item).map fun item => String.join ((workerLog fs frontEnd level item).map Log.line) := by
        rw [List.map_map]
        exact List.map_congr_left fun r hr => (hworkers r hr).2
      rw [hsteps]
      refine (complaints_of_steps fun r hr => (hworkers r hr).1).trans ?_
      rw [hlogs, hstaffed.items_eq, List.map_flatMap, join_flatMap, List.map_map]
      rfl
    · intro part hpart
      have hitem := List.mem_map_of_mem (f := work.withSourceFiles) hpart
      rw [← hstaffed.items_eq] at hitem
      obtain ⟨r, hr, hitem⟩ := List.mem_map.mp hitem
      exact hitem ▸ hperformed r hr
  · rw [hcollect] at done
    cases done
  · rw [hcollect] at done
    cases done

end CommandLine
end ThreadLocal
