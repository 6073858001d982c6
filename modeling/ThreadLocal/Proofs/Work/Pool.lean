import ThreadLocal.Proofs.Work.Course
import ThreadLocal.Proofs.Work.Shards

/-!
What comes of a collection whose workers can all be started: their answers, one after the other, or the
failure of a worker.
-/

namespace ThreadLocal
namespace Pool

variable {command : List String} {workers : Workers}

/-- The workers that run are those that the system started for their requests. -/
theorem worker_of_launch (index : Nat) (items : List WorkItem) :
    ∀ r ∈ (launch command workers index items).running,
      workers command r.index (Request.ofItem r.item).text = .ok r.worker := by
  rcases launch_cases command workers index items with ⟨running, hstaffed⟩ |
    ⟨before, item, after, running, fault, -, hstaffed, -, hlaunch⟩
  · rw [hstaffed.launch_eq]
    exact hstaffed.worker_eq
  · rw [hlaunch]
    exact hstaffed.worker_eq

theorem staffed_of_started {items : List WorkItem}
    (started : ∀ item ∈ items, ∀ index, ∃ worker, workers command index (Request.ofItem item).text = .ok worker)
    (index : Nat) : ∃ running, Staffed command workers index items running := by
  rcases launch_cases command workers index items with hstaffed |
    ⟨before, item, after, running, fault, hsplit, -, hrefused, -⟩
  · exact hstaffed
  · obtain ⟨worker, hw⟩ := started item (by simp [hsplit]) (index + before.length)
    rw [hw] at hrefused
    cases hrefused

/-- If every worker can be started, there is one for each item, in order. -/
theorem launch_of_started {items : List WorkItem}
    (started : ∀ item ∈ items, ∀ index, ∃ worker, workers command index (Request.ofItem item).text = .ok worker)
    (index : Nat) :
    (launch command workers index items).failure = none ∧
      (launch command workers index items).running.map Running.item = items := by
  obtain ⟨running, hstaffed⟩ := staffed_of_started started index
  rw [hstaffed.launch_eq]
  exact ⟨rfl, hstaffed.items_eq⟩

/-- The joined answers are there just when every worker has answered. -/
theorem gather_ok_iff {running : List Running} :
    (∃ proposals, (gather running).2 = .ok proposals) ↔ ∀ r ∈ running, ∃ proposals, r.answer = .ok proposals := by
  rcases gather_cases running with ⟨answers, hanswers, hgather⟩ | ⟨before, r, after, f, hsplit, -, hr, hgather⟩
  · simp only [hgather, Except.ok.injEq, exists_eq', true_iff]
    exact Running.answer_of_map_eq hanswers
  · simp only [hgather, reduceCtorEq, exists_false, false_iff]
    intro heach
    obtain ⟨answer, ha⟩ := heach r (by simp [hsplit])
    rw [hr] at ha
    cases ha

theorem mem_of_gather {running : List Running} {proposals : List Proposal}
    (h : (gather running).2 = .ok proposals) (p : Proposal) :
    p ∈ proposals ↔ ∃ r ∈ running, ∃ answer, r.answer = .ok answer ∧ p ∈ answer := by
  rcases gather_cases running with ⟨answers, hanswers, hgather⟩ | ⟨before, r, after, f, -, -, -, hgather⟩
  · have hmem : ∀ answer, answer ∈ answers ↔ ∃ r ∈ running, r.answer = .ok answer := by
      intro answer
      have hiff := List.mem_map (f := Running.answer) (l := running) (b := .ok answer)
      rwa [hanswers, List.mem_map_of_injective fun _ _ => Except.ok.inj] at hiff
    rw [hgather] at h
    rw [← Except.ok.inj h, List.mem_flatten]
    simp only [hmem]
    grind
  · rw [hgather] at h
    cases h

end Pool

/-- When all shards have their workers, these are handed their requests, and what is collected is what they answer. -/
theorem collect_of_staffed {command : List String} {workers : Workers} {work : WorkItem} {parallelism : Int}
    {parts : List (List String)} {running : List Running} (cut : shards work.sourceFiles parallelism = .ok parts)
    (staffed : Pool.Staffed command workers 0 (parts.map work.withSourceFiles) running) :
    (collect command workers work parallelism).outcome = (Pool.gather running).2.mapError .worker ∧
      ∀ s ∈ running.flatMap (Running.handOver command), s ∈ (collect command workers work parallelism).steps := by
  simp only [collect, cut, staffed.launch_eq]
  cases (Pool.gather running).2 with
  | error f =>
    refine ⟨rfl, fun s hs => ?_⟩
    exact List.mem_append_left _ (List.mem_cons_of_mem _ hs)
  | ok proposals =>
    refine ⟨rfl, fun s hs => ?_⟩
    exact List.mem_append_left _ (List.mem_append_left _ (List.mem_cons_of_mem _ hs))

/-- A collection by a sound number of workers fails for a worker or not at all. -/
theorem worker_of_collect_error {command : List String} {workers : Workers} {work : WorkItem} {parallelism : Int}
    {f : CollectFault} (low : 1 ≤ parallelism) (high : parallelism < Nat.pow 2 53)
    (failed : (collect command workers work parallelism).outcome = .error f) : ∃ failure, f = .worker failure := by
  obtain ⟨parts, hcut, -⟩ := shards_ok work.sourceFiles low high
  rcases collect_cases command workers hcut with ⟨_, _, -, -, hcollect⟩ | ⟨_, _, _, _, _, -, -, -, hcollect⟩ |
    ⟨_, _, _, _, -, -, -, hcollect⟩
  · rw [hcollect] at failed
    cases failed
  · rw [hcollect] at failed
    exact ⟨_, (Except.error.inj failed).symm⟩
  · rw [hcollect] at failed
    exact ⟨_, (Except.error.inj failed).symm⟩

theorem collect_of_started {command : List String} {workers : Workers} {work : WorkItem} {parallelism : Int}
    {parts : List (List String)} (cut : shards work.sourceFiles parallelism = .ok parts)
    (started : ∀ item ∈ parts.map work.withSourceFiles, ∀ index,
      ∃ worker, workers command index (Request.ofItem item).text = .ok worker) :
    (collect command workers work parallelism).outcome =
      (Pool.gather (Pool.launch command workers 0 (parts.map work.withSourceFiles)).running).2.mapError
        .worker := by
  obtain ⟨running, hstaffed⟩ := Pool.staffed_of_started started 0
  rw [hstaffed.launch_eq]
  exact (collect_of_staffed cut hstaffed).1

end ThreadLocal
