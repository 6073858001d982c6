import ThreadLocal.Proofs.Work.Outcome
import ThreadLocal.Proofs.Work.Pool

/-!
Workers that go away before they have taken their request. A collection warns of them, but whether it fails is
decided by statuses and answers alone.
-/

namespace ThreadLocal

theorem Running.brokenPipe_mem_handOver_iff {command : List String} {r : Running} :
    (∃ index, .brokenPipe index ∈ r.handOver command) ↔ r.worker.breaksPipe = true := by
  unfold handOver
  split <;> simp_all

theorem Running.brokenPipe_not_mem_heard (r : Running) (index : Nat) : .brokenPipe index ∉ r.heard := by
  simp [heard]

/-- In a collection that gets all its answers, pipes break at the workers that break theirs. -/
theorem brokenPipe_mem_steps_iff {command : List String} {running : List Running} {announced summary : Notice} :
    (∃ index, .brokenPipe index ∈ .said announced :: running.flatMap (Running.handOver command) ++
        (running.flatMap Running.heard ++ [.said summary])) ↔
      ∃ r ∈ running, r.worker.breaksPipe = true := by
  simp only [← @Running.brokenPipe_mem_handOver_iff command]
  simp only [List.cons_append, List.mem_cons, List.mem_append, List.mem_flatMap, reduceCtorEq, false_or,
    Running.brokenPipe_not_mem_heard, and_false, exists_false, List.not_mem_nil, or_false]
  constructor
  · intro ⟨index, r, hr, hbroken⟩
    exact ⟨r, hr, index, hbroken⟩
  · intro ⟨r, hr, index, hbroken⟩
    exact ⟨index, r, hr, hbroken⟩

/-- A collection returns although a request was not taken just when a worker was started for every shard, each of
them exits with zero and sends a decodable answer, and one of them had gone away before its request was written. -/
theorem returns_despite_brokenPipe_iff (command : List String) (workers : Workers) (work : WorkItem)
    (parallelism : Int) :
    let c := collect command workers work parallelism
    ((∃ proposals, c.outcome = .ok proposals) ∧ ∃ index, .brokenPipe index ∈ c.steps) ↔
      ∃ (parts : List (List String)) (running : List Running), shards work.sourceFiles parallelism = .ok parts ∧
        Pool.Staffed command workers 0 (parts.map work.withSourceFiles) running ∧
        (∀ r ∈ running, ∃ answer, r.Answers answer) ∧ ∃ r ∈ running, r.worker.breaksPipe = true := by
  dsimp only
  constructor
  · rintro ⟨⟨proposals, hok⟩, hbroken⟩
    cases hcut : shards work.sourceFiles parallelism with
    | error f => simp [collect, hcut] at hok
    | ok parts =>
      rcases collect_cases command workers hcut with ⟨running, answers, hstaffed, hanswers, hcollect⟩ |
        ⟨_, _, _, _, _, -, -, -, hcollect⟩ | ⟨_, _, _, _, -, -, -, hcollect⟩
      · refine ⟨parts, running, rfl, hstaffed, ?_, ?_⟩
        · intro r hr
          obtain ⟨answer, hanswer⟩ := Running.answer_of_map_eq hanswers r hr
          exact ⟨answer, Running.answer_eq_ok_iff.mp hanswer⟩
        · rw [hcollect] at hbroken
          exact brokenPipe_mem_steps_iff.mp hbroken
      · rw [hcollect] at hok
        cases hok
      · rw [hcollect] at hok
        cases hok
  · rintro ⟨parts, running, hcut, hstaffed, heach, r, hr, hbreaks⟩
    obtain ⟨houtcome, hsteps⟩ := collect_of_staffed hcut hstaffed
    have hanswered : ∀ r ∈ running, ∃ proposals, r.answer = .ok proposals := by
      simpa only [Running.answer_eq_ok_iff] using heach
    obtain ⟨proposals, hgather⟩ := Pool.gather_ok_iff.mpr hanswered
    obtain ⟨index, hbroken⟩ := (@Running.brokenPipe_mem_handOver_iff command r).mpr hbreaks
    refine ⟨⟨proposals, ?_⟩, index, hsteps _ (List.mem_flatMap.mpr ⟨r, hr, hbroken⟩)⟩
    rw [houtcome, hgather]
    rfl

/-! Two workers, of which one goes away unheard and still ends well. -/

namespace Deaf

def workers : Workers := fun _ index _ =>
  .ok ⟨index = 0, true, Bytes.ofText (Response.encode [] ++ "\n"), 0, ""⟩

def work : WorkItem := ⟨[], ["/a.c", "/b.c"], "/"⟩

theorem cut : shards work.sourceFiles 2 = .ok [["/a.c"], ["/b.c"]] :=
  @shards_singletons _ work.sourceFiles (by decide) (by decide)

end Deaf

/-- The first file is not looked at by anyone, and the collection does not fail. -/
theorem deaf_overlooked :
    (collect ["cli"] Deaf.workers Deaf.work 2).outcome = .ok [] ∧
      .brokenPipe 0 ∈ (collect ["cli"] Deaf.workers Deaf.work 2).steps := by
  simp only [collect, Deaf.cut]
  simp [Deaf.work, Deaf.workers, WorkItem.withSourceFiles, Pool.launch, Pool.gather, Running.handOver,
    Running.answer, Pool.answer_encode, Except.mapError, Except.map]

end ThreadLocal
