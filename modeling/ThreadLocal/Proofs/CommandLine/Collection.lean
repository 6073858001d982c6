import ThreadLocal.Proofs.CommandLine.Worker
import ThreadLocal.Proofs.Work.Performance
import ThreadLocal.Proofs.Work.Shards

/-!
What the workers of the program's own collect. It depends on which source files there are and on nothing else:
not on their order, not on how they are spread.
-/

namespace ThreadLocal
namespace CommandLine

/-- The program's own workers, started at a level for some items. -/
def ownLaunch (fs : Files) (frontEnd : FrontEnd) (launcher : List String) (level : Int)
    (items : List WorkItem) : Launch :=
  Pool.launch (launcher ++ workerArguments (forwardedLevel level)) (ownWorkers fs (.ok frontEnd) launcher) 0 items

variable {fs : Files} {frontEnd : FrontEnd} {launcher : List String} {level : Int}

/-- A started worker answers what performing its item comes to. -/
theorem answer_ok_iff {items : List WorkItem} {r : Running}
    (h : r ∈ (ownLaunch fs frontEnd launcher level items).running) (proposals : List Proposal) :
    r.answer = .ok proposals ↔ ((Request.ofItem r.item).perform fs (.ok frontEnd)).outcome = .ok proposals :=
  answer_eq_ok_iff (Pool.worker_of_launch 0 items r h) proposals

theorem ownLaunch_items (items : List WorkItem) :
    (ownLaunch fs frontEnd launcher level items).running.map Running.item = items :=
  (Pool.launch_of_started (fun item _ index => ownWorkers_started frontEnd _ index (Request.ofItem item).text) 0).2

theorem exists_running_iff {items : List WorkItem} {P : WorkItem → Prop} :
    (∃ r ∈ (ownLaunch fs frontEnd launcher level items).running, P r.item) ↔ ∃ item ∈ items, P item := by
  have hitems := @ownLaunch_items fs frontEnd launcher level items
  constructor
  · intro ⟨r, hr, hp⟩
    exact ⟨r.item, hitems ▸ List.mem_map.mpr ⟨r, hr, rfl⟩, hp⟩
  · intro ⟨item, hitem, hp⟩
    rw [← hitems] at hitem
    obtain ⟨r, hr, hitem⟩ := List.mem_map.mp hitem
    exact ⟨r, hr, hitem ▸ hp⟩

theorem forall_running_iff {items : List WorkItem} {P : WorkItem → Prop} :
    (∀ r ∈ (ownLaunch fs frontEnd launcher level items).running, P r.item) ↔ ∀ item ∈ items, P item := by
  rw [← List.forall_mem_map, ownLaunch_items]

section Parts

variable {work : WorkItem} {parts : List (List String)}

/-- All answers are there just when every source file can be analyzed. -/
theorem gather_ok_iff (whole : parts.flatten = work.sourceFiles) (nonempty : ∀ part ∈ parts, part ≠ []) :
    (∃ proposals, (Pool.gather
      (ownLaunch fs frontEnd launcher level (parts.map work.withSourceFiles)).running).2 = .ok proposals) ↔
        work.Analyzable fs frontEnd := by
  rw [Pool.gather_ok_iff, ← WorkItem.analyzable_parts whole]
  have hanswers : (∀ r ∈ (ownLaunch fs frontEnd launcher level (parts.map work.withSourceFiles)).running,
      ∃ proposals, r.answer = .ok proposals) ↔
        ∀ r ∈ (ownLaunch fs frontEnd launcher level (parts.map work.withSourceFiles)).running,
          ∃ proposals, ((Request.ofItem r.item).perform fs (.ok frontEnd)).outcome = .ok proposals := by
    apply forall₂_congr
    intro r hr
    simp only [answer_ok_iff hr]
  rw [hanswers, @forall_running_iff fs frontEnd launcher level _
    fun item => ∃ proposals, ((Request.ofItem item).perform fs (.ok frontEnd)).outcome = .ok proposals,
    List.forall_mem_map]
  apply forall₂_congr
  intro part hpart
  exact WorkItem.perform_ok_iff (nonempty part hpart)

theorem mem_of_gather (whole : parts.flatten = work.sourceFiles) {proposals : List Proposal}
    (h : (Pool.gather
      (ownLaunch fs frontEnd launcher level (parts.map work.withSourceFiles)).running).2 = .ok proposals)
    (p : Proposal) : p ∈ proposals ↔ work.Proposes fs frontEnd p := by
  rw [Pool.mem_of_gather h, ← WorkItem.proposes_parts whole]
  have hanswered := Pool.gather_ok_iff.mp ⟨proposals, h⟩
  have hanswers : (∃ r ∈ (ownLaunch fs frontEnd launcher level (parts.map work.withSourceFiles)).running,
      ∃ answer, r.answer = .ok answer ∧ p ∈ answer) ↔
        ∃ r ∈ (ownLaunch fs frontEnd launcher level (parts.map work.withSourceFiles)).running,
          r.item.Proposes fs frontEnd p := by
    constructor
    · intro ⟨r, hr, answer, hanswer, hp⟩
      exact ⟨r, hr, (WorkItem.mem_of_perform ((answer_ok_iff hr answer).mp hanswer) p).mp hp⟩
    · intro ⟨r, hr, hp⟩
      obtain ⟨answer, hanswer⟩ := hanswered r hr
      exact ⟨r, hr, answer, hanswer, (WorkItem.mem_of_perform ((answer_ok_iff hr answer).mp hanswer) p).mpr hp⟩
  rw [hanswers, @exists_running_iff fs frontEnd launcher level _ fun item => item.Proposes fs frontEnd p]
  simp only [List.mem_map, exists_exists_and_eq_and]

end Parts

/-- The proposals of all source files are collected if these can be analyzed, and otherwise a worker is to
blame. -/
theorem collect_ownWorkers (work : WorkItem) {parallelism : Int} (low : 1 ≤ parallelism)
    (high : parallelism < Nat.pow 2 53) :
    let outcome := (collect (launcher ++ workerArguments (forwardedLevel level))
      (ownWorkers fs (.ok frontEnd) launcher) work parallelism).outcome
    (work.Analyzable fs frontEnd →
      ∃ proposals, outcome = .ok proposals ∧ ∀ p, p ∈ proposals ↔ work.Proposes fs frontEnd p) ∧
    (¬ work.Analyzable fs frontEnd → ∃ f, outcome = .error (.worker f)) := by
  obtain ⟨parts, hcut, hwhole, hne⟩ := shards_ok work.sourceFiles low high
  have houtcome := collect_of_started hcut
    (fun item _ index => @ownWorkers_started fs launcher frontEnd
      (launcher ++ workerArguments (forwardedLevel level)) index (Request.ofItem item).text)
  have hiff := @gather_ok_iff fs frontEnd launcher level work parts hwhole hne
  dsimp only
  rw [houtcome]
  constructor
  · intro hall
    obtain ⟨proposals, hgather⟩ := hiff.mpr hall
    refine ⟨proposals, ?_, mem_of_gather hwhole hgather⟩
    unfold ownLaunch at hgather
    rw [hgather]
    rfl
  · intro hnot
    cases hgather : (Pool.gather
        (ownLaunch fs frontEnd launcher level (parts.map work.withSourceFiles)).running).2 with
    | ok proposals => exact absurd (hiff.mp ⟨proposals, hgather⟩) hnot
    | error f =>
      refine ⟨f, ?_⟩
      unfold ownLaunch at hgather
      rw [hgather]
      rfl

end CommandLine
end ThreadLocal
