import Mathlib.Data.List.Basic
import ThreadLocal.Work.Pool

/-!
How a pool of workers goes: they are started in order up to the first that the system refuses, and their answers
are taken in order up to the first that is none.
-/

namespace ThreadLocal
namespace Pool

/-- Some items have workers of their own, in order and numbered from `first` on, as the system started them. -/
inductive Staffed (command : List String) (workers : Workers) : Nat → List WorkItem → List Running → Prop where
  | nil (first : Nat) : Staffed command workers first [] []
  | cons {first : Nat} {item : WorkItem} {worker : Worker} {items : List WorkItem} {running : List Running}
    (started : workers command first (Request.ofItem item).text = .ok worker)
    (others : Staffed command workers (first + 1) items running) :
    Staffed command workers first (item :: items) (⟨first, item, worker⟩ :: running)

variable {command : List String} {workers : Workers}

namespace Staffed

variable {first : Nat} {items : List WorkItem} {running : List Running}

theorem items_eq (h : Staffed command workers first items running) : running.map Running.item = items := by
  induction h with
  | nil first => rfl
  | cons _ _ ih => rw [List.map_cons, ih]

theorem indices_eq (h : Staffed command workers first items running) :
    running.map Running.index = List.range' first running.length := by
  induction h with
  | nil first => rfl
  | cons _ _ ih => rw [List.map_cons, ih, List.length_cons, List.range'_succ]

theorem worker_eq (h : Staffed command workers first items running) :
    ∀ r ∈ running, workers command r.index (Request.ofItem r.item).text = .ok r.worker := by
  induction h with
  | nil first => simp
  | cons started _ ih => exact List.forall_mem_cons.mpr ⟨started, ih⟩

theorem launch_eq (h : Staffed command workers first items running) :
    launch command workers first items = ⟨running.flatMap (Running.handOver command), running, none⟩ := by
  induction h with
  | nil first => rfl
  | cons started _ ih => simp [launch, started, ih]

end Staffed

/-- Either every worker is started, or the first one that the system refuses ends the starting. -/
theorem launch_cases (command : List String) (workers : Workers) (first : Nat) (items : List WorkItem) :
    (∃ running, Staffed command workers first items running) ∨
    ∃ before item after running fault, items = before ++ item :: after ∧
      Staffed command workers first before running ∧
      workers command (first + before.length) (Request.ofItem item).text = .error fault ∧
      launch command workers first items =
        ⟨running.flatMap (Running.handOver command) ++ [.refused (first + before.length)], running,
          some (.notStarted (command.headD "") item fault)⟩ := by
  induction items generalizing first with
  | nil => exact .inl ⟨[], .nil first⟩
  | cons item rest ih =>
    cases hw : workers command first (Request.ofItem item).text with
    | error fault => exact .inr ⟨[], item, rest, [], fault, rfl, .nil first, hw, by simp [launch, hw]⟩
    | ok worker =>
      rcases ih (first + 1) with ⟨running, hstaffed⟩ |
        ⟨before, other, after, running, fault, hsplit, hstaffed, hrefused, hlaunch⟩
      · exact .inl ⟨_, .cons hw hstaffed⟩
      · have hindex : first + (item :: before).length = first + 1 + before.length := by
          rw [List.length_cons]
          omega
        refine .inr ⟨item :: before, other, after, _, fault, by rw [hsplit, List.cons_append], .cons hw hstaffed, ?_, ?_⟩
        · rw [hindex]
          exact hrefused
        · rw [hindex]
          simp [launch, hw, hlaunch]

end Pool

namespace Running

/-- The steps of taking the answer of a worker. -/
def heard (r : Running) : List Step :=
  [.read r.index, .awaited r.index]

theorem answer_of_map_eq {running : List Running} {answers : List (List Proposal)}
    (h : running.map Running.answer = answers.map .ok) : ∀ r ∈ running, ∃ answer, r.answer = .ok answer := by
  intro r hr
  have hanswer := List.mem_map_of_mem (f := Running.answer) hr
  rw [h] at hanswer
  obtain ⟨answer, -, ha⟩ := List.mem_map.mp hanswer
  exact ⟨answer, ha.symm⟩

end Running

namespace Pool

/-- Either every worker answers, or the first one that does not ends the gathering. -/
theorem gather_cases (running : List Running) :
    (∃ answers : List (List Proposal), running.map Running.answer = answers.map .ok ∧
      gather running = (running.flatMap Running.heard, .ok answers.flatten)) ∨
    ∃ before r after f, running = before ++ r :: after ∧ (∀ b ∈ before, ∃ answer, b.answer = .ok answer) ∧
      r.answer = .error f ∧
      gather running = ((before ++ [r]).flatMap Running.heard ++ after.flatMap Running.stop, .error f) := by
  induction running with
  | nil => exact .inl ⟨[], rfl, rfl⟩
  | cons r rest ih =>
    cases hr : r.answer with
    | error f => exact .inr ⟨[], r, rest, f, rfl, by simp, hr, by simp [gather, hr, Running.heard]⟩
    | ok answer =>
      rcases ih with ⟨answers, hanswers, hgather⟩ | ⟨before, other, after, f, hsplit, hbefore, hother, hgather⟩
      · refine .inl ⟨answer :: answers, ?_, by simp [gather, hr, hgather, Running.heard, Except.map]⟩
        rw [List.map_cons, List.map_cons, hr, hanswers]
      · refine .inr ⟨r :: before, other, after, f, by rw [hsplit, List.cons_append], ?_, hother, ?_⟩
        · exact List.forall_mem_cons.mpr ⟨⟨answer, hr⟩, hbefore⟩
        · simp [gather, hr, hgather, Running.heard, Except.map]

end Pool

/-- A collection over some shards starts its workers and takes their answers, each up to the first that fails;
then it stops whatever still runs. -/
theorem collect_cases (command : List String) (workers : Workers) {work : WorkItem} {parallelism : Int}
    {parts : List (List String)} (cut : shards work.sourceFiles parallelism = .ok parts) :
    let announced := Collection.announced work.sourceFiles.length parts.length
    let items := parts.map work.withSourceFiles
    (∃ (running : List Running) (answers : List (List Proposal)), Pool.Staffed command workers 0 items running ∧
      running.map Running.answer = answers.map .ok ∧
      collect command workers work parallelism =
        ⟨announced :: running.flatMap (Running.handOver command) ++
          (running.flatMap Running.heard ++ [Collection.summary answers.flatten.length]), .ok answers.flatten⟩) ∨
    (∃ before item after running fault, items = before ++ item :: after ∧
      Pool.Staffed command workers 0 before running ∧
      workers command before.length (Request.ofItem item).text = .error fault ∧
      collect command workers work parallelism =
        ⟨announced :: running.flatMap (Running.handOver command) ++
          (.refused before.length :: running.flatMap Running.stop), .error (.worker (.notStarted (command.headD "") item fault))⟩) ∨
    ∃ before r after f, Pool.Staffed command workers 0 items (before ++ r :: after) ∧
      (∀ b ∈ before, ∃ answer, b.answer = .ok answer) ∧ r.answer = .error f ∧
      collect command workers work parallelism =
        ⟨announced :: (before ++ r :: after).flatMap (Running.handOver command) ++
          ((before ++ [r]).flatMap Running.heard ++ after.flatMap Running.stop), .error (.worker f)⟩ := by
  intro announced items
  rcases Pool.launch_cases command workers 0 items with ⟨running, hstaffed⟩ |
    ⟨before, item, after, running, fault, hsplit, hstaffed, hrefused, hlaunch⟩
  · have hlaunch := hstaffed.launch_eq
    rcases Pool.gather_cases running with ⟨answers, hanswers, hgather⟩ |
      ⟨before, r, after, f, hsplit, hbefore, hr, hgather⟩
    · exact .inl ⟨running, answers, hstaffed, hanswers, by simp [collect, cut, items, hlaunch, hgather, announced]⟩
    · subst hsplit
      exact .inr (.inr ⟨before, r, after, f, hstaffed, hbefore, hr, by
        simp [collect, cut, items, hlaunch, hgather, announced]⟩)
  · rw [Nat.zero_add] at hrefused hlaunch
    exact .inr (.inl ⟨before, item, after, running, fault, hsplit, hstaffed, hrefused, by
      simp [collect, cut, items, hlaunch, announced]⟩)

end ThreadLocal
