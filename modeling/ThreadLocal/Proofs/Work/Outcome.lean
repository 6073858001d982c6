import Mathlib.Data.List.Forall2
import ThreadLocal.Proofs.Work.Codec
import ThreadLocal.Proofs.Work.Course
import ThreadLocal.Proofs.Work.Shards

/-!
What a collection comes to: the answers of all workers one after the other, or the first failure; and what it leaves
behind: no worker that still runs.
-/

namespace ThreadLocal

def Step.launched? : Step → Option Nat
  | .started index _ => some index
  | _ => none

namespace Running

/-- A worker answers: it exits with zero, and its output can be decoded. -/
def Answers (r : Running) (answer : List Proposal) : Prop :=
  r.worker.status = 0 ∧ Pool.answer r.worker.output = .ok answer

/-- A worker that lingers still runs unless it was waited for after it was started. -/
def StillRuns (r : Running) (steps : List Step) : Prop :=
  r.worker.lingers = true ∧
    ∃ before command after, steps = before ++ .started r.index command :: after ∧ .awaited r.index ∉ after

theorem answer_eq_ok_iff {r : Running} {answer : List Proposal} : r.answer = .ok answer ↔ r.Answers answer := by
  unfold Running.answer Answers
  by_cases hs : r.worker.status = 0
  · cases h : Pool.answer r.worker.output <;> simp [hs, Except.mapError]
  · simp [hs]

theorem answers_of_map_eq {running : List Running} {answers : List (List Proposal)}
    (h : running.map Running.answer = answers.map .ok) : List.Forall₂ Running.Answers running answers := by
  rw [← List.forall₂_eq_eq_eq, List.forall₂_map_left_iff, List.forall₂_map_right_iff] at h
  exact h.imp fun _ _ => answer_eq_ok_iff.mp

theorem answer_eq_error_iff {r : Running} {f : WorkerFailure} :
    r.answer = .error f ↔
      r.worker.status ≠ 0 ∧ f = .exited r.index r.item r.worker.status ∨
      r.worker.status = 0 ∧ ∃ fault, Pool.answer r.worker.output = .error fault ∧
        f = .undecodable r.index r.item fault := by
  unfold Running.answer
  by_cases hs : r.worker.status = 0
  · cases h : Pool.answer r.worker.output <;> simp [hs, Except.mapError, eq_comm]
  · simp [hs, eq_comm]

end Running

/-- What a collection over some items comes to when `running` are the workers that were started. -/
inductive Pool.Settles (command : List String) (workers : Workers) (items : List WorkItem) (running : List Running) :
    Except WorkerFailure (List Proposal) → Prop where
  | answered {answers : List (List Proposal)} (all : running.map Running.item = items)
    (each : List.Forall₂ Running.Answers running answers) : Settles command workers items running (.ok answers.flatten)
  | notStarted {item : WorkItem} {later : List WorkItem} {fault : SpawnFault}
    (next : items = running.map Running.item ++ item :: later)
    (refused : workers command running.length (Request.ofItem item).text = .error fault) :
    Settles command workers items running (.error (.notStarted (command.headD "") item fault))
  | exited {before after : List Running} {r : Running} (all : running.map Running.item = items)
    (split : running = before ++ r :: after) (earlier : ∀ b ∈ before, ∃ answer, b.Answers answer)
    (status : r.worker.status ≠ 0) :
    Settles command workers items running (.error (.exited r.index r.item r.worker.status))
  | undecodable {before after : List Running} {r : Running} {fault : AnswerFault}
    (all : running.map Running.item = items) (split : running = before ++ r :: after)
    (earlier : ∀ b ∈ before, ∃ answer, b.Answers answer) (status : r.worker.status = 0)
    (output : Pool.answer r.worker.output = .error fault) :
    Settles command workers items running (.error (.undecodable r.index r.item fault))

/-- How a collection over some items went, `running` being the workers that were started. -/
structure Collection.Went (c : Collection) (command : List String) (workers : Workers) (items : List WorkItem)
    (running : List Running) : Prop where
  started : c.steps.filterMap Step.launched? = List.range running.length
  staffed : Pool.Staffed command workers 0 (items.take running.length) running
  requested : (∀ r ∈ running, r.worker.breaksPipe = false) →
    (c.steps.filterMap Step.request?).map Request.read =
      (items.take running.length).map fun item => .ok (Request.ofItem item)
  settled : ∃ outcome, Pool.Settles command workers items running outcome ∧
    c.outcome = outcome.mapError .worker
  /-- a failure tells a status just when a worker exited with one other than zero -/
  told : ∀ f status, c.outcome = .error (.worker f) → (f.status? = some status ↔
    status ≠ 0 ∧ ∃ r ∈ running, r.worker.status = status ∧ f = .exited r.index r.item status)
  /-- nothing is read unless all workers were started -/
  unread : running.length < items.length → ∀ index, Step.read index ∉ c.steps
  reaped : ∀ r ∈ running, ¬ r.StillRuns c.steps

namespace Pool

/-- What follows the starting of some workers: no other is started or handed anything, and none that lingers is
left alone. -/
structure Closes (running : List Running) (steps : List Step) : Prop where
  quiet : ∀ s ∈ steps, s.launched? = none ∧ s.request? = none
  awaited : ∀ r ∈ running, r.worker.lingers = true → .awaited r.index ∈ steps

theorem quiet_heard (r : Running) : ∀ s ∈ r.heard, s.launched? = none ∧ s.request? = none := by
  simp [Running.heard, Step.launched?, Step.request?]

theorem quiet_stop (r : Running) : ∀ s ∈ r.stop, s.launched? = none ∧ s.request? = none := by
  unfold Running.stop
  split <;> simp [Step.launched?, Step.request?]

theorem awaited_of_heard (r : Running) : .awaited r.index ∈ r.heard := by
  simp [Running.heard]

theorem awaited_of_stop {r : Running} (lingers : r.worker.lingers = true) : .awaited r.index ∈ r.stop := by
  simp [Running.stop, lingers]

variable {command : List String} {running before after : List Running} {r : Running}

theorem closes_of_answers (running : List Running) (proposals : Nat) :
    Closes running (running.flatMap Running.heard ++ [Collection.summary proposals]) where
  quiet := by
    intro s hs
    rcases List.mem_append.mp hs with hs | hs
    · obtain ⟨r, -, hs⟩ := List.mem_flatMap.mp hs
      exact quiet_heard r s hs
    · rw [List.mem_singleton.mp hs]
      exact ⟨rfl, rfl⟩
  awaited := fun r hr _ => List.mem_append_left _ (List.mem_flatMap.mpr ⟨r, hr, awaited_of_heard r⟩)

theorem closes_of_refusal (running : List Running) (index : Nat) :
    Closes running (.refused index :: running.flatMap Running.stop) where
  quiet := by
    intro s hs
    rcases List.mem_cons.mp hs with hs | hs
    · rw [hs]
      exact ⟨rfl, rfl⟩
    · obtain ⟨r, -, hs⟩ := List.mem_flatMap.mp hs
      exact quiet_stop r s hs
  awaited := fun r hr lingers => List.mem_cons_of_mem _ (List.mem_flatMap.mpr ⟨r, hr, awaited_of_stop lingers⟩)

theorem closes_of_failure (before after : List Running) (r : Running) :
    Closes (before ++ r :: after) ((before ++ [r]).flatMap Running.heard ++ after.flatMap Running.stop) where
  quiet := by
    intro s hs
    rcases List.mem_append.mp hs with hs | hs
    · obtain ⟨b, -, hs⟩ := List.mem_flatMap.mp hs
      exact quiet_heard b s hs
    · obtain ⟨a, -, hs⟩ := List.mem_flatMap.mp hs
      exact quiet_stop a s hs
  awaited := by
    intro b hb lingers
    rw [List.append_cons, List.mem_append] at hb
    rcases hb with hb | hb
    · exact List.mem_append_left _ (List.mem_flatMap.mpr ⟨b, hb, awaited_of_heard b⟩)
    · exact List.mem_append_right _ (List.mem_flatMap.mpr ⟨b, hb, awaited_of_stop lingers⟩)

theorem launched_handOver (command : List String) (r : Running) :
    (r.handOver command).filterMap Step.launched? = [r.index] := by
  unfold Running.handOver
  split <;> rfl

theorem requests_handOver (command : List String) (r : Running) :
    (r.handOver command).filterMap Step.request? =
      if r.worker.breaksPipe then [] else [(Request.ofItem r.item).text] := by
  unfold Running.handOver
  split <;> rfl

theorem read_not_mem_handOver (command : List String) (r : Running) (index : Nat) :
    .read index ∉ r.handOver command := by
  unfold Running.handOver
  split <;> simp

theorem read_not_mem_stop (r : Running) (index : Nat) : .read index ∉ r.stop := by
  unfold Running.stop
  split <;> simp

theorem filterMap_of_quiet {α : Type} {pick : Step → Option α} {steps rest : List Step}
    (quiet : ∀ s ∈ rest, pick s = none) : (steps ++ rest).filterMap pick = steps.filterMap pick := by
  rw [List.filterMap_append, List.filterMap_eq_nil_iff.mpr quiet, List.append_nil]

namespace Closes

variable {steps : List Step} {announced : Notice}

theorem launched (h : Closes running steps) :
    (.said announced :: running.flatMap (Running.handOver command) ++ steps).filterMap Step.launched? =
      running.map Running.index := by
  rw [filterMap_of_quiet fun s hs => (h.quiet s hs).1]
  simp only [List.filterMap_cons, Step.launched?, List.filterMap_flatMap, launched_handOver]
  exact List.map_eq_flatMap.symm

theorem requests (h : Closes running steps) (whole : ∀ r ∈ running, r.worker.breaksPipe = false) :
    (.said announced :: running.flatMap (Running.handOver command) ++ steps).filterMap Step.request? =
      running.map fun r => (Request.ofItem r.item).text := by
  rw [filterMap_of_quiet fun s hs => (h.quiet s hs).2]
  simp only [List.filterMap_cons, Step.request?, List.filterMap_flatMap, requests_handOver]
  rw [List.map_eq_flatMap]
  exact List.flatMap_congr fun r hr => by simp [whole r hr]

/-- The worker was started before the closing steps, so what they wait for comes after its start. -/
theorem not_stillRuns (h : Closes running steps) (hr : r ∈ running) (earlier : List Step) :
    ¬ r.StillRuns (earlier ++ steps) := by
  intro ⟨lingers, before, command, after, hsplit, hnot⟩
  have hawaited := h.awaited r hr lingers
  -- the closing steps start nobody, so the start can only be among the earlier ones
  rcases List.append_eq_append_iff.mp hsplit with ⟨between, -, hsteps⟩ | ⟨between, -, hsteps⟩
  · have hstarted := (h.quiet (.started r.index command) (by simp [hsteps])).1
    simp [Step.launched?] at hstarted
  · cases between with
    | nil =>
      rw [List.nil_append] at hsteps
      have hstarted := (h.quiet (.started r.index command) (hsteps ▸ List.mem_cons_self)).1
      simp [Step.launched?] at hstarted
    | cons s between =>
      obtain ⟨-, hafter⟩ := List.cons.inj hsteps
      exact hnot (hafter ▸ List.mem_append_right _ hawaited)

end Closes
end Pool

namespace Collection

variable {command : List String} {workers : Workers} {items : List WorkItem} {running : List Running}

theorem told_of_settles {outcome : Except WorkerFailure (List Proposal)}
    (h : Pool.Settles command workers items running outcome) (f : WorkerFailure) (status : Int)
    (failed : outcome = .error f) : f.status? = some status ↔
      status ≠ 0 ∧ ∃ r ∈ running, r.worker.status = status ∧ f = .exited r.index r.item status := by
  cases h with
  | answered => cases failed
  | notStarted =>
    cases failed
    simp [WorkerFailure.status?]
  | @exited before after r all split earlier hstatus =>
    cases failed
    simp only [WorkerFailure.status?, Option.some.injEq, WorkerFailure.exited.injEq]
    constructor
    · intro h
      exact ⟨h ▸ hstatus, r, by simp [split], h, rfl, rfl, h⟩
    · rintro ⟨-, _, -, -, -, -, h⟩
      exact h
  | undecodable =>
    cases failed
    simp [WorkerFailure.status?]

theorem take_running {later : List WorkItem} (whole : running.map Running.item ++ later = items) :
    items.take running.length = running.map Running.item := by
  rw [← whole, ← List.length_map Running.item, List.take_left]

/-- What the steps are to say follows from how they begin, if the rest of them closes the collection. -/
theorem Went.of_closes {c : Collection} {announced : Notice} {steps : List Step}
    {outcome : Except WorkerFailure (List Proposal)} (later : List WorkItem)
    (whole : running.map Running.item ++ later = items)
    (staffed : Pool.Staffed command workers 0 (running.map Running.item) running) (closes : Pool.Closes running steps)
    (hsteps : c.steps = .said announced :: running.flatMap (Running.handOver command) ++ steps)
    (settles : Pool.Settles command workers items running outcome) (houtcome : c.outcome = outcome.mapError .worker)
    (hunread : later ≠ [] → ∀ index, Step.read index ∉ c.steps) : c.Went command workers items running where
  started := by
    rw [hsteps, closes.launched, staffed.indices_eq, List.range_eq_range']
  staffed := by
    rw [take_running whole]
    exact staffed
  requested := by
    intro hpipes
    rw [hsteps, closes.requests hpipes, take_running whole, List.map_map, List.map_map]
    apply List.map_congr_left
    intro r _
    rw [Function.comp_apply, Function.comp_apply, Request.read_text]
  settled := ⟨outcome, settles, houtcome⟩
  told := by
    intro f status hf
    apply told_of_settles settles
    rw [houtcome] at hf
    cases outcome with
    | ok proposals => cases hf
    | error f' => cases hf; rfl
  unread := by
    intro hfew
    apply hunread
    rintro rfl
    rw [← whole, List.append_nil, List.length_map] at hfew
    omega
  reaped := by
    intro r hr
    rw [hsteps]
    exact closes.not_stillRuns hr _

end Collection

theorem settles_of_answer_error {command : List String} {workers : Workers} {items : List WorkItem}
    {running before after : List Running} {r : Running} {f : WorkerFailure} (all : running.map Running.item = items)
    (split : running = before ++ r :: after) (earlier : ∀ b ∈ before, ∃ answer, b.answer = .ok answer)
    (failed : r.answer = .error f) : Pool.Settles command workers items running (.error f) := by
  have hbefore : ∀ b ∈ before, ∃ answer, b.Answers answer := by
    simpa only [Running.answer_eq_ok_iff] using earlier
  rcases Running.answer_eq_error_iff.mp failed with ⟨hstatus, hf⟩ | ⟨hstatus, fault, houtput, hf⟩
  · subst hf
    exact .exited all split hbefore hstatus
  · subst hf
    exact .undecodable all split hbefore hstatus houtput

/-- A collection by any positive number of workers below the 53rd power of two, whatever these do: the source files
are cut into shards, a worker is started for each up to the first that is refused, and what comes of it is settled by
the first failure, or by the answers if there is none. No worker is left running. -/
theorem collect_went (command : List String) (workers : Workers) (work : WorkItem) {parallelism : Int}
    (low : 1 ≤ parallelism) (high : parallelism < Nat.pow 2 53) :
    ∃ (parts : List (List String)) (running : List Running), parts.flatten = work.sourceFiles ∧
      (collect command workers work parallelism).Went command workers (parts.map work.withSourceFiles) running := by
  obtain ⟨parts, hcut, hwhole, -⟩ := shards_ok work.sourceFiles low high
  refine ⟨parts, ?_⟩
  rcases collect_cases command workers hcut with ⟨running, answers, hstaffed, hanswers, hcollect⟩ |
    ⟨before, item, after, running, fault, hsplit, hstaffed, hrefused, hcollect⟩ |
    ⟨before, r, after, f, hstaffed, hbefore, hr, hcollect⟩
  · have hall := hstaffed.items_eq
    have hsettles : Pool.Settles command workers (parts.map work.withSourceFiles) running (.ok answers.flatten) :=
      .answered hall (Running.answers_of_map_eq hanswers)
    rw [hcollect]
    exact ⟨running, hwhole, .of_closes [] (by rw [List.append_nil, hall]) (hall.symm ▸ hstaffed)
      (Pool.closes_of_answers running answers.flatten.length) rfl hsettles rfl (absurd rfl)⟩
  · have hbefore := hstaffed.items_eq
    have hlength : before.length = running.length := by rw [← hbefore, List.length_map]
    have hnext : parts.map work.withSourceFiles = running.map Running.item ++ item :: after := by rw [hbefore, hsplit]
    have hsettles : Pool.Settles command workers (parts.map work.withSourceFiles) running
        (.error (.notStarted (command.headD "") item fault)) := .notStarted hnext (hlength ▸ hrefused)
    rw [hcollect]
    refine ⟨running, hwhole, .of_closes (item :: after) hnext.symm (hbefore.symm ▸ hstaffed)
      (Pool.closes_of_refusal running before.length) rfl hsettles rfl ?_⟩
    intro _ index
    simp [Collection.announced, Pool.read_not_mem_handOver, Pool.read_not_mem_stop]
  · have hall := hstaffed.items_eq
    have hsettles : Pool.Settles command workers (parts.map work.withSourceFiles) (before ++ r :: after) (.error f) :=
      settles_of_answer_error hall rfl hbefore hr
    rw [hcollect]
    exact ⟨before ++ r :: after, hwhole, .of_closes [] (by rw [List.append_nil, hall]) (hall.symm ▸ hstaffed)
      (Pool.closes_of_failure before after r) rfl hsettles rfl (absurd rfl)⟩

/-! Three workers, the second of which fails while the others would go on running. -/

namespace FailingSecond

def worker (status : Int) : Worker := ⟨false, true, Bytes.ofText (Response.encode [] ++ "\n"), status, ""⟩

def workers : Workers := fun _ index _ => .ok (worker (if index = 1 then 3 else 0))

def work : WorkItem := ⟨["/inc"], ["/a.c", "/b.c", "/c.c"], "/"⟩

def collection : Collection := collect ["cli"] workers work 3

theorem cut : shards work.sourceFiles 3 = .ok [["/a.c"], ["/b.c"], ["/c.c"]] :=
  @shards_singletons _ work.sourceFiles (by decide) (by decide)

end FailingSecond

/-- The second worker is blamed, and none of the three is left running. -/
theorem failingSecond_went :
    FailingSecond.collection.outcome = .error (.worker (.exited 1 ⟨["/inc"], ["/b.c"], "/"⟩ 3)) ∧
      ∃ (parts : List (List String)) (running : List Running), parts.flatten = ["/a.c", "/b.c", "/c.c"] ∧
        FailingSecond.collection.Went ["cli"] FailingSecond.workers (parts.map FailingSecond.work.withSourceFiles)
          running := by
  refine ⟨?_, collect_went ["cli"] FailingSecond.workers FailingSecond.work (by decide) (by decide)⟩
  simp only [FailingSecond.collection, collect, FailingSecond.cut]
  simp [FailingSecond.work, FailingSecond.workers, FailingSecond.worker, WorkItem.withSourceFiles, Pool.launch,
    Pool.gather, Running.answer, Pool.answer_encode, Except.mapError, Except.map]

end ThreadLocal
