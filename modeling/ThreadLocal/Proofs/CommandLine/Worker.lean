import ThreadLocal.CommandLine.Program
import ThreadLocal.Proofs.Work.Codec
import ThreadLocal.Proofs.Work.Pool

/-!
Workers that are this program itself: what a worker sends back is what performing its request comes to.
-/

namespace ThreadLocal

/-- A level that is forwarded to workers is one that they accept. -/
theorem forwardedLevel_mem (level : Int) : forwardedLevel level ∈ CommandLine.levelNames := by
  have hnames : ∀ l ∈ forwardedLevels, Level.name l ∈ CommandLine.levelNames := by decide
  unfold forwardedLevel
  apply hnames
  cases h : (forwardedLevels.filter (· ≤ level)).getLast? with
  | none => decide
  | some l => exact (List.mem_filter.mp (List.mem_of_getLast? h)).1

namespace CommandLine

variable {fs : Files} {launcher : List String}

theorem parse_logLevel (name : String) :
    Arguments.parse (workerParameters.map Parameter.declared) true ["--log-level", name] =
      .ok ([⟨logLevel.declared, some name⟩], []) := by
  have hoption : Arguments.isOption "--log-level".toList = true := by decide
  have hreading : Arguments.reading (workerParameters.map Parameter.declared) "--log-level".toList =
      .ok ⟨[], some ("--log-level", logLevel.declared)⟩ := by
    decide +kernel
  have hword : ("--log-level" : String) ≠ "--" := by decide
  simp only [Arguments.parse, if_neg hword, hoption, if_true, hreading, Except.map, List.nil_append]

theorem inOrder_logLevel (name : String) :
    Parameter.inOrder workerParameters [⟨logLevel.declared, some name⟩] = [logLevel] := by
  simp [Parameter.inOrder, workerParameters, distinct]

theorem check_logLevel {name : String} (h : name ∈ levelNames) :
    logLevel.check fs [name] = .ok () := by
  have hchoice : ∀ n ∈ levelNames, Parameter.choice? levelNames n = some n := by decide +kernel
  have hvalue : logLevel.checkValue fs name = .ok () := by
    simp only [Parameter.checkValue, logLevel, hchoice name h]
  simp [Parameter.check, hvalue]

/-- The option with which workers are started is understood. -/
theorem ofArguments_logLevel {name : String} (h : name ∈ levelNames) :
    Given.ofArguments workerParameters fs [] ["--log-level", name] =
      .ok ⟨[⟨logLevel.declared, some name⟩], []⟩ := by
  have hvalues : Given.values ⟨[⟨logLevel.declared, some name⟩], []⟩ logLevel = [name] := by
    simp [Given.values, Parameter.values, logLevel]
  unfold Given.ofArguments
  rw [parse_logLevel]
  simp only [inOrder_logLevel, List.forM_eq_forM, List.forM_cons, List.forM_nil, hvalues, check_logLevel h]
  rfl

/-- The worker command performs the request that it is given: its proposals are its output, its notices are logged,
and a failure is its status. -/
theorem work_request (frontEnd : FrontEnd) (g : Given) (w : WorkItem) :
    let ending := work fs (.ok frontEnd) g (Bytes.ofText (Request.ofItem w).text)
    match ((Request.ofItem w).perform fs (.ok frontEnd)).outcome with
    | .ok proposals => ending.code = 0 ∧ ending.output = Response.encode proposals ++ "\n" ∧
        ending.complaints = Log.written (threshold g) ((Request.ofItem w).perform fs (.ok frontEnd)).notices
    | .error _ => ending.code = 1 := by
  obtain ⟨hdecode, hlines⟩ := Request.decode_text w
  have hread : Request.read (String.ofList (Request.ofItem w).text.toList) = .ok (Request.ofItem w) := by
    rw [String.ofList_toList]
    exact Request.read_text w
  simp only [work, hdecode, hlines, hread]
  cases h : ((Request.ofItem w).perform fs (.ok frontEnd)).outcome with
  | ok proposals => exact ⟨rfl, rfl, rfl⟩
  | error f => cases f <;> rfl

theorem workerArguments_of_command (launcher : List String) (level : String) :
    (launcher ++ workerArguments level).drop (launcher.length + 1) = ["--log-level", level] := by
  rw [← List.drop_drop, List.drop_left]
  rfl

/-- The options of a worker that was started at a level. -/
def workerOptions (level : Int) : Given :=
  ⟨[⟨logLevel.declared, some (forwardedLevel level)⟩], []⟩

section OwnWorker

variable {frontEnd : FrontEnd} {level : Int} {r : Running}
  (h : ownWorkers fs (.ok frontEnd) launcher (launcher ++ workerArguments (forwardedLevel level)) r.index
    (Request.ofItem r.item).text = .ok r.worker)
include h

/-- A worker of the program's own does with its request what the worker command does. -/
theorem worker_of_ownWorkers :
    let ending := work fs (.ok frontEnd) (workerOptions level) (Bytes.ofText (Request.ofItem r.item).text)
    r.worker = ⟨false, false, Bytes.ofText ending.output, ending.code, ending.complaints⟩ := by
  have hgiven := @ofArguments_logLevel fs (forwardedLevel level) (forwardedLevel_mem level)
  simp only [ownWorkers, workerArguments_of_command, runWorker, hgiven, Except.ok.injEq] at h
  exact h.symm

theorem answer_of_ownWorkers :
    r.answer = match ((Request.ofItem r.item).perform fs (.ok frontEnd)).outcome with
      | .ok proposals => .ok proposals
      | .error _ => .error (.exited r.index r.item 1) := by
  have hwork := @work_request fs frontEnd (workerOptions level) r.item
  unfold Running.answer
  rw [worker_of_ownWorkers h]
  cases hperform : ((Request.ofItem r.item).perform fs (.ok frontEnd)).outcome with
  | ok proposals =>
    simp only [hperform] at hwork
    obtain ⟨hcode, houtput, -⟩ := hwork
    simp [hcode, houtput, Pool.answer_encode, Except.mapError]
  | error f =>
    simp only [hperform] at hwork
    simp [hwork]

theorem answer_eq_ok_iff (proposals : List Proposal) :
    r.answer = .ok proposals ↔ ((Request.ofItem r.item).perform fs (.ok frontEnd)).outcome = .ok proposals := by
  rw [answer_of_ownWorkers h]
  cases ((Request.ofItem r.item).perform fs (.ok frontEnd)).outcome <;> simp

/-- What a worker of the program's own writes to its error stream when it has performed its item. -/
theorem complaints_of_ownWorkers {proposals : List Proposal}
    (done : ((Request.ofItem r.item).perform fs (.ok frontEnd)).outcome = .ok proposals) :
    r.worker.breaksPipe = false ∧ r.worker.complaints =
      Log.written (threshold (workerOptions level)) ((Request.ofItem r.item).perform fs (.ok frontEnd)).notices := by
  have hwork := @work_request fs frontEnd (workerOptions level) r.item
  simp only [done] at hwork
  rw [worker_of_ownWorkers h]
  exact ⟨rfl, hwork.2.2⟩

end OwnWorker

/-- Workers always log errors, whatever the level at which they are started. -/
theorem errors_enabled (level : Int) : Level.effective (threshold (workerOptions level)) ≤ Level.error := by
  have hnames : ∀ name ∈ levelNames,
      Level.effective (threshold ⟨[⟨logLevel.declared, some name⟩], []⟩) ≤ Level.error := by
    decide +kernel
  exact hnames _ (forwardedLevel_mem level)

theorem ownWorkers_started (frontEnd : FrontEnd) (command : List String) (index : Nat) (request : String) :
    ∃ worker, ownWorkers fs (.ok frontEnd) launcher command index request = .ok worker :=
  ⟨_, rfl⟩

end CommandLine
end ThreadLocal
