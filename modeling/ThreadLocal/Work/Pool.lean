import ThreadLocal.Files.Access
import ThreadLocal.Log
import ThreadLocal.Work.Item
import ThreadLocal.Work.Response
import ThreadLocal.Work.Shards

/-!
One worker process for each shard: every worker is started before any is waited for, the first failure ends
the collection, and no worker is left running.
-/

namespace ThreadLocal

/-- What a started worker does with its request. -/
structure Worker where
  /-- it goes away before its request is written -/
  breaksPipe : Bool
  /-- it runs until it is waited for -/
  lingers : Bool
  output : Bytes
  status : Int
  /-- what it writes to its error stream -/
  complaints : String
deriving Repr

/-- The refusal of the system to start a program. -/
abbrev SpawnFault := SystemFault

/-- What becomes of the worker of an index that is started by a command and handed a request. -/
abbrev Workers := (command : List String) → (index : Nat) → (request : String) → Except SpawnFault Worker

/-- One observable step of a run. -/
inductive Step where
  | said (notice : Notice)
  | refused (index : Nat)
  | started (index : Nat) (command : List String)
  | brokenPipe (index : Nat)
  | closed (index : Nat) (request complaints : String)
  | read (index : Nat)
  | awaited (index : Nat)
  | killed (index : Nat)
deriving Repr

def Step.notice? : Step → Option Notice
  | .said n => some n
  | _ => none

def Step.request? : Step → Option String
  | .closed _ request _ => some request
  | _ => none

def Step.complaints : Step → String
  | .closed _ _ complaints => complaints
  | _ => ""

inductive AnswerFault where
  | notText (fault : Utf8.Fault)
  | bad (fault : ResponseFault)
deriving DecidableEq, Repr

def AnswerFault.message : AnswerFault → String
  | .notText f => f.message
  | .bad f => f.message

inductive WorkerFailure where
  | notStarted (program : String) (item : WorkItem) (fault : SpawnFault)
  | exited (index : Nat) (item : WorkItem) (status : Int)
  | undecodable (index : Nat) (item : WorkItem) (fault : AnswerFault)
deriving DecidableEq, Repr

namespace Pool

/-- The process of a worker, as messages name it. -/
def process (index : Nat) : Nat := 1000 + index

def answer (output : Bytes) : Except AnswerFault (List Proposal) :=
  match output.text? with
  | .error f => .error (.notText f)
  | .ok s => (Response.decode s).mapError .bad

end Pool

namespace WorkerFailure

def message : WorkerFailure → String
  | .notStarted program item fault =>
    "could not start worker " ++ quoted program ++ " (" ++ item.description ++ "): " ++ fault.message
  | .exited index item status =>
    "worker " ++ toString (Pool.process index) ++ " (" ++ item.description ++ ") exited with status " ++
      toString status
  | .undecodable index item fault =>
    "worker " ++ toString (Pool.process index) ++ " (" ++ item.description ++
      ") sent an undecodable response: " ++ fault.message

/-- Only a worker that exited by itself has a status to tell. -/
def status? : WorkerFailure → Option Int
  | .exited _ _ status => some status
  | _ => none

end WorkerFailure

inductive CollectFault where
  | shards (fault : ShardFault)
  | worker (failure : WorkerFailure)
deriving DecidableEq, Repr

def CollectFault.message : CollectFault → String
  | .shards f => f.message
  | .worker f => f.message

/-- A worker that was started, and its part of the work. -/
structure Running where
  index : Nat
  item : WorkItem
  worker : Worker
deriving Repr

namespace Running

/-- The steps of handing a started worker its request. -/
def handOver (command : List String) (r : Running) : List Step :=
  .started r.index command ::
    if r.worker.breaksPipe then
      [.brokenPipe r.index,
        .said (.warning "worker %d exited before reading its request" [.int (Pool.process r.index)])]
    else [.closed r.index (Request.ofItem r.item).text r.worker.complaints]

/-- The answer of a worker that has ended; its exit status is looked at first. -/
def answer (r : Running) : Except WorkerFailure (List Proposal) :=
  if r.worker.status ≠ 0 then .error (.exited r.index r.item r.worker.status)
  else (Pool.answer r.worker.output).mapError (.undecodable r.index r.item)

/-- Ends a worker that was not waited for, if it still runs. -/
def stop (r : Running) : List Step :=
  if r.worker.lingers then [.killed r.index, .awaited r.index] else []

end Running

/-- The workers that could be started, the steps of starting them, and what stopped it. -/
structure Launch where
  steps : List Step
  running : List Running
  failure : Option WorkerFailure

namespace Pool

/-- Starts a worker for every item, the first of them with the given index. -/
def launch (command : List String) (workers : Workers) (index : Nat) : List WorkItem → Launch
  | [] => ⟨[], [], none⟩
  | item :: rest =>
    match workers command index (Request.ofItem item).text with
    | .error f => ⟨[.refused index], [], some (.notStarted (command.headD "") item f)⟩
    | .ok worker =>
      let r : Running := ⟨index, item, worker⟩
      let others := launch command workers (index + 1) rest
      ⟨r.handOver command ++ others.steps, r :: others.running, others.failure⟩

/-- Waits for the workers in order and joins their answers; after a failure the others are stopped. -/
def gather : List Running → List Step × Except WorkerFailure (List Proposal)
  | [] => ([], .ok [])
  | r :: rest =>
    match r.answer with
    | .error f => ([.read r.index, .awaited r.index] ++ rest.flatMap Running.stop, .error f)
    | .ok proposals =>
      let (steps, others) := gather rest
      ([.read r.index, .awaited r.index] ++ steps, others.map (proposals ++ ·))

end Pool

/-- What a collection comes to. -/
structure Collection where
  steps : List Step
  outcome : Except CollectFault (List Proposal)

namespace Collection

def announced (files workers : Nat) : Step :=
  .said (.info "analyzing %d file(s) with %d worker(s)" [.int files, .int workers])

def summary (proposals : Nat) : Step :=
  .said (.info "collected %d raw rewrite(s) in %.1f seconds" [.int proposals, Log.noTime])

end Collection

/-- Spreads the source files over workers started by `command` and collects every proposal. -/
def collect (command : List String) (workers : Workers) (work : WorkItem) (parallelism : Int) : Collection :=
  match shards work.sourceFiles parallelism with
  | .error f => ⟨[], .error (.shards f)⟩
  | .ok shards =>
    let announced := Collection.announced work.sourceFiles.length shards.length
    let launch := Pool.launch command workers 0 (shards.map work.withSourceFiles)
    match launch.failure with
    | some f => ⟨announced :: launch.steps ++ launch.running.flatMap Running.stop, .error (.worker f)⟩
    | none =>
      let (steps, answers) := Pool.gather launch.running
      match answers with
      | .error f => ⟨announced :: launch.steps ++ steps, .error (.worker f)⟩
      | .ok proposals =>
        ⟨announced :: launch.steps ++ steps ++ [Collection.summary proposals.length], .ok proposals⟩

/-- The levels that can be asked of a worker. -/
def forwardedLevels : List Int :=
  [Level.debug, Level.info, Level.warning, Level.error]

/-- The name of the highest such level that is not above `level`; below all of them, the lowest. -/
def forwardedLevel (level : Int) : String :=
  Level.name (((forwardedLevels.filter (· ≤ level)).getLast?).getD Level.debug)

end ThreadLocal
