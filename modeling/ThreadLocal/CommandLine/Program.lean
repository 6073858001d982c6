import ThreadLocal.Build.Database
import ThreadLocal.CommandLine.Parameter
import ThreadLocal.Run

/-!
The two commands of the program: one makes the variables of a code base thread-local, the other is the
worker that analyzes one shard of it.
-/

namespace ThreadLocal

/-- A fault that no command turns into a message of its own. -/
inductive Abort where
  | database (fault : DatabaseFault)
  | command (fault : CommandFault)
  | resolve (fault : ResolveFault)
  | access (fault : AccessFault)
  | shards (fault : ShardFault)
  | encoding (fault : Utf8.Fault)
  | request (fault : RequestReadFault)
  | work (fault : WorkFault)
  | write (fault : WriteFault)
deriving DecidableEq, Repr

def Abort.message : Abort → String
  | .database f => f.message
  | .command f => f.message
  | .resolve f => f.message
  | .access f => f.message
  | .shards f => f.message
  | .encoding f => f.message
  | .request f => f.message
  | .work f => f.message
  | .write f => f.message

/-- How a command ends. -/
structure Ending where
  code : Nat
  output : String
  complaints : String
  files : Files
  steps : List Step
  abort : Option Abort

/-- What a command finds when it is started. -/
structure Surroundings where
  files : Files
  environment : Table String String
  /-- how many processors there are, if that is known -/
  processors : Option Nat
  /-- the words of a command that start this program -/
  launcher : List String
  workers : Workers
  frontEnd : Except SetupFault FrontEnd

namespace CommandLine

def convertName : String := "rewrite-globals"

def workerName : String := "rewrite-globals-worker"

def includeDirectory : Parameter := ⟨["-I", "--include"], .directory false, true, false, none⟩

def source : Parameter := ⟨["-c", "--source"], .file, true, false, none⟩

def sourceRoot : Parameter := ⟨["-r", "--source-root"], .directory true, false, true, none⟩

def database : Parameter := ⟨["--compdb"], .file, false, false, none⟩

def jobs : Parameter := ⟨["-j", "--jobs"], .positive, false, false, none⟩

def dryRun : Parameter := ⟨["--dry-run"], .flag, false, false, none⟩

def levelNames : List String := ["DEBUG", "INFO", "WARNING", "ERROR"]

def logLevel : Parameter := ⟨["--log-level"], .oneOf levelNames, false, false, some "TLSIFY_LOG_LEVEL"⟩

def convertParameters : List Parameter :=
  [includeDirectory, source, sourceRoot, database, jobs, dryRun, logLevel]

def workerParameters : List Parameter := [logLevel]

/-- The arguments with which a worker is started. -/
def workerArguments (level : String) : List String :=
  [workerName, "--log-level", level]

/-- The threshold asked for; without one, everything from `INFO` on is written. -/
def threshold (g : Given) : Int :=
  match (g.values logLevel).getLast?.bind (Parameter.choice? levelNames) with
  | some name => (Level.ofName name).toOption.getD Level.info
  | none => Level.info

/-- The synopsis of a command; the program itself has none of a command's name. -/
def synopsis (command : Option String) : String :=
  match command with
  | some name => "Usage: cli " ++ name ++ " [OPTIONS]\n"
  | none => "Usage: cli [OPTIONS] COMMAND [ARGS]...\n"

def usageText (command : Option String) (f : UsageFault) : String :=
  let name := match command with
    | some name => "cli " ++ name
    | none => "cli"
  synopsis command ++ "Try '" ++ name ++ " --help' for help.\n\nError: " ++ f.message ++ "\n"

def failed (fs : Files) (complaints : String) : Ending :=
  ⟨1, "", complaints, fs, [], none⟩

def aborted (fs : Files) (a : Abort) : Ending :=
  ⟨1, "", "", fs, [], some a⟩

def refusal (fs : Files) (command : Option String) : Refused → Ending
  | .usage f => ⟨2, "", usageText command f, fs, [], none⟩
  | .needsValue name => ⟨2, "", "Error: Option " ++ quoted name ++ " requires an argument.\n", fs, [], none⟩
  | .takesNoValue name => ⟨2, "", "Error: Option " ++ quoted name ++ " does not take a value.\n", fs, [], none⟩
  | .path f => aborted fs (.access f)

/-- What a step writes to the error stream. -/
def stepText (level : Int) : Step → String
  | .said n => Log.written level [n]
  | s => s.complaints

/-- One line for every planned edit of one file. -/
def plannedLines (fs : Files) (path : String) (edits : List Edit) : Except AccessFault String :=
  match fs.read path with
  | .error f => .error f
  | .ok content =>
    .ok (String.join (edits.map fun e =>
      let p := content.position e.offset
      fs.shown path ++ ":" ++ toString p.line ++ ":" ++ toString p.column ++ ": insert " ++
        quoted e.text ++ "\n"))

/-- The planned edits of all files by path, up to the first file that cannot be read. -/
def planText (fs : Files) : List (String × List Edit) → String × Option AccessFault
  | [] => ("", none)
  | (path, edits) :: rest =>
    match plannedLines fs path edits with
    | .error f => ("", some f)
    | .ok text =>
      let (others, fault) := planText fs rest
      (text ++ others, fault)

def byPath (plan : Plan) : List (String × List Edit) :=
  plan.mergeSort fun a b => a.1 ≤ b.1

/-- The lines about conflicts, each naming its place. -/
def conflictText (fs : Files) (conflicts : List Conflict) : String :=
  String.join (conflicts.map fun c => "\t" ++ fs.shown c.location ++ "\n")

def failureText (fs : Files) (failures : Failures) : String :=
  String.join (failures.map fun e => "\t" ++ fs.shown e.1 ++ ": " ++ e.2.message ++ "\n")

def untouched (message : String) : String :=
  "Error: " ++ message ++ "; no files were modified.\n"

/-- How a run ends for its caller. -/
def endingOf (r : Run) (level : Int) (isDry : Bool) : Ending :=
  let log := String.join (r.steps.map (stepText level))
  let ending (code : Nat) (output complaints : String) (abort : Option Abort) : Ending :=
    ⟨code, output, log ++ complaints, r.files, r.steps, abort⟩
  match r.outcome with
  | .error (.collect (.worker f)) => ending 1 "" (untouched f.message) none
  | .error (.collect (.shards f)) => ending 1 "" "" (some (.shards f))
  | .error (.disagreement (.access f)) => ending 1 "" "" (some (.access f))
  | .error (.disagreement (.conflicts cs)) =>
    ending 1 "" (untouched (Disagreement.conflicts cs).message ++ conflictText r.files cs) none
  | .error (.write f) => ending 1 "" "" (some (.write f))
  | .ok o =>
    if isDry then
      match planText r.files (byPath o.plan) with
      | (text, none) => ending 0 text "" none
      | (text, some f) => ending 1 text "" (some (.access f))
    else if o.isComplete then ending 0 "" "" none
    else
      ending 1 ""
        ("Error: failed to rewrite " ++ toString o.failures.length ++ " file(s):\n" ++
          failureText r.files o.failures) none

/-- Sources and include directories from the options and from the compilation database. -/
def inputs (fs : Files) (g : Given) : Except Abort (List Path × List Path) := do
  let sources := (g.values source).map Path.ofText
  let includes := (g.values includeDirectory).map Path.ofText
  match (g.values database).getLast? with
  | none => return (sources, includes)
  | some path =>
    let db ← (Database.ofFile fs (Path.ofText path).text).mapError .database
    let more ← (db.sources fs).mapError .command
    let moreIncludes ← (db.includeDirectories fs).mapError .command
    return (sources ++ more.map Path.ofLocation, includes ++ moreIncludes.map Path.ofLocation)

def workItem (fs : Files) (g : Given) (sources includes : List Path) : Except Abort WorkItem := do
  let includePaths ← (fs.canonicalOnce includes).mapError .resolve
  let sourceFiles ← (fs.canonicalOnce sources).mapError .resolve
  let root := (g.values sourceRoot).getLast?.getD ""
  return ⟨includePaths, sourceFiles, ← (fs.canonical root).mapError .resolve⟩

/-- As many workers as asked for, or as there are processors. -/
def parallelism (g : Given) (processors : Option Nat) : Int :=
  match (g.values jobs).getLast?.bind fun s => Integer.read? s.toList with
  | some n => n
  | none => match processors with
    | some n => if n = 0 then 1 else n
    | none => 1

/-- Makes every mutable global and static variable thread-local. -/
def convert (s : Surroundings) (g : Given) : Ending :=
  match inputs s.files g with
  | .error a => aborted s.files a
  | .ok (sources, includes) =>
    if sources.isEmpty then
      failed s.files "Error: No source files given; pass `-c` or `--compdb`.\n"
    else
      match workItem s.files g sources includes with
      | .error a => aborted s.files a
      | .ok work =>
        let isDry := g.isSet dryRun
        let command := s.launcher ++ workerArguments (forwardedLevel (Level.effective (threshold g)))
        let r := run s.files command s.workers work (parallelism g s.processors) isDry
        endingOf r (threshold g) isDry

/-- Analyzes the shard described on standard input and prints its proposals. -/
def work (fs : Files) (frontEnd : Except SetupFault FrontEnd) (g : Given) (input : Bytes) : Ending :=
  match Utf8.decode input with
  | .error f => aborted fs (.encoding f)
  | .ok cs =>
    match Request.read (String.ofList (unifyLineEnds cs)) with
    | .error f => aborted fs (.request f)
    | .ok request =>
      let p := request.perform fs frontEnd
      let notices := match p.outcome with
        | .error (.unavailable f) => p.notices ++ [.error "%s" [.str f.message]]
        | _ => p.notices
      let log := Log.written (threshold g) notices
      match p.outcome with
      | .ok proposals => ⟨0, Response.encode proposals ++ "\n", log, fs, [], none⟩
      | .error (.unavailable _) => ⟨1, "", log, fs, [], none⟩
      | .error f => ⟨1, "", log, fs, [], some (.work f)⟩

def runWorker (fs : Files) (environment : Table String String) (frontEnd : Except SetupFault FrontEnd)
    (arguments : List String) (input : Bytes) : Ending :=
  match Given.ofArguments workerParameters fs environment arguments with
  | .error r => refusal fs (some workerName) r
  | .ok g => work fs frontEnd g input

def runConvert (s : Surroundings) (arguments : List String) : Ending :=
  match Given.ofArguments convertParameters s.files s.environment arguments with
  | .error r => refusal s.files (some convertName) r
  | .ok g => convert s g

/-- Runs the program with its arguments and standard input. -/
def start (s : Surroundings) (arguments : List String) (input : Bytes) : Ending :=
  match Arguments.parse [] false arguments with
  | .error (.noSuchOption name) => refusal s.files none (.usage (.noSuchOption name))
  | .error (.needsValue name) => refusal s.files none (.needsValue name)
  | .error (.takesNoValue name) => refusal s.files none (.takesNoValue name)
  | .ok (_, []) => refusal s.files none (.usage .noCommand)
  | .ok (_, name :: rest) =>
    if name = convertName then runConvert s rest
    else if name = workerName then runWorker s.files s.environment s.frontEnd rest input
    else refusal s.files none (.usage (.noSuchCommand name))

/-- Workers that run in this process: each does what the worker command, which follows the words that
start the program, would do with its request. One that aborts exits with status 1. -/
def ownWorkers (files : Files) (frontEnd : Except SetupFault FrontEnd) (launcher : List String) : Workers :=
  fun command _ request =>
    let arguments := command.drop (launcher.length + 1)
    let e := runWorker files [] frontEnd arguments (Bytes.ofText request)
    .ok ⟨false, false, Bytes.ofText e.output, e.code, e.complaints⟩

end CommandLine
end ThreadLocal
