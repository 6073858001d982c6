import ThreadLocal.C.SourceUnit
import ThreadLocal.CommandLine.Reach

/-!
The program on a real machine: reads the part of the file system that a command may look at, runs the
command, writes the files that it changed and prints what it prints.
-/

namespace ThreadLocal
namespace Machine

/-- The location of an absolute path of the machine. -/
def locationOf (path : String) : Location :=
  (Path.ofText path).parts

/-- Where a path of the machine really is, if it exists. -/
def realLocation? (path : String) : IO (Option Location) := do
  try
    return some (locationOf (← IO.FS.realPath path).toString)
  catch _ =>
    return none

/-- The names in a directory; none if it is no directory. -/
def namesIn (path : String) : IO (List String) := do
  try
    let directory ← IO.FS.realPath path
    return (← directory.readDir).toList.map fun e => e.fileName
  catch _ =>
    return []

def contentOf? (path : String) : IO (Option Bytes) := do
  try
    return some (← IO.FS.readBinFile path).toList
  catch _ =>
    return none

/-- What was read so far, and the locations at which everything was. -/
structure Loaded where
  files : Files
  complete : List Location

/-- Reads what stands at a location, with everything below it and wherever its links lead. -/
partial def loadAt (r : Loaded) (l : Location) : IO Loaded := do
  if r.complete.contains l then return r
  let r := { r with complete := l :: r.complete }
  match ← realLocation? l.text with
  | none => return r
  | some real =>
    if real ≠ l then
      loadAt { r with files := r.files.install l (.link real.text) } real
    else
      match ← contentOf? l.text with
      | some content => return { r with files := r.files.install l (.file content) }
      | none =>
        let mut r := { r with files := r.files.makeDirectory l }
        for name in ← namesIn l.text do
          r ← loadAt r (l ++ [name])
        return r

/-- Follows a path component by component, noting the links on its way. -/
def follow (fs : Files) (base : Location) : List String → IO (Files × Location)
  | [] => return (fs, base)
  | name :: rest => do
    if name = ".." then follow fs base.dropLast rest
    else
      let l := base ++ [name]
      match ← realLocation? l.text with
      | none => follow fs l rest
      | some real =>
        if real = l then follow fs l rest
        else follow (if (fs.entryAt? l).isSome then fs else fs.install l (.link real.text)) real rest

/-- Reads the directory that a path names, or the one in which the file that it names stands. -/
def load (r : Loaded) (path : String) : IO Loaded := do
  let p := Path.ofText path
  let (fs, l) ← follow r.files (r.files.start p.anchor) p.parts
  let r := { r with files := fs }
  match ← contentOf? l.text with
  | some _ => loadAt r l.dropLast
  | none => loadAt r l

/-- Writes the files whose content is no longer what it was. -/
def save (before after : Files) : IO Unit := do
  for (l, content) in after.contents do
    if before.entryAt? l ≠ some (.file content) then
      IO.FS.writeBinFile l.text ⟨content.toArray⟩

def environment : IO (Table String String) := do
  match ← IO.getEnv "TLSIFY_LOG_LEVEL" with
  | some v => return [("TLSIFY_LOG_LEVEL", v)]
  | none => return []

/-- Standard input, for the command that reads it. -/
def inputFor (arguments : List String) : IO Bytes := do
  if arguments.head? = some CommandLine.workerName then
    return ((← (← IO.getStdin).readToEnd).toUTF8).toList
  else return []

def launcher : List String := ["tlsify"]

/-- Runs the program and returns its exit status. -/
def run (arguments : List String) : IO UInt32 := do
  let environment ← environment
  let input ← inputFor arguments
  let g := CommandLine.givenTo arguments environment
  let here := locationOf (← IO.currentDir).toString
  let r : Loaded := ⟨(Files.mk [] here).makeDirectory here, []⟩
  let r ← (CommandLine.namedPaths g ++ CommandLine.requestedPaths input).foldlM load r
  let r ← (CommandLine.recordedPaths r.files g).foldlM load r
  let fs := r.files
  let workers := CommandLine.ownWorkers fs (.ok C.frontEnd) launcher
  let e := CommandLine.start ⟨fs, environment, none, launcher, workers, .ok C.frontEnd⟩ arguments input
  save fs e.files
  IO.print e.output
  IO.eprint e.complaints
  match e.abort with
  | some a => IO.eprintln ("Error: " ++ a.message)
  | none => pure ()
  return UInt32.ofNat e.code

end Machine
end ThreadLocal

def main (arguments : List String) : IO UInt32 :=
  ThreadLocal.Machine.run arguments
