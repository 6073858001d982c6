import ThreadLocal.CommandLine.Program

/-!
Which paths a command may look at, so that the outside world can be asked for them beforehand: those among
its arguments, those in its compilation database and those in its request.
-/

namespace ThreadLocal
namespace CommandLine

/-- The parameters of a command of some name. -/
def parametersOf (name : String) : List Parameter :=
  if name = convertName then convertParameters else workerParameters

/-- The options given to the command, unchecked. -/
def givenTo (arguments : List String) (environment : Table String String) : Given :=
  match arguments with
  | [] => ⟨[], environment⟩
  | name :: rest =>
    match Arguments.parse ((parametersOf name).map Parameter.declared) true rest with
    | .ok (occurrences, _) => ⟨occurrences, environment⟩
    | .error _ => ⟨[], environment⟩

/-- The paths among the options. -/
def namedPaths (g : Given) : List String :=
  [includeDirectory, source, sourceRoot, database].flatMap g.values

/-- The paths in the compilation database, as far as it can be read. -/
def recordedPaths (fs : Files) (g : Given) : List String :=
  match inputs fs g with
  | .ok (sources, includes) => (sources ++ includes).map Path.text
  | .error _ => []

/-- The paths in a request. -/
def requestedPaths (input : Bytes) : List String :=
  match input.text? with
  | .error _ => []
  | .ok s =>
    match Request.read s with
    | .error _ => []
    | .ok r => r.sourceRoot.toList ++ r.includePaths.getD [] ++ r.sourceFiles.getD []

end CommandLine
end ThreadLocal
