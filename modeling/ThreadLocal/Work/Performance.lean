import ThreadLocal.Analysis
import ThreadLocal.Work.Item

/-!
Doing the work of one request: every source file is analyzed in order, and files that cannot be parsed do
not stop it.
-/

namespace ThreadLocal

inductive WorkFault where
  | unavailable (fault : Unavailable)
  | noRoot
  | root (fault : ResolveFault)
  | notIterable
  | analysis (fault : AnalysisFault)
deriving DecidableEq, Repr

def WorkFault.message : WorkFault → String
  | .unavailable f => f.message
  | .noRoot => "expected str, bytes or os.PathLike object, not NoneType"
  | .root f => f.message
  | .notIterable => "'NoneType' object is not iterable"
  | .analysis f => f.message

/-- What doing some work comes to; `parsed` names the files handed to the front end, with its
arguments. -/
structure Performance where
  notices : List Notice
  parsed : List (String × List String)
  outcome : Except WorkFault (List Proposal)

namespace Performance

def failed (fault : WorkFault) : Performance :=
  ⟨[], [], .error fault⟩

/-- Analyzes files in order, with what was found out so far shared among them. -/
def ofFiles (fs : Files) (a : Analyzer) : List String → Performance
  | [] => ⟨[], [], .ok []⟩
  | path :: rest =>
    let first := a.analyze fs path
    match first.outcome with
    | .error f => ⟨first.notices, [(path, a.arguments)], .error (.analysis f)⟩
    | .ok proposals =>
      let others := ofFiles fs { a with known := first.known } rest
      ⟨first.notices ++ others.notices, (path, a.arguments) :: others.parsed,
        others.outcome.map (proposals ++ ·)⟩

def summary (files proposals : Nat) : Notice :=
  .info "worker analyzed %d file(s) in %.1f seconds, %d raw rewrite(s)"
    [.int files, Log.noTime, .int proposals]

/-- The work with an analyzer, and the summary if nothing stopped it. -/
def ofAnalyzer (fs : Files) (a : Analyzer) (files : List String) : Performance :=
  let p := ofFiles fs a files
  match p.outcome with
  | .error _ => p
  | .ok proposals => { p with notices := p.notices ++ [summary files.length proposals.length] }

end Performance

/-- Performs a request. The front end comes first, then the source root, the include paths and the source
files; the first of them that cannot be had decides the failure. -/
def Request.perform (r : Request) (fs : Files) (frontEnd : Except SetupFault FrontEnd) : Performance :=
  match setUp frontEnd with
  | .error f => .failed (.unavailable f)
  | .ok frontEnd =>
    match r.sourceRoot with
    | none => .failed .noRoot
    | some sourceRoot =>
      match Analyzer.make fs frontEnd sourceRoot (r.includePaths.getD []) with
      | .error f => .failed (.root f)
      | .ok a =>
        match r.includePaths, r.sourceFiles with
        | some _, some files => .ofAnalyzer fs a files
        | _, _ => .failed .notIterable

end ThreadLocal
