import ThreadLocal.Candidate
import ThreadLocal.Contents
import ThreadLocal.Edit.Basic
import ThreadLocal.FrontEnd
import ThreadLocal.LeadScan
import ThreadLocal.Log
import ThreadLocal.Traversal

/-!
Looking at one source file: every variable declaration under the source root gets a verdict, and the
verdicts give the proposals and what is reported.
-/

namespace ThreadLocal

/-- Why no place in a file can be given for a declaration. -/
inductive Unlocatable where
  | noFile
  | acrossFiles (start : String) (finish : Option String)
  | unreadable (fault : FragmentFault)
deriving DecidableEq, Repr

def Unlocatable.message : Unlocatable → String
  | .noFile => "declaration has no file"
  | .acrossFiles start finish =>
    "start and end are in different files: " ++ start ++ " and " ++ finish.getD "None"
  | .unreadable f => f.message

inductive Verdict where
  | skipped (reason : SkipReason)
  | unlocatable (cause : Unlocatable)
  | proposed (proposal : Proposal)
deriving DecidableEq, Repr

/-- The keyword that makes a variable thread-local, with the blank after it. -/
def threadKeyword : String := "__thread "

namespace Candidate

/-- The offset at which the keyword goes, and the contents known afterwards. -/
def insertionOffset (c : Candidate) (fs : Files) (known : Contents) : Except Unlocatable Int × Contents :=
  match c.file with
  | none => (.error .noFile, known)
  | some file =>
    if c.finishFile ≠ some file then (.error (.acrossFiles file c.finishFile), known)
    else
      match known.fragment fs file c.start c.finish with
      | (.error f, known) => (.error (.unreadable f), known)
      | (.ok text, known) => (.ok (c.start + leadLength text), known)

/-- The verdict on a candidate, and the contents known afterwards. -/
def judge (c : Candidate) (fs : Files) (known : Contents) : Except ResolveFault Verdict × Contents :=
  match c.skipReason with
  | some reason => (.ok (.skipped reason), known)
  | none =>
    match c.insertionOffset fs known with
    | (.error cause, known) => (.ok (.unlocatable cause), known)
    | (.ok offset, known) =>
      ((fs.canonical (c.file.getD "")).map fun path => .proposed ⟨path, offset.toNat, 0, threadKeyword⟩, known)

end Candidate

namespace Verdict

def proposal? : Verdict → Option Proposal
  | .proposed p => some p
  | _ => none

/-- What is reported of a verdict; a proposal speaks for itself. -/
def notice? (c : Candidate) : Verdict → Option Notice
  | .skipped .alreadyThreadLocal =>
    some (.error "vardecl already has TLS kind: var=%s loc=%s" [.str c.name, .str c.location])
  | .skipped reason =>
    some (.debug "skipping %s (%s) at %s: %s"
      [.str c.name, .str c.typeSpelling, .str c.location, .str reason.text])
  | .unlocatable cause =>
    some (.warning "no insertion point for %s at %s: %s" [.str c.name, .str c.location, .str cause.message])
  | .proposed _ => none

end Verdict

/-- Which paths were found to lie under the root of the sources, and which not. -/
abbrev Membership := Table String Bool

/-- Whether a path lies under the root, and what is known afterwards. A path that cannot be resolved is
looked at again the next time. -/
def Membership.ask (m : Membership) (fs : Files) (root : Location) (path : String) :
    Except ResolveFault Bool × Membership :=
  match Table.get? m path with
  | some inside => (.ok inside, m)
  | none =>
    match fs.isWithin path root with
    | .ok inside => (.ok inside, Table.put m path inside)
    | .error f => (.error f, m)

/-- What an analyzer keeps from one declaration, and from one file, to the next. -/
structure Memory where
  contents : Contents
  within : Membership
deriving DecidableEq, Repr

namespace Memory

def empty : Memory := ⟨[], []⟩

/-- Declarations placed in a file outside the root are not looked at; those without a file are. -/
def considers (m : Memory) (fs : Files) (root : Location) (node : NodeInfo) :
    Except ResolveFault Bool × Memory :=
  match node.place.file with
  | none => (.ok true, m)
  | some file =>
    let (answer, within) := m.within.ask fs root file
    (answer, { m with within := within })

end Memory

/-- A found node as a candidate; its direct parent decides whether it stands at file scope. -/
def Found.candidate (found : Found) : Candidate :=
  Candidate.ofNode found.node (found.ancestors.headD found.node)

/-- The verdicts on the declarations looked at, in order, and what stopped the looking, if anything did. -/
structure Judged where
  verdicts : List (Candidate × Verdict)
  known : Memory
  fault : Option ResolveFault

namespace Judged

def proposals (j : Judged) : List Proposal :=
  j.verdicts.filterMap fun v => v.2.proposal?

def notices (j : Judged) : List Notice :=
  j.verdicts.filterMap fun v => v.2.notice? v.1

def ofFound (fs : Files) (root : Location) : Memory → List Found → Judged
  | known, [] => ⟨[], known, none⟩
  | known, found :: rest =>
    match known.considers fs root found.node with
    | (.error f, known) => ⟨[], known, some f⟩
    | (.ok false, known) => ofFound fs root known rest
    | (.ok true, known) =>
      match found.candidate.judge fs known.contents with
      | (.error f, contents) => ⟨[], { known with contents := contents }, some f⟩
      | (.ok verdict, contents) =>
        let j := ofFound fs root { known with contents := contents } rest
        { j with verdicts := (found.candidate, verdict) :: j.verdicts }

end Judged

inductive AnalysisFault where
  | resolve (fault : ResolveFault)
  | wantedRoot
deriving DecidableEq, Repr

def AnalysisFault.message : AnalysisFault → String
  | .resolve f => f.message
  | .wantedRoot => ""

/-- What looking at one file comes to. -/
structure Analysis where
  notices : List Notice
  known : Memory
  outcome : Except AnalysisFault (List Proposal)

/-- A front end with its arguments, the root of the sources, and what was found out so far. -/
structure Analyzer where
  frontEnd : FrontEnd
  root : Location
  arguments : List String
  known : Memory

namespace Analyzer

/-- Include directories are handed to the front end as `-I` arguments. -/
def includeArguments (includePaths : List String) : List String :=
  includePaths.map ("-I" ++ ·)

def make (fs : Files) (frontEnd : FrontEnd) (sourceRoot : String) (includePaths : List String) :
    Except ResolveFault Analyzer :=
  (fs.resolve (Path.ofText sourceRoot)).map fun root =>
    ⟨frontEnd, root, includeArguments includePaths, Memory.empty⟩

/-- The analysis of a file's tree. -/
def examine (a : Analyzer) (fs : Files) (tree : Node) : Analysis :=
  match tree.found? (· = NodeKind.variableDecl) with
  | none => ⟨[], a.known, .error .wantedRoot⟩
  | some found =>
    let j := Judged.ofFound fs a.root a.known found
    match j.fault with
    | some f => ⟨j.notices, j.known, .error (.resolve f)⟩
    | none =>
      let summary := Notice.debug "proposed %d rewrite(s)" [.int j.proposals.length]
      ⟨j.notices ++ [summary], j.known, .ok j.proposals⟩

/-- The analysis of a file; every notice carries the file's name. A file that has no tree gives no
proposals. -/
def analyze (a : Analyzer) (fs : Files) (path : String) : Analysis :=
  let body : Analysis :=
    match a.frontEnd.parse fs path a.arguments with
    | .error cause => ⟨[.error "failed to parse: %s" [.str cause]], a.known, .ok []⟩
    | .ok tree => a.examine fs tree
  { body with
    notices := (.info "parsing file" [] :: body.notices).map (Notice.labelled (fs.shown path)) }

end Analyzer
end ThreadLocal
