import ThreadLocal.Edit.Basic
import ThreadLocal.Files.Access
import ThreadLocal.Log

/-!
Merging the proposals of all workers. Equal proposals count once; different ones for the same place of a
file are a conflict, and a single conflict leaves no plan at all.
-/

namespace ThreadLocal

/-- The distinct substitutions proposed at each offset of each file, everything in the order of its first
occurrence. -/
abbrev Groups := Table String (Table Nat (List Substitution))

def Groups.add (groups : Groups) (p : Proposal) : Groups :=
  Table.alter groups p.path [] fun offsets =>
    Table.alter offsets p.offset [] fun substitutions =>
      if p.substitution ∈ substitutions then substitutions else substitutions ++ [p.substitution]

def Groups.ofProposals (proposals : List Proposal) : Groups :=
  proposals.foldl Groups.add []

/-- A place of a file and what is proposed there. -/
structure Site where
  path : String
  offset : Nat
  substitutions : List Substitution
deriving DecidableEq, Repr

def Site.isContested (s : Site) : Bool :=
  1 < s.substitutions.length

def Site.edits (s : Site) : List Edit :=
  s.substitutions.map fun x => ⟨s.offset, x.length, x.text⟩

/-- The sites of one file by ascending offset. -/
def sitesOf (path : String) (offsets : Table Nat (List Substitution)) : List Site :=
  (offsets.mergeSort fun a b => a.1 ≤ b.1).map fun e => ⟨path, e.1, e.2⟩

def Groups.sites (groups : Groups) : List Site :=
  groups.flatMap fun e => sitesOf e.1 e.2

/-- Different substitutions proposed for the same place. -/
structure Conflict where
  path : String
  offset : Nat
  position : Position
  proposals : List Substitution
deriving DecidableEq, Repr

namespace Conflict

def location (c : Conflict) : String :=
  c.path ++ ":" ++ toString c.position.line ++ ":" ++ toString c.position.column

/-- The conflict at a contested site; a file that cannot be opened gives no position. -/
def ofSite (fs : Files) (s : Site) : Except AccessFault Conflict :=
  let proposals := s.substitutions.mergeSort Substitution.atMost
  match fs.read s.path with
  | .ok content => .ok ⟨s.path, s.offset, content.position s.offset, proposals⟩
  | .error f => if f.kind = .system then .ok ⟨s.path, s.offset, ⟨0, 0⟩, proposals⟩ else .error f

def notices (fs : Files) (c : Conflict) : List Notice :=
  .error "conflicting substitutions at %s:%d:%d"
      [.str (fs.shown c.path), .int c.position.line, .int c.position.column] ::
    c.proposals.map fun s =>
      .error "    offset=%d length=%d text=%r" [.int c.offset, .int s.length, .str s.text]

end Conflict

inductive Disagreement where
  | conflicts (conflicts : List Conflict)
  | access (fault : AccessFault)
deriving DecidableEq, Repr

def Disagreement.message : Disagreement → String
  | .conflicts cs => toString cs.length ++ " conflicting substitution(s)"
  | .access f => f.message

/-- The conflicts at some sites, up to the first whose file cannot even be asked for. -/
def conflictsAt (fs : Files) : List Site → List Conflict × Option AccessFault
  | [] => ([], none)
  | s :: rest =>
    match Conflict.ofSite fs s with
    | .error f => ([], some f)
    | .ok c =>
      let (cs, fault) := conflictsAt fs rest
      (c :: cs, fault)

/-- What comes of merging: the notices and the plan. -/
structure Agreement where
  notices : List Notice
  outcome : Except Disagreement Plan

def Groups.plan (groups : Groups) : Plan :=
  groups.map fun e => (e.1, (sitesOf e.1 e.2).flatMap Site.edits)

/-- Merges proposals into one ascending list of edits for each file. -/
def agree (fs : Files) (proposals : List Proposal) : Agreement :=
  let groups := Groups.ofProposals proposals
  let (conflicts, fault) := conflictsAt fs (groups.sites.filter Site.isContested)
  let notices := conflicts.flatMap (Conflict.notices fs)
  match fault, conflicts with
  | some f, _ => ⟨notices, .error (.access f)⟩
  | none, [] => ⟨notices, .ok groups.plan⟩
  | none, cs => ⟨notices, .error (.conflicts cs)⟩

end ThreadLocal
