import Mathlib.Data.List.Basic
import ThreadLocal.Proofs.Analysis.Proposals
import ThreadLocal.Proofs.Analysis.Traversal

/-!
What is proposed for a file, said of the nodes of its tree: which of them get the keyword, and where. None is
missed, none is added, and they come in the order of the walk.
-/

namespace ThreadLocal

namespace TypeView

def isConst : TypeView → Bool
  | .mk _ _ isConst _ => isConst

/-- From a type down to the types of its elements, as long as there are arrays on the way. -/
inductive Holds : TypeView → TypeView → Prop where
  | itself (t : TypeView) : Holds t t
  | element {kind : TypeKind} {spelling : String} {isConst : Bool} {element t : TypeView}
      (array : kind ∈ TypeKind.arrays) (inner : Holds element t) :
    Holds (.mk kind spelling isConst (some element)) t

theorem isConstant_iff : (t : TypeView) → (t.isConstant = true ↔ ∃ u, t.Holds u ∧ u.isConst = true)
  | .mk kind spelling true element => ⟨fun _ => ⟨_, .itself _, rfl⟩, fun _ => by simp [isConstant]⟩
  | .mk kind spelling false none => by
    constructor
    · intro h
      simp [isConstant] at h
    · intro ⟨u, hu, hconst⟩
      cases hu with
      | itself => cases hconst
  | .mk kind spelling false (some element) => by
    rw [isConstant, Bool.and_eq_true, decide_eq_true_iff, isConstant_iff element]
    constructor
    · intro ⟨harray, u, hu, hconst⟩
      exact ⟨u, .element harray hu, hconst⟩
    · intro ⟨u, hu, hconst⟩
      cases hu with
      | itself => cases hconst
      | element harray hinner => exact ⟨harray, u, hinner, hconst⟩

end TypeView

/-- No type on the two chains is const-qualified. -/
def DeclaredType.IsMutable (t : DeclaredType) : Prop :=
  ∀ u, t.written.Holds u ∨ t.canonical.Holds u → u.isConst = false

theorem DeclaredType.isConstant_eq_false_iff (t : DeclaredType) : t.isConstant = false ↔ t.IsMutable := by
  have hwritten := t.written.isConstant_iff
  have hcanonical := t.canonical.isConstant_iff
  rw [isConstant, Bool.or_eq_false_iff, ← Bool.not_eq_true, ← Bool.not_eq_true, hwritten, hcanonical]
  simp only [IsMutable, not_exists, not_and, Bool.not_eq_true, or_imp, forall_and]

/-- The extent of a node is a stretch of one file that can be read. -/
structure NodeInfo.Spans (node : NodeInfo) (fs : Files) (file : String) (content : Bytes) : Prop where
  start_file : node.start.file = some file
  finish_file : node.finish.file = some file
  readable : fs.read file = .ok content
  start_nonneg : 0 ≤ node.start.offset
  start_le : node.start.offset ≤ node.finish.offset
  finish_le : node.finish.offset ≤ content.length

/-- A node right under the translation unit, or one declared static. -/
def Found.IsLasting (found : Found) : Prop :=
  (∃ parent, found.ancestors.head? = some parent ∧ parent.kind = .unitRoot) ∨ found.node.storage = .static

/-- A node that gets the keyword, and the record of it. -/
structure Found.Gains (found : Found) (fs : Files) (root : Location) (p : Proposal) : Prop where
  wanted : found.node.kind = .variableDecl
  inside : ∀ file, found.node.place.file = some file →
    ∃ l, fs.resolve (Path.ofText file) = .ok l ∧ root <+: l
  lasting : found.IsLasting
  genuine : found.node.name ≠ Candidate.sentinelName
  mutable : found.node.type.IsMutable
  shared : found.node.threadStorage = .none
  placed : ∃ file content path, found.node.Spans fs file content ∧ fs.canonical file = .ok path ∧
    p = ⟨path, found.insertion content, 0, threadKeyword⟩

/-- The records of the nodes that get the keyword, one for each and in their order. -/
inductive Found.Records (fs : Files) (root : Location) : List Found → List Proposal → Prop where
  | none : Records fs root [] []
  | gains {found : Found} {p : Proposal} {rest : List Found} {proposals : List Proposal}
      (h : found.Gains fs root p) (others : Records fs root rest proposals) :
    Records fs root (found :: rest) (p :: proposals)
  | spared {found : Found} {rest : List Found} {proposals : List Proposal} (h : ∀ p, ¬ found.Gains fs root p)
      (others : Records fs root rest proposals) :
    Records fs root (found :: rest) proposals

theorem NodeInfo.isConsidered_eq_true_iff {node : NodeInfo} {fs : Files} {root : Location} :
    node.isConsidered fs root = .ok true ↔
      ∀ file, node.place.file = some file → ∃ l, fs.resolve (Path.ofText file) = .ok l ∧ root <+: l := by
  unfold isConsidered
  cases node.place.file with
  | none => simp
  | some file =>
    cases hr : fs.resolve (Path.ofText file) with
    | error f => simp [Files.isWithin, hr, Except.map]
    | ok l => simp [Files.isWithin, hr, Except.map, Location.isWithin]

namespace Found

variable {found : Found} {fs : Files} {root : Location}

theorem isGlobalOrStatic_iff (wanted : found.node.kind = .variableDecl) :
    found.candidate.isGlobalOrStatic = true ↔ found.IsLasting := by
  -- without a parent the node stands for it, and a variable is no translation unit
  have hkinds : NodeKind.variableDecl ≠ NodeKind.unitRoot := by decide
  cases hancestors : found.ancestors with
  | nil => simp [IsLasting, candidate, Candidate.ofNode, Candidate.isGlobalOrStatic, hancestors, wanted, hkinds]
  | cons parent above => simp [IsLasting, candidate, Candidate.ofNode, Candidate.isGlobalOrStatic, hancestors]

theorem skipReason_eq_none_iff (wanted : found.node.kind = .variableDecl) :
    found.candidate.skipReason = none ↔ found.IsLasting ∧ found.node.name ≠ Candidate.sentinelName ∧
      found.node.type.IsMutable ∧ found.node.threadStorage = .none := by
  have hconstant : found.candidate.isConstant = found.node.type.isConstant := rfl
  have hname : found.candidate.name = found.node.name := rfl
  have hlocal : found.candidate.isThreadLocal = false ↔ found.node.threadStorage = .none := by
    simp [candidate, Candidate.ofNode]
  rw [Candidate.skipReason_eq_none_iff, isGlobalOrStatic_iff wanted, hname, hconstant, hlocal,
    DeclaredType.isConstant_eq_false_iff]

/-- A variable gets the keyword just when this is proposed for it. -/
theorem gains_iff (wanted : found.node.kind = .variableDecl) {p : Proposal} :
    found.Gains fs root p ↔ found.proposal? fs root = some p := by
  rw [proposal?_eq_some_iff]
  constructor
  · intro h
    obtain ⟨file, content, path, hspans, hpath, hp⟩ := h.placed
    obtain ⟨l, hopen⟩ := Files.read_eq_ok_iff.mp hspans.readable
    rw [Files.canonical_of_openFile hopen] at hpath
    obtain rfl := Except.ok.inj hpath
    have hinside := NodeInfo.isConsidered_eq_true_iff.mpr h.inside
    have hfree := (skipReason_eq_none_iff wanted).mpr ⟨h.lasting, h.genuine, h.mutable, h.shared⟩
    refine ⟨l, content, ?_, hp⟩
    exact ⟨hinside, hfree, ⟨file, hspans.start_file, hspans.finish_file, hopen⟩, hspans.start_nonneg, hspans.start_le,
      hspans.finish_le⟩
  · intro ⟨l, content, heligible, hp⟩
    obtain ⟨file, hstart, hfinish, hopen⟩ := heligible.opens
    have hinside := NodeInfo.isConsidered_eq_true_iff.mp heligible.considered
    obtain ⟨hlasting, hgenuine, hmutable, hshared⟩ := (skipReason_eq_none_iff wanted).mp heligible.wanted
    have hread := Files.read_eq_ok_iff.mpr ⟨l, hopen⟩
    have hspans : found.node.Spans fs file content :=
      ⟨hstart, hfinish, hread, heligible.start_nonneg, heligible.start_le, heligible.finish_le⟩
    exact ⟨wanted, hinside, hlasting, hgenuine, hmutable, hshared,
      ⟨file, content, l.text, hspans, Files.canonical_of_openFile hopen, hp⟩⟩

theorem verdict_of_considered {considered : Bool} (h : found.node.isConsidered fs root = .ok considered) :
    ∃ v, found.verdict fs root = .ok v := by
  rw [verdict_eq_of_considered h]
  cases considered with
  | false => exact ⟨none, rfl⟩
  | true =>
    cases hreason : found.candidate.skipReason with
    | some reason =>
      rw [if_pos rfl, Candidate.judge_eq_skipped_iff.mpr hreason]
      exact ⟨_, rfl⟩
    | none =>
      rw [if_pos rfl, Candidate.judge_of_free hreason]
      cases hplace : (found.candidate.insertionOffset fs []).1 with
      | error cause => exact ⟨_, rfl⟩
      | ok offset =>
        obtain ⟨file, l, content, hfile, -, hopen, -⟩ := Candidate.insertionOffset_eq_ok_iff.mp hplace
        simp only [hfile, Option.getD_some, Files.canonical_of_openFile hopen]
        exact ⟨_, rfl⟩

theorem isConsidered_of_clear (clear : ∀ file, found.node.place.file = some file → fs.Clear file) :
    ∃ considered, found.node.isConsidered fs root = .ok considered := by
  unfold NodeInfo.isConsidered
  cases hplace : found.node.place.file with
  | none => exact ⟨true, rfl⟩
  | some file =>
    obtain ⟨l, hl⟩ := (clear file hplace).resolves
    exact ⟨root.isWithin l, by simp [Files.isWithin, hl, Except.map]⟩

theorem records_iff {record : Found → Option Proposal} (h : ∀ found p, found.Gains fs root p ↔ record found = some p)
    {nodes : List Found} {proposals : List Proposal} :
    Records fs root nodes proposals ↔ proposals = nodes.filterMap record := by
  constructor
  · intro hrecords
    induction hrecords with
    | none => rfl
    | gains hgains _ ih => rw [List.filterMap_cons_some ((h _ _).mp hgains), ih]
    | spared hspared _ ih =>
      rw [List.filterMap_cons_none (Option.eq_none_iff_forall_ne_some.mpr fun p hp => hspared p ((h _ p).mpr hp)), ih]
  · rintro rfl
    induction nodes with
    | nil => exact .none
    | cons first rest ih =>
      cases hp : record first with
      | none =>
        rw [List.filterMap_cons_none hp]
        exact .spared (fun p hgains => by simp [(h _ p).mp hgains] at hp) ih
      | some p =>
        rw [List.filterMap_cons_some hp]
        exact .gains ((h _ p).mpr hp) ih

/-- What is proposed for the variables among some nodes, and nothing else, are the records of the nodes. -/
theorem records_of_nodes {nodes : List Found} {proposals : List Proposal} :
    Records fs root nodes proposals ↔
      proposals = (nodes.filter fun f => f.node.kind = .variableDecl).filterMap fun f => f.proposal? fs root := by
  rw [List.filterMap_filter]
  apply records_iff
  intro found p
  by_cases hwanted : found.node.kind = .variableDecl
  · simp [hwanted, gains_iff hwanted]
  · simp only [hwanted, decide_false, Bool.false_eq_true, if_false, reduceCtorEq, iff_false]
    exact fun hgains => hwanted hgains.wanted

end Found

namespace Analyzer

variable {fs : Files} {frontEnd : FrontEnd} {sourceRoot : String} {includePaths : List String} {a : Analyzer}

theorem Reached.settings (reached : Reached fs frontEnd sourceRoot includePaths a) :
    a.frontEnd = frontEnd ∧ a.arguments = includeArguments includePaths ∧
      fs.resolve (Path.ofText sourceRoot) = .ok a.root := by
  induction reached with
  | made h =>
    obtain ⟨root, hroot, rfl⟩ := make_eq_ok_iff.mp h
    exact ⟨rfl, rfl, hroot⟩
  | analyzed _ path ih => exact ih

/-- An analyzer can be made for a clear root, and whatever it has analyzed before, it returns exactly the records of
the nodes below the root of a file's tree, in the order of the walk. A file without a tree has none. -/
theorem proposals_exactly (clear : fs.Clear sourceRoot) :
    (∃ a, make fs frontEnd sourceRoot includePaths = .ok a) ∧
    ∀ a, Reached fs frontEnd sourceRoot includePaths a → ∀ path,
      (∀ cause, frontEnd.parse fs path (includeArguments includePaths) = .error cause →
        (a.analyze fs path).outcome = .ok []) ∧
      ∀ tree, frontEnd.parse fs path (includeArguments includePaths) = .ok tree →
        tree.info.kind ≠ .variableDecl →
        (∀ found ∈ tree.descendants, found.node.kind = .variableDecl →
          ∀ file, found.node.place.file = some file → fs.Clear file) →
        ∃ root proposals, fs.resolve (Path.ofText sourceRoot) = .ok root ∧
          (a.analyze fs path).outcome = .ok proposals ∧
          ∀ ps, Found.Records fs root tree.descendants.reverse ps ↔ ps = proposals := by
  constructor
  · obtain ⟨root, hroot⟩ := clear.resolves
    exact ⟨_, make_eq_ok_iff.mpr ⟨root, hroot, rfl⟩⟩
  · intro a reached path
    obtain ⟨rfl, harguments, hroot⟩ := reached.settings
    rw [(analyze_of_sound reached.sound path).2.1, ← harguments]
    constructor
    · intro cause hparse
      refine analyze_eq_ok_iff.mpr ⟨?_, ?_, ?_⟩ <;> simp [declarations, hparse]
    · intro tree hparse hplain hclear
      have hwanted : decide (tree.info.kind = NodeKind.variableDecl) = false := decide_eq_false hplain
      have hfound : a.declarations fs path =
          tree.descendants.reverse.filter fun f => f.node.kind = .variableDecl := by
        rw [declarations, hparse]
        dsimp only
        rw [Node.found?_eq hwanted, Option.getD_some]
      refine ⟨a.root, _, hroot, analyze_eq_ok_iff.mpr ⟨?_, ?_, rfl⟩, ?_⟩
      · intro tree' htree
        obtain rfl := Except.ok.inj (hparse.symm.trans htree)
        exact hplain
      · intro found hmem
        rw [hfound, List.mem_filter, List.mem_reverse, decide_eq_true_iff] at hmem
        obtain ⟨considered, hconsidered⟩ := Found.isConsidered_of_clear (hclear found hmem.1 hmem.2)
        exact Found.verdict_of_considered hconsidered
      · intro ps
        rw [hfound, Found.records_of_nodes]

end Analyzer

/-! A variable that is left alone for each rule, beside one at file scope and one inside a function. -/

namespace Counters

def int : TypeView := .mk ⟨"INT"⟩ "int" false none

/-- An array of constants, written with a name for its elements' type. -/
def limits : DeclaredType where
  written := .mk ⟨"CONSTANTARRAY"⟩ "limit_t[1]" false (some (.mk ⟨"TYPEDEF"⟩ "limit_t" false none))
  canonical := .mk ⟨"CONSTANTARRAY"⟩ "const int[1]" false (some (.mk ⟨"INT"⟩ "const int" true none))

def files : Files where
  entries := [
    (["src"], .directory),
    (["src", "main.c"], .file (Bytes.ofText
      "static int count;\nlimit_t limits[1];\n__thread int own;\nvoid f(void) \x7b int i; static int calls; \x7d\n")),
    (["lib"], .directory),
    (["lib", "other.h"], .file (Bytes.ofText "int shared;\n"))]
  here := []

def declared (name : String) (type : DeclaredType) (storage : StorageClass) (file : String) (low high : Int) :
    NodeInfo where
  kind := .variableDecl
  name := name
  type := type
  storage := storage
  threadStorage := .none
  start := ⟨some file, low⟩
  finish := ⟨some file, high⟩
  place := ⟨some file, 1, 1⟩

def count : NodeInfo := declared "count" ⟨int, int⟩ .static "/src/main.c" 0 16
def own : NodeInfo := { declared "own" ⟨int, int⟩ .none "/src/main.c" 37 53 with threadStorage := .dynamic }
def calls : NodeInfo := declared "calls" ⟨int, int⟩ .static "/src/main.c" 77 93

def tree : Node :=
  .mk { count with kind := .unitRoot } [
    .mk count [],
    .mk (declared "limits" limits .none "/src/main.c" 18 35) [],
    .mk own [],
    .mk (declared "shared" ⟨int, int⟩ .none "/lib/other.h" 0 10) [],
    .mk { count with kind := ⟨"FUNCTION_DECL"⟩ } [
      .mk (declared "i" ⟨int, int⟩ .none "/src/main.c" 70 75) [],
      .mk calls []]]

def frontEnd : FrontEnd := .ofTrees [("/src/main.c", .ok tree)]

def analyzer : Analyzer := ⟨frontEnd, ["src"], [], Memory.empty⟩

end Counters

/-- The variable found last comes first. -/
theorem counters_proposals_exactly :
    Counters.files.Clear "/src" ∧
      Analyzer.make Counters.files Counters.frontEnd "/src" [] = .ok Counters.analyzer ∧
      (Counters.analyzer.analyze Counters.files "/src/main.c").outcome =
        .ok [⟨"/src/main.c", 84, 0, threadKeyword⟩, ⟨"/src/main.c", 7, 0, threadKeyword⟩] ∧
      ∀ proposals, Found.Records Counters.files ["src"] Counters.tree.descendants.reverse proposals ↔
        proposals = [⟨"/src/main.c", 84, 0, threadKeyword⟩, ⟨"/src/main.c", 7, 0, threadKeyword⟩] := by
  have hroot : Counters.files.locate "/src" = .ok ["src"] := by decide +kernel
  have hmain : Counters.files.locate "/src/main.c" = .ok ["src", "main.c"] := by decide +kernel
  have hother : Counters.files.locate "/lib/other.h" = .ok ["lib", "other.h"] := by decide +kernel
  have hmade : Analyzer.make Counters.files Counters.frontEnd "/src" [] = .ok Counters.analyzer :=
    Analyzer.make_eq_ok_iff.mpr ⟨["src"], Files.resolve_of_locate hroot, rfl⟩
  have houtcome : (Counters.analyzer.analyze Counters.files "/src/main.c").outcome =
      .ok [⟨"/src/main.c", 84, 0, threadKeyword⟩, ⟨"/src/main.c", 7, 0, threadKeyword⟩] := by
    decide +kernel
  have hplaces : ∀ found ∈ Counters.tree.descendants,
      found.node.place.file = some "/src/main.c" ∨ found.node.place.file = some "/lib/other.h" := by
    decide +kernel
  have hclear : ∀ found ∈ Counters.tree.descendants, found.node.kind = .variableDecl →
      ∀ file, found.node.place.file = some file → Counters.files.Clear file := by
    intro found hfound _ file hfile
    rcases hplaces found hfound with hplace | hplace
    · obtain rfl := Option.some.inj (hfile.symm.trans hplace)
      exact Files.clear_of_locate hmain
    · obtain rfl := Option.some.inj (hfile.symm.trans hplace)
      exact Files.clear_of_locate hother
  obtain ⟨-, hexact⟩ := @Analyzer.proposals_exactly Counters.files Counters.frontEnd "/src" []
    (Files.clear_of_locate hroot)
  obtain ⟨-, htree⟩ := hexact _ (.made hmade) "/src/main.c"
  obtain ⟨root, proposals, hresolved, hanalyzed, hrecords⟩ := htree Counters.tree rfl (by decide) hclear
  obtain rfl := Except.ok.inj (hresolved.symm.trans (Files.resolve_of_locate hroot))
  obtain rfl := Except.ok.inj (hanalyzed.symm.trans houtcome)
  exact ⟨Files.clear_of_locate hroot, hmade, houtcome, hrecords⟩

end ThreadLocal
