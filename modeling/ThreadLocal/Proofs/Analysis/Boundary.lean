import ThreadLocal.Proofs.Analysis.Proposals

/-!
Whether what is proposed stays under the root of the sources. The root is asked about the file where the name
of a declaration stands, but the keyword goes to the file where the declaration begins.
-/

namespace ThreadLocal

/-- A declaration that gets the keyword in a file outside the root. -/
def Found.Strays (found : Found) (fs : Files) (root : Location) : Prop :=
  ∃ l content, found.Eligible fs root l content ∧ root.isWithin l = false

theorem Files.isWithin_of_openFile {fs : Files} {path : String} {l : Location} {content : Bytes}
    (h : fs.openFile path = .ok (l, content)) (root : Location) : fs.isWithin path root = .ok (root.isWithin l) := by
  rw [isWithin, resolve_of_locate (openFile_eq_ok_iff.mp h).1]
  rfl

/-- A declaration strays only if its name stands elsewhere than its beginning, or nowhere. -/
theorem Found.Strays.place_ne_start {found : Found} {fs : Files} {root : Location} (h : found.Strays fs root) :
    found.node.place.file ≠ found.node.start.file := by
  intro hplace
  obtain ⟨l, content, heligible, houtside⟩ := h
  obtain ⟨file, hstart, -, hopen⟩ := heligible.opens
  have hinside := heligible.considered
  simp [NodeInfo.isConsidered, hplace, hstart, Files.isWithin_of_openFile hopen, houtside] at hinside

/-- The path of a proposal lies under the root just when its declaration does not stray. -/
theorem Found.isWithin_of_proposal? {found : Found} {fs : Files} (tree : fs.IsTree) {root : Location} {p : Proposal}
    (h : found.proposal? fs root = some p) :
    fs.isWithin p.path root = .ok true ↔ ¬ found.Strays fs root := by
  obtain ⟨l, content, heligible, hp⟩ := Found.proposal?_eq_some_iff.mp h
  obtain ⟨file, hstart, -, hopen⟩ := heligible.opens
  have htext := Files.openFile_text tree (Files.openFile_eq_ok_iff.mp hopen).2
  subst hp
  rw [Files.isWithin_of_openFile htext, Except.ok.injEq]
  constructor
  · intro hinside ⟨l', content', heligible', houtside⟩
    obtain ⟨file', hstart', -, hopen'⟩ := heligible'.opens
    obtain rfl := Option.some.inj (hstart.symm.trans hstart')
    obtain ⟨rfl, -⟩ := Prod.mk.inj (Except.ok.inj (hopen.symm.trans hopen'))
    rw [hinside] at houtside
    simp at houtside
  · intro hstays
    by_contra houtside
    exact hstays ⟨l, content, heligible, by simpa using houtside⟩

/-- Whatever was analyzed before, the proposals for a file lie under the root just when none of its
declarations strays, and only a declaration that is placed elsewhere than where it begins does. -/
theorem Analyzer.proposals_within_root_iff {fs : Files} (tree : fs.IsTree) {frontEnd : FrontEnd}
    {sourceRoot : String} {includePaths : List String} {a : Analyzer}
    (reached : Reached fs frontEnd sourceRoot includePaths a) {path : String} {proposals : List Proposal}
    (h : (a.analyze fs path).outcome = .ok proposals) :
    ((∀ p ∈ proposals, fs.isWithin p.path a.root = .ok true) ↔
      ∀ found ∈ a.declarations fs path, ¬ found.Strays fs a.root) ∧
    ∀ found ∈ a.declarations fs path, found.Strays fs a.root →
      found.node.place.file ≠ found.node.start.file := by
  refine ⟨?_, fun found _ hstrays => hstrays.place_ne_start⟩
  rw [(analyze_of_sound reached.sound path).2.1] at h
  rw [proposals_of_analyze h]
  constructor
  · intro hinside found hfound hstrays
    have ⟨l, content, heligible, _⟩ := hstrays
    have hproposal := Found.proposal?_eq_some_iff.mpr ⟨l, content, heligible, rfl⟩
    exact (Found.isWithin_of_proposal? tree hproposal).mp
      (hinside _ (List.mem_filterMap.mpr ⟨found, hfound, hproposal⟩)) hstrays
  · intro hstay p hp
    obtain ⟨found, hfound, hproposal⟩ := List.mem_filterMap.mp hp
    exact (Found.isWithin_of_proposal? tree hproposal).mpr (hstay found hfound)

/-! A declaration that begins outside the root and takes its name from a file under it. -/

namespace SplitDeclaration

def files : Files where
  entries := [
    (["src"], .directory),
    (["src", "main.c"], .file (Bytes.ofText "#include \"../out/decl.h\"\n")),
    (["src", "name.inc"], .file (Bytes.ofText "x\n")),
    (["src", "plain.c"], .file (Bytes.ofText "int y;\n")),
    (["out"], .directory),
    (["out", "decl.h"], .file (Bytes.ofText "int\n#include \"../src/name.inc\"\n= 5;\n"))]
  here := []

def int : TypeView := .mk ⟨"INT"⟩ "int" false none

/-- A variable of a name that stands in one file, in an extent of another. -/
def variableNode (name : String) (extent : String) (size : Int) (place : String) : Node :=
  .mk ⟨.variableDecl, name, ⟨int, int⟩, .none, .none, ⟨some extent, 0⟩, ⟨some extent, size⟩, ⟨some place, 1, 1⟩⟩ []

def unit (declaration : Node) : Node :=
  .mk { declaration.info with kind := .unitRoot } [declaration]

def frontEnd : FrontEnd :=
  .ofTrees [
    ("/src/main.c", .ok (unit (variableNode "x" "/src/../out/decl.h" 34 "/src/../out/../src/name.inc"))),
    ("/src/plain.c", .ok (unit (variableNode "y" "/src/plain.c" 5 "/src/plain.c")))]

def analyzer : Analyzer := ⟨frontEnd, ["src"], [], Memory.empty⟩

theorem made : Analyzer.make files frontEnd "/src" [] = .ok analyzer := by
  have hroot : files.resolve (Path.ofText "/src") = .ok ["src"] := by decide +kernel
  rw [Analyzer.make, hroot]
  rfl

theorem isTree : files.IsTree :=
  Files.isTree_of_entries (by decide)

end SplitDeclaration

/-- The keyword is proposed for the file outside the root. -/
theorem proposed_outside_root :
    Analyzer.make SplitDeclaration.files SplitDeclaration.frontEnd "/src" [] = .ok SplitDeclaration.analyzer ∧
      ∃ proposals,
        (SplitDeclaration.analyzer.analyze SplitDeclaration.files "/src/main.c").outcome = .ok proposals ∧
        ∃ p ∈ proposals, SplitDeclaration.files.isWithin p.path SplitDeclaration.analyzer.root = .ok false := by
  refine ⟨SplitDeclaration.made, [⟨"/out/decl.h", 0, 0, threadKeyword⟩], by decide +kernel, ?_⟩
  exact ⟨⟨"/out/decl.h", 0, 0, threadKeyword⟩, List.mem_singleton_self _, by decide +kernel⟩

/-- What is then proposed for a file whose declaration is not split stays under the root. -/
theorem plain_proposed_within_root :
    let a := { SplitDeclaration.analyzer with
      known := (SplitDeclaration.analyzer.analyze SplitDeclaration.files "/src/main.c").known }
    ∃ proposals, (a.analyze SplitDeclaration.files "/src/plain.c").outcome = .ok proposals ∧ proposals ≠ [] ∧
      ∀ p ∈ proposals, SplitDeclaration.files.isWithin p.path a.root = .ok true := by
  intro a
  have reached := (Analyzer.Reached.made SplitDeclaration.made).analyzed "/src/main.c"
  have houtcome : (a.analyze SplitDeclaration.files "/src/plain.c").outcome =
      .ok [⟨"/src/plain.c", 0, 0, threadKeyword⟩] := by
    decide +kernel
  have hwhole : ∀ found ∈ a.declarations SplitDeclaration.files "/src/plain.c",
      found.node.place.file = found.node.start.file := by
    decide +kernel
  obtain ⟨hiff, hstray⟩ := Analyzer.proposals_within_root_iff SplitDeclaration.isTree reached houtcome
  refine ⟨_, houtcome, by simp, hiff.mpr ?_⟩
  intro found hfound hstrays
  exact hstray found hfound hstrays (hwhole found hfound)

end ThreadLocal
