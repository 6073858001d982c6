import ThreadLocal.Proofs.Work.Performance

/-!
From the source files to the rewritten ones: whatever is proposed by any number of workers can be planned and
written, and the keyword ends up once at every place that was proposed.
-/

namespace ThreadLocal

/-- Whatever performed requests propose, merging finds no conflict, writing has no failure, and afterwards
every file is as it was but for the keyword, put in once at each offset proposed for it. -/
theorem keyword_inserted_at_every_proposal {fs : Files} (tree : fs.IsTree) {frontEnd : FrontEnd}
    {items : List WorkItem} {answers : List (List Proposal)}
    (performed : items.map (fun w => ((Request.ofItem w).perform fs (.ok frontEnd)).outcome) =
      answers.map .ok) :
    ∃ plan, (agree fs answers.flatten).outcome = .ok plan ∧
      (writePlan fs [] plan).failures = [] ∧ (writePlan fs [] plan).escaped = none ∧
      (∀ p ∈ answers.flatten, ∃ l content, p.path = l.text ∧ fs.entryAt? l = some (.file content) ∧
        p.offset ≤ content.length) ∧
      (∀ l, (writePlan fs [] plan).files.entryAt? l =
        (fs.entryAt? l).map
          (Entry.mapContent (inserted (Bytes.ofText threadKeyword) (offsetsFor answers.flatten l.text)))) ∧
      ∀ l, (∀ p ∈ answers.flatten, p.path ≠ l.text) →
        (writePlan fs [] plan).files.entryAt? l = fs.entryAt? l := by
  have grounded : ∀ p ∈ answers.flatten, p.Grounded fs := by
    intro p hp
    obtain ⟨proposals, hm, hin⟩ := List.mem_flatten.mp hp
    have hok : (Except.ok proposals : Except WorkFault (List Proposal)) ∈ answers.map .ok :=
      List.mem_map.mpr ⟨_, hm, rfl⟩
    rw [← performed] at hok
    obtain ⟨w, -, hw⟩ := List.mem_map.mp hok
    exact Request.grounded_of_perform hw p hin
  have hagree : (agree fs answers.flatten).outcome = .ok (Groups.ofProposals answers.flatten).plan :=
    agree_eq_ok_iff.mpr ⟨agreeing_of_grounded grounded, rfl⟩
  have hrep := represents_of_agree hagree
  have hleaves := hrep.leaves grounded tree .sound
  rw [Fate.disk_sound] at hleaves
  obtain ⟨hfail, hfiles⟩ := hleaves.of_sound grounded
  have hgo := writePlan_escaped fs [] (Groups.ofProposals answers.flatten).plan .sound
  refine ⟨_, hagree, hfail, hgo, fun p hp => (grounded p hp).inside, hfiles, ?_⟩
  intro l hnone
  rw [hfiles l]
  cases fs.entryAt? l with
  | none => rfl
  | some e => cases e <;> simp [Entry.mapContent, Files.marked, offsetsFor_eq_nil_iff.mpr hnone, inserted_nil]

/-! A header that two source files include, the second by way of a link. -/

namespace SharedHeader

def files : Files where
  entries := [
    (["src"], .directory),
    (["src", "a.h"], .file (Bytes.ofText "static int x;\n")),
    (["src", "alias.h"], .link "a.h"),
    (["src", "one.c"], .file (Bytes.ofText "#include \"a.h\"\n")),
    (["src", "two.c"], .file (Bytes.ofText "#include \"alias.h\"\n"))]
  here := []

def int : TypeView := .mk ⟨"INT"⟩ "int" false none

/-- The declaration in the header, as it is reported under one of the header's names. -/
def declaration (header : String) : NodeInfo where
  kind := .variableDecl
  name := "x"
  type := ⟨int, int⟩
  storage := .static
  threadStorage := .none
  start := ⟨some header, 0⟩
  finish := ⟨some header, 12⟩
  place := ⟨some header, 1, 12⟩

def unit (header : String) : Node :=
  .mk { declaration header with kind := .unitRoot } [.mk (declaration header) []]

def frontEnd : FrontEnd :=
  .ofTrees [("/src/one.c", .ok (unit "/src/a.h")), ("/src/two.c", .ok (unit "/src/./alias.h"))]

/-- Both source files at once. -/
def work : WorkItem := ⟨[], ["/src/one.c", "/src/two.c"], "/src"⟩

def items : List WorkItem := [⟨[], ["/src/one.c"], "/src"⟩, ⟨[], ["/src/two.c"], "/src"⟩]

def answers : List (List Proposal) :=
  [[⟨"/src/a.h", 7, 0, threadKeyword⟩], [⟨"/src/a.h", 7, 0, threadKeyword⟩]]

theorem isTree : files.IsTree :=
  Files.isTree_of_entries (by decide)

end SharedHeader

/-- Both source files ask for the keyword in the header, and it is put in once. -/
theorem sharedHeader_keyword_inserted :
    ∃ plan, (agree SharedHeader.files SharedHeader.answers.flatten).outcome = .ok plan ∧
      (writePlan SharedHeader.files [] plan).failures = [] ∧
      (writePlan SharedHeader.files [] plan).files.entryAt? ["src", "a.h"] =
        some (.file (Bytes.ofText "static __thread int x;\n")) := by
  have performed : SharedHeader.items.map (fun w =>
      ((Request.ofItem w).perform SharedHeader.files (.ok SharedHeader.frontEnd)).outcome) =
        SharedHeader.answers.map .ok := by
    decide +kernel
  obtain ⟨plan, hagree, hfail, -, -, hfiles, -⟩ :=
    keyword_inserted_at_every_proposal SharedHeader.isTree performed
  refine ⟨plan, hagree, hfail, ?_⟩
  rw [hfiles]
  decide +kernel

end ThreadLocal
