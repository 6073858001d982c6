import ThreadLocal.Proofs.Analysis.Proposals
import ThreadLocal.Proofs.Edit.Grounded

/-!
What performing a request comes to: the proposals of its source files, whatever their order, all of them
grounded in the files.
-/

namespace ThreadLocal

variable {fs : Files} {a : Analyzer} {files : List String}

/-- What is proposed for a declaration lies inside a file that is there. -/
theorem Found.grounded_of_proposal? {found : Found} {root : Location} {p : Proposal}
    (h : found.proposal? fs root = some p) : p.Grounded fs := by
  obtain ⟨l, content, heligible, hp⟩ := Found.proposal?_eq_some_iff.mp h
  obtain ⟨file, -, -, hopen⟩ := heligible.opens
  have hentry := (Files.openFile_eq_ok_iff.mp hopen).2
  subst hp
  exact ⟨rfl, rfl, l, content, rfl, hentry, found.insertion_le heligible⟩

namespace Performance

/-- The proposals for files are those of their declarations. -/
theorem mem_of_separately {proposals : List Proposal} (h : separately fs a files = .ok proposals) (p : Proposal) :
    p ∈ proposals ↔ ∃ path ∈ files, ∃ found ∈ a.declarations fs path, found.proposal? fs a.root = some p := by
  induction files generalizing proposals with
  | nil =>
    cases h
    simp
  | cons path rest ih =>
    unfold separately at h
    cases hfirst : (a.forgetful.analyze fs path).outcome with
    | error f => simp [hfirst] at h
    | ok first =>
      cases hothers : separately fs a rest with
      | error f => simp [hfirst, hothers, Except.map] at h
      | ok others =>
        have hp : first ++ others = proposals := by simpa [hfirst, hothers, Except.map] using h
        rw [← hp, List.mem_append, ih hothers, Analyzer.proposals_of_analyze hfirst]
        simp [List.mem_filterMap]

theorem separately_ok_iff :
    (∃ proposals, separately fs a files = .ok proposals) ↔
      ∀ path ∈ files, ∃ proposals, (a.forgetful.analyze fs path).outcome = .ok proposals := by
  induction files with
  | nil => simp [separately]
  | cons path rest ih =>
    rw [List.forall_mem_cons, ← ih]
    simp only [separately]
    cases (a.forgetful.analyze fs path).outcome with
    | error f => simp
    | ok first => cases separately fs a rest <;> simp [Except.map]

theorem outcome_ofAnalyzer (fs : Files) (a : Analyzer) (files : List String) :
    (ofAnalyzer fs a files).outcome = (ofFiles fs a files).outcome := by
  unfold ofAnalyzer
  cases h : (ofFiles fs a files).outcome with
  | error f => simp [h]
  | ok proposals => simp [h]

end Performance

/-- A request is performed as if every file had an analyzer of its own. -/
theorem Request.perform_outcome (w : WorkItem) (fs : Files) (frontEnd : FrontEnd) :
    ((Request.ofItem w).perform fs (.ok frontEnd)).outcome =
      match Analyzer.make fs frontEnd w.sourceRoot w.includePaths with
      | .error f => .error (.root f)
      | .ok a => (Performance.separately fs a w.sourceFiles).mapError .analysis := by
  simp only [perform, ofItem, setUp, Except.mapError, Option.getD_some]
  cases hmake : Analyzer.make fs frontEnd w.sourceRoot w.includePaths with
  | error f => rfl
  | ok a =>
    dsimp only
    rw [Performance.outcome_ofAnalyzer, Performance.ofFiles_of_sound (Analyzer.sound_of_make hmake)]
    rfl

theorem Request.perform_eq_ok_iff {w : WorkItem} {frontEnd : FrontEnd} {proposals : List Proposal} :
    ((Request.ofItem w).perform fs (.ok frontEnd)).outcome = .ok proposals ↔
      ∃ a, Analyzer.make fs frontEnd w.sourceRoot w.includePaths = .ok a ∧
        Performance.separately fs a w.sourceFiles = .ok proposals := by
  rw [perform_outcome]
  cases Analyzer.make fs frontEnd w.sourceRoot w.includePaths with
  | error f => simp
  | ok a => cases h : Performance.separately fs a w.sourceFiles <;> simp [h, Except.mapError]

namespace WorkItem

variable {w : WorkItem} {frontEnd : FrontEnd}

/-- Every source file can be analyzed under the source root. -/
def Analyzable (w : WorkItem) (fs : Files) (frontEnd : FrontEnd) : Prop :=
  ∀ path ∈ w.sourceFiles, ∃ a, Analyzer.make fs frontEnd w.sourceRoot w.includePaths = .ok a ∧
    ∃ proposals, (a.forgetful.analyze fs path).outcome = .ok proposals

/-- Some declaration in one of the source files gives the proposal. -/
def Proposes (w : WorkItem) (fs : Files) (frontEnd : FrontEnd) (p : Proposal) : Prop :=
  ∃ path ∈ w.sourceFiles, ∃ a, Analyzer.make fs frontEnd w.sourceRoot w.includePaths = .ok a ∧
    ∃ found ∈ a.declarations fs path, found.proposal? fs a.root = some p

/-- A request with source files can be performed just when all of them can be analyzed. -/
theorem perform_ok_iff (hne : w.sourceFiles ≠ []) :
    (∃ proposals, ((Request.ofItem w).perform fs (.ok frontEnd)).outcome = .ok proposals) ↔
      w.Analyzable fs frontEnd := by
  simp only [Request.perform_eq_ok_iff]
  constructor
  · intro ⟨proposals, a, hmake, hs⟩ path hpath
    exact ⟨a, hmake, Performance.separately_ok_iff.mp ⟨proposals, hs⟩ path hpath⟩
  · intro h
    obtain ⟨first, hfirst⟩ := List.exists_mem_of_ne_nil _ hne
    obtain ⟨a, hmake, -⟩ := h first hfirst
    have hall : ∀ path ∈ w.sourceFiles, ∃ proposals, (a.forgetful.analyze fs path).outcome = .ok proposals := by
      intro path hpath
      obtain ⟨a', hmake', hproposals⟩ := h path hpath
      obtain rfl := Except.ok.inj (hmake.symm.trans hmake')
      exact hproposals
    obtain ⟨proposals, hs⟩ := Performance.separately_ok_iff.mpr hall
    exact ⟨proposals, a, hmake, hs⟩

theorem mem_of_perform {proposals : List Proposal}
    (h : ((Request.ofItem w).perform fs (.ok frontEnd)).outcome = .ok proposals) (p : Proposal) :
    p ∈ proposals ↔ w.Proposes fs frontEnd p := by
  obtain ⟨a, hmake, hs⟩ := Request.perform_eq_ok_iff.mp h
  rw [Performance.mem_of_separately hs]
  constructor
  · intro ⟨path, hpath, hfound⟩
    exact ⟨path, hpath, a, hmake, hfound⟩
  · intro ⟨path, hpath, a', hmake', hfound⟩
    obtain rfl := Except.ok.inj (hmake.symm.trans hmake')
    exact ⟨path, hpath, hfound⟩

/-- A proposal lies inside a file that is there. -/
theorem Proposes.grounded {p : Proposal} (h : w.Proposes fs frontEnd p) : p.Grounded fs := by
  obtain ⟨path, -, a, -, found, -, hfound⟩ := h
  exact Found.grounded_of_proposal? hfound

theorem analyzable_congr {files : List String} (same : ∀ path, path ∈ w.sourceFiles ↔ path ∈ files) :
    w.Analyzable fs frontEnd ↔ (w.withSourceFiles files).Analyzable fs frontEnd := by
  simp only [Analyzable, withSourceFiles, same]

theorem proposes_congr {files : List String} (same : ∀ path, path ∈ w.sourceFiles ↔ path ∈ files) (p : Proposal) :
    w.Proposes fs frontEnd p ↔ (w.withSourceFiles files).Proposes fs frontEnd p := by
  simp only [Proposes, withSourceFiles, same]

/-- The parts of the source files can be analyzed just when all of them can. -/
theorem analyzable_parts {parts : List (List String)} (whole : parts.flatten = w.sourceFiles) :
    (∀ part ∈ parts, (w.withSourceFiles part).Analyzable fs frontEnd) ↔ w.Analyzable fs frontEnd := by
  simp only [Analyzable, withSourceFiles, ← whole, List.mem_flatten]
  constructor
  · intro h path ⟨part, hpart, hpath⟩
    exact h part hpart path hpath
  · intro h part hpart path hpath
    exact h path ⟨part, hpart, hpath⟩

theorem proposes_parts {parts : List (List String)} (whole : parts.flatten = w.sourceFiles) (p : Proposal) :
    (∃ part ∈ parts, (w.withSourceFiles part).Proposes fs frontEnd p) ↔ w.Proposes fs frontEnd p := by
  simp only [Proposes, withSourceFiles, ← whole, List.mem_flatten]
  constructor
  · intro ⟨part, hpart, path, hpath, h⟩
    exact ⟨path, ⟨part, hpart, hpath⟩, h⟩
  · intro ⟨path, ⟨part, hpart, hpath⟩, h⟩
    exact ⟨part, hpart, path, hpath, h⟩

end WorkItem

/-- Everything that a performed request proposes is grounded in the files. -/
theorem Request.grounded_of_perform {w : WorkItem} {frontEnd : FrontEnd} {proposals : List Proposal}
    (h : ((Request.ofItem w).perform fs (.ok frontEnd)).outcome = .ok proposals) :
    ∀ p ∈ proposals, p.Grounded fs := by
  intro p hp
  exact ((WorkItem.mem_of_perform h p).mp hp).grounded

end ThreadLocal
