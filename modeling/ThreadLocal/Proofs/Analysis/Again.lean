import ThreadLocal.Proofs.Analysis.Correspondence
import ThreadLocal.Proofs.Analysis.Proposals
import ThreadLocal.Proofs.Files.Shape

/-!
Looking again at source files after the keyword was put in. The declarations that got it are thread-local now, and
nothing else about the trees has changed that a verdict depends on, so nothing is proposed any more.
-/

namespace ThreadLocal

/-- What is found of a node after files have changed from `fs` to `gs`. A variable that was thread-local or for which
the keyword was proposed is thread-local, and one that had no place in a file still has none. -/
structure Found.Again (fs gs : Files) (root : Location) (found found' : Found) : Prop where
  kind : found'.node.kind = found.node.kind
  name : found'.node.name = found.node.name
  isConstant : found'.node.type.isConstant = found.node.type.isConstant
  storage : found'.node.storage = found.node.storage
  place : found'.node.place.file = found.node.place.file
  threadLocal : found.node.kind = .variableDecl →
    (∃ p, found.proposal? fs root = some p) ∨ found.node.threadStorage ≠ .none → found'.node.threadStorage ≠ .none
  unlocatable : found.node.kind = .variableDecl →
    ∀ cause, found.verdict fs root = .ok (some (.unlocatable cause)) →
      ∃ cause', (found'.candidate.insertionOffset gs []).1 = .error cause'

/-- A file has no tree again, or a tree of the same shape with the same nodes found again. -/
inductive Node.ReportedAgain (fs gs : Files) (root : Location) : Except String Node → Except String Node → Prop where
  | failed (cause cause' : String) : ReportedAgain fs gs root (.error cause) (.error cause')
  | tree {t t' : Node} (nodes : Node.Correspond (Found.Again fs gs root) [] [] [t] [t']) :
    ReportedAgain fs gs root (.ok t) (.ok t')

namespace Found.Again

variable {fs gs : Files} {root : Location} {found found' : Found}

theorem isConsidered_eq (h : found.Again fs gs root found') (same : Files.SameShape fs gs) :
    found'.node.isConsidered gs root = found.node.isConsidered fs root := by
  unfold NodeInfo.isConsidered
  rw [h.place]
  split
  next => rfl
  next file _ => exact same.isWithin_eq file root

theorem isGlobalOrStatic_eq (h : found.Again fs gs root found')
    (kinds : found'.ancestors.map NodeInfo.kind = found.ancestors.map NodeInfo.kind) :
    found'.candidate.isGlobalOrStatic = found.candidate.isGlobalOrStatic := by
  have hparent : (found'.ancestors.headD found'.node).kind = (found.ancestors.headD found.node).kind := by
    cases hl : found.ancestors <;> cases hl' : found'.ancestors <;> simp_all [h.kind]
  have hscope : found'.candidate.atFileScope = found.candidate.atFileScope := by
    simp only [Found.candidate, Candidate.ofNode, hparent]
  have hstorage : found'.candidate.storage = found.candidate.storage := congrArg some h.storage
  rw [Candidate.isGlobalOrStatic, Candidate.isGlobalOrStatic, hscope, hstorage]

/-- The rules that spoke against a declaration speak against it again. -/
theorem skipReason_eq_none (h : found.Again fs gs root found') (wanted : found.node.kind = .variableDecl)
    (kinds : found'.ancestors.map NodeInfo.kind = found.ancestors.map NodeInfo.kind)
    (free : found'.candidate.skipReason = none) : found.candidate.skipReason = none := by
  have hglobal := h.isGlobalOrStatic_eq kinds
  have hname : found'.candidate.name = found.candidate.name := h.name
  have hconstant : found'.candidate.isConstant = found.candidate.isConstant := h.isConstant
  have hlocal : found'.candidate.isThreadLocal = false → found.candidate.isThreadLocal = false := by
    intro hthread
    by_contra hfirst
    have hkept := h.threadLocal wanted (.inr (of_decide_eq_true (eq_true_of_ne_false hfirst)))
    rw [Found.candidate, Candidate.ofNode, decide_eq_false_iff_not] at hthread
    exact hthread hkept
  rw [Candidate.skipReason_eq_none_iff, hglobal, hname, hconstant] at free
  obtain ⟨hlasting, hgenuine, hvariable, hthread⟩ := free
  exact Candidate.skipReason_eq_none_iff.mpr ⟨hlasting, hgenuine, hvariable, hlocal hthread⟩

/-- A declaration that nothing speaks against now had no place in a file, and has none. -/
theorem not_locatable (h : found.Again fs gs root found') (wanted : found.node.kind = .variableDecl)
    (kinds : found'.ancestors.map NodeInfo.kind = found.ancestors.map NodeInfo.kind)
    (considered : found.node.isConsidered fs root = .ok true) {v : Option Verdict}
    (first : found.verdict fs root = .ok v) (free : found'.candidate.skipReason = none) :
    ∃ cause, (found'.candidate.insertionOffset gs []).1 = .error cause := by
  have hjudge := Candidate.judge_of_free (h.skipReason_eq_none wanted kinds free) fs
  have hverdict := Found.verdict_eq_of_considered considered
  rw [if_pos rfl, hjudge] at hverdict
  cases ho : (found.candidate.insertionOffset fs []).1 with
  | error cause =>
    rw [ho] at hverdict
    exact h.unlocatable wanted cause hverdict
  | ok offset =>
    -- it would have got the keyword, and thread-local variables are skipped
    rw [ho] at hverdict hjudge
    dsimp only at hverdict hjudge
    cases hpath : fs.canonical (found.candidate.file.getD "") with
    | error f => simp [hpath, first, Except.map] at hverdict
    | ok path =>
      rw [hpath] at hjudge
      have hproposed := Found.proposal?_eq_some_iff_judge.mpr ⟨considered, hjudge⟩
      have hlocal : found'.candidate.isThreadLocal = true :=
        decide_eq_true (h.threadLocal wanted (.inl ⟨_, hproposed⟩))
      obtain ⟨-, -, -, hfree⟩ := Candidate.skipReason_eq_none_iff.mp free
      rw [hfree] at hlocal
      cases hlocal

/-- Whatever was made of a declaration, nothing is proposed for it now. -/
theorem verdict (h : found.Again fs gs root found') (same : Files.SameShape fs gs)
    (wanted : found.node.kind = .variableDecl)
    (kinds : found'.ancestors.map NodeInfo.kind = found.ancestors.map NodeInfo.kind) {v : Option Verdict}
    (first : found.verdict fs root = .ok v) :
    (∃ v', found'.verdict gs root = .ok v') ∧ found'.proposal? gs root = none := by
  have hagain := h.isConsidered_eq same
  cases hconsidered : found.node.isConsidered fs root with
  | error f => simp [Found.verdict, hconsidered] at first
  | ok considered =>
    rw [hconsidered] at hagain
    unfold Found.proposal?
    rw [Found.verdict_eq_of_considered hagain]
    cases considered with
    | false => exact ⟨⟨none, rfl⟩, rfl⟩
    | true =>
      cases hreason : found'.candidate.skipReason with
      | some reason => simp [Candidate.judge, hreason, Except.map, Verdict.proposal?]
      | none =>
        obtain ⟨cause, hcause⟩ := h.not_locatable wanted kinds hconsidered first hreason
        simp [Candidate.judge_of_free hreason, hcause, Except.map, Verdict.proposal?]

end Found.Again

namespace Analyzer

variable {a a' : Analyzer} {fs gs : Files} {path : String}

/-- Every declaration of a file that is reported again was there before. -/
theorem exists_declaration
    (again : Node.ReportedAgain fs gs a.root (a.frontEnd.parse fs path a.arguments)
      (a'.frontEnd.parse gs path a'.arguments))
    (plain : ∀ tree, a.frontEnd.parse fs path a.arguments = .ok tree → tree.info.kind ≠ .variableDecl) :
    (∀ tree, a'.frontEnd.parse gs path a'.arguments = .ok tree → tree.info.kind ≠ .variableDecl) ∧
      ∀ found' ∈ a'.declarations gs path, ∃ found ∈ a.declarations fs path, found.Again fs gs a.root found' ∧
        found.node.kind = .variableDecl ∧
        found'.ancestors.map NodeInfo.kind = found.ancestors.map NodeInfo.kind := by
  unfold declarations
  generalize a.frontEnd.parse fs path a.arguments = r at again plain ⊢
  generalize a'.frontEnd.parse gs path a'.arguments = r' at again ⊢
  cases again with
  | failed cause cause' => simp
  | @tree t t' nodes =>
    have hkind : t'.info.kind = t.info.kind := by
      cases nodes with
      | cons here => exact here.kind
    have hplain : t.info.kind ≠ .variableDecl := plain t rfl
    have hplain' : t'.info.kind ≠ .variableDecl := hkind ▸ hplain
    constructor
    · rintro _ ⟨rfl⟩
      exact hplain'
    · simp only [Node.found?_eq_some hplain, Node.found?_eq_some hplain', Option.getD_some]
      intro found' hfound'
      obtain ⟨found, hfound, hagain, hwanted, hkinds⟩ :=
        nodes.exists_found (fun _ _ h => h.kind) rfl found' hfound'
      exact ⟨found, hfound, hagain, of_decide_eq_true hwanted, hkinds⟩

/-- A file that could be analyzed can be analyzed when it is reported again, and nothing is proposed for it. -/
theorem analyze_again (same : Files.SameShape fs gs) (root : a'.root = a.root)
    (again : Node.ReportedAgain fs gs a.root (a.frontEnd.parse fs path a.arguments)
      (a'.frontEnd.parse gs path a'.arguments))
    {proposals : List Proposal} (first : (a.forgetful.analyze fs path).outcome = .ok proposals) :
    (a'.forgetful.analyze gs path).outcome = .ok [] := by
  obtain ⟨hplain, hjudged, -⟩ := analyze_eq_ok_iff.mp first
  obtain ⟨hplain', hdeclared⟩ := exists_declaration again hplain
  have hquiet : ∀ found' ∈ a'.declarations gs path,
      (∃ v, found'.verdict gs a'.root = .ok v) ∧ found'.proposal? gs a'.root = none := by
    intro found' hfound'
    obtain ⟨found, hfound, hagain, hwanted, hkinds⟩ := hdeclared found' hfound'
    obtain ⟨v, hv⟩ := hjudged found hfound
    rw [root]
    exact hagain.verdict same hwanted hkinds hv
  refine analyze_eq_ok_iff.mpr ⟨hplain', fun found' h => (hquiet found' h).1, ?_⟩
  exact (List.filterMap_eq_nil_iff.mpr fun found' h => (hquiet found' h).2).symm

end Analyzer
end ThreadLocal
