import ThreadLocal.Proofs.Analysis.Memory
import ThreadLocal.Proofs.Analysis.Traversal
import ThreadLocal.Proofs.Files.Canonical

/-!
Which declarations of a file get the keyword, and where it goes. The proposals of an analysis are exactly
those of its eligible declarations, in the order in which they are found.
-/

namespace ThreadLocal

/-- The proposal for a found node, if there is one. -/
def Found.proposal? (found : Found) (fs : Files) (root : Location) : Option Proposal :=
  match found.verdict fs root with
  | .ok (some v) => v.proposal?
  | _ => none

/-- A declaration that gets the keyword: it is looked at, nothing speaks against it, and its extent is a
stretch of the one file that stands at `l`. -/
structure Found.Eligible (found : Found) (fs : Files) (root l : Location) (content : Bytes) : Prop where
  considered : found.node.isConsidered fs root = .ok true
  wanted : found.candidate.skipReason = none
  opens : ∃ file, found.node.start.file = some file ∧ found.node.finish.file = some file ∧
    fs.openFile file = .ok (l, content)
  start_nonneg : 0 ≤ found.node.start.offset
  start_le : found.node.start.offset ≤ found.node.finish.offset
  finish_le : found.node.finish.offset ≤ content.length

/-- Where the keyword goes in the content of the file. -/
def Found.insertion (found : Found) (content : Bytes) : Nat :=
  found.node.start.offset.toNat +
    leadLength ((content.drop found.node.start.offset.toNat).take
      (found.node.finish.offset - found.node.start.offset).toNat)

theorem Found.insertion_le {found : Found} {fs : Files} {root l : Location} {content : Bytes}
    (h : found.Eligible fs root l content) : found.insertion content ≤ content.length := by
  have hlead := leadLength_le ((content.drop found.node.start.offset.toNat).take
    (found.node.finish.offset - found.node.start.offset).toNat)
  have hs := h.start_nonneg
  have hm := h.start_le
  have hf := h.finish_le
  simp only [List.length_take, List.length_drop] at hlead
  unfold insertion
  omega

theorem Contents.fragment_nil_eq_ok_iff {fs : Files} {path : String} {low high : Int} {text : Bytes} :
    (Contents.fragment [] fs path low high).1 = .ok text ↔
      ∃ l content, fs.openFile path = .ok (l, content) ∧ 0 ≤ low ∧ low ≤ high ∧ high ≤ content.length ∧
        text = (content.drop low.toNat).take (high - low).toNat := by
  unfold fragment read Files.read
  cases ho : fs.openFile path with
  | error f => simp [Except.map]
  | ok place =>
    obtain ⟨l, content⟩ := place
    simp only [Table.get?_nil, Except.map]
    by_cases hb : 0 ≤ low ∧ low ≤ high ∧ high ≤ content.length
    · simp only [if_pos hb, Except.ok.injEq]
      constructor
      · intro ht
        exact ⟨l, content, rfl, hb.1, hb.2.1, hb.2.2, ht.symm⟩
      · intro h
        obtain ⟨l', content', he, -, -, -, ht⟩ := h
        rw [ht, (Prod.mk.inj he).2]
    · simp only [if_neg hb, reduceCtorEq, false_iff]
      intro h
      obtain ⟨l', content', he, h0, h1, h2, -⟩ := h
      rw [← (Prod.mk.inj (Except.ok.inj he)).2] at h2
      exact hb ⟨h0, h1, h2⟩

theorem Candidate.insertionOffset_eq_ok_iff {c : Candidate} {fs : Files} {offset : Int} :
    (c.insertionOffset fs []).1 = .ok offset ↔
      ∃ file l content, c.file = some file ∧ c.finishFile = some file ∧ fs.openFile file = .ok (l, content) ∧
        0 ≤ c.start ∧ c.start ≤ c.finish ∧ c.finish ≤ content.length ∧
        offset = c.start + leadLength ((content.drop c.start.toNat).take (c.finish - c.start).toNat) := by
  unfold insertionOffset
  cases hf : c.file with
  | none => simp
  | some file =>
    by_cases he : c.finishFile = some file
    swap
    · simp [he]
    simp only [he, ne_eq, not_true_eq_false, if_false, Option.some.injEq]
    have hiff := fun text => @Contents.fragment_nil_eq_ok_iff fs file c.start c.finish text
    generalize Contents.fragment [] fs file c.start c.finish = r at hiff
    obtain ⟨answer, after⟩ := r
    cases answer with
    | error f =>
      simp only [reduceCtorEq, false_iff]
      intro h
      obtain ⟨_, l, content, rfl, -, ho, h0, h1, h2, -⟩ := h
      exact absurd ((hiff _).mpr ⟨l, content, ho, h0, h1, h2, rfl⟩) (by simp)
    | ok text =>
      simp only [Except.ok.injEq]
      constructor
      · intro hoff
        obtain ⟨l, content, ho, h0, h1, h2, ht⟩ := (hiff text).mp rfl
        exact ⟨file, l, content, rfl, rfl, ho, h0, h1, h2, by rw [← hoff, ht]⟩
      · intro h
        obtain ⟨_, l, content, rfl, -, ho, h0, h1, h2, hoff⟩ := h
        have ht := (hiff _).mpr ⟨l, content, ho, h0, h1, h2, rfl⟩
        rw [hoff, Except.ok.inj ht]

theorem Found.verdict_eq_of_considered {found : Found} {fs : Files} {root : Location} {considered : Bool}
    (h : found.node.isConsidered fs root = .ok considered) :
    found.verdict fs root =
      if considered then (found.candidate.judge fs []).1.map some else .ok none := by
  unfold verdict
  rw [h]
  cases considered <;> rfl

theorem Found.verdict_eq_some_iff {found : Found} {fs : Files} {root : Location} {v : Verdict} :
    found.verdict fs root = .ok (some v) ↔
      found.node.isConsidered fs root = .ok true ∧ (found.candidate.judge fs []).1 = .ok v := by
  cases hc : found.node.isConsidered fs root with
  | error f => simp [verdict, hc]
  | ok considered =>
    rw [verdict_eq_of_considered hc]
    cases considered with
    | false => simp
    | true => cases (found.candidate.judge fs []).1 <;> simp [Except.map]

theorem Candidate.skipReason_eq_none_iff {c : Candidate} :
    c.skipReason = none ↔
      c.isGlobalOrStatic = true ∧ c.name ≠ sentinelName ∧ c.isConstant = false ∧ c.isThreadLocal = false := by
  unfold skipReason
  grind

/-- A declaration that nothing speaks against gets the keyword if it has a place in a file. -/
theorem Candidate.judge_of_free {c : Candidate} (free : c.skipReason = none) (fs : Files) :
    (c.judge fs []).1 =
      match (c.insertionOffset fs []).1 with
      | .error cause => .ok (.unlocatable cause)
      | .ok offset => (fs.canonical (c.file.getD "")).map fun path => .proposed ⟨path, offset.toNat, 0, threadKeyword⟩ := by
  unfold judge
  rw [free]
  generalize c.insertionOffset fs [] = r
  obtain ⟨answer, after⟩ := r
  cases answer <;> rfl

theorem Candidate.judge_eq_skipped_iff {c : Candidate} {fs : Files} {reason : SkipReason} :
    (c.judge fs []).1 = .ok (.skipped reason) ↔ c.skipReason = some reason := by
  cases hs : c.skipReason with
  | some other => simp [judge, hs]
  | none =>
    rw [judge_of_free hs]
    split
    next => simp
    next => cases fs.canonical (c.file.getD "") <;> simp [Except.map]

theorem Candidate.judge_eq_proposed_iff {c : Candidate} {fs : Files} {p : Proposal} :
    (c.judge fs []).1 = .ok (.proposed p) ↔
      c.skipReason = none ∧ ∃ file l content, c.file = some file ∧ c.finishFile = some file ∧
        fs.openFile file = .ok (l, content) ∧ 0 ≤ c.start ∧ c.start ≤ c.finish ∧ c.finish ≤ content.length ∧
        p = ⟨l.text, c.start.toNat + leadLength ((content.drop c.start.toNat).take (c.finish - c.start).toNat),
          0, threadKeyword⟩ := by
  cases hs : c.skipReason with
  | some reason => simp [judge, hs]
  | none =>
    rw [judge_of_free hs, eq_self, true_and]
    cases hoffset : (c.insertionOffset fs []).1 with
    | error cause =>
      simp only [Except.ok.injEq, reduceCtorEq, false_iff]
      intro h
      obtain ⟨file, l, content, hf, hf', ho, h0, h1, h2, -⟩ := h
      have hplace := insertionOffset_eq_ok_iff.mpr ⟨file, l, content, hf, hf', ho, h0, h1, h2, rfl⟩
      cases hoffset.symm.trans hplace
    | ok offset =>
      obtain ⟨file, l, content, hf, hf', ho, h0, h1, h2, hoff⟩ := insertionOffset_eq_ok_iff.mp hoffset
      have hnat : offset.toNat =
          c.start.toNat + leadLength ((content.drop c.start.toNat).take (c.finish - c.start).toNat) := by
        omega
      simp only [hf, Option.getD_some, Files.canonical_of_openFile ho, Except.map, Except.ok.injEq,
        Verdict.proposed.injEq]
      constructor
      · intro hp
        exact ⟨file, l, content, rfl, hf', ho, h0, h1, h2, by rw [← hp, hnat]⟩
      · intro h
        obtain ⟨file', l', content', he, -, ho', -, -, -, hp⟩ := h
        obtain rfl := Option.some.inj he
        obtain ⟨rfl, rfl⟩ := Prod.mk.inj (Except.ok.inj (ho.symm.trans ho'))
        rw [hp, hnat]

theorem Verdict.proposal?_eq_some_iff {v : Verdict} {p : Proposal} : v.proposal? = some p ↔ v = .proposed p := by
  cases v <;> simp [proposal?]

theorem Found.proposal?_eq_some_iff_judge {found : Found} {fs : Files} {root : Location} {p : Proposal} :
    found.proposal? fs root = some p ↔
      found.node.isConsidered fs root = .ok true ∧ (found.candidate.judge fs []).1 = .ok (.proposed p) := by
  rw [← verdict_eq_some_iff]
  unfold proposal?
  cases found.verdict fs root with
  | error f => simp
  | ok verdict =>
    cases verdict with
    | none => simp
    | some v => simp [Verdict.proposal?_eq_some_iff]

/-- Exactly the eligible declarations give a proposal: the keyword, at the resolved path of their file. -/
theorem Found.proposal?_eq_some_iff {found : Found} {fs : Files} {root : Location} {p : Proposal} :
    found.proposal? fs root = some p ↔
      ∃ l content, found.Eligible fs root l content ∧
        p = ⟨l.text, found.insertion content, 0, threadKeyword⟩ := by
  rw [proposal?_eq_some_iff_judge, Candidate.judge_eq_proposed_iff]
  constructor
  · intro h
    obtain ⟨hc, hw, file, l, content, hf, hf', ho, h0, h1, h2, hp⟩ := h
    exact ⟨l, content, ⟨hc, hw, ⟨file, hf, hf', ho⟩, h0, h1, h2⟩, hp⟩
  · intro h
    obtain ⟨l, content, heligible, hp⟩ := h
    obtain ⟨file, hf, hf', ho⟩ := heligible.opens
    exact ⟨heligible.considered, heligible.wanted, file, l, content, hf, hf', ho, heligible.start_nonneg,
      heligible.start_le, heligible.finish_le, hp⟩

theorem Judged.proposals_afresh {fs : Files} {root : Location} {found : List Found}
    (h : (Judged.afresh fs root found).2 = none) :
    (Judged.afresh fs root found).1.filterMap (fun v => v.2.proposal?) =
      found.filterMap fun f => f.proposal? fs root := by
  induction found with
  | nil => rfl
  | cons first rest ih =>
    simp only [afresh, List.filterMap_cons, Found.proposal?] at h ⊢
    cases hv : first.verdict fs root with
    | error f => simp [hv] at h
    | ok verdict =>
      cases verdict with
      | none =>
        simp only [hv] at h
        exact ih h
      | some v =>
        simp only [hv] at h
        simp only [List.filterMap_cons, ih h]
        rfl

/-- The variable declarations of a file, in the order in which they are found; a file without a tree has
none. -/
def Analyzer.declarations (a : Analyzer) (fs : Files) (path : String) : List Found :=
  match a.frontEnd.parse fs path a.arguments with
  | .error _ => []
  | .ok tree => (tree.found? (· = NodeKind.variableDecl)).getD []

theorem Node.found?_eq_some {tree : Node} (plain : tree.info.kind ≠ .variableDecl) :
    tree.found? (· = NodeKind.variableDecl) = some (foundAmong (· = NodeKind.variableDecl) [] [tree]) := by
  have hplain : decide (tree.info.kind = .variableDecl) = false := decide_eq_false plain
  rw [found?_of_plain hplain]
  simp [foundAmong]

theorem Node.found?_eq_none {tree : Node} (wanted : tree.info.kind = .variableDecl) :
    tree.found? (· = NodeKind.variableDecl) = none := by
  have hwanted : decide (tree.info.kind = .variableDecl) = true := decide_eq_true wanted
  rw [found?_of_wanted hwanted]

/-- Nothing stops the judging just when every found node can be judged. -/
theorem Judged.afresh_fault_eq_none_iff {fs : Files} {root : Location} {found : List Found} :
    (Judged.afresh fs root found).2 = none ↔ ∀ f ∈ found, ∃ v, f.verdict fs root = .ok v := by
  induction found with
  | nil => simp [afresh]
  | cons first rest ih =>
    rw [List.forall_mem_cons, ← ih]
    cases hv : first.verdict fs root with
    | error f => simp [afresh, hv]
    | ok verdict => cases verdict <;> simp [afresh, hv]

namespace Analyzer

variable {a : Analyzer} {fs : Files}

theorem examine_of_found {tree : Node} {found : List Found}
    (h : tree.found? (· = NodeKind.variableDecl) = some found)
    (judged : ∀ f ∈ found, ∃ v, f.verdict fs a.root = .ok v) :
    (a.forgetful.examine fs tree).outcome = .ok (found.filterMap fun f => f.proposal? fs a.root) ∧
      (a.forgetful.examine fs tree).notices =
        (Judged.afresh fs a.root found).1.filterMap (fun v => v.2.notice? v.1) ++
          [.debug "proposed %d rewrite(s)" [.int (found.filterMap fun f => f.proposal? fs a.root).length]] := by
  have hnone := Judged.afresh_fault_eq_none_iff.mpr judged
  obtain ⟨hv, hfault, -⟩ := Judged.ofFound_of_sound (Memory.sound_empty fs a.root) found
  have hroot : a.forgetful.root = a.root := rfl
  have hknown : a.forgetful.known = Memory.empty := rfl
  have hproposals : (Judged.ofFound fs a.root Memory.empty found).proposals =
      found.filterMap fun f => f.proposal? fs a.root := by
    rw [Judged.proposals, hv, Judged.proposals_afresh hnone]
  simp only [examine, h, hroot, hknown, hfault, hnone, hproposals, Judged.notices, hv]
  exact ⟨trivial, trivial⟩

theorem examine_fault {tree : Node} {found : List Found}
    (h : tree.found? (· = NodeKind.variableDecl) = some found) {f : ResolveFault}
    (stopped : (Judged.afresh fs a.root found).2 = some f) :
    (a.forgetful.examine fs tree).outcome = .error (.resolve f) := by
  obtain ⟨-, hfault, -⟩ := Judged.ofFound_of_sound (Memory.sound_empty fs a.root) found
  have hroot : a.forgetful.root = a.root := rfl
  have hknown : a.forgetful.known = Memory.empty := rfl
  simp only [examine, h, hroot, hknown, hfault, stopped]

/-- An analysis is stopped by a tree whose root is a variable declaration, and by a declaration that cannot be judged.
Otherwise it proposes what the declarations of the file give, and nothing else. -/
theorem analyze_eq_ok_iff {path : String} {proposals : List Proposal} :
    (a.forgetful.analyze fs path).outcome = .ok proposals ↔
      (∀ tree, a.frontEnd.parse fs path a.arguments = .ok tree → tree.info.kind ≠ .variableDecl) ∧
      (∀ found ∈ a.declarations fs path, ∃ v, found.verdict fs a.root = .ok v) ∧
      proposals = (a.declarations fs path).filterMap fun f => f.proposal? fs a.root := by
  have hparse : a.forgetful.frontEnd.parse fs path a.forgetful.arguments =
      a.frontEnd.parse fs path a.arguments := rfl
  unfold analyze declarations
  simp only [hparse]
  cases hp : a.frontEnd.parse fs path a.arguments with
  | error cause => simp [eq_comm]
  | ok tree =>
    dsimp only
    by_cases hkind : tree.info.kind = .variableDecl
    · have hnone := Node.found?_eq_none hkind
      simp [examine, hnone, hkind]
    have hfound := Node.found?_eq_some hkind
    rw [hfound, Option.getD_some]
    cases hstop : (Judged.afresh fs a.root (Node.foundAmong (· = NodeKind.variableDecl) [] [tree])).2 with
    | some f =>
      rw [examine_fault hfound hstop, ← Judged.afresh_fault_eq_none_iff, hstop]
      simp
    | none =>
      have hjudged := Judged.afresh_fault_eq_none_iff.mp hstop
      have hkinds : ∀ t, (Except.ok tree : Except String Node) = .ok t → t.info.kind ≠ .variableDecl := by
        rintro _ ⟨rfl⟩
        exact hkind
      rw [(examine_of_found hfound hjudged).1, and_iff_right hkinds, and_iff_right hjudged, Except.ok.injEq, eq_comm]

/-- An analysis that is not stopped proposes what the declarations of the file give, and nothing else. -/
theorem proposals_of_analyze {path : String} {proposals : List Proposal}
    (h : (a.forgetful.analyze fs path).outcome = .ok proposals) :
    proposals = (a.declarations fs path).filterMap fun f => f.proposal? fs a.root :=
  (analyze_eq_ok_iff.mp h).2.2

end Analyzer
end ThreadLocal
