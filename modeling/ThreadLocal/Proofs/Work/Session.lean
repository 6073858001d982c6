import ThreadLocal.Proofs.Analysis.Exactness
import ThreadLocal.Proofs.Work.Performance

/-!
One analyzer for many files. What it has read and found out for some files serves it for the next ones, and nobody can
tell: every file is analyzed as by an analyzer of its own, also after an analysis that was stopped halfway.
-/

namespace ThreadLocal

/-- What the caller of an analysis sees: what was reported, and the proposals or the fault. -/
def Analysis.seen (x : Analysis) : List Notice × Except AnalysisFault (List Proposal) :=
  (x.notices, x.outcome)

namespace Analyzer

variable {a : Analyzer} {fs : Files}

/-- The analyses of files by one analyzer, one after the other, whatever comes of each. -/
def session (fs : Files) : Analyzer → List String → List Analysis
  | _, [] => []
  | a, path :: rest =>
    let first := a.analyze fs path
    first :: session fs { a with known := first.known } rest

theorem seen_of_sound (sound : a.known.Sound fs a.root) (path : String) :
    (a.analyze fs path).seen = (a.forgetful.analyze fs path).seen := by
  obtain ⟨hnotices, houtcome, -⟩ := analyze_of_sound sound path
  rw [Analysis.seen, Analysis.seen, hnotices, houtcome]

/-- Every analysis leaves behind what is true of the files, so the next one comes to what it comes to afresh. -/
theorem session_seen (sound : a.known.Sound fs a.root) (paths : List String) :
    (a.session fs paths).map Analysis.seen = paths.map fun path => (a.forgetful.analyze fs path).seen := by
  induction paths generalizing a with
  | nil => rfl
  | cons path rest ih =>
    have hknown := (analyze_of_sound sound path).2.2
    have hrest := @ih { a with known := (a.analyze fs path).known } hknown
    rw [session, List.map_cons, List.map_cons, seen_of_sound sound path, hrest]
    rfl

theorem forgetful_of_make {frontEnd : FrontEnd} {sourceRoot : String} {includePaths : List String}
    (h : make fs frontEnd sourceRoot includePaths = .ok a) : a.forgetful = a := by
  obtain ⟨root, -, rfl⟩ := make_eq_ok_iff.mp h
  rfl

end Analyzer

/-- Files are analyzed separately just when each of them can be, and the proposals come one file after the other. -/
theorem Performance.separately_eq_ok_iff {fs : Files} {a : Analyzer} {files : List String}
    {proposals : List Proposal} :
    separately fs a files = .ok proposals ↔
      ∃ parts, List.Forall₂ (fun file part => separately fs a [file] = .ok part) files parts ∧
        proposals = parts.flatten := by
  have hsingle : ∀ file part, separately fs a [file] = .ok part ↔ (a.forgetful.analyze fs file).outcome = .ok part := by
    intro file part
    rw [separately]
    cases (a.forgetful.analyze fs file).outcome <;> simp [separately, Except.map]
  simp only [hsingle]
  induction files generalizing proposals with
  | nil =>
    rw [separately]
    constructor
    · intro h
      exact ⟨[], .nil, (Except.ok.inj h).symm⟩
    · rintro ⟨parts, hparts, rfl⟩
      cases hparts
      rfl
  | cons file rest ih =>
    rw [separately]
    constructor
    · intro h
      cases hfirst : (a.forgetful.analyze fs file).outcome with
      | error f => simp [hfirst] at h
      | ok first =>
        cases hothers : separately fs a rest with
        | error f => simp [hfirst, hothers, Except.map] at h
        | ok others =>
          obtain ⟨parts, hparts, rfl⟩ := ih.mp hothers
          refine ⟨first :: parts, .cons hfirst hparts, ?_⟩
          simpa [hfirst, hothers, Except.map, eq_comm] using h
    · rintro ⟨parts, hparts, rfl⟩
      cases hparts with
      | cons hfirst hrest =>
        rw [hfirst]
        simp [ih.mpr ⟨_, hrest, rfl⟩, Except.map]

/-- An analyzer looks at every file as it did when it was new, whatever it has looked at in between: the same is
reported, and the same is returned or stops it. So a request is performed just when it could be performed for each of
its source files alone, and then all that is proposed is what is proposed for the one, for the next and so on. -/
theorem sharing_goes_unseen {fs : Files} {frontEnd : FrontEnd} {sourceRoot : String} {includePaths : List String}
    {a : Analyzer} (fresh : Analyzer.make fs frontEnd sourceRoot includePaths = .ok a) :
    (∀ paths, (a.session fs paths).map Analysis.seen = paths.map fun path => (a.analyze fs path).seen) ∧
    ∀ files proposals,
      ((Request.ofItem ⟨includePaths, files, sourceRoot⟩).perform fs (.ok frontEnd)).outcome = .ok proposals ↔
        ∃ parts, List.Forall₂ (fun file part =>
            ((Request.ofItem ⟨includePaths, [file], sourceRoot⟩).perform fs (.ok frontEnd)).outcome = .ok part)
          files parts ∧ proposals = parts.flatten := by
  constructor
  · intro paths
    have hseen := Analyzer.session_seen (Analyzer.sound_of_make fresh) paths
    rwa [Analyzer.forgetful_of_make fresh] at hseen
  · intro files proposals
    have hperform : ∀ files proposals,
        ((Request.ofItem ⟨includePaths, files, sourceRoot⟩).perform fs (.ok frontEnd)).outcome = .ok proposals ↔
          Performance.separately fs a files = .ok proposals := by
      intro files proposals
      rw [Request.perform_eq_ok_iff]
      constructor
      · rintro ⟨a', hmake, hseparately⟩
        obtain rfl := Except.ok.inj (fresh.symm.trans hmake)
        exact hseparately
      · intro hseparately
        exact ⟨a, fresh, hseparately⟩
    simp only [hperform]
    exact Performance.separately_eq_ok_iff

/-! A file whose last variable is placed in a link to itself, and one that can be analyzed. -/

namespace SelfLink

def files : Files where
  entries := [
    (["src"], .directory),
    (["src", "main.c"], .file (Bytes.ofText "static int count;\n")),
    (["src", "loop"], .link "loop")]
  here := []

def count : NodeInfo := Counters.declared "count" ⟨Counters.int, Counters.int⟩ .static "/src/main.c" 0 16

def lost : NodeInfo := Counters.declared "lost" ⟨Counters.int, Counters.int⟩ .none "/src/loop" 0 8

def frontEnd : FrontEnd := .ofTrees [
  ("/src/main.c", .ok (.mk { count with kind := .unitRoot } [.mk count []])),
  ("/src/loop.c", .ok (.mk { count with kind := .unitRoot } [.mk lost [], .mk count []]))]

def analyzer : Analyzer := ⟨frontEnd, ["src"], [], Memory.empty⟩

/-- A file that is stopped when something has been read for it, one without a tree, and the other one, twice. -/
def sources : List String := ["/src/loop.c", "/src/none.c", "/src/main.c", "/src/loop.c", "/src/main.c"]

def stopped : Except AnalysisFault (List Proposal) := .error (.resolve (.symlinkLoop "/src/loop"))

def proposed : Except AnalysisFault (List Proposal) := .ok [⟨"/src/main.c", 7, 0, threadKeyword⟩]

end SelfLink

theorem selfLink_session_seen :
    Analyzer.make SelfLink.files SelfLink.frontEnd "/src" [] = .ok SelfLink.analyzer ∧
      (SelfLink.analyzer.session SelfLink.files SelfLink.sources).map Analysis.seen =
        SelfLink.sources.map (fun path => (SelfLink.analyzer.analyze SelfLink.files path).seen) ∧
      SelfLink.sources.map (fun path => (SelfLink.analyzer.analyze SelfLink.files path).outcome) =
        [SelfLink.stopped, .ok [], SelfLink.proposed, SelfLink.stopped, SelfLink.proposed] ∧
      ((Request.ofItem ⟨[], ["/src/none.c", "/src/main.c"], "/src"⟩).perform SelfLink.files
        (.ok SelfLink.frontEnd)).outcome = .ok [⟨"/src/main.c", 7, 0, threadKeyword⟩] := by
  have hmade : Analyzer.make SelfLink.files SelfLink.frontEnd "/src" [] = .ok SelfLink.analyzer :=
    Analyzer.make_eq_ok_iff.mpr ⟨["src"], by decide +kernel, rfl⟩
  obtain ⟨hsession, hperform⟩ := sharing_goes_unseen hmade
  refine ⟨hmade, hsession SelfLink.sources, by decide +kernel, (hperform _ _).mpr ?_⟩
  have hnone : ((Request.ofItem ⟨[], ["/src/none.c"], "/src"⟩).perform SelfLink.files
      (.ok SelfLink.frontEnd)).outcome = .ok [] := by
    decide +kernel
  have hmain : ((Request.ofItem ⟨[], ["/src/main.c"], "/src"⟩).perform SelfLink.files
      (.ok SelfLink.frontEnd)).outcome = .ok [⟨"/src/main.c", 7, 0, threadKeyword⟩] := by
    decide +kernel
  exact ⟨_, .cons hnone (.cons hmain .nil), rfl⟩

end ThreadLocal
