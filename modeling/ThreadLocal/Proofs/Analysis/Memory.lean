import Mathlib.Data.List.Basic
import ThreadLocal.Work.Performance

/-!
What an analyzer remembers only saves work: as long as the files stay as they are, every file is judged as
if nothing were known yet.
-/

namespace ThreadLocal

/-- Every remembered content is what the file holds. -/
def Contents.Sound (known : Contents) (fs : Files) : Prop :=
  ∀ path content, Table.get? known path = some content → fs.read path = .ok content

def Membership.Sound (known : Membership) (fs : Files) (root : Location) : Prop :=
  ∀ path inside, Table.get? known path = some inside → fs.isWithin path root = .ok inside

structure Memory.Sound (known : Memory) (fs : Files) (root : Location) : Prop where
  contents : known.contents.Sound fs
  within : known.within.Sound fs root

theorem Memory.sound_empty (fs : Files) (root : Location) : Memory.empty.Sound fs root :=
  ⟨fun _ _ h => by simp [Memory.empty] at h, fun _ _ h => by simp [Memory.empty] at h⟩

namespace Contents

variable {known : Contents} {fs : Files}

theorem sound_nil (fs : Files) : Contents.Sound [] fs := by
  intro path content h
  simp at h

theorem read_of_sound (sound : known.Sound fs) (path : String) :
    (known.read fs path).1 = fs.read path ∧ (known.read fs path).2.Sound fs := by
  unfold read
  cases hk : Table.get? known path with
  | some content => exact ⟨(sound path content hk).symm, sound⟩
  | none =>
    cases hr : fs.read path with
    | error f => exact ⟨rfl, sound⟩
    | ok content =>
      refine ⟨rfl, ?_⟩
      intro other held h
      rw [Table.get?_put] at h
      split at h
      next he => rw [← he, hr, Option.some.inj h]
      next => exact sound other held h

theorem fragment_of_sound (sound : known.Sound fs) (path : String) (low high : Int) :
    (known.fragment fs path low high).1 = (Contents.fragment [] fs path low high).1 ∧
      (known.fragment fs path low high).2.Sound fs := by
  obtain ⟨heq, hs⟩ := read_of_sound sound path
  obtain ⟨hfresh, -⟩ := read_of_sound (sound_nil fs) path
  unfold fragment
  generalize hr : known.read fs path = r at heq hs
  generalize hf : Contents.read [] fs path = r' at hfresh
  obtain ⟨answer, after⟩ := r
  obtain ⟨answer', after'⟩ := r'
  obtain rfl : answer = answer' := heq.trans hfresh.symm
  cases answer with
  | error f => exact ⟨rfl, hs⟩
  | ok content => dsimp only; split <;> exact ⟨rfl, hs⟩

end Contents

theorem Membership.ask_of_sound {known : Membership} {fs : Files} {root : Location}
    (sound : known.Sound fs root) (path : String) :
    (known.ask fs root path).1 = fs.isWithin path root ∧ (known.ask fs root path).2.Sound fs root := by
  unfold ask
  cases hk : Table.get? known path with
  | some inside => exact ⟨(sound path inside hk).symm, sound⟩
  | none =>
    cases hr : fs.isWithin path root with
    | error f => exact ⟨rfl, sound⟩
    | ok inside =>
      refine ⟨rfl, ?_⟩
      intro other held h
      rw [Table.get?_put] at h
      split at h
      next he => rw [← he, hr, Option.some.inj h]
      next => exact sound other held h

namespace Candidate

variable {known : Contents} {fs : Files}

theorem insertionOffset_of_sound (c : Candidate) (sound : known.Sound fs) :
    (c.insertionOffset fs known).1 = (c.insertionOffset fs []).1 ∧ (c.insertionOffset fs known).2.Sound fs := by
  unfold insertionOffset
  cases c.file with
  | none => exact ⟨rfl, sound⟩
  | some file =>
    by_cases he : c.finishFile ≠ some file
    · simp only [if_pos he]
      exact ⟨trivial, sound⟩
    simp only [if_neg he]
    obtain ⟨heq, hs⟩ := Contents.fragment_of_sound sound file c.start c.finish
    generalize known.fragment fs file c.start c.finish = r at heq hs
    generalize Contents.fragment [] fs file c.start c.finish = r' at heq
    obtain ⟨answer, after⟩ := r
    obtain ⟨answer', after'⟩ := r'
    obtain rfl : answer = answer' := heq
    cases answer with
    | error f => exact ⟨rfl, hs⟩
    | ok text => exact ⟨rfl, hs⟩

theorem judge_of_sound (c : Candidate) (sound : known.Sound fs) :
    (c.judge fs known).1 = (c.judge fs []).1 ∧ (c.judge fs known).2.Sound fs := by
  unfold judge
  cases c.skipReason with
  | some reason => exact ⟨rfl, sound⟩
  | none =>
    obtain ⟨heq, hs⟩ := c.insertionOffset_of_sound sound
    generalize c.insertionOffset fs known = r at heq hs
    generalize c.insertionOffset fs [] = r' at heq
    obtain ⟨answer, after⟩ := r
    obtain ⟨answer', after'⟩ := r'
    obtain rfl : answer = answer' := heq
    cases answer with
    | error cause => exact ⟨rfl, hs⟩
    | ok offset => exact ⟨rfl, hs⟩

end Candidate

/-- Declarations placed in a file outside the root are not looked at; those without a file are. -/
def NodeInfo.isConsidered (node : NodeInfo) (fs : Files) (root : Location) : Except ResolveFault Bool :=
  match node.place.file with
  | none => .ok true
  | some file => fs.isWithin file root

theorem Memory.considers_of_sound {known : Memory} {fs : Files} {root : Location} (sound : known.Sound fs root)
    (node : NodeInfo) :
    (known.considers fs root node).1 = node.isConsidered fs root ∧
      (known.considers fs root node).2.Sound fs root := by
  unfold considers NodeInfo.isConsidered
  cases node.place.file with
  | none => exact ⟨rfl, sound⟩
  | some file =>
    obtain ⟨heq, hs⟩ := Membership.ask_of_sound sound.within file
    exact ⟨heq, sound.contents, hs⟩

/-- What is made of a found node when nothing is known yet; nothing if it is not looked at. -/
def Found.verdict (found : Found) (fs : Files) (root : Location) : Except ResolveFault (Option Verdict) :=
  match found.node.isConsidered fs root with
  | .error f => .error f
  | .ok false => .ok none
  | .ok true => (found.candidate.judge fs []).1.map some

namespace Judged

/-- The verdicts on found nodes, up to the first that cannot be judged, each as if nothing were known. -/
def afresh (fs : Files) (root : Location) : List Found → List (Candidate × Verdict) × Option ResolveFault
  | [] => ([], none)
  | found :: rest =>
    match found.verdict fs root with
    | .error f => ([], some f)
    | .ok none => afresh fs root rest
    | .ok (some v) => ((found.candidate, v) :: (afresh fs root rest).1, (afresh fs root rest).2)

theorem afresh_cons_of_none {fs : Files} {root : Location} {found : Found} (h : found.verdict fs root = .ok none)
    (rest : List Found) : afresh fs root (found :: rest) = afresh fs root rest := by
  rw [afresh, h]

theorem afresh_cons_of_some {fs : Files} {root : Location} {found : Found} {v : Verdict}
    (h : found.verdict fs root = .ok (some v)) (rest : List Found) :
    (afresh fs root (found :: rest)).1 = (found.candidate, v) :: (afresh fs root rest).1 := by
  rw [afresh, h]

theorem ofFound_of_sound {fs : Files} {root : Location} {known : Memory} (sound : known.Sound fs root)
    (found : List Found) :
    (ofFound fs root known found).verdicts = (afresh fs root found).1 ∧
      (ofFound fs root known found).fault = (afresh fs root found).2 ∧
      (ofFound fs root known found).known.Sound fs root := by
  induction found generalizing known with
  | nil => exact ⟨rfl, rfl, sound⟩
  | cons first rest ih =>
    obtain ⟨hc, hcs⟩ := Memory.considers_of_sound sound first.node
    simp only [ofFound, afresh, Found.verdict, ← hc]
    generalize known.considers fs root first.node = r at hcs
    obtain ⟨answer, after⟩ := r
    cases answer with
    | error f => exact ⟨rfl, rfl, hcs⟩
    | ok considered =>
      cases considered with
      | false => exact ih hcs
      | true =>
        obtain ⟨hj, hjs⟩ := first.candidate.judge_of_sound hcs.contents
        simp only [← hj]
        generalize first.candidate.judge fs after.contents = r at hjs
        obtain ⟨verdict, contents⟩ := r
        cases verdict with
        | error f => exact ⟨rfl, rfl, hjs, hcs.within⟩
        | ok v =>
          have hnext : ({ after with contents := contents } : Memory).Sound fs root := ⟨hjs, hcs.within⟩
          obtain ⟨hv, hf, hs⟩ := ih hnext
          exact ⟨by simp [hv, Except.map], by simp [hf, Except.map], hs⟩

end Judged

namespace Analyzer

variable {a : Analyzer} {fs : Files}

/-- The analyzer as it was made. -/
def forgetful (a : Analyzer) : Analyzer :=
  { a with known := Memory.empty }

theorem examine_of_sound (sound : a.known.Sound fs a.root) (tree : Node) :
    (a.examine fs tree).notices = (a.forgetful.examine fs tree).notices ∧
      (a.examine fs tree).outcome = (a.forgetful.examine fs tree).outcome ∧
      (a.examine fs tree).known.Sound fs a.root := by
  unfold examine
  cases tree.found? (· = NodeKind.variableDecl) with
  | none => exact ⟨rfl, rfl, sound⟩
  | some found =>
    obtain ⟨hv, hf, hs⟩ := Judged.ofFound_of_sound sound found
    obtain ⟨hv', hf', -⟩ := Judged.ofFound_of_sound (Memory.sound_empty fs a.root) found
    have hverdicts := hv.trans hv'.symm
    have hfault := hf.trans hf'.symm
    simp only [forgetful, Judged.notices, Judged.proposals, hverdicts, hfault]
    split <;> exact ⟨rfl, rfl, hs⟩

/-- A file is analyzed the same whatever was found out before. -/
theorem analyze_of_sound (sound : a.known.Sound fs a.root) (path : String) :
    (a.analyze fs path).notices = (a.forgetful.analyze fs path).notices ∧
      (a.analyze fs path).outcome = (a.forgetful.analyze fs path).outcome ∧
      (a.analyze fs path).known.Sound fs a.root := by
  unfold analyze
  have hparse : a.forgetful.frontEnd.parse fs path a.forgetful.arguments =
      a.frontEnd.parse fs path a.arguments := rfl
  simp only [hparse]
  cases a.frontEnd.parse fs path a.arguments with
  | error cause => exact ⟨rfl, rfl, sound⟩
  | ok tree =>
    obtain ⟨hn, ho, hs⟩ := examine_of_sound sound tree
    exact ⟨by simp only [hn], ho, hs⟩

theorem make_eq_ok_iff {frontEnd : FrontEnd} {sourceRoot : String} {includePaths : List String} :
    make fs frontEnd sourceRoot includePaths = .ok a ↔
      ∃ root, fs.resolve (Path.ofText sourceRoot) = .ok root ∧
        a = ⟨frontEnd, root, includeArguments includePaths, Memory.empty⟩ := by
  unfold make
  cases fs.resolve (Path.ofText sourceRoot) <;> simp [Except.map, eq_comm]

theorem sound_of_make {frontEnd : FrontEnd} {sourceRoot : String} {includePaths : List String}
    (h : make fs frontEnd sourceRoot includePaths = .ok a) : a.known.Sound fs a.root := by
  obtain ⟨root, -, rfl⟩ := make_eq_ok_iff.mp h
  exact Memory.sound_empty fs root

/-- The analyzers that come of looking at files one after the other, whatever comes of each. -/
inductive Reached (fs : Files) (frontEnd : FrontEnd) (sourceRoot : String) (includePaths : List String) :
    Analyzer → Prop where
  | made {a : Analyzer} (h : make fs frontEnd sourceRoot includePaths = .ok a) :
    Reached fs frontEnd sourceRoot includePaths a
  | analyzed {a : Analyzer} (h : Reached fs frontEnd sourceRoot includePaths a) (path : String) :
    Reached fs frontEnd sourceRoot includePaths { a with known := (a.analyze fs path).known }

theorem Reached.sound {frontEnd : FrontEnd} {sourceRoot : String} {includePaths : List String}
    (h : Reached fs frontEnd sourceRoot includePaths a) : a.known.Sound fs a.root := by
  induction h with
  | made hmake => exact sound_of_make hmake
  | analyzed _ path ih => exact (analyze_of_sound ih path).2.2

end Analyzer

namespace Performance

/-- The proposals for each file, one file after the other, each file analyzed by an analyzer of its own. -/
def separately (fs : Files) (a : Analyzer) : List String → Except AnalysisFault (List Proposal)
  | [] => .ok []
  | path :: rest =>
    match (a.forgetful.analyze fs path).outcome with
    | .error f => .error f
    | .ok proposals => (separately fs a rest).map (proposals ++ ·)

theorem separately_congr {fs : Files} {a b : Analyzer} (h : a.forgetful = b.forgetful) (files : List String) :
    separately fs a files = separately fs b files := by
  induction files with
  | nil => rfl
  | cons path rest ih => simp only [separately, h, ih]

/-- Files analyzed by one analyzer come to the same as files analyzed separately. -/
theorem ofFiles_of_sound {fs : Files} {a : Analyzer} (sound : a.known.Sound fs a.root) (files : List String) :
    (ofFiles fs a files).outcome = (separately fs a files).mapError .analysis := by
  induction files generalizing a with
  | nil => rfl
  | cons path rest ih =>
    obtain ⟨-, ho, hs⟩ := Analyzer.analyze_of_sound sound path
    simp only [ofFiles, separately, ho]
    cases (a.forgetful.analyze fs path).outcome with
    | error f => rfl
    | ok proposals =>
      have hrest := ih (a := { a with known := (a.analyze fs path).known }) hs
      have hforget : Analyzer.forgetful { a with known := (a.analyze fs path).known } = a.forgetful := rfl
      rw [separately_congr hforget] at hrest
      simp only [hrest]
      cases separately fs a rest <;> rfl

end Performance
end ThreadLocal
