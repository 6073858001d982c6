import ThreadLocal.Proofs.Analysis.Proposals
import ThreadLocal.Proofs.Text.Template

/-!
The errors that are logged when a file is analyzed: one if it has no tree, and otherwise one for every variable that
would get the keyword if it were not thread-local already.
-/

namespace ThreadLocal
namespace Log

/-- What a log writes at the level of errors. -/
def errors (threshold : Int) (notices : List Notice) : List (String × String) :=
  (entries threshold notices).filter fun e => e.1 = Level.name Level.error

variable {threshold : Int} {n : Notice}

theorem errors_nil : errors threshold [] = [] :=
  rfl

theorem errors_append (before after : List Notice) :
    errors threshold (before ++ after) = errors threshold before ++ errors threshold after := by
  simp [errors, entries]

theorem errors_cons_of_mild (mild : n.level ∈ [Level.debug, Level.info, Level.warning]) (rest : List Notice) :
    errors threshold (n :: rest) = errors threshold rest := by
  have hname : Level.name n.level ≠ Level.name Level.error := by
    have hall : ∀ level ∈ [Level.debug, Level.info, Level.warning], Level.name level ≠ Level.name Level.error := by
      decide
    exact hall n.level mild
  unfold errors entries
  rw [List.filterMap_cons]
  cases h : n.shown? threshold with
  | none => rfl
  | some entry =>
    unfold Notice.shown? at h
    split at h
    next =>
      obtain ⟨text, -, rfl⟩ := Option.map_eq_some_iff.mp h
      exact List.filter_cons_of_neg (by simpa using hname)
    next => cases h

theorem errors_cons_of_error (enabled : Level.effective threshold ≤ Level.error) (level : n.level = Level.error)
    {text : String} (fits : n.text? = some text) (rest : List Notice) :
    errors threshold (n :: rest) = (Level.name Level.error, text) :: errors threshold rest := by
  have hshown : n.shown? threshold = some (Level.name Level.error, text) := by
    have hlevel : Level.isShown threshold Level.error = true := by
      simp only [Level.isShown, Bool.and_eq_true, decide_eq_true_eq]
      exact ⟨by decide, enabled⟩
    simp [Notice.shown?, level, hlevel, fits]
  simp [errors, entries, hshown]

end Log

theorem Candidate.skipReason_eq_alreadyThreadLocal_iff {c : Candidate} :
    c.skipReason = some .alreadyThreadLocal ↔
      c.isGlobalOrStatic = true ∧ c.name ≠ sentinelName ∧ c.isConstant = false ∧ c.isThreadLocal = true := by
  unfold skipReason
  grind

namespace Found

/-- A variable that is looked at and would get the keyword if it were not thread-local. -/
def isThreadLocalAlready (found : Found) (fs : Files) (root : Location) : Bool :=
  found.node.isConsidered fs root = .ok true && found.candidate.isGlobalOrStatic &&
    found.candidate.name ≠ Candidate.sentinelName && !found.candidate.isConstant && found.candidate.isThreadLocal

def complaint (found : Found) : String :=
  "vardecl already has TLS kind: var=" ++ found.candidate.name ++ " loc=" ++ found.candidate.location

variable {found : Found} {fs : Files} {root : Location}

theorem isThreadLocalAlready_iff : found.isThreadLocalAlready fs root = true ↔
    found.verdict fs root = .ok (some (.skipped .alreadyThreadLocal)) := by
  rw [verdict_eq_some_iff, Candidate.judge_eq_skipped_iff, Candidate.skipReason_eq_alreadyThreadLocal_iff]
  simp [isThreadLocalAlready, and_assoc]

end Found

namespace Notice

variable {label : String}

/-- The text of a labelled notice in whose template every piece ends with a directive for a text. -/
theorem text_labelled (noPercent : '%' ∉ label.toList) {n : Notice} {pieces texts : List String}
    (shape : n.template = String.join (pieces.map (· ++ "%s"))) (plain : ∀ p ∈ pieces, '%' ∉ p.toList)
    (arguments : n.arguments = texts.map Json.str) (paired : pieces.length = texts.length) (some : texts ≠ []) :
    (n.labelled label).text? = .some (label ++ ": " ++ String.join (List.zipWith (· ++ ·) pieces texts)) := by
  have hsome : n.arguments ≠ [] := by simp [arguments, some]
  unfold text? labelled
  rw [Template.render?_labelled noPercent n.template hsome, arguments,
    Template.render?_pieces shape plain paired some, Option.map_some]

theorem text_parseFailure (noPercent : '%' ∉ label.toList) (cause : String) :
    (labelled label (.error "failed to parse: %s" [.str cause])).text? =
      some (label ++ ": " ++ ("failed to parse: " ++ cause)) := by
  have hshape : "failed to parse: %s" = String.join (["failed to parse: "].map (· ++ "%s")) := by decide
  have hplain : ∀ p ∈ ["failed to parse: "], '%' ∉ p.toList := by decide
  rw [@text_labelled label noPercent (.error "failed to parse: %s" [.str cause]) _ [cause] hshape hplain rfl rfl
    (by simp)]
  simp

theorem text_alreadyThreadLocal (noPercent : '%' ∉ label.toList) (name location : String) :
    (labelled label (.error "vardecl already has TLS kind: var=%s loc=%s" [.str name, .str location])).text? =
      some (label ++ ": " ++ ("vardecl already has TLS kind: var=" ++ name ++ " loc=" ++ location)) := by
  have hshape : "vardecl already has TLS kind: var=%s loc=%s" =
      String.join (["vardecl already has TLS kind: var=", " loc="].map (· ++ "%s")) := by decide +kernel
  have hplain : ∀ p ∈ ["vardecl already has TLS kind: var=", " loc="], '%' ∉ p.toList := by decide +kernel
  rw [@text_labelled label noPercent (.error "vardecl already has TLS kind: var=%s loc=%s" [.str name, .str location])
    _ [name, location] hshape hplain rfl rfl (by simp)]
  simp [String.append_assoc]

end Notice

/-- Only variables that are thread-local already are reported as errors. -/
theorem Verdict.notice?_mild {c : Candidate} {v : Verdict} (other : v ≠ .skipped .alreadyThreadLocal) {n : Notice}
    (reported : v.notice? c = some n) : n.level ∈ [Level.debug, Level.info, Level.warning] := by
  cases v with
  | skipped reason =>
    cases reason with
    | alreadyThreadLocal => exact absurd rfl other
    | automatic => cases reported; simp [Notice.debug]
    | sentinel => cases reported; simp [Notice.debug]
    | constant => cases reported; simp [Notice.debug]
  | unlocatable cause => cases reported; simp [Notice.warning]
  | proposed p => cases reported

namespace Log

variable {threshold : Int} {label : String}

def errorAbout (label text : String) : String × String :=
  (Level.name Level.error, label ++ ": " ++ text)

/-- The verdicts on found nodes give an error for each variable that is thread-local already, and no other. -/
theorem errors_afresh (enabled : Level.effective threshold ≤ Level.error) (noPercent : '%' ∉ label.toList)
    {fs : Files} {root : Location} {found : List Found} (judged : ∀ f ∈ found, ∃ v, f.verdict fs root = .ok v) :
    errors threshold (((Judged.afresh fs root found).1.filterMap fun v => v.2.notice? v.1).map
        (Notice.labelled label)) =
      (found.filter fun f => f.isThreadLocalAlready fs root).map fun f => errorAbout label f.complaint := by
  induction found with
  | nil => rfl
  | cons first rest ih =>
    obtain ⟨⟨v, hv⟩, hrest⟩ := List.forall_mem_cons.mp judged
    have hflag := @Found.isThreadLocalAlready_iff first fs root
    rw [hv] at hflag
    rw [List.filter_cons]
    cases v with
    | none =>
      rw [if_neg (by simp [hflag]), ← ih hrest, Judged.afresh_cons_of_none hv]
    | some verdict =>
      rw [Judged.afresh_cons_of_some hv, List.filterMap_cons]
      by_cases hlocal : verdict = .skipped .alreadyThreadLocal
      · subst hlocal
        rw [if_pos (hflag.mpr rfl), List.map_cons, ← ih hrest]
        exact errors_cons_of_error enabled rfl (Notice.text_alreadyThreadLocal noPercent _ _) _
      · rw [if_neg (by simp [hflag, hlocal]), ← ih hrest]
        cases hnotice : verdict.notice? first.candidate with
        | none => rfl
        | some n =>
          have hmild := Verdict.notice?_mild hlocal hnotice
          exact @errors_cons_of_mild threshold (n.labelled label) hmild _

end Log

namespace Analyzer

variable {a : Analyzer} {fs : Files} {path : String}

/-- What the analysis of a file complains of. -/
def complaints (a : Analyzer) (fs : Files) (path : String) : List String :=
  match a.frontEnd.parse fs path a.arguments with
  | .error cause => ["failed to parse: " ++ cause]
  | .ok _ => ((a.declarations fs path).filter fun f => f.isThreadLocalAlready fs a.root).map Found.complaint

/-- If nothing stops an analysis, the errors that it logs are its complaints, in order. -/
theorem errors_analyze {threshold : Int} (enabled : Level.effective threshold ≤ Level.error)
    (noPercent : '%' ∉ (fs.shown path).toList) {proposals : List Proposal}
    (done : (a.forgetful.analyze fs path).outcome = .ok proposals) :
    Log.errors threshold (a.forgetful.analyze fs path).notices =
      (a.complaints fs path).map (Log.errorAbout (fs.shown path)) := by
  obtain ⟨hplain, hjudged, -⟩ := analyze_eq_ok_iff.mp done
  have hparse : a.forgetful.frontEnd.parse fs path a.forgetful.arguments =
      a.frontEnd.parse fs path a.arguments := rfl
  unfold analyze complaints
  unfold declarations at hjudged ⊢
  simp only [hparse]
  cases hp : a.frontEnd.parse fs path a.arguments with
  | error cause =>
    dsimp only
    rw [List.map_cons, Log.errors_cons_of_mild (by simp [Notice.labelled, Notice.info]), List.map_singleton,
      Log.errors_cons_of_error enabled rfl (Notice.text_parseFailure noPercent cause), Log.errors_nil]
    rfl
  | ok tree =>
    have hfound := Node.found?_eq_some (hplain tree hp)
    simp only [hp, hfound, Option.getD_some] at hjudged ⊢
    obtain ⟨-, hnotices⟩ := examine_of_found hfound hjudged
    rw [hnotices, List.map_cons, Log.errors_cons_of_mild (by simp [Notice.labelled, Notice.info]), List.map_append,
      Log.errors_append, Log.errors_afresh enabled noPercent hjudged, List.map_singleton,
      Log.errors_cons_of_mild (by simp [Notice.labelled, Notice.debug]), Log.errors_nil, List.append_nil, List.map_map]
    rfl

end Analyzer
end ThreadLocal
