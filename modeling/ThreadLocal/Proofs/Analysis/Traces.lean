import ThreadLocal.Proofs.Analysis.Errors
import ThreadLocal.Proofs.Analysis.Exactness

/-!
Every variable that is looked at leaves a trace: it is recorded, or the log has one line for it. What the line is like
tells why it was not recorded.
-/

namespace ThreadLocal

namespace Found

/-- A variable that is looked at: it is placed under the root, or in no file. -/
structure Considered (found : Found) (fs : Files) (root : Location) : Prop where
  wanted : found.node.kind = .variableDecl
  inside : ∀ file, found.node.place.file = some file →
    ∃ l, fs.resolve (Path.ofText file) = .ok l ∧ root <+: l

/-- What nothing but the rules for the keyword itself exempts from it. -/
structure HoldsState (found : Found) : Prop where
  lasting : found.IsLasting
  genuine : found.node.name ≠ Candidate.sentinelName
  mutable : found.node.type.IsMutable

/-- A variable that would get the keyword if it did not have one. -/
structure AlreadyLocal (found : Found) (fs : Files) (root : Location) : Prop extends
    found.Considered fs root, found.HoldsState where
  threadLocal : found.node.threadStorage ≠ .none

/-- A variable that would get the keyword if its extent were a stretch of a file. -/
structure Unplaced (found : Found) (fs : Files) (root : Location) : Prop extends
    found.Considered fs root, found.HoldsState where
  shared : found.node.threadStorage = .none
  unplaced : ∀ file content, ¬ found.node.Spans fs file content

/-- A variable that needs no keyword. -/
structure Spared (found : Found) (fs : Files) (root : Location) : Prop extends found.Considered fs root where
  stateless : ¬ found.HoldsState

variable {found : Found} {fs : Files} {root : Location}

theorem Gains.considered {p : Proposal} (h : found.Gains fs root p) : found.Considered fs root :=
  ⟨h.wanted, h.inside⟩

theorem considered_iff :
    found.Considered fs root ↔ found.node.kind = .variableDecl ∧ found.node.isConsidered fs root = .ok true := by
  rw [NodeInfo.isConsidered_eq_true_iff]
  exact ⟨fun h => ⟨h.wanted, h.inside⟩, fun h => ⟨h.1, h.2⟩⟩

theorem isThreadLocal_iff : found.candidate.isThreadLocal = true ↔ found.node.threadStorage ≠ .none := by
  simp [candidate, Candidate.ofNode]

theorem holdsState_iff (wanted : found.node.kind = .variableDecl) :
    found.HoldsState ↔ found.candidate.isGlobalOrStatic = true ∧ found.candidate.name ≠ Candidate.sentinelName ∧
      found.candidate.isConstant = false := by
  have hconstant : found.candidate.isConstant = found.node.type.isConstant := rfl
  have hname : found.candidate.name = found.node.name := rfl
  rw [isGlobalOrStatic_iff wanted, hname, hconstant, DeclaredType.isConstant_eq_false_iff]
  exact ⟨fun h => ⟨h.lasting, h.genuine, h.mutable⟩, fun h => ⟨h.1, h.2.1, h.2.2⟩⟩

/-- Of the variables that hold state those that are thread-local already are left alone, and no others. -/
theorem skipReason_of_holdsState (wanted : found.node.kind = .variableDecl) (holds : found.HoldsState) :
    found.candidate.skipReason =
      if found.node.threadStorage = .none then none else some .alreadyThreadLocal := by
  obtain ⟨hlasting, hgenuine, hmutable⟩ := (holdsState_iff wanted).mp holds
  split
  next hshared =>
    have hlocal : found.candidate.isThreadLocal = false := by
      rw [← Bool.not_eq_true, isThreadLocal_iff, not_not]
      exact hshared
    exact Candidate.skipReason_eq_none_iff.mpr ⟨hlasting, hgenuine, hmutable, hlocal⟩
  next hlocal =>
    exact Candidate.skipReason_eq_alreadyThreadLocal_iff.mpr
      ⟨hlasting, hgenuine, hmutable, isThreadLocal_iff.mpr hlocal⟩

/-- Any other reason to leave a variable alone is that it holds no state. -/
theorem exists_reason (wanted : found.node.kind = .variableDecl) (stateless : ¬ found.HoldsState) :
    ∃ reason, found.candidate.skipReason = some reason ∧ reason ≠ .alreadyThreadLocal := by
  rw [holdsState_iff wanted] at stateless
  cases hreason : found.candidate.skipReason with
  | none =>
    obtain ⟨hlasting, hgenuine, hmutable, -⟩ := Candidate.skipReason_eq_none_iff.mp hreason
    exact absurd ⟨hlasting, hgenuine, hmutable⟩ stateless
  | some reason =>
    refine ⟨reason, rfl, ?_⟩
    rintro rfl
    obtain ⟨hlasting, hgenuine, hmutable, -⟩ := Candidate.skipReason_eq_alreadyThreadLocal_iff.mp hreason
    exact stateless ⟨hlasting, hgenuine, hmutable⟩

/-- An extent is a stretch of a file just when the keyword has a place in it. -/
theorem exists_spans_iff :
    (∃ file content, found.node.Spans fs file content) ↔
      ∃ offset, (found.candidate.insertionOffset fs []).1 = .ok offset := by
  constructor
  · intro ⟨file, content, hspans⟩
    obtain ⟨l, hopen⟩ := Files.read_eq_ok_iff.mp hspans.readable
    exact ⟨_, Candidate.insertionOffset_eq_ok_iff.mpr ⟨file, l, content, hspans.start_file, hspans.finish_file, hopen,
      hspans.start_nonneg, hspans.start_le, hspans.finish_le, rfl⟩⟩
  · intro ⟨offset, hoffset⟩
    obtain ⟨file, l, content, hstart, hfinish, hopen, hnonneg, hle, hend, -⟩ :=
      Candidate.insertionOffset_eq_ok_iff.mp hoffset
    exact ⟨file, content, hstart, hfinish, Files.read_eq_ok_iff.mpr ⟨l, hopen⟩, hnonneg, hle, hend⟩

theorem toOption_insertionOffset_eq_none_iff :
    (found.candidate.insertionOffset fs []).1.toOption = none ↔
      ∀ file content, ¬ found.node.Spans fs file content := by
  have hspans := @exists_spans_iff found fs
  rw [← not_iff_not]
  simp only [not_forall, not_not, hspans]
  cases (found.candidate.insertionOffset fs []).1 <;> simp [Except.toOption]

/-- The line that the log has for a variable which is looked at and not recorded. -/
inductive Trace (found : Found) (fs : Files) (root : Location) (label : String) : String × String → Prop where
  | alreadyLocal (h : found.AlreadyLocal fs root) :
    Trace found fs root label ("ERROR", label ++ ": " ++ ("vardecl already has TLS kind: var=" ++ found.candidate.name ++
      " loc=" ++ found.candidate.location))
  | unplaced (h : found.Unplaced fs root) {cause : Unlocatable}
      (why : (found.candidate.insertionOffset fs []).1 = .error cause) :
    Trace found fs root label ("WARNING", label ++ ": " ++ ("no insertion point for " ++ found.candidate.name ++ " at " ++
      found.candidate.location ++ ": " ++ cause.message))
  | spared (h : found.Spared fs root) {reason : SkipReason} (why : found.candidate.skipReason = some reason) :
    Trace found fs root label ("DEBUG", label ++ ": " ++ ("skipping " ++ found.candidate.name ++ " (" ++
      found.candidate.typeSpelling ++ ") at " ++ found.candidate.location ++ ": " ++ reason.text))

/-- What is left of some nodes, in their order: of a node that is looked at a record or a line of the log, of others
nothing. -/
inductive Accounts (fs : Files) (root : Location) (label : String) :
    List Found → List Proposal → List (String × String) → Prop where
  | none : Accounts fs root label [] [] []
  | passed {found : Found} {rest : List Found} {records : List Proposal} {lines : List (String × String)}
      (h : ¬ found.Considered fs root) (others : Accounts fs root label rest records lines) :
    Accounts fs root label (found :: rest) records lines
  | recorded {found : Found} {p : Proposal} {rest : List Found} {records : List Proposal}
      {lines : List (String × String)} (h : found.Gains fs root p) (others : Accounts fs root label rest records lines) :
    Accounts fs root label (found :: rest) (p :: records) lines
  | traced {found : Found} {line : String × String} {rest : List Found} {records : List Proposal}
      {lines : List (String × String)} (h : found.Trace fs root label line)
      (others : Accounts fs root label rest records lines) :
    Accounts fs root label (found :: rest) records (line :: lines)

instance : Decidable (found.Considered fs root) :=
  decidable_of_iff _ considered_iff.symm

instance : Decidable found.IsLasting :=
  inferInstanceAs (Decidable (_ ∨ _))

instance : Decidable found.HoldsState :=
  decidable_of_iff (found.IsLasting ∧ found.node.name ≠ Candidate.sentinelName ∧ found.node.type.isConstant = false)
    ⟨fun h => ⟨h.1, h.2.1, (DeclaredType.isConstant_eq_false_iff _).mp h.2.2⟩,
      fun h => ⟨h.lasting, h.genuine, (DeclaredType.isConstant_eq_false_iff _).mpr h.mutable⟩⟩

instance : Decidable (found.AlreadyLocal fs root) :=
  decidable_of_iff (found.Considered fs root ∧ found.HoldsState ∧ found.node.threadStorage ≠ .none)
    ⟨fun h => ⟨h.1, h.2.1, h.2.2⟩, fun h => ⟨h.toConsidered, h.toHoldsState, h.threadLocal⟩⟩

instance : Decidable (found.Unplaced fs root) :=
  decidable_of_iff (found.Considered fs root ∧ found.HoldsState ∧ found.node.threadStorage = .none ∧
      (found.candidate.insertionOffset fs []).1.toOption = none)
    ⟨fun h => ⟨h.1, h.2.1, h.2.2.1, toOption_insertionOffset_eq_none_iff.mp h.2.2.2⟩,
      fun h => ⟨h.toConsidered, h.toHoldsState, h.shared, toOption_insertionOffset_eq_none_iff.mpr h.unplaced⟩⟩

instance : Decidable (found.Spared fs root) :=
  decidable_of_iff (found.Considered fs root ∧ ¬ found.HoldsState)
    ⟨fun h => ⟨h.1, h.2⟩, fun h => ⟨h.toConsidered, h.stateless⟩⟩

theorem Trace.considered {line : String × String} {label : String} (h : found.Trace fs root label line) :
    found.Considered fs root := by
  cases h with
  | alreadyLocal h => exact h.toConsidered
  | unplaced h => exact h.toConsidered
  | spared h => exact h.toConsidered

/-! The ways out exclude each other, and the level of a line tells which one it was. -/

theorem Gains.holdsState {p : Proposal} (h : found.Gains fs root p) : found.HoldsState :=
  ⟨h.lasting, h.genuine, h.mutable⟩

theorem Gains.not_alreadyLocal {p : Proposal} (h : found.Gains fs root p) : ¬ found.AlreadyLocal fs root :=
  fun hlocal => hlocal.threadLocal h.shared

theorem Gains.not_unplaced {p : Proposal} (h : found.Gains fs root p) : ¬ found.Unplaced fs root := by
  intro hunplaced
  obtain ⟨file, content, -, hspans, -⟩ := h.placed
  exact hunplaced.unplaced file content hspans

theorem Gains.not_spared {p : Proposal} (h : found.Gains fs root p) : ¬ found.Spared fs root :=
  fun hspared => hspared.stateless h.holdsState

theorem Trace.level_eq {line : String × String} {label : String} (h : found.Trace fs root label line) :
    (line.1 = "ERROR" ↔ found.AlreadyLocal fs root) ∧ (line.1 = "WARNING" ↔ found.Unplaced fs root) ∧
      (line.1 = "DEBUG" ↔ found.Spared fs root) := by
  cases h with
  | alreadyLocal h =>
    have hplaced : ¬ found.Unplaced fs root := fun hunplaced => h.threadLocal hunplaced.shared
    have hstate : ¬ found.Spared fs root := fun hspared => hspared.stateless h.toHoldsState
    simp [h, hplaced, hstate]
  | unplaced h =>
    have hshared : ¬ found.AlreadyLocal fs root := fun hlocal => hlocal.threadLocal h.shared
    have hstate : ¬ found.Spared fs root := fun hspared => hspared.stateless h.toHoldsState
    simp [h, hshared, hstate]
  | spared h =>
    have hlocal : ¬ found.AlreadyLocal fs root := fun hlocal => h.stateless hlocal.toHoldsState
    have hplaced : ¬ found.Unplaced fs root := fun hunplaced => h.stateless hunplaced.toHoldsState
    simp [h, hlocal, hplaced]

namespace Accounts

variable {label : String} {nodes : List Found} {records : List Proposal} {lines : List (String × String)}

/-- Every variable that is looked at gives a record or a line. -/
theorem length_add_length (h : Accounts fs root label nodes records lines) :
    lines.length + records.length = nodes.countP fun found => found.Considered fs root := by
  induction h with
  | none => rfl
  | passed hpassed _ ih => rw [List.countP_cons_of_neg (by simpa using hpassed), ih]
  | recorded hgains _ ih =>
    rw [List.countP_cons_of_pos (by simpa using hgains.considered), ← ih, List.length_cons, Nat.add_assoc]
  | traced htrace _ ih =>
    rw [List.countP_cons_of_pos (by simpa using htrace.considered), ← ih, List.length_cons, Nat.add_right_comm]

/-- If the lines of a level are those of the variables of one kind, there are as many of them. -/
theorem countP_lines (h : Accounts fs root label nodes records lines) {level : String} {kind : Found → Prop}
    [DecidablePred kind] (traced : ∀ {found line}, found.Trace fs root label line → (line.1 = level ↔ kind found))
    (considered : ∀ {found}, kind found → found.Considered fs root)
    (unrecorded : ∀ {found p}, found.Gains fs root p → ¬ kind found) :
    (lines.countP fun line => line.1 = level) = nodes.countP fun found => kind found := by
  induction h with
  | none => rfl
  | passed hpassed _ ih => rw [List.countP_cons_of_neg (by simpa using mt considered hpassed), ih]
  | recorded hgains _ ih => rw [List.countP_cons_of_neg (by simpa using unrecorded hgains), ih]
  | traced htrace _ ih => simp only [List.countP_cons, traced htrace, ih]

/-- Nodes that are no variables leave nothing. -/
theorem of_filter
    (h : Accounts fs root label (nodes.filter fun found => found.node.kind = .variableDecl) records lines) :
    Accounts fs root label nodes records lines := by
  induction nodes generalizing records lines with
  | nil => exact h
  | cons first rest ih =>
    by_cases hwanted : first.node.kind = .variableDecl
    · rw [List.filter_cons_of_pos (by simpa using hwanted)] at h
      cases h with
      | passed hpassed hothers => exact .passed hpassed (ih hothers)
      | recorded hgains hothers => exact .recorded hgains (ih hothers)
      | traced htrace hothers => exact .traced htrace (ih hothers)
    · rw [List.filter_cons_of_neg (by simpa using hwanted)] at h
      exact .passed (fun hconsidered => hwanted hconsidered.wanted) (ih h)

end Accounts

end Found

namespace Notice

variable {label : String}

theorem text_skipping (noPercent : '%' ∉ label.toList) (name type location reason : String) :
    (labelled label (.debug "skipping %s (%s) at %s: %s" [.str name, .str type, .str location, .str reason])).text? =
      some (label ++ ": " ++ ("skipping " ++ name ++ " (" ++ type ++ ") at " ++ location ++ ": " ++ reason)) := by
  have hshape : "skipping %s (%s) at %s: %s" =
      String.join (["skipping ", " (", ") at ", ": "].map (· ++ "%s")) := by decide +kernel
  have hplain : ∀ p ∈ ["skipping ", " (", ") at ", ": "], '%' ∉ p.toList := by decide +kernel
  rw [@text_labelled label noPercent (.debug "skipping %s (%s) at %s: %s" [.str name, .str type, .str location,
    .str reason]) _ [name, type, location, reason] hshape hplain rfl rfl (by simp)]
  simp [String.append_assoc]

theorem text_unplaced (noPercent : '%' ∉ label.toList) (name location cause : String) :
    (labelled label (.warning "no insertion point for %s at %s: %s" [.str name, .str location, .str cause])).text? =
      some (label ++ ": " ++ ("no insertion point for " ++ name ++ " at " ++ location ++ ": " ++ cause)) := by
  have hshape : "no insertion point for %s at %s: %s" =
      String.join (["no insertion point for ", " at ", ": "].map (· ++ "%s")) := by decide +kernel
  have hplain : ∀ p ∈ ["no insertion point for ", " at ", ": "], '%' ∉ p.toList := by decide +kernel
  rw [@text_labelled label noPercent (.warning "no insertion point for %s at %s: %s" [.str name, .str location,
    .str cause]) _ [name, location, cause] hshape hplain rfl rfl (by simp)]
  simp [String.append_assoc]

theorem text_summary (noPercent : '%' ∉ label.toList) (n : Nat) :
    (labelled label (.debug "proposed %d rewrite(s)" [.int n])).text? =
      some (label ++ ": " ++ ("proposed " ++ toString n ++ " rewrite(s)")) := by
  have hrest : Template.renderFrom " rewrite(s)".toList (.sequence []) = some " rewrite(s)".toList := by
    decide +kernel
  have hrender : Template.render? "proposed %d rewrite(s)" [.int n] =
      some ("proposed " ++ toString n ++ " rewrite(s)") := by
    have hchars : "proposed %d rewrite(s)".toList = "proposed ".toList ++ '%' :: 'd' :: " rewrite(s)".toList := by
      decide +kernel
    have harguments : Template.Arguments.ofList [.int n] = .sequence [.int n] := rfl
    rw [Template.render?, List.isEmpty_cons, if_neg (by simp), hchars, harguments,
      Template.renderFrom_append (by decide), Template.renderFrom_decimal, hrest]
    simp [← String.toList_inj]
  unfold text? labelled debug
  rw [Template.render?_labelled noPercent _ (by simp), hrender, Option.map_some]

/-- Without arguments a template is no template: it stands for itself. -/
theorem text_of_no_arguments {n : Notice} (h : n.arguments = []) : n.text? = some n.template := by
  rw [text?, h]
  rfl

/-- A log for debugging writes the notices of every level. -/
theorem shown?_debug {n : Notice} (level : n.level ∈ [Level.debug, Level.info, Level.warning, Level.error])
    {text : String} (fits : n.text? = some text) : n.shown? Level.debug = some (Level.name n.level, text) := by
  have hlevels : ∀ level ∈ [Level.debug, Level.info, Level.warning, Level.error],
      Level.isShown Level.debug level = true := by decide
  rw [shown?, hlevels _ level, if_pos rfl, fits, Option.map_some]

theorem shown?_parsing (label : String) :
    (labelled label (.info "parsing file" [])).shown? Level.debug = some ("INFO", label ++ ": parsing file") := by
  have hlevel : Level.name Level.info = "INFO" := by decide
  have hspelling : ": parsing file" = ": " ++ "parsing file" := by decide
  rw [shown?_debug (by simp [labelled, info]) (text_of_no_arguments rfl), hspelling]
  simp only [labelled, info, hlevel, String.append_assoc]

theorem shown?_summary (noPercent : '%' ∉ label.toList) (n : Nat) :
    (labelled label (.debug "proposed %d rewrite(s)" [.int n])).shown? Level.debug =
      some ("DEBUG", label ++ ": proposed " ++ toString n ++ " rewrite(s)") := by
  have hlevel : Level.name Level.debug = "DEBUG" := by decide
  have hspelling : ": proposed " = ": " ++ "proposed " := by decide
  rw [shown?_debug (by simp [labelled, debug]) (text_summary noPercent n), hspelling]
  simp only [labelled, debug, hlevel, String.append_assoc]

end Notice

namespace Found

variable {found : Found} {fs : Files} {root : Location} {label : String}

/-- What becomes of a variable that is looked at: it is recorded without a word, or it has a line in the log. -/
theorem Considered.leaves_trace (noPercent : '%' ∉ label.toList) (h : found.Considered fs root) :
    (∃ p, found.Gains fs root p ∧ found.verdict fs root = .ok (some (.proposed p))) ∨
      ∃ v n line, found.verdict fs root = .ok (some v) ∧ v.proposal? = none ∧ v.notice? found.candidate = some n ∧
        (n.labelled label).shown? Level.debug = some line ∧ found.Trace fs root label line := by
  obtain ⟨hwanted, hconsidered⟩ := considered_iff.mp h
  rw [verdict_eq_of_considered hconsidered, if_pos rfl]
  by_cases hstate : found.HoldsState
  swap
  · obtain ⟨reason, hreason, hother⟩ := exists_reason hwanted hstate
    have hnotice : Verdict.notice? found.candidate (.skipped reason) = some (.debug "skipping %s (%s) at %s: %s"
        [.str found.candidate.name, .str found.candidate.typeSpelling, .str found.candidate.location,
          .str reason.text]) := by
      cases reason with
      | alreadyThreadLocal => exact absurd rfl hother
      | automatic => rfl
      | sentinel => rfl
      | constant => rfl
    rw [Candidate.judge_eq_skipped_iff.mpr hreason]
    have hshown := Notice.shown?_debug (by simp [Notice.labelled, Notice.debug])
      (Notice.text_skipping noPercent found.candidate.name found.candidate.typeSpelling found.candidate.location reason.text)
    exact .inr ⟨_, _, _, rfl, rfl, hnotice, hshown, .spared ⟨h, hstate⟩ hreason⟩
  have hreason := skipReason_of_holdsState hwanted hstate
  by_cases hshared : found.node.threadStorage = .none
  swap
  · rw [if_neg hshared] at hreason
    rw [Candidate.judge_eq_skipped_iff.mpr hreason]
    have hshown := Notice.shown?_debug (by simp [Notice.labelled, Notice.error])
      (Notice.text_alreadyThreadLocal noPercent found.candidate.name found.candidate.location)
    exact .inr ⟨_, _, _, rfl, rfl, rfl, hshown, .alreadyLocal ⟨h, hstate, hshared⟩⟩
  rw [if_pos hshared] at hreason
  cases hplace : (found.candidate.insertionOffset fs []).1 with
  | error cause =>
    have hunplaced : ∀ file content, ¬ found.node.Spans fs file content := by
      rw [← toOption_insertionOffset_eq_none_iff, hplace]
      rfl
    rw [Candidate.judge_of_free hreason, hplace]
    have hshown := Notice.shown?_debug (by simp [Notice.labelled, Notice.warning])
      (Notice.text_unplaced noPercent found.candidate.name found.candidate.location cause.message)
    exact .inr ⟨_, _, _, rfl, rfl, rfl, hshown, .unplaced ⟨h, hstate, hshared, hunplaced⟩ hplace⟩
  | ok offset =>
    obtain ⟨file, l, content, hfile, hfinish, hopen, h0, h1, h2, hoffset⟩ :=
      Candidate.insertionOffset_eq_ok_iff.mp hplace
    have hjudge : (found.candidate.judge fs []).1 =
        .ok (.proposed ⟨l.text, found.insertion content, 0, threadKeyword⟩) :=
      Candidate.judge_eq_proposed_iff.mpr ⟨hreason, file, l, content, hfile, hfinish, hopen, h0, h1, h2, rfl⟩
    have hproposal := proposal?_eq_some_iff_judge.mpr ⟨hconsidered, hjudge⟩
    exact .inl ⟨_, (gains_iff hwanted).mpr hproposal, by rw [hjudge]; rfl⟩

end Found

namespace Log

variable {fs : Files} {root : Location} {label : String}

/-- The records and the lines of a run over some variables are what is left of them. -/
theorem accounts_afresh (noPercent : '%' ∉ label.toList) {found : List Found}
    (wanted : ∀ f ∈ found, f.node.kind = .variableDecl) (judged : ∀ f ∈ found, ∃ v, f.verdict fs root = .ok v) :
    Found.Accounts fs root label found (found.filterMap fun f => f.proposal? fs root)
      (entries Level.debug (((Judged.afresh fs root found).1.filterMap fun v => v.2.notice? v.1).map
        (Notice.labelled label))) := by
  induction found with
  | nil => exact .none
  | cons first rest ih =>
    obtain ⟨hfirst, hwanted⟩ := List.forall_mem_cons.mp wanted
    obtain ⟨⟨v, hv⟩, hrest⟩ := List.forall_mem_cons.mp judged
    specialize ih hwanted hrest
    by_cases hconsidered : first.Considered fs root
    · rcases hconsidered.leaves_trace noPercent with
        ⟨p, hgains, hverdict⟩ | ⟨verdict, n, line, hverdict, hsilent, hnotice, hshown, htrace⟩
      · have hproposals : (first :: rest).filterMap (fun f => f.proposal? fs root) =
            p :: rest.filterMap fun f => f.proposal? fs root :=
          List.filterMap_cons_some (by simp [Found.proposal?, hverdict, Verdict.proposal?])
        rw [hproposals, Judged.afresh_cons_of_some hverdict, List.filterMap_cons_none rfl]
        exact .recorded hgains ih
      · have hproposals : (first :: rest).filterMap (fun f => f.proposal? fs root) =
            rest.filterMap fun f => f.proposal? fs root :=
          List.filterMap_cons_none (by simp [Found.proposal?, hverdict, hsilent])
        have hnotices : (Judged.afresh fs root (first :: rest)).1.filterMap (fun v => v.2.notice? v.1) =
            n :: (Judged.afresh fs root rest).1.filterMap fun v => v.2.notice? v.1 := by
          rw [Judged.afresh_cons_of_some hverdict]
          exact List.filterMap_cons_some hnotice
        rw [hproposals, hnotices, List.map_cons, entries, List.filterMap_cons_some hshown]
        exact .traced htrace ih
    · have hnone : first.verdict fs root = .ok none := by
        cases v with
        | none => exact hv
        | some verdict =>
          exact absurd (Found.considered_iff.mpr ⟨hfirst, (Found.verdict_eq_some_iff.mp hv).1⟩) hconsidered
      have hproposals : (first :: rest).filterMap (fun f => f.proposal? fs root) =
          rest.filterMap fun f => f.proposal? fs root :=
        List.filterMap_cons_none (by simp [Found.proposal?, hnone])
      rw [hproposals, Judged.afresh_cons_of_none hnone]
      exact .passed hconsidered ih

theorem entries_append (threshold : Int) (before after : List Notice) :
    entries threshold (before ++ after) = entries threshold before ++ entries threshold after :=
  List.filterMap_append

end Log

/-- What a log for debugging has for an analysis. -/
def Analysis.log (analysis : Analysis) : List (String × String) :=
  Log.entries Level.debug analysis.notices

namespace Analyzer

variable {fs : Files} {frontEnd : FrontEnd} {sourceRoot : String} {includePaths : List String} {a : Analyzer}
  {path : String}

/-- The log of an analysis that is not stopped, between its first and its last line, has what the variables leave. -/
theorem log_of_judged (noPercent : '%' ∉ (fs.shown path).toList) {tree : Node}
    (parsed : a.frontEnd.parse fs path a.arguments = .ok tree) (plain : tree.info.kind ≠ .variableDecl)
    (judged : ∀ found ∈ tree.descendants, found.node.kind = .variableDecl → ∃ v, found.verdict fs a.root = .ok v) :
    ∃ records lines, (a.forgetful.analyze fs path).outcome = .ok records ∧
      (a.forgetful.analyze fs path).log = ("INFO", fs.shown path ++ ": parsing file") :: (lines ++
        [("DEBUG", fs.shown path ++ ": proposed " ++ toString records.length ++ " rewrite(s)")]) ∧
      Found.Accounts fs a.root (fs.shown path) tree.descendants.reverse records lines := by
  have hwanted : decide (tree.info.kind = NodeKind.variableDecl) = false := decide_eq_false plain
  have hfound := @Node.found?_eq (fun kind => decide (kind = NodeKind.variableDecl)) tree hwanted
  have hkinds : ∀ f ∈ tree.descendants.reverse.filter (fun f => f.node.kind = .variableDecl),
      f.node.kind = .variableDecl := fun f hf => of_decide_eq_true (List.mem_filter.mp hf).2
  have hjudged : ∀ f ∈ tree.descendants.reverse.filter (fun f => f.node.kind = .variableDecl),
      ∃ v, f.verdict fs a.root = .ok v :=
    fun f hf => judged f (List.mem_reverse.mp (List.mem_filter.mp hf).1) (hkinds f hf)
  obtain ⟨houtcome, hnotices⟩ := examine_of_found hfound hjudged
  have hparsed : a.forgetful.frontEnd.parse fs path a.forgetful.arguments = .ok tree := parsed
  refine ⟨_, _, ?_, ?_, (Log.accounts_afresh noPercent hkinds hjudged).of_filter⟩
  · simp only [analyze, hparsed, houtcome]
  · simp only [Analysis.log, analyze, hparsed, hnotices, List.map_cons, List.map_append, List.map_nil]
    rw [Log.entries, List.filterMap_cons_some (Notice.shown?_parsing _), ← Log.entries, Log.entries_append]
    congr 2
    exact List.filterMap_cons_some (Notice.shown?_summary noPercent _)

/-- An analysis for a debugging log writes that it parses the file, then a line for every variable under the root that
it does not record, then the number of records. Each level has as many lines as there are variables of its kind. -/
theorem each_variable_accounted_for (reached : Reached fs frontEnd sourceRoot includePaths a)
    (noPercent : '%' ∉ (fs.shown path).toList) {tree : Node}
    (parsed : frontEnd.parse fs path (includeArguments includePaths) = .ok tree)
    (plain : tree.info.kind ≠ .variableDecl)
    (clear : ∀ found ∈ tree.descendants, found.node.kind = .variableDecl →
      ∀ file, found.node.place.file = some file → fs.Clear file) :
    ∃ root records lines, fs.resolve (Path.ofText sourceRoot) = .ok root ∧
      (a.analyze fs path).outcome = .ok records ∧
      (a.analyze fs path).log = ("INFO", fs.shown path ++ ": parsing file") :: (lines ++
        [("DEBUG", fs.shown path ++ ": proposed " ++ toString records.length ++ " rewrite(s)")]) ∧
      Found.Accounts fs root (fs.shown path) tree.descendants.reverse records lines ∧
      records.length ≤ tree.descendants.countP (·.Considered fs root) ∧
      (a.analyze fs path).log.length = 2 + (tree.descendants.countP (·.Considered fs root) - records.length) ∧
      (a.analyze fs path).log.countP (·.1 = "ERROR") = tree.descendants.countP (·.AlreadyLocal fs root) ∧
      (a.analyze fs path).log.countP (·.1 = "WARNING") = tree.descendants.countP (·.Unplaced fs root) ∧
      (a.analyze fs path).log.countP (·.1 = "DEBUG") = tree.descendants.countP (·.Spared fs root) + 1 := by
  obtain ⟨rfl, harguments, hroot⟩ := reached.settings
  rw [← harguments] at parsed
  have hjudged : ∀ found ∈ tree.descendants, found.node.kind = .variableDecl →
      ∃ v, found.verdict fs a.root = .ok v := by
    intro found hmem hkind
    obtain ⟨considered, hconsidered⟩ := Found.isConsidered_of_clear (clear found hmem hkind)
    exact Found.verdict_of_considered hconsidered
  obtain ⟨hnotices, houtcome, -⟩ := analyze_of_sound reached.sound path
  have hsame : (a.analyze fs path).log = (a.forgetful.analyze fs path).log := by
    rw [Analysis.log, hnotices, Analysis.log]
  obtain ⟨records, lines, hrecords, hlog, haccounts⟩ := log_of_judged noPercent parsed plain hjudged
  have htotal := haccounts.length_add_length
  have herrors := haccounts.countP_lines (fun h => h.level_eq.1) (fun h => h.toConsidered) (fun h => h.not_alreadyLocal)
  have hwarnings := haccounts.countP_lines (fun h => h.level_eq.2.1) (fun h => h.toConsidered) (fun h => h.not_unplaced)
  have hothers := haccounts.countP_lines (fun h => h.level_eq.2.2) (fun h => h.toConsidered) (fun h => h.not_spared)
  rw [List.countP_reverse] at htotal herrors hwarnings hothers
  rw [hsame, houtcome]
  refine ⟨a.root, records, lines, hroot, hrecords, hlog, haccounts, by omega, ?_, ?_, ?_, ?_⟩
  · simp only [hlog, List.length_cons, List.length_append, List.length_nil]
    omega
  · simp [hlog, herrors]
  · simp [hlog, hwarnings]
  · simp [hlog, hothers]

end Analyzer

namespace Counters

/-- A variable whose extent reaches past the end of its file. -/
def torn : NodeInfo := declared "torn" ⟨int, int⟩ .none "/src/main.c" 77 1000

/-- One variable for each way to be left alone, one that is recorded, and one in another place. -/
def mixed : Node :=
  .mk { count with kind := .unitRoot } [
    .mk count [],
    .mk (declared "limits" limits .none "/src/main.c" 18 35) [],
    .mk own [],
    .mk torn [],
    .mk (declared "shared" ⟨int, int⟩ .none "/lib/other.h" 0 10) []]

def mixedAnalyzer : Analyzer := ⟨.ofTrees [("/src/main.c", .ok mixed)], ["src"], [], Memory.empty⟩

end Counters

theorem counters_accounted_for :
    Analyzer.Reached Counters.files Counters.mixedAnalyzer.frontEnd "/src" [] Counters.mixedAnalyzer ∧
      ∃ lines, (Counters.mixedAnalyzer.analyze Counters.files "/src/main.c").log =
          ("INFO", "src/main.c: parsing file") :: (lines ++ [("DEBUG", "src/main.c: proposed 1 rewrite(s)")]) ∧
        Found.Accounts Counters.files ["src"] "src/main.c" Counters.mixed.descendants.reverse
          [⟨"/src/main.c", 7, 0, threadKeyword⟩] lines ∧
        (Counters.mixedAnalyzer.analyze Counters.files "/src/main.c").log.length = 2 + (4 - 1) ∧
        (Counters.mixedAnalyzer.analyze Counters.files "/src/main.c").log.countP (·.1 = "ERROR") = 1 ∧
        (Counters.mixedAnalyzer.analyze Counters.files "/src/main.c").log.countP (·.1 = "WARNING") = 1 ∧
        (Counters.mixedAnalyzer.analyze Counters.files "/src/main.c").log.countP (·.1 = "DEBUG") = 1 + 1 := by
  have hroot : Counters.files.locate "/src" = .ok ["src"] := by decide +kernel
  have hmain : Counters.files.locate "/src/main.c" = .ok ["src", "main.c"] := by decide +kernel
  have hother : Counters.files.locate "/lib/other.h" = .ok ["lib", "other.h"] := by decide +kernel
  have hmade : Analyzer.make Counters.files Counters.mixedAnalyzer.frontEnd "/src" [] = .ok Counters.mixedAnalyzer :=
    Analyzer.make_eq_ok_iff.mpr ⟨["src"], Files.resolve_of_locate hroot, rfl⟩
  have houtcome : (Counters.mixedAnalyzer.analyze Counters.files "/src/main.c").outcome =
      .ok [⟨"/src/main.c", 7, 0, threadKeyword⟩] := by
    decide +kernel
  have hplaces : ∀ found ∈ Counters.mixed.descendants,
      found.node.place.file = some "/src/main.c" ∨ found.node.place.file = some "/lib/other.h" := by
    decide +kernel
  have hclear : ∀ found ∈ Counters.mixed.descendants, found.node.kind = .variableDecl →
      ∀ file, found.node.place.file = some file → Counters.files.Clear file := by
    intro found hfound _ file hfile
    rcases hplaces found hfound with hplace | hplace
    · obtain rfl := Option.some.inj (hfile.symm.trans hplace)
      exact Files.clear_of_locate hmain
    · obtain rfl := Option.some.inj (hfile.symm.trans hplace)
      exact Files.clear_of_locate hother
  have hshown : Counters.files.shown "/src/main.c" = "src/main.c" := by decide +kernel
  obtain ⟨root, records, lines, hresolved, hrecords, hlog, haccounts, -, hlength, herrors, hwarnings, hothers⟩ :=
    @Analyzer.each_variable_accounted_for Counters.files Counters.mixedAnalyzer.frontEnd "/src" []
      Counters.mixedAnalyzer "/src/main.c" (.made hmade) (by rw [hshown]; decide) Counters.mixed rfl (by decide) hclear
  obtain rfl := Except.ok.inj (hresolved.symm.trans (Files.resolve_of_locate hroot))
  obtain rfl := Except.ok.inj (hrecords.symm.trans houtcome)
  have hconsidered : Counters.mixed.descendants.countP (·.Considered Counters.files ["src"]) = 4 := by decide +kernel
  have hlocal : Counters.mixed.descendants.countP (·.AlreadyLocal Counters.files ["src"]) = 1 := by decide +kernel
  have hunplaced : Counters.mixed.descendants.countP (·.Unplaced Counters.files ["src"]) = 1 := by decide +kernel
  have hspared : Counters.mixed.descendants.countP (·.Spared Counters.files ["src"]) = 1 := by decide +kernel
  rw [hconsidered] at hlength
  rw [hlocal] at herrors
  rw [hunplaced] at hwarnings
  rw [hspared] at hothers
  rw [hshown] at hlog haccounts
  exact ⟨.made hmade, lines, hlog, haccounts, hlength, herrors, hwarnings, hothers⟩

end ThreadLocal
