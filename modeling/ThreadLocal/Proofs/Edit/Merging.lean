import ThreadLocal.Proofs.Edit.Conflicts

/-!
What comes of merging, exactly: the conflicts, one for each place where proposals differ, or else the plan. Neither
depends on the order of the proposals, or on how often each was made.
-/

namespace ThreadLocal

/-- Shorter replacements come first, and those of one length by their texts. -/
def Substitution.Precedes (a b : Substitution) : Prop :=
  a.length < b.length ∨ a.length = b.length ∧ a.text < b.text

namespace Substitution

theorem atMost_iff {a b : Substitution} : a.atMost b = true ↔ a.Precedes b ∨ a = b := by
  obtain ⟨n, s⟩ := a
  obtain ⟨m, t⟩ := b
  have htexts : s ≤ t ↔ s < t ∨ s = t := Std.le_iff_lt_or_eq
  simp only [atMost, Precedes, Bool.or_eq_true, Bool.and_eq_true, decide_eq_true_eq, htexts, mk.injEq]
  tauto

theorem not_precedes_self (a : Substitution) : ¬ a.Precedes a := by
  intro h
  rcases h with h | ⟨-, h⟩
  · omega
  · exact Std.lt_irrefl h

theorem Precedes.trans {a b c : Substitution} (hab : a.Precedes b) (hbc : b.Precedes c) : a.Precedes c := by
  unfold Precedes at hab hbc ⊢
  by_cases hlength : a.length < c.length
  · exact .inl hlength
  · obtain ⟨hab, hfirst⟩ : a.length = b.length ∧ a.text < b.text := hab.resolve_left (by omega)
    obtain ⟨hbc, hsecond⟩ : b.length = c.length ∧ b.text < c.text := hbc.resolve_left (by omega)
    exact .inr ⟨hab.trans hbc, Std.lt_trans hfirst hsecond⟩

theorem precedes_total (a b : Substitution) : a.Precedes b ∨ a = b ∨ b.Precedes a := by
  obtain ⟨n, s⟩ := a
  obtain ⟨m, t⟩ := b
  have hlengths : n < m ∨ n = m ∨ m < n := by omega
  have htexts : s < t ∨ s = t ∨ t < s := Std.lt_trichotomy s t
  simp only [Precedes, mk.injEq]
  tauto

theorem pairwise_sort {xs : List Substitution} (distinct : xs.Nodup) : (xs.mergeSort atMost).Pairwise Precedes := by
  have hsorted : (xs.mergeSort atMost).Pairwise fun a b => a.atMost b = true := by
    apply List.pairwise_mergeSort
    · intro a b c hab hbc
      rcases atMost_iff.mp hab with hab | rfl
      · rcases atMost_iff.mp hbc with hbc | rfl
        · exact atMost_iff.mpr (.inl (hab.trans hbc))
        · exact atMost_iff.mpr (.inl hab)
      · exact hbc
    · intro a b
      rw [Bool.or_eq_true, atMost_iff, atMost_iff]
      rcases precedes_total a b with hab | rfl | hba
      · exact .inl (.inl hab)
      · exact .inl (.inr rfl)
      · exact .inr (.inl hba)
  have hnodup := (List.mergeSort_perm xs atMost).nodup_iff.mpr distinct
  apply hsorted.imp₂ _ hnodup
  intro a b hle hne
  exact (atMost_iff.mp hle).resolve_right hne

end Substitution

/-- The place of an offset, or of nothing if there is no file to look into. -/
def Files.positionOf (fs : Files) (path : String) (offset : Nat) : Position :=
  match fs.read path with
  | .ok content => content.position offset
  | .error _ => ⟨0, 0⟩

def Site.conflict (fs : Files) (s : Site) : Conflict :=
  ⟨s.path, s.offset, fs.positionOf s.path s.offset, s.substitutions.mergeSort Substitution.atMost⟩

/-- The path opens, or the system refuses to open it. -/
def Files.Answers (fs : Files) (path : String) : Prop :=
  ∀ f, fs.read path = .error f → f.kind = .system

/-- The conflicts between some proposals: each place where two of them differ once, with all that is proposed there. -/
structure Conflict.Report (fs : Files) (proposals : List Proposal) (conflicts : List Conflict) : Prop where
  places_nodup : (conflicts.map fun c => (c.path, c.offset)).Nodup
  mem_places : ∀ path offset, (∃ c ∈ conflicts, c.path = path ∧ c.offset = offset) ↔ Contested proposals path offset
  mem_proposals : ∀ c ∈ conflicts, ∀ s, s ∈ c.proposals ↔
    ∃ p ∈ proposals, p.path = c.path ∧ p.offset = c.offset ∧ p.substitution = s
  ascending : ∀ c ∈ conflicts, c.proposals.Pairwise Substitution.Precedes
  position_eq : ∀ c ∈ conflicts, c.position = fs.positionOf c.path c.offset

theorem Conflict.ofSite_of_answers {fs : Files} {s : Site} (answers : fs.Answers s.path) :
    Conflict.ofSite fs s = .ok (s.conflict fs) := by
  unfold Conflict.ofSite Site.conflict Files.positionOf
  cases hread : fs.read s.path with
  | ok content => rfl
  | error f => simp [answers f hread]

theorem conflictsAt_of_answers {fs : Files} {sites : List Site} (answers : ∀ s ∈ sites, fs.Answers s.path) :
    conflictsAt fs sites = (sites.map (Site.conflict fs), none) := by
  induction sites with
  | nil => rfl
  | cons s rest ih =>
    obtain ⟨hfirst, hrest⟩ := List.forall_mem_cons.mp answers
    rw [conflictsAt, Conflict.ofSite_of_answers hfirst, ih hrest]
    rfl

namespace Groups.Hold

variable {groups : Groups} {proposals : List Proposal}

theorem exists_proposal (h : Hold groups proposals) {s : Site} (hs : s ∈ groups.sites) :
    ∃ p ∈ proposals, p.path = s.path := by
  obtain ⟨p, hp, hpath, -⟩ := (h.mem_offsets s.path s.offset).mp (h.mem_sites.mp hs).1
  exact ⟨p, hp, hpath⟩

theorem sites_nodup (h : Hold groups proposals) : (groups.sites.map fun s => (s.path, s.offset)).Nodup := by
  have hpaths : groups.Pairwise fun a b => a.1 ≠ b.1 := List.pairwise_map.mp h.paths_nodup
  rw [List.Nodup, List.pairwise_map, sites, List.pairwise_flatMap]
  constructor
  · intro e he
    have hoffsets : groups.offsetsAt e.1 = e.2 := by
      simp [offsetsAt, Table.get?_of_mem h.paths_nodup he]
    have hascending := sitesOf_ascending e.1 (hoffsets ▸ h.offsets_nodup e.1)
    apply hascending.imp
    intro a b hab hplace
    have hsame : a.offset = b.offset := (Prod.mk.inj hplace).2
    omega
  · apply hpaths.imp
    intro e e' hne a ha b hb hplace
    have hpath : a.path = b.path := (Prod.mk.inj hplace).1
    rw [(mem_sitesOf.mp ha).1, (mem_sitesOf.mp hb).1] at hpath
    exact hne hpath

theorem report (h : Hold groups proposals) (fs : Files) :
    Conflict.Report fs proposals ((groups.sites.filter Site.isContested).map (Site.conflict fs)) where
  places_nodup := by
    rw [List.map_map]
    exact (h.sites_nodup).sublist (List.filter_sublist.map _)
  mem_places := by
    intro path offset
    rw [← h.contested_iff]
    simp [Site.conflict]
  mem_proposals := by
    intro c hc s
    obtain ⟨site, hsite, rfl⟩ := List.mem_map.mp hc
    obtain ⟨-, hsubstitutions⟩ := h.mem_sites.mp (List.mem_of_mem_filter hsite)
    rw [Site.conflict, List.mem_mergeSort, hsubstitutions, h.mem_substitutions]
  ascending := by
    intro c hc
    obtain ⟨site, hsite, rfl⟩ := List.mem_map.mp hc
    obtain ⟨-, hsubstitutions⟩ := h.mem_sites.mp (List.mem_of_mem_filter hsite)
    exact Substitution.pairwise_sort (hsubstitutions ▸ h.substitutions_nodup site.path site.offset)
  position_eq := by
    intro c hc
    obtain ⟨site, -, rfl⟩ := List.mem_map.mp hc
    rfl

end Groups.Hold

section Congruence

variable {fs : Files} {proposals proposals' : List Proposal}

theorem contested_congr (same : ∀ p, p ∈ proposals ↔ p ∈ proposals') (path : String) (offset : Nat) :
    Contested proposals path offset ↔ Contested proposals' path offset := by
  simp only [Contested, same]

theorem Conflict.Report.mem_of_mem {conflicts conflicts' : List Conflict} (h : Report fs proposals conflicts)
    (h' : Report fs proposals' conflicts') (same : ∀ p, p ∈ proposals ↔ p ∈ proposals') {c : Conflict}
    (hc : c ∈ conflicts) : c ∈ conflicts' := by
  have hcontested := (h.mem_places c.path c.offset).mp ⟨c, hc, rfl, rfl⟩
  obtain ⟨c', hc', hpath, hoffset⟩ := (h'.mem_places c.path c.offset).mpr ((contested_congr same _ _).mp hcontested)
  have hposition : c'.position = c.position := by
    rw [h'.position_eq c' hc', h.position_eq c hc, hpath, hoffset]
  have hproposals : c'.proposals = c.proposals := by
    apply eq_of_strict Substitution.not_precedes_self (fun _ _ _ => Substitution.Precedes.trans)
      (h'.ascending c' hc') (h.ascending c hc)
    intro s
    rw [h'.mem_proposals c' hc', h.mem_proposals c hc, hpath, hoffset]
    simp only [same]
  have heq : c' = c := by
    obtain ⟨path, offset, position, list⟩ := c'
    cases hpath; cases hoffset; cases hposition; cases hproposals
    rfl
  exact heq ▸ hc'

end Congruence

/-- Two outcomes of merging that differ at most in the order of files and of conflicts. -/
inductive Agreement.Alike : Except Disagreement Plan → Except Disagreement Plan → Prop where
  | plans {plan plan' : Plan} (same : ∀ path, Table.get? plan path = Table.get? plan' path) :
    Alike (.ok plan) (.ok plan')
  | conflicts {conflicts conflicts' : List Conflict} (same : ∀ c, c ∈ conflicts ↔ c ∈ conflicts') :
    Alike (.error (.conflicts conflicts)) (.error (.conflicts conflicts'))

theorem agree_of_contested {fs : Files} {proposals : List Proposal} (answers : ∀ p ∈ proposals, fs.Answers p.path)
    (contested : ¬ Agreeing proposals) :
    ∃ conflicts, (agree fs proposals).outcome = .error (.conflicts conflicts) ∧
      Conflict.Report fs proposals conflicts := by
  have hold := Groups.hold_ofProposals proposals
  have hsites : ∀ s ∈ (Groups.ofProposals proposals).sites.filter Site.isContested, fs.Answers s.path := by
    intro s hs
    obtain ⟨p, hp, hpath⟩ := hold.exists_proposal (List.mem_of_mem_filter hs)
    exact hpath ▸ answers p hp
  have hreport := hold.report fs
  have hsome := mt hold.uncontested_iff.mp contested
  have hconflicts := conflictsAt_of_answers hsites
  refine ⟨_, ?_, hreport⟩
  unfold agree
  dsimp only
  rw [hconflicts]
  cases hl : (Groups.ofProposals proposals).sites.filter Site.isContested with
  | nil => exact absurd hl hsome
  | cons s rest => rfl

theorem not_agreeing_iff {proposals : List Proposal} :
    ¬ Agreeing proposals ↔ ∃ path offset, Contested proposals path offset := by
  simp only [agreeing_iff, not_forall, not_not]

theorem agree_of_agreeing (fs : Files) {proposals : List Proposal} (agreeing : Agreeing proposals) :
    ∃ plan, (agree fs proposals).outcome = .ok plan ∧ plan.Represents proposals := by
  have hplan : (agree fs proposals).outcome = .ok (Groups.ofProposals proposals).plan :=
    agree_eq_ok_iff.mpr ⟨agreeing, rfl⟩
  exact ⟨_, hplan, represents_of_agree hplan⟩

/-- Other lists of the same proposals come to the same. -/
theorem agree_alike {fs : Files} {proposals proposals' : List Proposal} (answers : ∀ p ∈ proposals, fs.Answers p.path)
    (same : ∀ p, p ∈ proposals ↔ p ∈ proposals') :
    Agreement.Alike (agree fs proposals).outcome (agree fs proposals').outcome := by
  have hcontested := contested_congr same
  by_cases hagree : Agreeing proposals
  · have hagree' : Agreeing proposals' := by
      rw [agreeing_iff] at hagree ⊢
      simpa only [hcontested] using hagree
    obtain ⟨plan, hplan, hrepresents⟩ := agree_of_agreeing fs hagree
    obtain ⟨plan', hplan', hrepresents'⟩ := agree_of_agreeing fs hagree'
    rw [hplan, hplan']
    exact .plans fun path => hrepresents.get?_eq hrepresents' same path
  · have hagree' : ¬ Agreeing proposals' := by
      rw [agreeing_iff] at hagree ⊢
      simpa only [hcontested] using hagree
    have hanswers' : ∀ p ∈ proposals', fs.Answers p.path := fun p hp => answers p ((same p).mpr hp)
    obtain ⟨conflicts, hconflicts, hreport⟩ := agree_of_contested answers hagree
    obtain ⟨conflicts', hconflicts', hreport'⟩ := agree_of_contested hanswers' hagree'
    rw [hconflicts, hconflicts']
    refine .conflicts fun c => ⟨hreport.mem_of_mem hreport' same, ?_⟩
    exact hreport'.mem_of_mem hreport fun p => (same p).symm

/-- If every path answers, merging reports conflicts just when two proposals differ at a place, and then all of them;
otherwise it gives the plan that does what was proposed. Other lists of the same proposals come to the same. -/
theorem merging_exact {fs : Files} {proposals : List Proposal} (answers : ∀ p ∈ proposals, fs.Answers p.path) :
    ((∃ conflicts, (agree fs proposals).outcome = .error (.conflicts conflicts)) ↔
      ∃ path offset, Contested proposals path offset) ∧
    (∀ conflicts, (agree fs proposals).outcome = .error (.conflicts conflicts) →
      Conflict.Report fs proposals conflicts) ∧
    ((∀ path offset, ¬ Contested proposals path offset) → ∃ plan, (agree fs proposals).outcome = .ok plan ∧
      plan.Represents proposals ∧ ∀ e ∈ plan, e.2 ≠ []) ∧
    ∀ proposals', (∀ p, p ∈ proposals ↔ p ∈ proposals') →
      Agreement.Alike (agree fs proposals).outcome (agree fs proposals').outcome := by
  refine ⟨?_, ?_, ?_, fun proposals' same => agree_alike answers same⟩
  · rw [← not_agreeing_iff]
    constructor
    · rintro ⟨conflicts, hconflicts⟩ hagree
      obtain ⟨plan, hplan, -⟩ := agree_of_agreeing fs hagree
      cases hconflicts.symm.trans hplan
    · intro hcontested
      obtain ⟨conflicts, hconflicts, -⟩ := agree_of_contested answers hcontested
      exact ⟨conflicts, hconflicts⟩
  · intro conflicts hconflicts
    by_cases hagree : Agreeing proposals
    · obtain ⟨plan, hplan, -⟩ := agree_of_agreeing fs hagree
      cases hconflicts.symm.trans hplan
    · obtain ⟨reported, hreported, hreport⟩ := agree_of_contested answers hagree
      cases hreported.symm.trans hconflicts
      exact hreport
  · intro hfree
    obtain ⟨plan, hplan, hrepresents⟩ := agree_of_agreeing fs (agreeing_iff.mpr hfree)
    exact ⟨plan, hplan, hrepresents, fun _ he => hrepresents.edits_ne_nil he⟩

/-! Two readings of one declaration in a header, and one of a file that cannot be read. -/

namespace TwoReadings

def files : Files where
  entries := [(["a.h"], .file (Bytes.ofText "int a;\nstatic int b;\n"))]
  here := []

def proposals : List Proposal :=
  [⟨"/a.h", 14, 0, "__thread "⟩, ⟨"/gone.c", 3, 0, "__thread "⟩, ⟨"/a.h", 0, 0, "__thread "⟩,
    ⟨"/a.h", 14, 0, "_Thread_local "⟩, ⟨"/a.h", 14, 0, "__thread "⟩]

theorem answers : ∀ p ∈ proposals, files.Answers p.path := by
  have hplain : ∀ p ∈ proposals, hasNul p.path = false := by decide
  intro p hp f hread
  cases f with
  | refused refusal path => rfl
  | embeddedNul => rw [Files.read_eq_embeddedNul_iff, hplain p hp] at hread; cases hread

theorem contested : Contested proposals "/a.h" 14 :=
  ⟨⟨"/a.h", 14, 0, "__thread "⟩, by simp [proposals], ⟨"/a.h", 14, 0, "_Thread_local "⟩, by simp [proposals], rfl, rfl,
    rfl, rfl, by simp [Proposal.substitution]⟩

end TwoReadings

/-- Both readings are reported, at the line and column of the declaration, in whatever order they came. -/
theorem twoReadings_merging_exact :
    (∀ p ∈ TwoReadings.proposals, TwoReadings.files.Answers p.path) ∧
      ∃ conflicts, (agree TwoReadings.files TwoReadings.proposals).outcome = .error (.conflicts conflicts) ∧
        (∃ c ∈ conflicts, c.path = "/a.h" ∧ c.offset = 14 ∧ c.position = ⟨2, 8⟩ ∧
          ⟨0, "_Thread_local "⟩ ∈ c.proposals ∧ ⟨0, "__thread "⟩ ∈ c.proposals) ∧
        Agreement.Alike (agree TwoReadings.files TwoReadings.proposals).outcome
          (agree TwoReadings.files TwoReadings.proposals.reverse).outcome := by
  obtain ⟨hiff, hreport, -, hsame⟩ := merging_exact TwoReadings.answers
  obtain ⟨conflicts, hconflicts⟩ := hiff.mpr ⟨_, _, TwoReadings.contested⟩
  have report := hreport conflicts hconflicts
  obtain ⟨c, hc, hpath, hoffset⟩ := (report.mem_places "/a.h" 14).mpr TwoReadings.contested
  have hposition : TwoReadings.files.positionOf "/a.h" 14 = ⟨2, 8⟩ := by decide +kernel
  have hmem := report.mem_proposals c hc
  rw [hpath, hoffset] at hmem
  refine ⟨TwoReadings.answers, conflicts, hconflicts, ⟨c, hc, hpath, hoffset, ?_, ?_, ?_⟩, ?_⟩
  · rw [report.position_eq c hc, hpath, hoffset, hposition]
  · exact (hmem _).mpr ⟨⟨"/a.h", 14, 0, "_Thread_local "⟩, by simp [TwoReadings.proposals], rfl, rfl, rfl⟩
  · exact (hmem _).mpr ⟨⟨"/a.h", 14, 0, "__thread "⟩, by simp [TwoReadings.proposals], rfl, rfl, rfl⟩
  · exact hsame _ fun p => List.mem_reverse.symm

end ThreadLocal
