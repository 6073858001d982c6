import Mathlib.Data.Finset.Card
import ThreadLocal.Proofs.Edit.Groups

/-!
When proposals agree, and the plan that comes of them: it depends on nothing but which proposals there are.
-/

namespace ThreadLocal

/-- No two proposals want different things at one place. -/
def Agreeing (proposals : List Proposal) : Prop :=
  ∀ p ∈ proposals, ∀ q ∈ proposals, p.path = q.path → p.offset = q.offset → p.substitution = q.substitution

/-- Two proposals want different things at a place of a file. -/
def Contested (proposals : List Proposal) (path : String) (offset : Nat) : Prop :=
  ∃ p ∈ proposals, ∃ q ∈ proposals, p.path = path ∧ p.offset = offset ∧ q.path = path ∧ q.offset = offset ∧
    p.substitution ≠ q.substitution

theorem agreeing_iff {proposals : List Proposal} :
    Agreeing proposals ↔ ∀ path offset, ¬ Contested proposals path offset := by
  constructor
  · intro hagree path offset ⟨p, hp, q, hq, hpp, hpo, hqp, hqo, hne⟩
    exact hne (hagree p hp q hq (hpp.trans hqp.symm) (hpo.trans hqo.symm))
  · intro hfree p hp q hq hpath hoffset
    by_contra hne
    exact hfree p.path p.offset ⟨p, hp, q, hq, rfl, rfl, hpath.symm, hoffset.symm, hne⟩

theorem Site.isContested_iff {s : Site} (distinct : s.substitutions.Nodup) :
    s.isContested = true ↔ ∃ x ∈ s.substitutions, ∃ y ∈ s.substitutions, x ≠ y := by
  have hcard := List.toFinset_card_of_nodup distinct
  simp only [Site.isContested, decide_eq_true_eq, ← hcard, Finset.one_lt_card, List.mem_toFinset]

/-- A plan that does what was proposed, in ascending order and without doing anything twice. -/
structure Plan.Represents (plan : Plan) (proposals : List Proposal) : Prop where
  paths_nodup : (Table.keys plan).Nodup
  mem_paths : ∀ path, path ∈ Table.keys plan ↔ ∃ p ∈ proposals, p.path = path
  mem_edits : ∀ path edits, Table.get? plan path = some edits →
    ∀ e, e ∈ edits ↔ ∃ p ∈ proposals, p.path = path ∧ p.edit = e
  ascending : ∀ path edits, Table.get? plan path = some edits → edits.Pairwise fun a b => a.offset < b.offset

theorem mem_sitesOf {path : String} {offsets : Table Nat (List Substitution)} {s : Site} :
    s ∈ sitesOf path offsets ↔ s.path = path ∧ (s.offset, s.substitutions) ∈ offsets := by
  unfold sitesOf
  simp only [List.mem_map, List.mem_mergeSort]
  constructor
  · intro ⟨e, he, hs⟩
    subst hs
    exact ⟨rfl, he⟩
  · intro ⟨hp, hs⟩
    subst hp
    exact ⟨_, hs, rfl⟩

/-- Sorted by keys that differ, a table ascends strictly. -/
theorem Table.pairwise_mergeSort {κ ν : Type} [LE κ] [LT κ] [DecidableLE κ] [Std.IsLinearOrder κ]
    [Std.LawfulOrderLT κ] {t : Table κ ν} (distinct : (keys t).Nodup) :
    (t.mergeSort fun a b => a.1 ≤ b.1).Pairwise fun a b => a.1 < b.1 := by
  have hsorted : (t.mergeSort fun a b => decide (a.1 ≤ b.1)).Pairwise fun a b => decide (a.1 ≤ b.1) = true := by
    apply List.pairwise_mergeSort
    · intro a b c hab hbc
      exact decide_eq_true (Std.le_trans (of_decide_eq_true hab) (of_decide_eq_true hbc))
    · intro a b
      simpa using Std.le_total
  have hperm := List.mergeSort_perm t fun a b => decide (a.1 ≤ b.1)
  have hnodup := (hperm.map Prod.fst).nodup_iff.mpr distinct
  apply hsorted.imp₂ _ (List.pairwise_map.mp hnodup)
  intro a b hle hne
  exact Std.lt_of_le_of_ne (of_decide_eq_true hle) hne

/-- Sites come by ascending offset, each offset once. -/
theorem sitesOf_ascending (path : String) {offsets : Table Nat (List Substitution)}
    (distinct : (Table.keys offsets).Nodup) :
    (sitesOf path offsets).Pairwise fun a b => a.offset < b.offset := by
  rw [sitesOf, List.pairwise_map]
  exact Table.pairwise_mergeSort distinct

theorem sitesOf_of_ascending (path : String) {offsets : Table Nat (List Substitution)}
    (ascending : offsets.Pairwise fun a b => a.1 ≤ b.1) :
    sitesOf path offsets = offsets.map fun e => ⟨path, e.1, e.2⟩ := by
  rw [sitesOf, List.mergeSort_of_pairwise (by simpa using ascending)]

namespace Groups

variable {groups : Groups} {proposals : List Proposal}

theorem get?_of_mem_keys {path : String} (h : path ∈ Table.keys groups) :
    Table.get? groups path = some (groups.offsetsAt path) := by
  cases hg : Table.get? groups path with
  | none => exact absurd h (Table.get?_eq_none_iff.mp hg)
  | some offsets => simp [offsetsAt, hg]

theorem get?_plan (path : String) :
    Table.get? groups.plan path =
      (Table.get? groups path).map fun offsets => (sitesOf path offsets).flatMap Site.edits :=
  Table.get?_map groups (fun path offsets => (sitesOf path offsets).flatMap Site.edits) path

namespace Hold

theorem mem_sitesOf_offsetsAt (h : Hold groups proposals) {path : String} {s : Site} :
    s ∈ sitesOf path (groups.offsetsAt path) ↔
      s.path = path ∧ s.offset ∈ Table.keys (groups.offsetsAt path) ∧
        s.substitutions = groups.substitutionsAt path s.offset := by
  rw [mem_sitesOf]
  constructor
  · intro hmem
    obtain ⟨hp, hs⟩ := hmem
    refine ⟨hp, List.mem_map.mpr ⟨_, hs, rfl⟩, ?_⟩
    simp [substitutionsAt, Table.get?_of_mem (h.offsets_nodup path) hs]
  · intro hmem
    obtain ⟨hp, ho, hs⟩ := hmem
    refine ⟨hp, ?_⟩
    cases hg : Table.get? (groups.offsetsAt path) s.offset with
    | none => exact absurd ho (Table.get?_eq_none_iff.mp hg)
    | some substitutions =>
      have he : s.substitutions = substitutions := by simp [hs, substitutionsAt, hg]
      exact he ▸ Table.mem_of_get? hg

theorem mem_sites (h : Hold groups proposals) {s : Site} :
    s ∈ groups.sites ↔ s.offset ∈ Table.keys (groups.offsetsAt s.path) ∧
      s.substitutions = groups.substitutionsAt s.path s.offset := by
  unfold sites
  rw [List.mem_flatMap]
  constructor
  · intro ⟨e, he, hs⟩
    have hget := Table.get?_of_mem h.paths_nodup he
    have hoff : groups.offsetsAt e.1 = e.2 := by simp [offsetsAt, hget]
    rw [← hoff, h.mem_sitesOf_offsetsAt] at hs
    obtain ⟨hp, hs⟩ := hs
    exact hp ▸ hs
  · intro hs
    obtain ⟨p, hp, hpath, -⟩ := (h.mem_offsets s.path s.offset).mp hs.1
    have hmem := (h.mem_paths s.path).mpr ⟨p, hp, hpath⟩
    exact ⟨_, Table.mem_of_get? (get?_of_mem_keys hmem), h.mem_sitesOf_offsetsAt.mpr ⟨rfl, hs⟩⟩

/-- The contested sites are where proposals differ. -/
theorem contested_iff (h : Hold groups proposals) {path : String} {offset : Nat} :
    (∃ s ∈ groups.sites.filter Site.isContested, s.path = path ∧ s.offset = offset) ↔
      Contested proposals path offset := by
  have hmem := h.mem_substitutions path offset
  constructor
  · rintro ⟨s, hs, rfl, rfl⟩
    obtain ⟨hsite, hcontested⟩ := List.mem_filter.mp hs
    obtain ⟨-, hsubs⟩ := h.mem_sites.mp hsite
    rw [Site.isContested_iff (hsubs ▸ h.substitutions_nodup s.path s.offset), hsubs] at hcontested
    obtain ⟨x, hx, y, hy, hne⟩ := hcontested
    obtain ⟨p, hp, hpp, hpo, rfl⟩ := (hmem x).mp hx
    obtain ⟨q, hq, hqp, hqo, rfl⟩ := (hmem y).mp hy
    exact ⟨p, hp, q, hq, hpp, hpo, hqp, hqo, hne⟩
  · intro ⟨p, hp, q, hq, hpp, hpo, hqp, hqo, hne⟩
    have hp' := (hmem p.substitution).mpr ⟨p, hp, hpp, hpo, rfl⟩
    have hq' := (hmem q.substitution).mpr ⟨q, hq, hqp, hqo, rfl⟩
    let s : Site := ⟨path, offset, groups.substitutionsAt path offset⟩
    have hsite : s ∈ groups.sites := h.mem_sites.mpr ⟨(h.mem_offsets path offset).mpr ⟨p, hp, hpp, hpo⟩, rfl⟩
    have hcontested : s.isContested = true :=
      (Site.isContested_iff (h.substitutions_nodup path offset)).mpr ⟨_, hp', _, hq', hne⟩
    exact ⟨s, List.mem_filter.mpr ⟨hsite, hcontested⟩, rfl, rfl⟩

/-- No site is contested just when the proposals agree. -/
theorem uncontested_iff (h : Hold groups proposals) :
    groups.sites.filter Site.isContested = [] ↔ Agreeing proposals := by
  rw [agreeing_iff, List.eq_nil_iff_forall_not_mem]
  simp only [← h.contested_iff]
  constructor
  · rintro hfree path offset ⟨s, hs, -⟩
    exact hfree s hs
  · intro hfree s hs
    exact hfree s.path s.offset ⟨s, hs, rfl, rfl⟩

theorem mem_edits (h : Hold groups proposals) {path : String} {e : Edit} :
    e ∈ (sitesOf path (groups.offsetsAt path)).flatMap Site.edits ↔
      ∃ p ∈ proposals, p.path = path ∧ p.edit = e := by
  rw [List.mem_flatMap]
  constructor
  · intro ⟨s, hs, he⟩
    obtain ⟨hpath, ho, hsubs⟩ := h.mem_sitesOf_offsetsAt.mp hs
    obtain ⟨x, hx, hxe⟩ := List.mem_map.mp he
    rw [hsubs, h.mem_substitutions] at hx
    obtain ⟨p, hp, hpp, hpo, hps⟩ := hx
    refine ⟨p, hp, hpp, ?_⟩
    rw [← hxe, ← hps, ← hpo]
    rfl
  · intro ⟨p, hp, hpath, he⟩
    have ho := (h.mem_offsets path p.offset).mpr ⟨p, hp, hpath, rfl⟩
    have hx := (h.mem_substitutions path p.offset p.substitution).mpr ⟨p, hp, hpath, rfl, rfl⟩
    have hs := h.mem_sitesOf_offsetsAt.mpr
      (⟨rfl, ho, rfl⟩ : (⟨path, p.offset, groups.substitutionsAt path p.offset⟩ : Site).path = path ∧ _)
    exact ⟨_, hs, List.mem_map.mpr ⟨_, hx, he⟩⟩

theorem edits_ascending (h : Hold groups proposals) (agreeing : Agreeing proposals) (path : String) :
    ((sitesOf path (groups.offsetsAt path)).flatMap Site.edits).Pairwise fun a b => a.offset < b.offset := by
  have hsites := sitesOf_ascending path (h.offsets_nodup path)
  have hfree := List.filter_eq_nil_iff.mp (h.uncontested_iff.mpr agreeing)
  rw [List.pairwise_flatMap]
  constructor
  · intro s hs
    have hone : ¬ s.isContested = true := by
      obtain ⟨hpath, hrest⟩ := h.mem_sitesOf_offsetsAt.mp hs
      subst hpath
      exact hfree s (h.mem_sites.mpr hrest)
    match hl : s.substitutions with
    | [] => simp [Site.edits, hl]
    | [x] => simp [Site.edits, hl]
    | x :: y :: rest => simp [Site.isContested, hl] at hone
  · apply hsites.imp
    intro s t hst a ha b hb
    obtain ⟨x, -, hx⟩ := List.mem_map.mp ha
    obtain ⟨y, -, hy⟩ := List.mem_map.mp hb
    rw [← hx, ← hy]
    dsimp only
    omega

theorem represents (h : Hold groups proposals) (agreeing : Agreeing proposals) :
    Plan.Represents groups.plan proposals := by
  have hkeys : Table.keys groups.plan = Table.keys groups := by
    simp [Table.keys, plan, List.map_map, Function.comp_def]
  have hget : ∀ path edits, Table.get? groups.plan path = some edits →
      edits = (sitesOf path (groups.offsetsAt path)).flatMap Site.edits := by
    intro path edits he
    rw [get?_plan] at he
    obtain ⟨offsets, ho, hm⟩ := Option.map_eq_some_iff.mp he
    simp [offsetsAt, ho, ← hm]
  constructor
  · exact hkeys ▸ h.paths_nodup
  · intro path
    rw [hkeys, h.mem_paths]
  · intro path edits he e
    rw [hget path edits he, h.mem_edits]
  · intro path edits he
    rw [hget path edits he]
    exact h.edits_ascending agreeing path

end Hold
end Groups

theorem conflictsAt_eq_nil_iff (fs : Files) {sites : List Site} :
    conflictsAt fs sites = ([], none) ↔ sites = [] := by
  cases sites with
  | nil => simp [conflictsAt]
  | cons s rest =>
    simp only [conflictsAt, reduceCtorEq, iff_false]
    split <;> simp

/-- Merging succeeds just when the proposals agree. -/
theorem agree_eq_ok_iff {fs : Files} {proposals : List Proposal} {plan : Plan} :
    (agree fs proposals).outcome = .ok plan ↔
      Agreeing proposals ∧ plan = (Groups.ofProposals proposals).plan := by
  rw [← (Groups.hold_ofProposals proposals).uncontested_iff, ← conflictsAt_eq_nil_iff fs]
  unfold agree
  dsimp only
  generalize conflictsAt fs ((Groups.ofProposals proposals).sites.filter Site.isContested) = r
  obtain ⟨conflicts, fault⟩ := r
  cases fault with
  | some f => simp
  | none =>
    cases conflicts with
    | nil => simp [eq_comm]
    | cons c rest => simp

theorem represents_of_agree {fs : Files} {proposals : List Proposal} {plan : Plan}
    (h : (agree fs proposals).outcome = .ok plan) : plan.Represents proposals := by
  obtain ⟨hagree, hplan⟩ := agree_eq_ok_iff.mp h
  exact hplan ▸ (Groups.hold_ofProposals proposals).represents hagree

/-- A plan has an edit for every path that it names. -/
theorem Plan.Represents.edits_ne_nil {plan : Plan} {proposals : List Proposal} (h : plan.Represents proposals)
    {path : String} {edits : List Edit} (he : (path, edits) ∈ plan) : edits ≠ [] := by
  obtain ⟨p, hp, hpath⟩ := (h.mem_paths path).mp (List.mem_map.mpr ⟨_, he, rfl⟩)
  have hedit := (h.mem_edits path edits (Table.get?_of_mem h.paths_nodup he) p.edit).mpr ⟨p, hp, hpath, rfl⟩
  exact List.ne_nil_of_mem hedit

/-- Lists in a strict order are determined by what is in them. -/
theorem eq_of_strict {α : Type} {R : α → α → Prop} (irrefl : ∀ a, ¬ R a a)
    (trans : ∀ a b c, R a b → R b c → R a c) {xs ys : List α} (hx : xs.Pairwise R) (hy : ys.Pairwise R)
    (h : ∀ a, a ∈ xs ↔ a ∈ ys) : xs = ys := by
  have hne : ∀ {a b : α}, R a b → a ≠ b := by
    rintro a _ hab rfl
    exact irrefl a hab
  have hnx : xs.Nodup := hx.imp hne
  have hny : ys.Nodup := hy.imp hne
  have hperm := (List.perm_ext_iff_of_nodup hnx hny).mpr h
  apply hperm.eq_of_pairwise _ hx hy
  intro a b _ _ hab hba
  exact absurd (trans a b a hab hba) (irrefl a)

theorem eq_of_ascending {xs ys : List Edit} (hx : xs.Pairwise fun a b => a.offset < b.offset)
    (hy : ys.Pairwise fun a b => a.offset < b.offset) (h : ∀ e, e ∈ xs ↔ e ∈ ys) : xs = ys := by
  apply eq_of_strict _ _ hx hy h
  · intro a
    omega
  · intro a b c hab hbc
    omega

/-- Plans of the same proposals, in whatever order and however often, say the same of every file. -/
theorem Plan.Represents.get?_eq {plan plan' : Plan} {proposals proposals' : List Proposal}
    (h : plan.Represents proposals) (h' : plan'.Represents proposals')
    (same : ∀ p, p ∈ proposals ↔ p ∈ proposals') (path : String) :
    Table.get? plan path = Table.get? plan' path := by
  have hkeys : path ∈ Table.keys plan ↔ path ∈ Table.keys plan' := by
    simp only [h.mem_paths, h'.mem_paths, same]
  cases hp : Table.get? plan path with
  | none => exact (Table.get?_eq_none_iff.mpr (mt hkeys.mpr (Table.get?_eq_none_iff.mp hp))).symm
  | some edits =>
    cases hp' : Table.get? plan' path with
    | none =>
      have hn := mt hkeys.mp (Table.get?_eq_none_iff.mp hp')
      rw [Table.get?_eq_none_iff.mpr hn] at hp
      simp at hp
    | some edits' =>
      have he : edits = edits' := by
        apply eq_of_ascending (h.ascending path edits hp) (h'.ascending path edits' hp')
        intro e
        simp only [h.mem_edits path edits hp, h'.mem_edits path edits' hp', same]
      rw [he]

end ThreadLocal
