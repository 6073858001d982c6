import ThreadLocal.Analysis
import ThreadLocal.Proofs.Edit.Agreement
import ThreadLocal.Proofs.Edit.Insertion
import ThreadLocal.Proofs.Edit.Writing

/-!
Proposals that only ask for the keyword, each at a place inside a file that is there. They never contradict
one another, and their plan is written without a failure.
-/

namespace ThreadLocal

/-- The same entry; a file gets another content. -/
def Entry.mapContent (f : Bytes → Bytes) : Entry → Entry
  | .file content => .file (f content)
  | e => e

/-- The offsets proposed for the file at a path. -/
def offsetsFor (proposals : List Proposal) (path : String) : List Nat :=
  (proposals.filter fun p => p.path = path).map Proposal.offset

/-- A proposal for the keyword at a place inside the file at its path. -/
structure Proposal.Grounded (p : Proposal) (fs : Files) : Prop where
  length_eq : p.length = 0
  text_eq : p.text = threadKeyword
  inside : ∃ l content, p.path = l.text ∧ fs.entryAt? l = some (.file content) ∧ p.offset ≤ content.length

variable {fs : Files} {proposals : List Proposal} {plan : Plan}

theorem mem_offsetsFor {path : String} {n : Nat} :
    n ∈ offsetsFor proposals path ↔ ∃ p ∈ proposals, p.path = path ∧ p.offset = n := by
  simp [offsetsFor, and_assoc]

theorem offsetsFor_eq_nil_iff {path : String} : offsetsFor proposals path = [] ↔ ∀ p ∈ proposals, p.path ≠ path := by
  simp [offsetsFor]

theorem agreeing_of_grounded (grounded : ∀ p ∈ proposals, p.Grounded fs) : Agreeing proposals := by
  intro p hp q hq _ _
  simp [Proposal.substitution, (grounded p hp).length_eq, (grounded q hq).length_eq, (grounded p hp).text_eq,
    (grounded q hq).text_eq]

namespace Plan.Represents

theorem insertions (h : plan.Represents proposals) (grounded : ∀ p ∈ proposals, p.Grounded fs)
    (tree : fs.IsTree) {l : Location} {edits : List Edit} {content : Bytes}
    (planned : Table.get? plan l.text = some edits) (there : fs.entryAt? l = some (.file content)) :
    Insertions threadKeyword content.length edits := by
  have hproposed : ∀ e ∈ edits, ∃ p ∈ proposals, p.path = l.text ∧ p.edit = e := fun e he =>
    (h.mem_edits l.text edits planned e).mp he
  refine ⟨h.ascending l.text edits planned, ?_, ?_, ?_, ?_⟩
  · intro e he
    obtain ⟨p, hp, -, hpe⟩ := hproposed e he
    simp [← hpe, Proposal.edit, (grounded p hp).length_eq]
  · intro e he
    obtain ⟨p, hp, -, hpe⟩ := hproposed e he
    simp [← hpe, Proposal.edit, (grounded p hp).text_eq]
  · intro e he
    obtain ⟨p, -, -, hpe⟩ := hproposed e he
    simp [← hpe, Proposal.edit]
  · intro e he
    obtain ⟨p, hp, hpath, hpe⟩ := hproposed e he
    obtain ⟨l', content', hl', he', hle⟩ := (grounded p hp).inside
    -- both locations have the text of the proposal's path, and a text opens one file only
    have hopen := Files.openFile_text tree he'
    rw [← hl', hpath, Files.openFile_text tree there] at hopen
    obtain ⟨-, rfl⟩ := Prod.mk.inj (Except.ok.inj hopen)
    rw [← hpe]
    exact Int.ofNat_le.mpr hle

theorem mem_marks (h : plan.Represents proposals) {path : String} {edits : List Edit}
    (planned : Table.get? plan path = some edits) (n : Nat) :
    n ∈ edits.map (fun e => e.offset.toNat) ↔ n ∈ offsetsFor proposals path := by
  rw [mem_offsetsFor, List.mem_map]
  constructor
  · intro ⟨e, he, hn⟩
    obtain ⟨p, hp, hpath, hpe⟩ := (h.mem_edits path edits planned e).mp he
    refine ⟨p, hp, hpath, ?_⟩
    rw [← hn, ← hpe]
    simp [Proposal.edit]
  · intro ⟨p, hp, hpath, hn⟩
    refine ⟨p.edit, (h.mem_edits path edits planned _).mpr ⟨p, hp, hpath, rfl⟩, ?_⟩
    simp [Proposal.edit, hn]

/-- What is planned for a file puts the keyword in at every offset proposed for it. -/
theorem rewrites (h : plan.Represents proposals) (grounded : ∀ p ∈ proposals, p.Grounded fs)
    (tree : fs.IsTree) {l : Location} {edits : List Edit} {content : Bytes}
    (planned : Table.get? plan l.text = some edits) (there : fs.entryAt? l = some (.file content)) :
    fs.Rewrites l.text edits l content
      (inserted (Bytes.ofText threadKeyword) (offsetsFor proposals l.text) content) := by
  refine ⟨Files.openFile_text tree there, ?_⟩
  rw [(h.insertions grounded tree planned there).patch_eq, inserted_congr (h.mem_marks planned)]

/-- Every path of the plan is the text of a file's location. -/
theorem exists_location (h : plan.Represents proposals) (grounded : ∀ p ∈ proposals, p.Grounded fs)
    {e : String × List Edit} (he : e ∈ plan) :
    ∃ l content, e.1 = l.text ∧ fs.entryAt? l = some (.file content) ∧ Table.get? plan l.text = some e.2 := by
  have hkey : e.1 ∈ Table.keys plan := List.mem_map.mpr ⟨e, he, rfl⟩
  obtain ⟨p, hp, hpath⟩ := (h.mem_paths e.1).mp hkey
  obtain ⟨l, content, hl, hentry, -⟩ := (grounded p hp).inside
  have htext : e.1 = l.text := hpath.symm.trans hl
  exact ⟨l, content, htext, hentry, htext ▸ Table.get?_of_mem h.paths_nodup he⟩

theorem feasible (h : plan.Represents proposals) (grounded : ∀ p ∈ proposals, p.Grounded fs)
    (tree : fs.IsTree) : Writing.Feasible fs plan where
  fits := by
    intro e he
    obtain ⟨l, content, htext, hentry, hget⟩ := h.exists_location grounded he
    exact ⟨l, content, _, htext ▸ h.rewrites grounded tree hget hentry⟩
  apart := by
    have hne : plan.Pairwise fun a b => a.1 ≠ b.1 := List.pairwise_map.mp h.paths_nodup
    apply hne.imp_of_mem
    intro a b ha hb hab hloc
    obtain ⟨l, content, htext, hentry, -⟩ := h.exists_location grounded ha
    obtain ⟨l', content', htext', hentry', -⟩ := h.exists_location grounded hb
    have hl := (Files.openFile_eq_ok_iff.mp (Files.openFile_text tree hentry)).1
    have hl' := (Files.openFile_eq_ok_iff.mp (Files.openFile_text tree hentry')).1
    rw [htext, htext', hl, hl'] at hloc
    rw [htext, htext', Except.ok.inj hloc] at hab
    exact hab rfl
  wanted := fun _ he => h.edits_ne_nil he

end Plan.Represents

/-- The content of the file at a location with the keyword put in at every offset proposed for it. -/
def Files.marked (proposals : List Proposal) (l : Location) (content : Bytes) : Bytes :=
  inserted (Bytes.ofText threadKeyword) (offsetsFor proposals l.text) content

/-- What the file at a location is left with; one for which nothing is proposed is not written. -/
def Fate.left (fate : Fate) (proposals : List Proposal) (l : Location) (content : Bytes) : Bytes :=
  if offsetsFor proposals l.text = [] then content else (fate l content (Files.marked proposals l content)).1

/-- What a plan of grounded proposals leaves in the files, and which failures are recorded. -/
structure Writing.Leaves (w : Writing) (fs : Files) (fate : Fate) (proposals : List Proposal) : Prop where
  entries : ∀ l, w.files.entryAt? l = (fs.entryAt? l).map (Entry.mapContent (fate.left proposals l))
  refused : ∀ l content, fs.entryAt? l = some (.file content) → offsetsFor proposals l.text ≠ [] →
    Table.get? w.failures l.text = (fate l content (Files.marked proposals l content)).2.map .disk
  silent : ∀ path, (∀ p ∈ proposals, p.path ≠ path) → Table.get? w.failures path = none

theorem Fate.left_of_nil (fate : Fate) {l : Location} (hoff : offsetsFor proposals l.text = []) (content : Bytes) :
    fate.left proposals l content = content := by
  rw [left, if_pos hoff]

namespace Plan.Represents

/-- A file for which something is proposed has its own entry in the plan. -/
theorem exists_planned (h : plan.Represents proposals) {path : String} (hoff : offsetsFor proposals path ≠ []) :
    ∃ edits, (path, edits) ∈ plan := by
  obtain ⟨p, hp, hpath⟩ : ∃ p ∈ proposals, p.path = path := by
    by_contra hnone
    exact hoff (offsetsFor_eq_nil_iff.mpr fun p hp hpath => hnone ⟨p, hp, hpath⟩)
  obtain ⟨e, he, hkey⟩ := List.mem_map.mp ((h.mem_paths path).mpr ⟨p, hp, hpath⟩)
  exact ⟨e.2, hkey ▸ he⟩

/-- A file for which something is proposed is written, and its refusal recorded if there is one. -/
theorem writePlan_proposed (h : plan.Represents proposals) (grounded : ∀ p ∈ proposals, p.Grounded fs)
    (tree : fs.IsTree) (fate : Fate) {l : Location} {content : Bytes} (there : fs.entryAt? l = some (.file content))
    (hoff : offsetsFor proposals l.text ≠ []) :
    (writePlan fs [] plan fate.disk).files.entryAt? l =
        some (.file (fate l content (Files.marked proposals l content)).1) ∧
      Table.get? (writePlan fs [] plan fate.disk).failures l.text =
        (fate l content (Files.marked proposals l content)).2.map .disk := by
  obtain ⟨edits, he⟩ := h.exists_planned hoff
  obtain ⟨hdone, -⟩ := @Writing.foldl_write fate ⟨fs, [], [], none⟩ plan rfl (h.feasible grounded tree)
    (fun _ _ => rfl)
  exact hdone _ he l content _ (h.rewrites grounded tree (Table.get?_of_mem h.paths_nodup he) there)

/-- Where there is no file for which something is proposed, nothing changes. -/
theorem writePlan_other (h : plan.Represents proposals) (grounded : ∀ p ∈ proposals, p.Grounded fs)
    (tree : fs.IsTree) (fate : Fate) {l : Location}
    (hnone : ∀ content, fs.entryAt? l = some (.file content) → offsetsFor proposals l.text = []) :
    (writePlan fs [] plan fate.disk).files.entryAt? l = fs.entryAt? l := by
  obtain ⟨-, hfar⟩ := @Writing.foldl_write fate ⟨fs, [], [], none⟩ plan rfl (h.feasible grounded tree)
    (fun _ _ => rfl)
  apply hfar
  intro e he hloc
  obtain ⟨l', content, htext, hentry, -⟩ := h.exists_location grounded he
  rw [htext, (Files.openFile_eq_ok_iff.mp (Files.openFile_text tree hentry)).1] at hloc
  obtain rfl := Except.ok.inj hloc
  obtain ⟨p, hp, hpath⟩ := (h.mem_paths e.1).mp (List.mem_map.mpr ⟨e, he, rfl⟩)
  exact offsetsFor_eq_nil_iff.mp (hnone content hentry) p hp (hpath.trans htext)

/-- Each file is left with what its fate makes of the keywords put in, and nothing else is written. -/
theorem leaves (h : plan.Represents proposals) (grounded : ∀ p ∈ proposals, p.Grounded fs) (tree : fs.IsTree)
    (fate : Fate) : (writePlan fs [] plan fate.disk).Leaves fs fate proposals where
  entries := by
    intro l
    by_cases hnone : ∀ content, fs.entryAt? l = some (.file content) → offsetsFor proposals l.text = []
    · rw [h.writePlan_other grounded tree fate hnone]
      cases hentry : fs.entryAt? l with
      | none => rfl
      | some entry =>
        cases entry with
        | directory => rfl
        | link target => rfl
        | file content => rw [Option.map_some, Entry.mapContent, fate.left_of_nil (hnone content hentry)]
    · obtain ⟨content, hentry, hoff⟩ : ∃ content, fs.entryAt? l = some (.file content) ∧
          offsetsFor proposals l.text ≠ [] := by
        simpa using hnone
      rw [(h.writePlan_proposed grounded tree fate hentry hoff).1, hentry]
      simp [Entry.mapContent, Fate.left, hoff]
  refused := fun _ _ hentry hoff => (h.writePlan_proposed grounded tree fate hentry hoff).2
  silent := by
    intro path hnone
    apply writePlan_failures_of_not_mem
    intro hm
    obtain ⟨p, hp, hpath⟩ := (h.mem_paths path).mp hm
    exact hnone p hp hpath

end Plan.Represents

section Congruence

variable {proposals' : List Proposal}

theorem marked_congr (same : ∀ p, p ∈ proposals ↔ p ∈ proposals') (l : Location) (content : Bytes) :
    Files.marked proposals l content = Files.marked proposals' l content := by
  apply inserted_congr
  intro n
  simp only [mem_offsetsFor, same]

theorem offsetsFor_eq_nil_congr (same : ∀ p, p ∈ proposals ↔ p ∈ proposals') (path : String) :
    offsetsFor proposals path = [] ↔ offsetsFor proposals' path = [] := by
  simp only [offsetsFor_eq_nil_iff, same]

theorem Fate.left_congr (fate : Fate) (same : ∀ p, p ∈ proposals ↔ p ∈ proposals') (l : Location) :
    fate.left proposals l = fate.left proposals' l := by
  funext content
  simp only [left, offsetsFor_eq_nil_congr same, marked_congr same]

/-- What is left depends on nothing but which proposals there are. -/
theorem Writing.Leaves.congr {w w' : Writing} {fate : Fate} (h : w.Leaves fs fate proposals)
    (h' : w'.Leaves fs fate proposals') (same : ∀ p, p ∈ proposals ↔ p ∈ proposals')
    (grounded : ∀ p ∈ proposals, p.Grounded fs) :
    (∀ path, Table.get? w.failures path = Table.get? w'.failures path) ∧
      ∀ l, w.files.entryAt? l = w'.files.entryAt? l := by
  constructor
  · intro path
    by_cases hnone : ∀ p ∈ proposals, p.path ≠ path
    · rw [h.silent path hnone, h'.silent path fun p hp => hnone p ((same p).mpr hp)]
    · obtain ⟨p, hp, hpath⟩ : ∃ p ∈ proposals, p.path = path := by simpa using hnone
      obtain ⟨l, content, hl, hentry, -⟩ := (grounded p hp).inside
      have hoff : offsetsFor proposals l.text ≠ [] := fun hoff => offsetsFor_eq_nil_iff.mp hoff p hp hl
      have hoff' := mt (offsetsFor_eq_nil_congr same l.text).mpr hoff
      rw [← hpath, hl, h.refused l content hentry hoff, h'.refused l content hentry hoff', marked_congr same]
  · intro l
    rw [h.entries l, h'.entries l, fate.left_congr same]

end Congruence

/-- On a sound disk nothing fails, and every file ends with the keyword put in at every proposed place. -/
theorem Writing.Leaves.of_sound {w : Writing} (h : w.Leaves fs .sound proposals)
    (grounded : ∀ p ∈ proposals, p.Grounded fs) :
    w.failures = [] ∧
      ∀ l, w.files.entryAt? l = (fs.entryAt? l).map (Entry.mapContent (Files.marked proposals l)) := by
  constructor
  · apply Table.eq_nil_of_get?
    intro path
    by_cases hnone : ∀ p ∈ proposals, p.path ≠ path
    · exact h.silent path hnone
    · obtain ⟨p, hp, hpath⟩ : ∃ p ∈ proposals, p.path = path := by simpa using hnone
      obtain ⟨l, content, hl, hentry, -⟩ := (grounded p hp).inside
      have hoff : offsetsFor proposals l.text ≠ [] :=
        fun hoff => offsetsFor_eq_nil_iff.mp hoff p hp hl
      rw [← hpath, hl]
      exact h.refused l content hentry hoff
  · intro l
    have hleft : Fate.left .sound proposals l = Files.marked proposals l := by
      funext content
      unfold Fate.left
      split
      next hoff => rw [Files.marked, hoff, inserted_nil]
      next => rfl
    rw [h.entries l, hleft]

end ThreadLocal
