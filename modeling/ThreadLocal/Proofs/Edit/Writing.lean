import ThreadLocal.Proofs.Edit.Failures
import ThreadLocal.Proofs.Files.Shape

/-!
Writing a plan to files of their own, on a disk where each file has its own fate: each entry comes to what it comes to
when it is the only one, and nothing else changes. If every entry can be carried out, every file ends with what its
fate leaves of its own edits.
-/

namespace ThreadLocal

/-- What becomes of the file at a location, given its content and the one to be written: the content that it
is left with, and the refusal that kept the other one from being written, if there was one. -/
abbrev Fate := Location → Bytes → Bytes → Bytes × Option SystemFault

namespace Fate

/-- Every file takes whatever is written. -/
def sound : Fate := fun _ _ written => (written, none)

/-- The disk on which the files have this fate, whatever else was written before. -/
def disk (fate : Fate) : Disk := fun fs l written =>
  match fs.entryAt? l with
  | some (.file content) => (fs.put l (.file (fate l content written).1), (fate l content written).2)
  | _ => Disk.sound fs l written

theorem disk_sound : disk sound = Disk.sound := by
  funext fs l written
  unfold disk
  split
  next => rfl
  next => rfl

end Fate

/-- The path opens the file at `l`, whose content becomes `written` by the edits. -/
structure Files.Rewrites (fs : Files) (path : String) (edits : List Edit) (l : Location)
    (content written : Bytes) : Prop where
  opens : fs.openFile path = .ok (l, content)
  patched : patch content (Edit.sort edits) = .ok written

namespace Files.Rewrites

variable {fs gs : Files} {path : String} {edits : List Edit} {l : Location} {content written : Bytes}

theorem locate_eq (h : fs.Rewrites path edits l content written) : fs.locate path = .ok l :=
  (openFile_eq_ok_iff.mp h.opens).1

theorem entry_eq (h : fs.Rewrites path edits l content written) : fs.entryAt? l = some (.file content) :=
  (openFile_eq_ok_iff.mp h.opens).2

theorem openFile_put (h : fs.Rewrites path edits l content written) (left : Bytes) :
    (fs.put l (.file left)).openFile path = .ok (l, left) := by
  refine openFile_eq_ok_iff.mpr ⟨?_, ?_⟩
  · exact ((sameShape_put h.entry_eq left).locate_eq path).trans h.locate_eq
  · rw [put_entryAt? h.entry_eq, if_pos rfl]

theorem patchFile_eq (h : fs.Rewrites path edits l content written) (fate : Fate) :
    fs.patchFile fate.disk path edits =
      (fs.put l (.file (fate l content written).1), (fate l content written).2.map .disk) := by
  simp [patchFile, h.opens, h.patched, Fate.disk, h.entry_eq]

end Files.Rewrites

/-- Why the file at a path cannot be rewritten: it cannot be read, or its edits do not fit. -/
inductive Files.Refuses (fs : Files) (path : String) (edits : List Edit) : WriteFault → Prop where
  | unreadable {fault : AccessFault} (opens : fs.openFile path = .error fault) : Refuses fs path edits (.access fault)
  | unfit {l : Location} {content : Bytes} {fault : PatchFault} (opens : fs.openFile path = .ok (l, content))
    (refused : patch content (Edit.sort edits) = .error fault) : Refuses fs path edits (.patch fault)

namespace Files.Refuses

variable {fs gs : Files} {path : String} {edits : List Edit} {fault : WriteFault}

/-- Nothing happens to a file that cannot be rewritten, and the disk is not asked. -/
theorem patchFile_eq (h : fs.Refuses path edits fault) (disk : Disk) :
    fs.patchFile disk path edits = (fs, some fault) := by
  cases h with
  | unreadable opens => simp [patchFile, opens]
  | unfit opens refused => simp [patchFile, opens, refused]

theorem of_openFile (h : fs.Refuses path edits fault) (same : gs.openFile path = fs.openFile path) :
    gs.Refuses path edits fault := by
  cases h with
  | unreadable opens => exact .unreadable (same.trans opens)
  | unfit opens refused => exact .unfit (same.trans opens) refused

theorem ne_disk (h : fs.Refuses path edits fault) (f : SystemFault) : fault ≠ .disk f := by
  cases h <;> simp

end Files.Refuses

section

variable {fs gs : Files} {path : String}

theorem Files.rewrites_or_refuses (fs : Files) (path : String) (edits : List Edit) :
    (∃ l content written, fs.Rewrites path edits l content written) ∨ ∃ fault, fs.Refuses path edits fault := by
  cases ho : fs.openFile path with
  | error f => exact .inr ⟨.access f, .unreadable ho⟩
  | ok place =>
    obtain ⟨l, content⟩ := place
    cases hp : patch content (Edit.sort edits) with
    | error f => exact .inr ⟨.patch f, .unfit ho hp⟩
    | ok written => exact .inl ⟨l, content, written, ho, hp⟩

/-- Patching a file changes nothing but what it holds, whatever its fate. -/
theorem Files.patchFile_sameShape (fs : Files) (fate : Fate) (path : String) (edits : List Edit) :
    SameShape fs (fs.patchFile fate.disk path edits).1 := by
  rcases fs.rewrites_or_refuses path edits with ⟨l, content, written, h⟩ | ⟨fault, h⟩
  · rw [h.patchFile_eq]
    exact sameShape_put h.entry_eq _
  · rw [h.patchFile_eq]
    exact .refl fs

/-- Patching leaves whatever the path does not open as it was. -/
theorem Files.patchFile_entryAt? {l : Location} (fate : Fate) (edits : List Edit)
    (hne : fs.target? path ≠ some l) : (fs.patchFile fate.disk path edits).1.entryAt? l = fs.entryAt? l := by
  rcases fs.rewrites_or_refuses path edits with ⟨l', content, written, h⟩ | ⟨fault, h⟩
  · have hl : l' ≠ l := by
      rintro rfl
      exact hne (target?_eq_some_iff.mpr ⟨content, h.opens⟩)
    rw [h.patchFile_eq, put_entryAt? h.entry_eq, if_neg hl]
  · rw [h.patchFile_eq]

/-- Patching depends on what the path opens, and on nothing else. -/
theorem Files.patchFile_congr (fate : Fate) (edits : List Edit) (same : gs.openFile path = fs.openFile path) :
    (gs.patchFile fate.disk path edits).1.openFile path = (fs.patchFile fate.disk path edits).1.openFile path ∧
      (gs.patchFile fate.disk path edits).2 = (fs.patchFile fate.disk path edits).2 := by
  rcases fs.rewrites_or_refuses path edits with ⟨l, content, written, hf⟩ | ⟨fault, hf⟩
  · have hg : gs.Rewrites path edits l content written := ⟨same.trans hf.opens, hf.patched⟩
    simp only [hf.patchFile_eq, hg.patchFile_eq, hf.openFile_put, hg.openFile_put, and_self]
  · rw [hf.patchFile_eq, (hf.of_openFile same).patchFile_eq]
    exact ⟨same, rfl⟩

end

/-- The paths are not the same and do not open the same file. -/
structure Files.Foreign (fs : Files) (path other : String) : Prop where
  ne : path ≠ other
  apart : ∀ l, fs.target? path = some l → fs.target? other ≠ some l

namespace Files.Foreign

variable {fs gs : Files} {path other : String}

theorem symm (h : fs.Foreign path other) : fs.Foreign other path where
  ne := Ne.symm h.ne
  apart := fun l hl hl' => h.apart l hl' hl

theorem of_sameShape (h : fs.Foreign path other) (same : SameShape fs gs) : gs.Foreign path other where
  ne := h.ne
  apart := by
    intro l
    rw [same.target?_eq, same.target?_eq]
    exact h.apart l

end Files.Foreign

instance (fs : Files) : Std.Symm fs.Foreign :=
  ⟨fun _ _ => Files.Foreign.symm⟩

instance (fs : Files) (path other : String) : Decidable (fs.Foreign path other) :=
  decidable_of_iff (path ≠ other ∧ (fs.target? path = none ∨ fs.target? path ≠ fs.target? other)) <| by
    constructor
    · rintro ⟨hne, hapart⟩
      refine ⟨hne, fun l hl hl' => ?_⟩
      rcases hapart with hnone | hneq
      · exact absurd (hnone.symm.trans hl) (by simp)
      · exact hneq (hl.trans hl'.symm)
    · rintro ⟨hne, hapart⟩
      refine ⟨hne, ?_⟩
      cases ht : fs.target? path with
      | none => exact .inl rfl
      | some l => exact .inr fun heq => hapart l ht heq.symm

/-- No key comes twice, and no two keys open the same file. -/
def Plan.Separate (plan : Plan) (fs : Files) : Prop :=
  (Table.keys plan).Pairwise fs.Foreign

namespace Writing

variable {fate : Fate} {r r' r'' : Writing} {path : String}

theorem write_sameShape (path : String) (edits : List Edit) :
    Files.SameShape r.files (r.write fate.disk path edits).files := by
  have hpatch := r.files.patchFile_sameShape fate path edits
  unfold write
  split
  next => exact .refl r.files
  next =>
    split
    next hp =>
      rw [hp] at hpatch
      exact hpatch
    next hp =>
      rw [hp] at hpatch
      split <;> exact hpatch

theorem foldl_sameShape (plan : Plan) :
    Files.SameShape r.files (plan.foldl (fun r e => r.write fate.disk e.1 e.2) r).files := by
  induction plan generalizing r with
  | nil => exact .refl r.files
  | cons e rest ih => exact (write_sameShape e.1 e.2).trans ih

theorem write_entryAt? {l : Location} (go : r.escaped = none) (hne : r.files.target? path ≠ some l)
    (edits : List Edit) : (r.write fate.disk path edits).files.entryAt? l = r.files.entryAt? l := by
  by_cases hnil : edits = []
  · rw [hnil, write_nil]
  · rw [write_files go hnil]
    exact Files.patchFile_entryAt? fate edits hne

/-- What no path of the plan opens stays as it was. -/
theorem foldl_entryAt? {plan : Plan} {l : Location} (go : r.escaped = none)
    (hne : ∀ e ∈ plan, r.files.target? e.1 ≠ some l) :
    (plan.foldl (fun r e => r.write fate.disk e.1 e.2) r).files.entryAt? l = r.files.entryAt? l := by
  induction plan generalizing r with
  | nil => rfl
  | cons e rest ih =>
    obtain ⟨hfirst, hrest⟩ := List.forall_mem_cons.mp hne
    have hsame := @write_sameShape fate r e.1 e.2
    refine (ih (write_escaped go) ?_).trans (write_entryAt? go hfirst e.2)
    intro e' he'
    rw [hsame.target?_eq]
    exact hrest e' he'

/-- A path opens the same, and has failed in the same way or not at all. -/
structure AgreesAt (path : String) (r r' : Writing) : Prop where
  opens : r.files.openFile path = r'.files.openFile path
  failure : Table.get? r.failures path = Table.get? r'.failures path

namespace AgreesAt

theorem symm (h : r.AgreesAt path r') : r'.AgreesAt path r :=
  ⟨h.opens.symm, h.failure.symm⟩

theorem trans (h : r.AgreesAt path r') (h' : r'.AgreesAt path r'') : r.AgreesAt path r'' :=
  ⟨h.opens.trans h'.opens, h.failure.trans h'.failure⟩

theorem write (h : r.AgreesAt path r') (go : r.escaped = none) (go' : r'.escaped = none) (edits : List Edit) :
    (r.write fate.disk path edits).AgreesAt path (r'.write fate.disk path edits) := by
  by_cases hnil : edits = []
  · rw [hnil, write_nil, write_nil]
    exact h
  obtain ⟨hopen, hfault⟩ := Files.patchFile_congr fate edits h.opens
  constructor
  · rw [write_files go hnil, write_files go' hnil, hopen]
  · rw [write_failures go hnil, write_failures go' hnil, hfault, h.failure]

end AgreesAt

/-- Writing other files touches neither what a path opens nor its failure. -/
theorem foldl_agreesAt_of_foreign {plan : Plan} (go : r.escaped = none)
    (foreign : ∀ e ∈ plan, r.files.Foreign e.1 path) :
    (plan.foldl (fun r e => r.write fate.disk e.1 e.2) r).AgreesAt path r where
  opens := by
    apply (foldl_sameShape plan).openFile_eq_of_kept
    intro l hl
    exact foldl_entryAt? go fun e he htarget => (foreign e he).apart l htarget hl
  failure := by
    apply foldl_failures_other
    intro hm
    obtain ⟨e, he, hpath⟩ := List.mem_map.mp hm
    exact (foreign e he).ne hpath

/-- Each entry comes to what it comes to when it is the only one. -/
theorem foldl_agreesAt {plan : Plan} {edits : List Edit} (go : r.escaped = none) (separate : plan.Separate r.files)
    (he : (path, edits) ∈ plan) :
    (plan.foldl (fun r e => r.write fate.disk e.1 e.2) r).AgreesAt path (r.write fate.disk path edits) := by
  obtain ⟨before, after, rfl⟩ := List.append_of_mem he
  rw [Plan.Separate, Table.keys, List.map_append, List.map_cons] at separate
  obtain ⟨-, hrest, hbefore⟩ := List.pairwise_append.mp separate
  have hafter := (List.pairwise_cons.mp hrest).1
  have hgo := @foldl_escaped fate.disk r go before
  have hsame := (@foldl_sameShape fate r before).trans (@write_sameShape fate _ path edits)
  rw [List.foldl_append, List.foldl_cons]
  -- what comes before leaves this entry as it found it, and what comes after leaves what it made
  have hearlier := @foldl_agreesAt_of_foreign fate r path before go fun e hm =>
    hbefore _ (List.mem_map_of_mem hm) _ List.mem_cons_self
  have hlater := @foldl_agreesAt_of_foreign fate _ path after (@write_escaped fate.disk _ path edits hgo)
    fun e hm => (hafter _ (List.mem_map_of_mem hm)).symm.of_sameShape hsame
  exact hlater.trans (hearlier.write hgo go edits)

/-- Every entry of the plan can be carried out on the files as they are, and no two of them open the same
file. -/
structure Feasible (fs : Files) (plan : Plan) : Prop where
  fits : ∀ e ∈ plan, ∃ l content written, fs.Rewrites e.1 e.2 l content written
  apart : plan.Pairwise fun a b => fs.locate a.1 ≠ fs.locate b.1
  wanted : ∀ e ∈ plan, e.2 ≠ []

theorem Feasible.separate {fs : Files} {plan : Plan} (h : Feasible fs plan) : plan.Separate fs := by
  apply List.pairwise_map.mpr
  apply h.apart.imp
  intro a b hne
  constructor
  · exact fun hpath => hne (by rw [hpath])
  · intro l ha hb
    obtain ⟨content, ha⟩ := Files.target?_eq_some_iff.mp ha
    obtain ⟨content', hb⟩ := Files.target?_eq_some_iff.mp hb
    exact hne ((Files.openFile_eq_ok_iff.mp ha).1.trans (Files.openFile_eq_ok_iff.mp hb).1.symm)

/-- What writing a feasible plan leaves in the files, and which failures it records. -/
theorem foldl_write {plan : Plan} (go : r.escaped = none) (h : Feasible r.files plan)
    (fresh : ∀ path ∈ Table.keys plan, Table.get? r.failures path = none) :
    let w := plan.foldl (fun r e => r.write fate.disk e.1 e.2) r
    (∀ e ∈ plan, ∀ l content written, r.files.Rewrites e.1 e.2 l content written →
      w.files.entryAt? l = some (.file (fate l content written).1) ∧
        Table.get? w.failures e.1 = (fate l content written).2.map .disk) ∧
      ∀ l, (∀ e ∈ plan, r.files.locate e.1 ≠ .ok l) → w.files.entryAt? l = r.files.entryAt? l := by
  refine ⟨?_, ?_⟩
  · intro e he l content written hr
    have hwanted := h.wanted e he
    obtain ⟨hopen, hfailure⟩ := @foldl_agreesAt fate r e.1 plan e.2 go h.separate he
    rw [write_files go hwanted, hr.patchFile_eq, hr.openFile_put] at hopen
    rw [write_failures_self go hwanted (fresh _ (List.mem_map_of_mem he)), hr.patchFile_eq] at hfailure
    exact ⟨(Files.openFile_eq_ok_iff.mp hopen).2, hfailure⟩
  · intro l hnone
    apply foldl_entryAt? go
    intro e he htarget
    obtain ⟨content, hopen⟩ := Files.target?_eq_some_iff.mp htarget
    exact hnone e he (Files.openFile_eq_ok_iff.mp hopen).1

end Writing

/-- Writing a plan changes nothing but what files hold. -/
theorem writePlan_sameShape (fs : Files) (failures : Failures) (plan : Plan) (fate : Fate) :
    Files.SameShape fs (writePlan fs failures plan fate.disk).files :=
  @Writing.foldl_sameShape fate ⟨fs, failures, [], none⟩ plan

end ThreadLocal
