import Mathlib.Data.List.Basic
import ThreadLocal.Edit.Writer

/-!
What is recorded while a plan is written to a disk that may refuse anything: every fault stays with its file,
so no fault ends the writing.
-/

namespace ThreadLocal

/-- Every kind of fault is taken care of where it arises. -/
theorem WriteFault.kind_mem_contained (f : WriteFault) : f.kind ∈ Writing.contained := by
  cases f.kind <;> simp [Writing.contained]

namespace Writing

variable {disk : Disk} {r : Writing} {path : String} {edits : List Edit}

theorem write_nil (disk : Disk) (r : Writing) (path : String) : r.write disk path [] = r := by
  simp [write]

theorem write_escaped (go : r.escaped = none) : (r.write disk path edits).escaped = none := by
  by_cases hnil : edits = []
  · rw [hnil, write_nil]
    exact go
  simp only [write, go, hnil, Option.isSome_none, Bool.false_eq_true, List.isEmpty_iff, or_self, if_false]
  split
  next => rfl
  next f _ => rw [if_pos f.kind_mem_contained]

theorem write_files (go : r.escaped = none) (hnil : edits ≠ []) :
    (r.write disk path edits).files = (r.files.patchFile disk path edits).1 := by
  simp only [write, go, hnil, Option.isSome_none, Bool.false_eq_true, List.isEmpty_iff, or_self, if_false]
  split
  next hp => rw [hp]
  next f hp => rw [if_pos f.kind_mem_contained, hp]

/-- A fault at a path is that of patching its file, or it was there before. -/
theorem write_failures (go : r.escaped = none) (hnil : edits ≠ []) :
    Table.get? (r.write disk path edits).failures path =
      (r.files.patchFile disk path edits).2.or (Table.get? r.failures path) := by
  simp only [write, go, hnil, Option.isSome_none, Bool.false_eq_true, List.isEmpty_iff, or_self, if_false]
  split
  next hp => rw [hp, Option.none_or]
  next f hp =>
    rw [if_pos f.kind_mem_contained, hp]
    simp [Table.get?_put]

/-- A file that has not failed before fails with the fault of patching it, if there is one. -/
theorem write_failures_self (go : r.escaped = none) (hnil : edits ≠ [])
    (fresh : Table.get? r.failures path = none) :
    Table.get? (r.write disk path edits).failures path = (r.files.patchFile disk path edits).2 := by
  rw [write_failures go hnil, fresh, Option.or_none]

theorem write_failures_other {other : String} (hne : path ≠ other) :
    Table.get? (r.write disk path edits).failures other = Table.get? r.failures other := by
  unfold write
  split
  next => rfl
  next =>
    split
    next => rfl
    next =>
      split
      next => rw [Table.get?_put, if_neg hne]
      next => rfl

theorem foldl_escaped (go : r.escaped = none) (plan : Plan) :
    (plan.foldl (fun r e => r.write disk e.1 e.2) r).escaped = none := by
  induction plan generalizing r with
  | nil => exact go
  | cons e rest ih => exact ih (write_escaped go)

theorem foldl_failures_other {plan : Plan} {other : String} (hnot : other ∉ Table.keys plan) :
    Table.get? (plan.foldl (fun r e => r.write disk e.1 e.2) r).failures other =
      Table.get? r.failures other := by
  induction plan generalizing r with
  | nil => rfl
  | cons e rest ih =>
    simp only [Table.keys, List.map_cons, List.mem_cons, not_or] at hnot
    exact (ih hnot.2).trans (write_failures_other (Ne.symm hnot.1))

/-- The same files, and the same failures at all paths but one. -/
structure AgreesBut (path : String) (r r' : Writing) : Prop where
  files : r.files = r'.files
  failures : ∀ other, other ≠ path → Table.get? r.failures other = Table.get? r'.failures other

namespace AgreesBut

variable {r' : Writing}

theorem write (h : r.AgreesBut path r') (go : r.escaped = none) (go' : r'.escaped = none) (target : String) :
    (r.write disk target edits).AgreesBut path (r'.write disk target edits) := by
  by_cases hnil : edits = []
  · rw [hnil, write_nil, write_nil]
    exact h
  constructor
  · rw [write_files go hnil, write_files go' hnil, h.files]
  · intro other hne
    by_cases htarget : target = other
    · subst htarget
      rw [write_failures go hnil, write_failures go' hnil, h.files, h.failures _ hne]
    · rw [write_failures_other htarget, write_failures_other htarget, h.failures _ hne]

theorem foldl (h : r.AgreesBut path r') (go : r.escaped = none) (go' : r'.escaped = none) (plan : Plan) :
    (plan.foldl (fun r e => r.write disk e.1 e.2) r).AgreesBut path
      (plan.foldl (fun r e => r.write disk e.1 e.2) r') := by
  induction plan generalizing r r' with
  | nil => exact h
  | cons e rest ih => exact ih (h.write go go' e.1) (write_escaped go) (write_escaped go')

end AgreesBut
end Writing

/-- No fault ends the writing of a plan. -/
theorem writePlan_escaped (fs : Files) (failures : Failures) (plan : Plan) (disk : Disk) :
    (writePlan fs failures plan disk).escaped = none :=
  Writing.foldl_escaped rfl plan

/-- In the end a path has the fault that arose when its file was patched, on the files as the entries before
it had left them. -/
theorem writePlan_failures {fs : Files} {disk : Disk} {before after : Plan} {path : String} {edits : List Edit}
    (distinct : (Table.keys (before ++ (path, edits) :: after)).Nodup) (hnil : edits ≠ []) :
    Table.get? (writePlan fs [] (before ++ (path, edits) :: after) disk).failures path =
      ((writePlan fs [] before disk).files.patchFile disk path edits).2 := by
  unfold Table.keys at distinct
  rw [List.map_append, List.map_cons, List.nodup_append] at distinct
  obtain ⟨-, hafter, happart⟩ := distinct
  have hlater : path ∉ Table.keys after := (List.nodup_cons.mp hafter).1
  have hearlier : path ∉ Table.keys before := fun hm => happart path hm path List.mem_cons_self rfl
  have hfresh : Table.get? (writePlan fs [] before disk).failures path = none :=
    Writing.foldl_failures_other hearlier
  unfold writePlan at hfresh ⊢
  rw [List.foldl_append, List.foldl_cons, Writing.foldl_failures_other hlater]
  exact Writing.write_failures_self (Writing.foldl_escaped rfl before) hnil hfresh

/-- An entry that leaves the files as they are makes no difference but for its own failure. -/
theorem writePlan_agreesBut {fs : Files} {disk : Disk} {before : Plan} {path : String} {edits : List Edit}
    (idle : ((writePlan fs [] before disk).files.patchFile disk path edits).1 = (writePlan fs [] before disk).files)
    (hnil : edits ≠ []) (after : Plan) :
    (writePlan fs [] (before ++ (path, edits) :: after) disk).AgreesBut path
      (writePlan fs [] (before ++ after) disk) := by
  have hgo := writePlan_escaped fs [] before disk
  unfold writePlan at idle hgo ⊢
  rw [List.foldl_append, List.foldl_append, List.foldl_cons]
  apply Writing.AgreesBut.foldl _ (Writing.write_escaped hgo) hgo
  exact ⟨(Writing.write_files hgo hnil).trans idle, fun other hne => Writing.write_failures_other (Ne.symm hne)⟩

/-- Paths that are not in the plan keep the failures that they had. -/
theorem writePlan_failures_of_not_mem {fs : Files} {failures : Failures} {disk : Disk} {plan : Plan} {path : String}
    (hnot : path ∉ Table.keys plan) :
    Table.get? (writePlan fs failures plan disk).failures path = Table.get? failures path :=
  Writing.foldl_failures_other hnot

end ThreadLocal
