import ThreadLocal.Proofs.Edit.Overlap
import ThreadLocal.Proofs.Run.Commit
import ThreadLocal.Proofs.Work.Messages

/-!
Proposals that overlap do not keep a run from writing: they cost it the file for which they are made.
-/

namespace ThreadLocal

/-- When merging succeeds, the edits planned for a file ascend strictly, and none begins before the end of an earlier
one unless two of its proposals overlap. If they do, this file fails, whatever the disk does, and costs nothing else: a
run that collects these proposals returns, and all the rest is as if the file were not in the plan. -/
theorem overlap_costs_its_own_file {fs : Files} {proposals : List Proposal} {plan before after : Plan} {path : String}
    {edits : List Edit} (agreed : (agree fs proposals).outcome = .ok plan)
    (split : plan = before ++ (path, edits) :: after) :
    edits.Pairwise (fun a b => a.offset < b.offset) ∧ (Edit.Apart edits ↔ ¬ Overlapping proposals path) ∧
    (Overlapping proposals path → ∀ disk,
      (∃ fault, Table.get? (writePlan fs [] plan disk).failures path = some fault ∧ ∀ f, fault ≠ .disk f) ∧
      (writePlan fs [] plan disk).AgreesBut path (writePlan fs [] (before ++ after) disk) ∧
      ∀ command workers work parallelism, (collect command workers work parallelism).outcome = .ok proposals →
        (run fs command workers work parallelism false disk).outcome =
            .ok ⟨plan, (writePlan fs [] plan disk).failures⟩ ∧
          (run fs command workers work parallelism false disk).files = (writePlan fs [] plan disk).files) := by
  have hrep := represents_of_agree agreed
  have hmem : (path, edits) ∈ plan := by simp [split]
  have hget := Table.get?_of_mem hrep.paths_nodup hmem
  have hne := hrep.edits_ne_nil hmem
  have hascending := hrep.ascending path edits hget
  have hapart := hrep.apart_iff hget
  refine ⟨hascending, hapart, ?_⟩
  intro hover disk
  have hnot : ¬ Edit.Apart edits := fun h => hapart.mp h hover
  obtain ⟨fault, hpatch, hfault⟩ := Files.patchFile_of_overlap hascending (hrep.length_nonneg hget) hnot disk
    (writePlan fs [] before disk).files path
  refine ⟨⟨fault, ?_, hfault⟩, ?_, fun _ _ _ _ hc => run_of_agree hc agreed⟩
  · have hdistinct := hrep.paths_nodup
    rw [split] at hdistinct ⊢
    rw [writePlan_failures hdistinct hne, hpatch]
  · rw [split]
    exact writePlan_agreesBut (by rw [hpatch]) hne after

/-! A worker whose proposals for the second of two files overlap. -/

namespace Overlap

def files : Files where
  entries := [(["a.c"], .file (Bytes.ofText "int a;\n")), (["b.c"], .file (Bytes.ofText "int b;\n"))]
  here := []

def proposals : List Proposal :=
  [⟨"/a.c", 0, 0, threadKeyword⟩, ⟨"/b.c", 0, 3, "long"⟩, ⟨"/b.c", 1, 0, threadKeyword⟩]

def edits : List Edit := [⟨0, 3, "long"⟩, ⟨1, 0, threadKeyword⟩]

def plan : Plan := [("/a.c", [⟨0, 0, threadKeyword⟩]), ("/b.c", edits)]

def work : WorkItem := ⟨[], ["/a.c"], "/"⟩

theorem agreed : (agree files proposals).outcome = .ok plan := by
  have hagreeing : Agreeing proposals := by
    unfold Agreeing
    decide
  have hgroups : Groups.ofProposals proposals =
      [("/a.c", [(0, [⟨0, threadKeyword⟩])]), ("/b.c", [(0, [⟨3, "long"⟩]), (1, [⟨0, threadKeyword⟩])])] := by
    decide +kernel
  refine agree_eq_ok_iff.mpr ⟨hagreeing, ?_⟩
  rw [hgroups]
  simp [Groups.plan, sitesOf_of_ascending, Site.edits, plan, edits]

theorem overlapping : Overlapping proposals "/b.c" :=
  ⟨⟨"/b.c", 0, 3, "long"⟩, by simp [proposals], ⟨"/b.c", 1, 0, threadKeyword⟩, by simp [proposals], rfl, rfl,
    by decide, by decide⟩

/-- What the run leaves: the first file is written, the second one is not. -/
def after : Files :=
  files.put ["a.c"] (.file (Bytes.ofText "__thread int a;\n"))

theorem patchFile_first : files.patchFile .sound "/a.c" [⟨0, 0, threadKeyword⟩] = (after, none) := by
  have hopen : files.openFile "/a.c" = .ok (["a.c"], Bytes.ofText "int a;\n") := by decide +kernel
  have hpatch : patch (Bytes.ofText "int a;\n") [⟨0, 0, threadKeyword⟩] = .ok (Bytes.ofText "__thread int a;\n") := by
    decide +kernel
  simp [Files.patchFile, hopen, Edit.sort_of_ascending, hpatch, Disk.sound, after]

theorem patchFile_second : after.patchFile .sound "/b.c" edits = (after, some (.patch (.overlap 1 3))) := by
  have hopen : after.openFile "/b.c" = .ok (["b.c"], Bytes.ofText "int b;\n") := by decide +kernel
  have hpatch : patch (Bytes.ofText "int b;\n") edits = .error (.overlap 1 3) := by decide +kernel
  have hsort : Edit.sort edits = edits := Edit.sort_of_ascending (by decide)
  simp [Files.patchFile, hopen, hsort, hpatch]

theorem written : (writePlan files [] plan).files = after ∧
    (writePlan files [] plan).failures = [("/b.c", .patch (.overlap 1 3))] := by
  have hwanted : edits ≠ [] := List.cons_ne_nil _ _
  simp [writePlan, plan, Writing.write, patchFile_first, patchFile_second, hwanted, WriteFault.kind, Writing.contained,
    Table.put]

end Overlap

/-- The edits of one file overlap, and the run writes the other file before it comes to them. -/
theorem overlap_noticed_after_writing :
    (agree Overlap.files Overlap.proposals).outcome = .ok Overlap.plan ∧
      Table.get? Overlap.plan "/b.c" = some Overlap.edits ∧ ¬ Edit.Apart Overlap.edits ∧
      let r := run Overlap.files ["cli"] (.sending Overlap.proposals) Overlap.work 1 false
      r.outcome = .ok ⟨Overlap.plan, [("/b.c", .patch (.overlap 1 3))]⟩ ∧
        r.files.entryAt? ["a.c"] = some (.file (Bytes.ofText "__thread int a;\n")) := by
  obtain ⟨houtcome, hfiles⟩ := @run_of_agree Overlap.files ["cli"] _ Overlap.work 1 .sound _ _
    (collect_sending ["cli"] Overlap.proposals rfl) Overlap.agreed
  obtain ⟨hleft, hfailures⟩ := Overlap.written
  refine ⟨Overlap.agreed, by decide, by decide, ?_, ?_⟩
  · rw [houtcome, hfailures]
  · rw [hfiles, hleft]
    decide +kernel

/-- The other file is written as if it were the only one. -/
theorem overlap_costs_second_file :
    ∃ fault, Table.get? (writePlan Overlap.files [] Overlap.plan).failures "/b.c" = some fault ∧
      (run Overlap.files ["cli"] (.sending Overlap.proposals) Overlap.work 1 false).outcome =
        .ok ⟨Overlap.plan, (writePlan Overlap.files [] Overlap.plan).failures⟩ ∧
      (run Overlap.files ["cli"] (.sending Overlap.proposals) Overlap.work 1 false).files =
        (writePlan Overlap.files [] [("/a.c", [⟨0, 0, threadKeyword⟩])]).files := by
  obtain ⟨-, -, hover⟩ := @overlap_costs_its_own_file Overlap.files Overlap.proposals Overlap.plan
    [("/a.c", [⟨0, 0, threadKeyword⟩])] [] "/b.c" Overlap.edits Overlap.agreed rfl
  obtain ⟨⟨fault, hfault, -⟩, hrest, hrun⟩ := hover Overlap.overlapping .sound
  obtain ⟨houtcome, hfiles⟩ := hrun ["cli"] _ Overlap.work 1 (collect_sending ["cli"] Overlap.proposals rfl)
  exact ⟨fault, hfault, houtcome, hfiles.trans hrest.files⟩

end ThreadLocal
