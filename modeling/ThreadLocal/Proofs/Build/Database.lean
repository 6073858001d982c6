import ThreadLocal.Build.Database
import ThreadLocal.Proofs.Distinct
import ThreadLocal.Proofs.Files.Settled

/-!
The sources of a compilation database are where the files of its commands resolve to.
-/

namespace ThreadLocal

theorem CompileCommand.slash_notMem_filePath {c : CompileCommand} {p : Path} (h : c.filePath = .ok p) :
    ∀ name ∈ p.parts, '/' ∉ name.toList := by
  have hpath : ∀ {x : Json} {p : Path}, pathOf x = .ok p → ∀ name ∈ p.parts, '/' ∉ name.toList := by
    intro x p hp name hm
    cases x with
    | str s =>
      obtain rfl := Except.ok.inj hp
      exact Path.slash_notMem_ofText hm
    | _ => cases hp
  obtain ⟨file, hfile, hjoined⟩ := bind_eq_ok_iff.mp h
  split at hjoined
  next =>
    obtain rfl := Except.ok.inj hjoined
    exact hpath hfile
  next =>
    obtain ⟨directory, hdirectory, hp⟩ := bind_eq_ok_iff.mp hjoined
    obtain rfl := Except.ok.inj hp
    exact Path.slash_notMem_join (hpath hdirectory) (hpath hfile)

namespace Database

variable {fs : Files}

theorem sourceOf_eq_ok_iff {c : CompileCommand} {source : Option Location} :
    sourceOf fs c = .ok source ↔ ∃ p, c.filePath = .ok p ∧
      if p.suffix = ".c" then ∃ l, fs.resolve p = .ok l ∧ some l = source else none = source := by
  rw [sourceOf, bind_eq_ok_iff]
  refine exists_congr fun p => and_congr_right fun _ => ?_
  split
  next => simp only [bind_eq_ok_iff, mapError_eq_ok_iff, pure, Except.pure, Except.ok.injEq]
  next => simp only [pure, Except.pure, Except.ok.injEq]

theorem sources_eq_ok_iff {db : Database} {found : List Location} :
    db.sources fs = .ok found ↔ ∃ each, List.Forall₂ (fun c source => sourceOf fs c = .ok source) db.commands each ∧
      distinct (each.filterMap id) = found := by
  rw [sources, bind_eq_ok_iff]
  simp only [mapM_eq_ok_iff, pure, Except.pure, Except.ok.injEq]

/-- Every source of a database is where the file of one of its commands resolves to. -/
theorem exists_command_of_source {db : Database} {found : List Location} (h : db.sources fs = .ok found) {l : Location}
    (hl : l ∈ found) : ∃ c ∈ db.commands, ∃ p, c.filePath = .ok p ∧ fs.resolve p = .ok l := by
  obtain ⟨each, heach, rfl⟩ := sources_eq_ok_iff.mp h
  obtain ⟨source, hsource, hsome⟩ := List.mem_filterMap.mp (mem_distinct.mp hl)
  obtain ⟨c, hc, hof⟩ := exists_of_forall₂ heach hsource
  obtain ⟨p, hp, hcase⟩ := sourceOf_eq_ok_iff.mp hof
  refine ⟨c, hc, p, hp, ?_⟩
  split at hcase
  next =>
    obtain ⟨l', hl', rfl⟩ := hcase
    rwa [← Option.some.inj hsome]
  next =>
    subst hcase
    cases hsome

theorem settled_of_source (lawful : fs.Lawful) (loopFree : fs.LoopFree) {db : Database} {found : List Location} (h : db.sources fs = .ok found)
    {l : Location} (hl : l ∈ found) : fs.Settled l := by
  obtain ⟨c, -, p, hp, hresolve⟩ := exists_command_of_source h hl
  exact loopFree.settled lawful (c.slash_notMem_filePath hp) hresolve

theorem exists_sources {db : Database} (loopFree : fs.LoopFree)
    (named : ∀ c ∈ db.commands, ∃ p, c.filePath = .ok p ∧ p.parts.any hasNul = false) :
    ∃ found, db.sources fs = .ok found := by
  have heach : ∀ c ∈ db.commands, ∃ source, sourceOf fs c = .ok source := by
    intro c hc
    obtain ⟨p, hp, hnul⟩ := named c hc
    obtain ⟨l, hl⟩ := loopFree.resolves hnul
    by_cases hsuffix : p.suffix = ".c"
    · exact ⟨some l, sourceOf_eq_ok_iff.mpr ⟨p, hp, by simpa [hsuffix] using hl⟩⟩
    · exact ⟨none, sourceOf_eq_ok_iff.mpr ⟨p, hp, by simp [hsuffix]⟩⟩
  obtain ⟨each, heach⟩ := exists_forall₂ heach
  exact ⟨_, sources_eq_ok_iff.mpr ⟨each, heach, rfl⟩⟩

end Database

end ThreadLocal
