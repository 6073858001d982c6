import ThreadLocal.Proofs.Except
import ThreadLocal.Proofs.Files.Tree

/-!
A path that leads to something resolves to the place where it leads, however it is spelled. One that leads nowhere
resolves too, unless it runs into a loop of links.
-/

namespace ThreadLocal
namespace Files

/-- Components that name nothing: empty ones and single dots. -/
def isVoid (name : String) : Bool :=
  name = "" ∨ name = "."

theorem walkWith_void {fs : Files} {m : Manner} {follow : Location → List String → String → Except Stop Location}
    {here : Location} {name : String} {rest : List String} (h : isVoid name = true)
    (open_ : m = .tolerant ∨ fs.entryAt? here = some .directory) :
    fs.walkWith m follow here (name :: rest) = fs.walkWith m follow here rest := by
  have hname : name = "" ∨ name = "." := by simpa [isVoid] using h
  have hgo : ¬(m = .strict ∧ fs.entryAt? here ≠ some .directory) := by
    rcases open_ with rfl | hd
    · simp
    · simp [hd]
  simp only [walkWith, if_neg hgo, if_pos hname]

/-- Every step of a strict walk is made in a directory. -/
theorem directory_of_walkWith_strict {fs : Files}
    {follow : Location → List String → String → Except Stop Location} {here l : Location} {name : String}
    {rest : List String} (h : fs.walkWith .strict follow here (name :: rest) = .ok l) :
    fs.entryAt? here = some .directory := by
  by_contra hd
  simp [walkWith, hd] at h

/-- A strict walk that arrives is also a tolerant walk, with or without components that name nothing. -/
theorem walkWith_tolerant {fs : Files} {f g : Location → List String → String → Except Stop Location}
    (follows : ∀ link rest rest' target l, f link rest target = .ok l → g link rest' target = .ok l)
    {keep : String → Bool} (voids : ∀ name, keep name = false → isVoid name = true)
    {here l : Location} {parts : List String} (h : fs.walkWith .strict f here parts = .ok l) :
    fs.walkWith .tolerant g here (parts.filter keep) = .ok l := by
  induction parts generalizing here with
  | nil => simpa [walkWith] using h
  | cons name rest ih =>
    have hd := directory_of_walkWith_strict h
    by_cases hv : isVoid name = true
    · rw [walkWith_void hv (Or.inr hd)] at h
      cases hk : keep name with
      | false => simpa [List.filter_cons, hk] using ih h
      | true =>
        rw [List.filter_cons, if_pos hk, walkWith_void hv (Or.inl rfl)]
        exact ih h
    have hk : keep name = true := by
      by_contra hk
      exact hv (voids name (by simpa using hk))
    rw [List.filter_cons, if_pos hk]
    have hname : ¬(name = "" ∨ name = ".") := by simpa [isVoid] using hv
    simp only [walkWith, hd, ne_eq, not_true_eq_false, and_false, if_false, hname, reduceCtorEq] at h ⊢
    by_cases hdots : name = ".."
    · simp only [if_pos hdots] at h ⊢
      exact ih h
    simp only [if_neg hdots] at h ⊢
    cases he : fs.entryAt? (here ++ [name]) with
    | none => simp [he] at h
    | some e =>
      simp only [he] at h
      cases e with
      | file content => exact ih h
      | directory => exact ih h
      | link target =>
        simp only at h ⊢
        cases hf : f (here ++ [name]) rest target with
        | error s => simp [hf] at h
        | ok next =>
          rw [hf] at h
          rw [follows _ _ _ _ _ hf]
          exact ih h

theorem walkWithin_tolerant {fs : Files} (keep : String → Bool)
    (voids : ∀ name, keep name = false → isVoid name = true) {depth : Nat} {active : List Location}
    {here l : Location} {parts : List String} (h : fs.walkWithin .strict depth active here parts = .ok l) :
    fs.walkWithin .tolerant depth active here (parts.filter keep) = .ok l := by
  induction depth generalizing active here l parts keep with
  | zero =>
    refine walkWith_tolerant ?_ voids h
    intro link rest rest' target l' hl
    simp at hl
  | succ depth ih =>
    refine walkWith_tolerant ?_ voids h
    intro link rest rest' target l' hl
    split at hl
    next => simp at hl
    next hfresh =>
      simp only [if_neg hfresh]
      have hsame := ih (fun _ => true) (by simp) (mapError_eq_ok_iff.mp hl)
      simp only [List.filter_eq_self.mpr (fun _ _ => rfl)] at hsame
      exact mapError_eq_ok_iff.mpr hsame

theorem walk_ok_of_locate {fs : Files} {path : String} {l : Location} (h : fs.locate path = .ok l) :
    fs.walk .strict (fs.start (Path.anchorOf path.toList)) (pieces path) = .ok l := by
  unfold locate at h
  split at h
  next => simp at h
  next =>
    split at h
    next => simp at h
    next =>
      split at h
      next hw => rw [hw, ← Except.ok.inj h]
      next => simp at h

/-- The components of a path are its pieces without those that name nothing. -/
theorem componentsOf_eq (path : String) :
    Path.componentsOf path.toList = (pieces path).filter fun name => !isVoid name := by
  have hp : ∀ p : List Char, decide (p ≠ [] ∧ p ≠ ['.']) = !isVoid (String.ofList p) := by
    intro p
    have hempty : String.ofList p = "" ↔ p = [] := by
      rw [← String.toList_inj]
      simp
    have hdot : String.ofList p = "." ↔ p = ['.'] := by
      rw [← String.toList_inj]
      simp
    simp [isVoid, hempty, hdot, Bool.decide_and, Bool.decide_or]
  rw [Path.componentsOf, pieces, List.filter_map]
  congr 1
  apply List.filter_congr
  intro p _
  simpa using hp p

theorem mem_of_mem_slashPieces {cs p : List Char} (h : p ∈ slashPieces cs) {c : Char} (hc : c ∈ p) : c ∈ cs := by
  induction cs generalizing p with
  | nil =>
    have : p = [] := by simpa [slashPieces] using h
    simp [this] at hc
  | cons first rest ih =>
    by_cases hs : first = '/'
    · simp only [slashPieces, if_pos hs, List.mem_cons] at h
      rcases h with rfl | h
      · simp at hc
      · exact List.mem_cons_of_mem _ (ih h hc)
    · simp only [slashPieces, if_neg hs] at h
      split at h
      next =>
        have : p = [first] := by simpa using h
        subst this
        exact List.mem_cons.mpr (Or.inl (by simpa using hc))
      next q qs hq =>
        rcases List.mem_cons.mp h with rfl | h
        · rcases List.mem_cons.mp hc with rfl | hc
          · simp
          · exact List.mem_cons_of_mem _ (ih (by simp [hq]) hc)
        · exact List.mem_cons_of_mem _ (ih (by simp [hq, h]) hc)

theorem hasNul_of_mem_componentsOf {path name : String} (h : name ∈ Path.componentsOf path.toList)
    (hn : hasNul name = true) : hasNul path = true := by
  rw [componentsOf_eq, List.mem_filter, pieces, List.mem_map] at h
  obtain ⟨⟨p, hp, rfl⟩, -⟩ := h
  have hz : '\x00' ∈ p := by simpa [hasNul] using hn
  simpa [hasNul] using mem_of_mem_slashPieces hp hz

theorem noNul_ofText {path : String} (noNul : hasNul path = false) :
    (Path.ofText path).parts.any hasNul = false := by
  rw [List.any_eq_false]
  intro name hm hn
  cases noNul.symm.trans (hasNul_of_mem_componentsOf hm hn)

/-- A tolerant walk is stopped only by a link on its way that cannot be followed. -/
theorem exists_link_of_walkWith {fs : Files} {follow : Location → List String → String → Except Stop Location}
    {here : Location} {parts : List String} {stop : Stop} (h : fs.walkWith .tolerant follow here parts = .error stop) :
    ∃ link rest target, fs.entryAt? link = some (.link target) ∧ follow link rest target = .error stop := by
  induction parts generalizing here with
  | nil => simp [walkWith] at h
  | cons name rest ih =>
    simp only [walkWith, reduceCtorEq, false_and, if_false] at h
    by_cases hvoid : name = "" ∨ name = "."
    · exact ih (by simpa only [if_pos hvoid] using h)
    by_cases hdots : name = ".."
    · exact ih (by simpa only [if_neg hvoid, if_pos hdots] using h)
    simp only [if_neg hvoid, if_neg hdots] at h
    cases he : fs.entryAt? (here ++ [name]) with
    | none => exact ih (by simpa only [he] using h)
    | some e =>
      cases e with
      | file content => exact ih (by simpa only [he] using h)
      | directory => exact ih (by simpa only [he] using h)
      | link target =>
        cases hf : follow (here ++ [name]) rest target with
        | ok next => exact ih (by simpa only [he, hf] using h)
        | error stop' =>
          obtain rfl : stop' = stop := by simpa only [he, hf, Except.error.injEq] using h
          exact ⟨_, _, _, he, hf⟩

/-- Only a loop can be in the way of a tolerant walk. -/
theorem walkWithin_tolerant_stop {fs : Files} {depth : Nat} {active : List Location} {here : Location}
    {parts : List String} {stop : Stop} (h : fs.walkWithin .tolerant depth active here parts = .error stop) :
    ∃ place, stop = .loop place := by
  induction depth generalizing active here parts stop with
  | zero =>
    obtain ⟨link, rest, target, -, hstop⟩ := exists_link_of_walkWith h
    exact ⟨_, (Except.error.inj hstop).symm⟩
  | succ depth ih =>
    obtain ⟨link, rest, target, -, hstop⟩ := exists_link_of_walkWith h
    split at hstop
    next => exact ⟨_, (Except.error.inj hstop).symm⟩
    next =>
      obtain ⟨inner, hinner, rfl⟩ := exists_error_of_mapError hstop
      obtain ⟨place, rfl⟩ := ih hinner
      exact ⟨_, rfl⟩

/-- A path with no null character in its components, on whose way no link is met while it is being followed. -/
structure Passable (fs : Files) (p : Path) : Prop where
  noNul : p.parts.any hasNul = false
  noLoop : ∀ place, fs.walk .tolerant (fs.start p.anchor) p.parts ≠ .error (.loop place)

/-- A passable path resolves to the place to which its components lead. -/
theorem Passable.walks {fs : Files} {p : Path} (h : fs.Passable p) :
    ∃ l, fs.walk .tolerant (fs.start p.anchor) p.parts = .ok l ∧ fs.resolve p = .ok l := by
  cases hw : fs.walk .tolerant (fs.start p.anchor) p.parts with
  | ok l => exact ⟨l, rfl, by simp [resolve, h.noNul, hw]⟩
  | error stop =>
    obtain ⟨place, rfl⟩ := walkWithin_tolerant_stop hw
    exact absurd hw (h.noLoop place)

theorem passable_iff {fs : Files} {p : Path} : fs.Passable p ↔
    p.parts.any hasNul = false ∧ (fs.walk .tolerant (fs.start p.anchor) p.parts).isOk = true := by
  constructor
  · intro h
    obtain ⟨l, hwalk, -⟩ := h.walks
    rw [hwalk]
    exact ⟨h.noNul, rfl⟩
  · rintro ⟨noNul, hok⟩
    refine ⟨noNul, fun place hloop => ?_⟩
    rw [hloop] at hok
    cases hok

instance (fs : Files) (p : Path) : Decidable (fs.Passable p) :=
  decidable_of_iff' _ passable_iff

/-- A path without null characters, on whose way no link is met while it is being followed. -/
structure Clear (fs : Files) (path : String) : Prop where
  noNul : hasNul path = false
  noLoop : ∀ place, fs.walk .tolerant (fs.start (Path.anchorOf path.toList)) (Path.componentsOf path.toList) ≠
    .error (.loop place)

theorem Clear.passable {fs : Files} {path : String} (clear : fs.Clear path) : fs.Passable (Path.ofText path) :=
  ⟨noNul_ofText clear.noNul, clear.noLoop⟩

theorem Clear.resolves {fs : Files} {path : String} (clear : fs.Clear path) :
    ∃ l, fs.resolve (Path.ofText path) = .ok l := by
  obtain ⟨l, -, hresolve⟩ := clear.passable.walks
  exact ⟨l, hresolve⟩

theorem tolerant_walk_of_locate {fs : Files} {path : String} {l : Location} (h : fs.locate path = .ok l) :
    fs.walk .tolerant (fs.start (Path.anchorOf path.toList)) (Path.componentsOf path.toList) = .ok l := by
  rw [componentsOf_eq]
  exact walkWithin_tolerant _ (by simp) (walk_ok_of_locate h)

theorem clear_of_locate {fs : Files} {path : String} {l : Location} (h : fs.locate path = .ok l) : fs.Clear path where
  noNul := by
    rw [← Bool.not_eq_true]
    intro hn
    simp [locate, hn] at h
  noLoop := by
    intro place
    rw [tolerant_walk_of_locate h]
    simp

/-- A path that leads somewhere resolves to where it leads. -/
theorem resolve_of_locate {fs : Files} {path : String} {l : Location} (h : fs.locate path = .ok l) :
    fs.resolve (Path.ofText path) = .ok l := by
  have hnul : (Path.componentsOf path.toList).any hasNul = false := (clear_of_locate h).passable.noNul
  have hwalk := tolerant_walk_of_locate h
  simp [resolve, Path.ofText, hnul, hwalk]

/-- The canonical form of a path that opens a file is the text of the file's location. -/
theorem canonical_of_openFile {fs : Files} {path : String} {l : Location} {content : Bytes}
    (h : fs.openFile path = .ok (l, content)) : fs.canonical path = .ok l.text := by
  rw [canonical, resolve_of_locate (openFile_eq_ok_iff.mp h).1]
  rfl

end Files
end ThreadLocal
