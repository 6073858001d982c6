import ThreadLocal.Proofs.Files.Canonical

/-!
Where a path resolves to is settled: no link stands on the way from the root down to it. So its text resolves to it
again.
-/

namespace ThreadLocal

theorem slash_notMem_of_mem_slashPieces {cs p : List Char} (h : p ∈ slashPieces cs) : '/' ∉ p := by
  induction cs generalizing p with
  | nil =>
    have : p = [] := by simpa [slashPieces] using h
    simp [this]
  | cons c rest ih =>
    by_cases hc : c = '/'
    · simp only [slashPieces, if_pos hc, List.mem_cons] at h
      rcases h with rfl | h
      · simp
      · exact ih h
    · simp only [slashPieces, if_neg hc] at h
      split at h
      next =>
        have : p = [c] := by simpa using h
        simpa [this, eq_comm] using hc
      next q qs hq =>
        rcases List.mem_cons.mp h with rfl | h
        · have hq' : '/' ∉ q := ih (by simp [hq])
          simpa [hq', eq_comm] using hc
        · exact ih (by simp [hq, h])

/-- A piece of a path: there is no slash and no null character in it. -/
def IsPiece (name : String) : Prop :=
  '/' ∉ name.toList ∧ '\x00' ∉ name.toList

theorem IsPiece.isName {name : String} (h : IsPiece name) (solid : ¬(name = "" ∨ name = ".")) (dots : name ≠ "..") :
    IsName name := by
  rw [not_or] at solid
  exact ⟨solid.1, solid.2, dots, h⟩

theorem isPiece_of_mem_pieces {path name : String} (noNul : hasNul path = false) (h : name ∈ Files.pieces path) :
    IsPiece name := by
  obtain ⟨p, hp, rfl⟩ := List.mem_map.mp h
  rw [IsPiece, String.toList_ofList]
  refine ⟨slash_notMem_of_mem_slashPieces hp, fun hz => ?_⟩
  have hpath : hasNul path = true := by simpa [hasNul] using Files.mem_of_mem_slashPieces hp hz
  cases noNul.symm.trans hpath

namespace Path

theorem slash_notMem_ofText {s name : String} (h : name ∈ (ofText s).parts) : '/' ∉ name.toList := by
  rw [ofText, Files.componentsOf_eq, List.mem_filter, Files.pieces, List.mem_map] at h
  obtain ⟨⟨p, hp, rfl⟩, -⟩ := h
  simpa using slash_notMem_of_mem_slashPieces hp

theorem slash_notMem_join {directory p : Path} (hdirectory : ∀ name ∈ directory.parts, '/' ∉ name.toList)
    (hp : ∀ name ∈ p.parts, '/' ∉ name.toList) : ∀ name ∈ (directory.join p).parts, '/' ∉ name.toList := by
  unfold join
  split
  · exact hp
  · exact List.forall_mem_append.mpr ⟨hdirectory, hp⟩

theorem anchorOf_text {l : Location} (names : ∀ name ∈ l, IsName name) : anchorOf l.text.toList = .root := by
  rw [Location.toList_text]
  cases l with
  | nil => rfl
  | cons name rest =>
    obtain ⟨hne, -, -, hslash, -⟩ := names name (by simp)
    obtain ⟨c, cs, hname⟩ := List.exists_cons_of_ne_nil (mt String.toList_eq_nil_iff.mp hne)
    have hc : c ≠ '/' := by
      rintro rfl
      simp [hname] at hslash
    obtain ⟨more, hmore⟩ : ∃ more, ['/'].intercalate ((name :: rest).map String.toList) = c :: more := by
      cases rest <;> simp [hname, List.intercalate_cons_cons]
    rw [hmore]
    simp [anchorOf, hc]

theorem ofText_text {l : Location} (names : ∀ name ∈ l, IsName name) : ofText l.text = ofLocation l := by
  have hparts : componentsOf l.text.toList = l := by
    rw [Files.componentsOf_eq]
    by_cases hne : l = []
    · subst hne
      decide
    · rw [Location.pieces_text hne names, List.filter_cons, if_neg (by decide), List.filter_eq_self]
      intro name hm
      obtain ⟨hempty, hdot, -⟩ := names name hm
      simp [Files.isVoid, hempty, hdot]
  rw [ofText, anchorOf_text names, hparts, ofLocation]

end Path

/-- Where a link leads. -/
def Entry.target? : Entry → Option String
  | .link target => some target
  | _ => none

namespace Files

/-- A tree in whose links no null character stands, with the current directory among its directories. -/
structure Lawful (fs : Files) : Prop extends IsTree fs where
  targets : ∀ l target, fs.entryAt? l = some (.link target) → hasNul target = false
  inside : fs.entryAt? fs.here = some .directory

/-- No link stands at a location or above it, and the names on the way to it are names. -/
structure Settled (fs : Files) (l : Location) : Prop where
  named : ∀ name ∈ l, IsName name
  noLink : ∀ place, place <+: l → ∀ target, fs.entryAt? place ≠ some (.link target)

namespace Settled

variable {fs : Files} {l : Location}

theorem root (fs : Files) : fs.Settled [] where
  named := by simp
  noLink := by
    intro place h target
    rw [List.prefix_nil.mp h]
    simp [entryAt?]

theorem up (h : fs.Settled l) : fs.Settled l.dropLast where
  named := fun name hm => h.named name (List.dropLast_subset _ hm)
  noLink := fun place hp => h.noLink place (hp.trans (List.dropLast_prefix l))

theorem down (h : fs.Settled l) {name : String} (isName : IsName name)
    (plain : ∀ target, fs.entryAt? (l ++ [name]) ≠ some (.link target)) : fs.Settled (l ++ [name]) where
  named := by
    intro other hm
    rcases List.mem_append.mp hm with hm | hm
    · exact h.named other hm
    · rwa [List.mem_singleton.mp hm]
  noLink := by
    intro place hp
    rcases List.prefix_concat_iff.mp hp with rfl | hp
    · exact plain
    · exact h.noLink place hp

end Settled

theorem Lawful.settled_here {fs : Files} (lawful : fs.Lawful) : fs.Settled fs.here where
  named := lawful.named _ _ lawful.inside
  noLink := by
    rintro place ⟨rest, hrest⟩ target
    have hdirectory : fs.entryAt? place = some .directory := by
      by_cases hnil : rest = []
      · rw [hnil, List.append_nil] at hrest
        exact hrest ▸ lawful.inside
      · exact lawful.toIsTree.above (hrest ▸ lawful.inside) hnil
    simp [hdirectory]

theorem Lawful.settled_start {fs : Files} (lawful : fs.Lawful) (anchor : Anchor) : fs.Settled (fs.start anchor) := by
  unfold start
  split
  · exact lawful.settled_here
  · exact Settled.root fs

/-- One step of a walk, by a component of a path: to where one stands, up, along a link or down. -/
inductive Step (fs : Files) (follow : Location → List String → String → Except Stop Location) (here : Location)
    (name : String) (rest : List String) : Location → Prop where
  | stay (void : name = "" ∨ name = ".") : Step fs follow here name rest here
  | up (dots : name = "..") : Step fs follow here name rest here.dropLast
  | along {target : String} {next : Location} (link : fs.entryAt? (here ++ [name]) = some (.link target))
    (followed : follow (here ++ [name]) rest target = .ok next) : Step fs follow here name rest next
  | down (solid : ¬(name = "" ∨ name = ".")) (dots : name ≠ "..")
    (plain : ∀ target, fs.entryAt? (here ++ [name]) ≠ some (.link target)) : Step fs follow here name rest (here ++ [name])

theorem exists_step {fs : Files} {m : Manner} {follow : Location → List String → String → Except Stop Location}
    {here l : Location} {name : String} {rest : List String} (h : fs.walkWith m follow here (name :: rest) = .ok l) :
    ∃ next, Step fs follow here name rest next ∧ fs.walkWith m follow next rest = .ok l := by
  simp only [walkWith] at h
  split at h
  next => cases h
  next =>
    by_cases hvoid : name = "" ∨ name = "."
    · exact ⟨_, .stay hvoid, by simpa only [if_pos hvoid] using h⟩
    by_cases hdots : name = ".."
    · exact ⟨_, .up hdots, by simpa only [if_neg hvoid, if_pos hdots] using h⟩
    simp only [if_neg hvoid, if_neg hdots] at h
    cases he : fs.entryAt? (here ++ [name]) with
    | none =>
      cases m with
      | strict => simp [he] at h
      | tolerant => exact ⟨_, .down hvoid hdots (by simp [he]), by simpa only [he] using h⟩
    | some e =>
      cases e with
      | file content => exact ⟨_, .down hvoid hdots (by simp [he]), by simpa only [he] using h⟩
      | directory => exact ⟨_, .down hvoid hdots (by simp [he]), by simpa only [he] using h⟩
      | link target =>
        cases hf : follow (here ++ [name]) rest target with
        | error stop => simp [he, hf] at h
        | ok next => exact ⟨next, .along he hf, by simpa only [he, hf] using h⟩

/-- A step from a settled location leads to one, if following a link does. -/
theorem Settled.step {fs : Files} {follow : Location → List String → String → Except Stop Location}
    {here next : Location} {name : String} {rest : List String} (settled : fs.Settled here) (piece : IsPiece name)
    (follows : ∀ target l, fs.entryAt? (here ++ [name]) = some (.link target) →
      follow (here ++ [name]) rest target = .ok l → fs.Settled l)
    (step : Step fs follow here name rest next) : fs.Settled next := by
  cases step with
  | stay => exact settled
  | up => exact settled.up
  | along link followed => exact follows _ _ link followed
  | down solid dots plain => exact settled.down (piece.isName solid dots) plain

theorem settled_of_walkWith {fs : Files} {m : Manner}
    {follow : Location → List String → String → Except Stop Location}
    (follows : ∀ place name rest target l, fs.Settled place → fs.entryAt? (place ++ [name]) = some (.link target) →
      follow (place ++ [name]) rest target = .ok l → fs.Settled l)
    {here l : Location} {parts : List String} (settled : fs.Settled here) (pieces : ∀ name ∈ parts, IsPiece name)
    (h : fs.walkWith m follow here parts = .ok l) : fs.Settled l := by
  induction parts generalizing here with
  | nil =>
    obtain rfl : here = l := by simpa [walkWith] using h
    exact settled
  | cons name rest ih =>
    obtain ⟨hname, hrest⟩ := List.forall_mem_cons.mp pieces
    obtain ⟨next, hstep, hgo⟩ := exists_step h
    exact ih (settled.step hname (fun _ _ => follows _ _ _ _ _ settled) hstep) hrest hgo

/-- A walk over pieces of a path ends at a settled location if it starts at one. -/
theorem settled_of_walkWithin {fs : Files} (lawful : fs.Lawful) {m : Manner} {depth : Nat} {active : List Location}
    {here l : Location} {parts : List String} (settled : fs.Settled here) (pieces : ∀ name ∈ parts, IsPiece name)
    (h : fs.walkWithin m depth active here parts = .ok l) : fs.Settled l := by
  induction depth generalizing active here parts l with
  | zero =>
    refine settled_of_walkWith ?_ settled pieces h
    intro place name rest target l' _ _ hl
    cases hl
  | succ depth ih =>
    refine settled_of_walkWith ?_ settled pieces h
    intro place name rest target l' hplace he hl
    split at hl
    next => cases hl
    next =>
      have hbase : fs.Settled (if (Path.ofText target).isAbsolute then [] else (place ++ [name]).dropLast) := by
        split
        · exact Settled.root fs
        · rwa [List.dropLast_concat]
      exact ih hbase (fun _ => isPiece_of_mem_pieces (lawful.targets _ _ he)) (mapError_eq_ok_iff.mp hl)

/-- No link is met on the way down to a settled location. -/
theorem walkWith_of_settled {fs : Files} {follow : Location → List String → String → Except Stop Location}
    {here rest : Location} (settled : fs.Settled (here ++ rest)) :
    fs.walkWith .tolerant follow here rest = .ok (here ++ rest) := by
  induction rest generalizing here with
  | nil => simp [walkWith]
  | cons name others ih =>
    obtain ⟨hempty, hdot, hdots, -⟩ := settled.named name (by simp)
    have hsplit : here ++ name :: others = (here ++ [name]) ++ others := by simp
    have hgo : fs.walkWith .tolerant follow (here ++ [name]) others = .ok (here ++ name :: others) := by
      rw [hsplit]
      exact ih (hsplit ▸ settled)
    have hplain := settled.noLink (here ++ [name]) (hsplit ▸ List.prefix_append _ _)
    simp only [walkWith, reduceCtorEq, false_and, if_false, hempty, hdot, or_self, hdots]
    cases he : fs.entryAt? (here ++ [name]) with
    | none => exact hgo
    | some e =>
      cases e with
      | file content => exact hgo
      | directory => exact hgo
      | link target => exact absurd he (hplain target)

theorem Settled.resolve {fs : Files} {l : Location} (settled : fs.Settled l) :
    fs.resolve (Path.ofLocation l) = .ok l := by
  have hnul : l.any hasNul = false := by
    rw [List.any_eq_false]
    intro name hm hn
    have hz := (settled.named name hm).2.2.2.2
    simp [hasNul, hz] at hn
  have hwalk : fs.walk .tolerant [] l = .ok l := @walkWith_of_settled fs _ [] l settled
  simp [Files.resolve, Path.ofLocation, start, hnul, hwalk]

/-- The text of a settled location is its own canonical form. -/
theorem Settled.canonical_text {fs : Files} {l : Location} (settled : fs.Settled l) :
    fs.canonical l.text = .ok l.text := by
  rw [canonical, Path.ofText_text settled.named, settled.resolve]
  rfl

/-- No link is met while it is being followed, wherever one walks. -/
def LoopFree (fs : Files) : Prop :=
  ∀ base parts place, fs.walk .tolerant base parts ≠ .error (.loop place)

theorem noNul_of_resolve {fs : Files} {p : Path} {l : Location} (h : fs.resolve p = .ok l) :
    p.parts.any hasNul = false := by
  unfold resolve at h
  split at h
  next => cases h
  next hnul => exact (Bool.not_eq_true _).mp hnul

theorem LoopFree.resolves {fs : Files} (loopFree : fs.LoopFree) {p : Path} (noNul : p.parts.any hasNul = false) :
    ∃ l, fs.resolve p = .ok l := by
  obtain ⟨l, -, hresolve⟩ := Passable.walks ⟨noNul, loopFree _ _⟩
  exact ⟨l, hresolve⟩

/-- Where no links loop, a path resolves to a settled location. -/
theorem LoopFree.settled {fs : Files} (loopFree : fs.LoopFree) (lawful : fs.Lawful) {p : Path} {l : Location}
    (noSlash : ∀ name ∈ p.parts, '/' ∉ name.toList) (h : fs.resolve p = .ok l) : fs.Settled l := by
  have hnul := noNul_of_resolve h
  obtain ⟨l', hwalk, hresolve⟩ := Passable.walks ⟨hnul, loopFree _ _⟩
  obtain rfl := Except.ok.inj (hresolve.symm.trans h)
  refine settled_of_walkWithin lawful (lawful.settled_start _) (fun name hm => ⟨noSlash name hm, ?_⟩) hwalk
  simpa [hasNul] using List.any_eq_false.mp hnul name hm

theorem link_mem_entries {fs : Files} {l : Location} {target : String} (h : fs.entryAt? l = some (.link target)) :
    (l, Entry.link target) ∈ fs.entries := by
  unfold entryAt? at h
  split at h
  next => cases h
  next => exact Table.mem_of_get? h

/-- There is no loop if every link can be followed. -/
theorem loopFree_of_links {fs : Files}
    (h : ∀ e ∈ fs.entries, ∀ target ∈ e.2.target?, (fs.walkWithin .tolerant fs.entries.length [e.1]
      (if (Path.ofText target).isAbsolute then [] else e.1.dropLast) (pieces target)).isOk = true) : fs.LoopFree := by
  intro base parts place hloop
  obtain ⟨link, rest, target, he, hstop⟩ := exists_link_of_walkWith hloop
  have hok := h _ (link_mem_entries he) target rfl
  obtain ⟨stop, hstop', -⟩ := exists_error_of_mapError (by simpa using hstop)
  rw [hstop'] at hok
  cases hok

theorem lawful_of_entries {fs : Files}
    (h : ∀ e ∈ fs.entries, (∀ name ∈ e.1, IsName name) ∧ fs.entryAt? e.1.dropLast = some .directory ∧
      ∀ target ∈ e.2.target?, hasNul target = false)
    (inside : fs.entryAt? fs.here = some .directory) : fs.Lawful where
  toIsTree := isTree_of_entries fun e he => ⟨(h e he).1, (h e he).2.1⟩
  targets := fun _ target he => (h _ (link_mem_entries he)).2.2 target rfl
  inside := inside

end Files
end ThreadLocal
