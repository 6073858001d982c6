import ThreadLocal.Proofs.Files.Tree

/-!
File systems that differ at most in what their files hold: the same paths lead to the same places.
-/

namespace ThreadLocal

/-- An entry without the content of a file. -/
def Entry.emptied : Entry → Entry
  | .file _ => .file []
  | e => e

namespace Files

/-- The location of the file that a path opens. -/
def target? (fs : Files) (path : String) : Option Location :=
  (fs.openFile path).toOption.map Prod.fst

theorem target?_eq_some_iff {fs : Files} {path : String} {l : Location} :
    fs.target? path = some l ↔ ∃ content, fs.openFile path = .ok (l, content) := by
  unfold target?
  cases fs.openFile path with
  | error f => simp [Except.toOption]
  | ok place =>
    obtain ⟨l', content⟩ := place
    simp [Except.toOption]

structure SameShape (fs gs : Files) : Prop where
  here : gs.here = fs.here
  size : gs.entries.length = fs.entries.length
  entries : ∀ l, (gs.entryAt? l).map Entry.emptied = (fs.entryAt? l).map Entry.emptied

namespace SameShape

variable {fs gs : Files}

theorem refl (fs : Files) : SameShape fs fs :=
  ⟨rfl, rfl, fun _ => rfl⟩

theorem trans {hs : Files} (h : SameShape fs gs) (h' : SameShape gs hs) : SameShape fs hs :=
  ⟨h'.here.trans h.here, h'.size.trans h.size, fun l => (h'.entries l).trans (h.entries l)⟩

/-- The same stands at a location, or files do. -/
theorem entryAt?_eq_or_file (h : SameShape fs gs) (l : Location) : gs.entryAt? l = fs.entryAt? l ∨
    ∃ content content', fs.entryAt? l = some (.file content) ∧ gs.entryAt? l = some (.file content') := by
  have hl := h.entries l
  cases hf : fs.entryAt? l with
  | none => exact .inl (by simpa [hf] using hl)
  | some e =>
    cases hg : gs.entryAt? l with
    | none => simp [hf, hg] at hl
    | some e' => cases e <;> cases e' <;> simp_all [Entry.emptied]

theorem directory_iff (h : SameShape fs gs) (l : Location) :
    gs.entryAt? l = some .directory ↔ fs.entryAt? l = some .directory := by
  rcases h.entryAt?_eq_or_file l with heq | ⟨content, content', hf, hg⟩
  · rw [heq]
  · simp [hf, hg]

theorem file_iff (h : SameShape fs gs) (l : Location) :
    (∃ content, gs.entryAt? l = some (.file content)) ↔ ∃ content, fs.entryAt? l = some (.file content) := by
  rcases h.entryAt?_eq_or_file l with heq | ⟨content, content', hf, hg⟩
  · rw [heq]
  · simp [hf, hg]

theorem walkWith_eq (h : SameShape fs gs) (m : Manner)
    (follow : Location → List String → String → Except Stop Location) (here : Location) (parts : List String) :
    gs.walkWith m follow here parts = fs.walkWith m follow here parts := by
  induction parts generalizing here with
  | nil => rfl
  | cons name rest ih =>
    rcases h.entryAt?_eq_or_file (here ++ [name]) with heq | ⟨content, content', hf, hg⟩
    · simp only [walkWith, ne_eq, h.directory_iff here, heq, ih]
    · simp only [walkWith, ne_eq, h.directory_iff here, hf, hg, ih]

theorem walkWithin_eq (h : SameShape fs gs) (m : Manner) (depth : Nat) (active : List Location) :
    gs.walkWithin m depth active = fs.walkWithin m depth active := by
  induction depth generalizing active with
  | zero =>
    funext here parts
    exact h.walkWith_eq m _ here parts
  | succ depth ih =>
    funext here parts
    unfold walkWithin
    simp only [ih]
    exact h.walkWith_eq m _ here parts

theorem locate_eq (h : SameShape fs gs) (path : String) : gs.locate path = fs.locate path := by
  simp only [locate, walk, start, h.here, h.size, h.walkWithin_eq]

theorem target?_eq (h : SameShape fs gs) (path : String) : gs.target? path = fs.target? path := by
  ext l
  rw [target?_eq_some_iff, target?_eq_some_iff]
  simp only [openFile_eq_ok_iff, exists_and_left, h.locate_eq, h.file_iff]

/-- A path opens what it opened before if the file that it leads to, if any, still holds the same. -/
theorem openFile_eq_of_kept (h : SameShape fs gs) {path : String}
    (kept : ∀ l, fs.target? path = some l → gs.entryAt? l = fs.entryAt? l) : gs.openFile path = fs.openFile path := by
  unfold openFile find
  rw [h.locate_eq]
  cases hp : fs.locate path with
  | error f => rfl
  | ok l =>
    have heq : gs.entryAt? l = fs.entryAt? l := by
      rcases h.entryAt?_eq_or_file l with heq | ⟨content, -, hf, -⟩
      · exact heq
      · exact kept l (target?_eq_some_iff.mpr ⟨content, openFile_eq_ok_iff.mpr ⟨hp, hf⟩⟩)
    simp only [heq]

/-- Where a file stands, the same stands if the path that leads there opens the same. -/
theorem entryAt?_eq_of_opens {hs : Files} (h : SameShape fs gs) {path : String} {l : Location}
    (target : fs.target? path = some l) (same : gs.openFile path = hs.openFile path) :
    gs.entryAt? l = hs.entryAt? l := by
  obtain ⟨content, hopen⟩ := target?_eq_some_iff.mp ((h.target?_eq path).trans target)
  exact (openFile_eq_ok_iff.mp hopen).2.trans (openFile_eq_ok_iff.mp (same.symm.trans hopen)).2.symm

theorem resolve_eq (h : SameShape fs gs) (p : Path) : gs.resolve p = fs.resolve p := by
  simp only [resolve, walk, start, h.here, h.size, h.walkWithin_eq]

theorem isWithin_eq (h : SameShape fs gs) (path : String) (root : Location) :
    gs.isWithin path root = fs.isWithin path root := by
  rw [isWithin, isWithin, h.resolve_eq]

end SameShape

theorem put_entryAt? {fs : Files} {l : Location} {content : Bytes} (h : fs.entryAt? l = some (.file content))
    (e : Entry) (other : Location) :
    (fs.put l e).entryAt? other = if l = other then some e else fs.entryAt? other := by
  apply entryAt?_put
  rintro rfl
  simp [entryAt?] at h

/-- Writing to a file changes nothing but its content. -/
theorem sameShape_put {fs : Files} {l : Location} {content : Bytes} (h : fs.entryAt? l = some (.file content))
    (written : Bytes) : SameShape fs (fs.put l (.file written)) where
  here := rfl
  size := by
    apply Table.length_put_of_mem
    by_contra hn
    have hne : l ≠ [] := by
      rintro rfl
      simp [entryAt?] at h
    rw [entryAt?, if_neg hne, Table.get?_eq_none_iff.mpr hn] at h
    simp at h
  entries := by
    intro other
    rw [put_entryAt? h]
    split
    next he =>
      subst he
      simp [h, Entry.emptied]
    next => rfl

end Files
end ThreadLocal
