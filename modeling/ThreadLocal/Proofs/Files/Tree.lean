import Mathlib.Data.List.Basic
import ThreadLocal.Files.Access

/-!
File systems whose entries form a tree. What stands at a location can be reached by the location's text,
and a path that can be opened resolves to the location that it leads to.
-/

namespace ThreadLocal

/-- A name that can stand between two slashes and is no dot or double dot. -/
def IsName (name : String) : Prop :=
  name ≠ "" ∧ name ≠ "." ∧ name ≠ ".." ∧ '/' ∉ name.toList ∧ '\x00' ∉ name.toList

instance (name : String) : Decidable (IsName name) :=
  inferInstanceAs (Decidable (_ ∧ _))

theorem slashPieces_of_noSlash {cs : List Char} (h : '/' ∉ cs) : slashPieces cs = [cs] := by
  induction cs with
  | nil => rfl
  | cons c rest ih =>
    simp only [List.mem_cons, not_or] at h
    simp [slashPieces, Ne.symm h.1, ih h.2]

theorem slashPieces_append_slash {cs : List Char} (h : '/' ∉ cs) (rest : List Char) :
    slashPieces (cs ++ '/' :: rest) = cs :: slashPieces rest := by
  induction cs with
  | nil => simp [slashPieces]
  | cons c tail ih =>
    simp only [List.mem_cons, not_or] at h
    simp [slashPieces, Ne.symm h.1, ih h.2]

theorem slashPieces_intercalate {names : List (List Char)} (hne : names ≠ [])
    (h : ∀ cs ∈ names, '/' ∉ cs) : slashPieces (['/'].intercalate names) = names := by
  induction names with
  | nil => exact absurd rfl hne
  | cons cs rest ih =>
    have hcs := h cs (by simp)
    cases rest with
    | nil => simpa using slashPieces_of_noSlash hcs
    | cons next others =>
      have hrest := ih (by simp) (fun x hx => h x (List.mem_cons_of_mem _ hx))
      rw [List.intercalate_cons_cons]
      simpa [hrest] using slashPieces_append_slash hcs (['/'].intercalate (next :: others))

namespace Location

theorem toList_text (l : Location) : l.text.toList = '/' :: ['/'].intercalate (l.map String.toList) := by
  simp [Location.text, Path.text, Path.ofLocation, Anchor.text]

theorem pieces_text {l : Location} (hne : l ≠ []) (names : ∀ name ∈ l, IsName name) :
    Files.pieces l.text = "" :: l := by
  have hsplit : slashPieces (['/'].intercalate (l.map String.toList)) = l.map String.toList := by
    apply slashPieces_intercalate (by simpa using hne)
    intro cs hcs
    obtain ⟨name, hm, rfl⟩ := List.mem_map.mp hcs
    exact (names name hm).2.2.2.1
  simp [Files.pieces, toList_text, slashPieces, hsplit, Function.comp_def]

theorem hasNul_text {l : Location} (names : ∀ name ∈ l, IsName name) : hasNul l.text = false := by
  have hn : '\x00' ∉ ['/'].intercalate (l.map String.toList) := by
    induction l with
    | nil => simp
    | cons name rest ih =>
      have hname := (names name (by simp)).2.2.2.2
      have hrest := ih (fun x hx => names x (List.mem_cons_of_mem _ hx))
      cases rest with
      | nil => simpa using hname
      | cons next others =>
        simp only [List.map_cons, List.intercalate_cons_cons] at hrest ⊢
        simp [hname, hrest]
  simp [hasNul, toList_text, hn]

end Location

namespace Files

/-- Names are names, and whatever stands somewhere stands in a directory. -/
structure IsTree (fs : Files) : Prop where
  named : ∀ l e, fs.entryAt? l = some e → ∀ name ∈ l, IsName name
  housed : ∀ l name e, fs.entryAt? (l ++ [name]) = some e → fs.entryAt? l = some .directory

/-- The entries of the table tell whether a file system is a tree. -/
theorem isTree_of_entries {fs : Files}
    (h : ∀ e ∈ fs.entries, (∀ name ∈ e.1, IsName name) ∧ fs.entryAt? e.1.dropLast = some .directory) :
    fs.IsTree where
  named := by
    intro l e he name hn
    unfold entryAt? at he
    split at he
    next hl => simp [hl] at hn
    next => exact (h _ (Table.mem_of_get? he)).1 name hn
  housed := by
    intro l name e he
    unfold entryAt? at he
    split at he
    next hl => simp at hl
    next => simpa using (h _ (Table.mem_of_get? he)).2

theorem IsTree.above {fs : Files} (tree : fs.IsTree) {l rest : Location} {e : Entry}
    (h : fs.entryAt? (l ++ rest) = some e) (hne : rest ≠ []) : fs.entryAt? l = some .directory := by
  induction rest generalizing l with
  | nil => exact absurd rfl hne
  | cons name others ih =>
    have hnext : ∃ e', fs.entryAt? (l ++ [name]) = some e' := by
      cases others with
      | nil => exact ⟨e, h⟩
      | cons next more => exact ⟨_, ih (l := l ++ [name]) (by simpa using h) (by simp)⟩
    obtain ⟨e', he'⟩ := hnext
    exact tree.housed l name e' he'

theorem openFile_eq_ok_iff {fs : Files} {path : String} {l : Location} {content : Bytes} :
    fs.openFile path = .ok (l, content) ↔
      fs.locate path = .ok l ∧ fs.entryAt? l = some (.file content) := by
  unfold openFile find
  cases hl : fs.locate path with
  | error f => simp
  | ok place =>
    constructor
    · intro h
      cases he : fs.entryAt? place with
      | none => simp [he] at h
      | some e =>
        cases e with
        | file found =>
          obtain ⟨rfl, rfl⟩ : place = l ∧ found = content := by simpa [he] using h
          exact ⟨rfl, he⟩
        | directory => simp [he] at h
        | link target => simp [he] at h
    · rintro ⟨hp, he⟩
      cases Except.ok.inj hp
      simp [he]

theorem read_eq_ok_iff {fs : Files} {path : String} {content : Bytes} :
    fs.read path = .ok content ↔ ∃ l, fs.openFile path = .ok (l, content) := by
  unfold read
  cases fs.openFile path with
  | error f => simp [Except.map]
  | ok place => simp [Except.map, Prod.ext_iff]

/-- No link stands in the way of a location at which something stands. -/
theorem walkWith_of_entry {fs : Files} (tree : fs.IsTree) (m : Manner)
    (follow : Location → List String → String → Except Stop Location) {e : Entry}
    (plain : ∀ target, e ≠ .link target) {here rest : Location} (h : fs.entryAt? (here ++ rest) = some e) :
    fs.walkWith m follow here rest = .ok (here ++ rest) := by
  induction rest generalizing here with
  | nil => simp [walkWith]
  | cons name others ih =>
    have hdir := tree.above h (by simp)
    obtain ⟨hn, hdot, hdots, -⟩ := tree.named _ _ h name (by simp)
    have hnext : ∃ e', fs.entryAt? (here ++ [name]) = some e' ∧ ∀ target, e' ≠ .link target := by
      cases others with
      | nil => exact ⟨e, h, plain⟩
      | cons next more =>
        have hsplit : fs.entryAt? ((here ++ [name]) ++ next :: more) = some e := by simpa using h
        exact ⟨_, tree.above hsplit (by simp), by simp⟩
    obtain ⟨e', he', hplain⟩ := hnext
    have hgo := @ih (here ++ [name]) (by simpa using h)
    simp only [walkWith, hdir, ne_eq, not_true_eq_false, and_false, if_false, hn, hdot, or_self, hdots, he']
    cases e' with
    | file content => simpa using hgo
    | directory => simpa using hgo
    | link target => exact absurd rfl (hplain target)

theorem walk_of_entry {fs : Files} (tree : fs.IsTree) (m : Manner) {e : Entry}
    (plain : ∀ target, e ≠ .link target) {l : Location} (h : fs.entryAt? l = some e) :
    fs.walk m [] l = .ok l := by
  exact @walkWith_of_entry fs tree m _ e plain [] l h

/-- The text of a file's location opens the file. -/
theorem openFile_text {fs : Files} (tree : fs.IsTree) {l : Location} {content : Bytes}
    (h : fs.entryAt? l = some (.file content)) : fs.openFile l.text = .ok (l, content) := by
  have hne : l ≠ [] := by
    rintro rfl
    simp [entryAt?] at h
  have names := tree.named l _ h
  have hanchor : fs.start (Path.anchorOf l.text.toList) = [] := by
    have : Path.anchorOf l.text.toList ≠ .relative := by
      rw [Location.toList_text]
      unfold Path.anchorOf
      split <;> simp_all
    simp [start, this]
  have htext : l.text ≠ "" := by
    intro he
    have := Location.toList_text l
    simp [he] at this
  have hwalk : fs.walk .strict [] ("" :: l) = .ok l := by
    have hl := walk_of_entry tree .strict (by simp) h
    unfold walk walkWithin at hl ⊢
    simpa [walkWith, entryAt?] using hl
  refine openFile_eq_ok_iff.mpr ⟨?_, h⟩
  simp [locate, Location.hasNul_text names, htext, hanchor, Location.pieces_text hne names, hwalk]

end Files
end ThreadLocal
