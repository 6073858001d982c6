import Mathlib.Tactic.SplitIfs
import ThreadLocal.CommandLine.Program
import ThreadLocal.Proofs.Edit.Agreement
import ThreadLocal.Proofs.Json.Printable
import ThreadLocal.Proofs.Text.Position

/-!
The listing of a plan: a line for every planned edit, the files by path and the edits of a file by line and
column.
-/

namespace ThreadLocal

theorem IsPrintable.ne_newline {c : Char} (h : IsPrintable c) : c ≠ '\n' := by
  rintro rfl
  exact absurd h (by decide)

/-- Line breaks are shown by an escape. -/
theorem Quoted.newline_notMem_escape {mark : Char} (hmark : mark ≠ '\n') (c : Char) : '\n' ∉ escape mark c := by
  have hhex : ∀ digits, '\n' ∉ Utf8.hexDigits digits c.toNat :=
    fun _ h => (Json.isPrintable_of_hexDigits _ h).ne_newline rfl
  unfold escape
  split_ifs with hmarked hbreak
  · rcases hmarked with rfl | rfl
    · simpa using hmark.symm
    · decide
  · decide
  · decide
  · decide
  · simpa using Ne.symm hbreak
  all_goals simp [hhex]

theorem newline_notMem_quoted (text : String) : '\n' ∉ (quoted text).toList := by
  have hmark : Quoted.quote text.toList ≠ '\n' := by
    unfold Quoted.quote
    split <;> decide
  simp [quoted, Quoted.encode, hmark.symm, Quoted.newline_notMem_escape hmark]

/-- A text that ends with a line break and has no other one. -/
def IsLine (text : String) : Prop :=
  ∃ body, text = body ++ "\n" ∧ '\n' ∉ body.toList

/-- What one line of a listing says: the file, the place in it and the edit there. -/
structure Listed where
  path : String
  position : Position
  edit : Edit
deriving DecidableEq, Repr

namespace Listed

def line (fs : Files) (x : Listed) : String :=
  fs.shown x.path ++ ":" ++ toString x.position.line ++ ":" ++ toString x.position.column ++ ": insert " ++
    quoted x.edit.text ++ "\n"

/-- It is a line unless the name of the file, as it is shown, has a line break. -/
theorem isLine_line {fs : Files} {x : Listed} (h : '\n' ∉ (fs.shown x.path).toList) : IsLine (x.line fs) := by
  have hnumber : ∀ i : Int, '\n' ∉ i.repr.toList :=
    fun i hi => (Json.isPrintable_of_toString i _ hi).ne_newline rfl
  refine ⟨_, rfl, ?_⟩
  simp [h, hnumber, newline_notMem_quoted]

/-- The edits of one file at their places; a file that cannot be read has none. -/
def ofFile (fs : Files) (path : String) (edits : List Edit) : List Listed :=
  match fs.read path with
  | .ok content => edits.map fun e => ⟨path, content.position e.offset, e⟩
  | .error _ => []

def ofEntries (fs : Files) (entries : List (String × List Edit)) : List Listed :=
  entries.flatMap fun e => ofFile fs e.1 e.2

theorem ofFile_of_read {fs : Files} {path : String} {content : Bytes} (readable : fs.read path = .ok content)
    (edits : List Edit) : ofFile fs path edits = edits.map fun e => ⟨path, content.position e.offset, e⟩ := by
  rw [ofFile, readable]

end Listed

/-- Every file named by some entries can be read. -/
def Files.Readable (fs : Files) (entries : List (String × List Edit)) : Prop :=
  ∀ e ∈ entries, ∃ content, fs.read e.1 = .ok content

/-- A listing of all planned edits, once each. The files come by path and the edits of a file by line and column; every
line tells the place of its edit in the file as it stands, which is the place of no other offset. -/
structure Plan.IsListedBy (plan : Plan) (fs : Files) (listing : List Listed) : Prop where
  complete : (listing.map fun x => (x.path, x.edit)).Perm (plan.flatMap fun e => e.2.map fun edit => (e.1, edit))
  ordered : listing.Pairwise fun a b => a.path < b.path ∨ a.path = b.path ∧ a.position.Before b.position
  placed : ∀ x ∈ listing, ∃ content, fs.read x.path = .ok content ∧ content.position x.edit.offset = x.position ∧
    ∀ offset, 0 ≤ offset → content.position offset = x.position → offset = x.edit.offset

namespace CommandLine

variable {fs : Files}

/-- If all files can be read, all lines are printed. -/
theorem planText_eq {entries : List (String × List Edit)} (readable : fs.Readable entries) :
    planText fs entries = (String.join ((Listed.ofEntries fs entries).map (Listed.line fs)), none) := by
  induction entries with
  | nil => rfl
  | cons e rest ih =>
    obtain ⟨path, edits⟩ := e
    obtain ⟨content, hread⟩ := readable _ List.mem_cons_self
    have hrest := ih fun e he => readable e (List.mem_cons_of_mem _ he)
    have hlines : plannedLines fs path edits =
        .ok (String.join ((Listed.ofFile fs path edits).map (Listed.line fs))) := by
      rw [plannedLines, hread, Listed.ofFile_of_read hread, List.map_map]
      rfl
    simp only [planText, hlines, hrest, Listed.ofEntries, List.flatMap_cons, List.map_append, String.join_append]

/-- Files are printed in the order of their paths. -/
theorem byPath_pairwise {plan : Plan} (distinct : (Table.keys plan).Nodup) :
    (byPath plan).Pairwise fun a b => a.1 < b.1 :=
  Table.pairwise_mergeSort distinct

end CommandLine

namespace Listed

variable {fs : Files} {entries : List (String × List Edit)}

theorem exists_of_mem {x : Listed} (h : x ∈ ofEntries fs entries) :
    ∃ edits content, (x.path, edits) ∈ entries ∧ x.edit ∈ edits ∧ fs.read x.path = .ok content ∧
      content.position x.edit.offset = x.position := by
  obtain ⟨e, he, hx⟩ := List.mem_flatMap.mp h
  cases hread : fs.read e.1 with
  | error f => simp [ofFile, hread] at hx
  | ok content =>
    rw [ofFile_of_read hread] at hx
    obtain ⟨edit, hedit, rfl⟩ := List.mem_map.mp hx
    exact ⟨e.2, content, he, hedit, hread, rfl⟩

theorem map_ofEntries (readable : fs.Readable entries) :
    (ofEntries fs entries).map (fun x => (x.path, x.edit)) =
      entries.flatMap fun e => e.2.map fun edit => (e.1, edit) := by
  unfold ofEntries
  rw [List.map_flatMap]
  apply List.flatMap_congr
  intro e he
  obtain ⟨content, hread⟩ := readable e he
  rw [ofFile_of_read hread, List.map_map]
  rfl

theorem ofFile_ordered {path : String} {edits : List Edit} (ascending : edits.Pairwise fun a b => a.offset < b.offset)
    (nonneg : ∀ e ∈ edits, 0 ≤ e.offset) :
    (ofFile fs path edits).Pairwise fun a b => a.path = b.path ∧ a.position.Before b.position := by
  cases hread : fs.read path with
  | error f => simp [ofFile, hread]
  | ok content =>
    rw [ofFile_of_read hread, List.pairwise_map]
    apply ascending.imp_of_mem
    intro a b ha _ hab
    exact ⟨rfl, Bytes.position_before (nonneg a ha) hab⟩

theorem path_of_mem_ofFile {path : String} {edits : List Edit} {x : Listed} (h : x ∈ ofFile fs path edits) :
    x.path = path := by
  cases hread : fs.read path with
  | error f => simp [ofFile, hread] at h
  | ok content =>
    rw [ofFile_of_read hread] at h
    obtain ⟨e, -, rfl⟩ := List.mem_map.mp h
    rfl

theorem ofEntries_ordered (paths : entries.Pairwise fun a b => a.1 < b.1)
    (ascending : ∀ e ∈ entries, e.2.Pairwise fun a b => a.offset < b.offset)
    (nonneg : ∀ e ∈ entries, ∀ edit ∈ e.2, 0 ≤ edit.offset) :
    (ofEntries fs entries).Pairwise fun a b => a.path < b.path ∨ a.path = b.path ∧ a.position.Before b.position := by
  unfold ofEntries
  rw [List.pairwise_flatMap]
  constructor
  · intro e he
    exact (ofFile_ordered (ascending e he) (nonneg e he)).imp Or.inr
  · apply paths.imp
    intro a b hab x hx y hy
    rw [path_of_mem_ofFile hx, path_of_mem_ofFile hy]
    exact .inl hab

end Listed

/-- What is printed of a plan whose files can all be read lists the plan. -/
theorem CommandLine.planText_lists {plan : Plan} {proposals : List Proposal} {fs : Files}
    (h : plan.Represents proposals) (readable : fs.Readable plan) :
    ∃ listing, plan.IsListedBy fs listing ∧
      planText fs (byPath plan) = (String.join (listing.map (Listed.line fs)), none) := by
  have hperm : (byPath plan).Perm plan := List.mergeSort_perm plan _
  have hreadable : fs.Readable (byPath plan) := fun e he => readable e (hperm.mem_iff.mp he)
  have hget : ∀ e ∈ byPath plan, Table.get? plan e.1 = some e.2 :=
    fun e he => Table.get?_of_mem h.paths_nodup (hperm.mem_iff.mp he)
  have hnonneg : ∀ e ∈ byPath plan, ∀ edit ∈ e.2, 0 ≤ edit.offset := by
    intro e he edit hedit
    obtain ⟨p, -, -, rfl⟩ := (h.mem_edits e.1 e.2 (hget e he) edit).mp hedit
    exact Int.natCast_nonneg _
  refine ⟨Listed.ofEntries fs (byPath plan), ⟨?_, ?_, ?_⟩, planText_eq hreadable⟩
  · rw [Listed.map_ofEntries hreadable]
    exact hperm.flatMap_right _
  · exact Listed.ofEntries_ordered (byPath_pairwise h.paths_nodup)
      (fun e he => h.ascending e.1 e.2 (hget e he)) hnonneg
  · intro x hx
    obtain ⟨edits, content, he, hedit, hread, hposition⟩ := Listed.exists_of_mem hx
    refine ⟨content, hread, hposition, ?_⟩
    intro offset hoffset hsame
    exact Bytes.eq_of_position_eq hoffset (hnonneg _ he _ hedit) (hsame.trans hposition.symm)

end ThreadLocal
