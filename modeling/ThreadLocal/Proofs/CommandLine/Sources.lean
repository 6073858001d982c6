import Mathlib.Data.List.Nodup
import ThreadLocal.CommandLine.Program
import ThreadLocal.Proofs.Build.Database
import ThreadLocal.Proofs.Files.Shape

/-!
The source files of a run. However often and however spelled a file is given, by options or by a compilation database,
it is one source file.
-/

namespace ThreadLocal
namespace Files

variable {fs : Files}

/-- No two of some names open the same file, and none of them comes twice. -/
structure NamesOnce (fs : Files) (names : List String) : Prop where
  nodup : names.Nodup
  apart : ∀ a ∈ names, ∀ b ∈ names, ∀ l, fs.target? a = some l → fs.target? b = some l → a = b

theorem canonical_of_target? {s : String} {l : Location} (h : fs.target? s = some l) : fs.canonical s = .ok l.text := by
  obtain ⟨content, hopen⟩ := target?_eq_some_iff.mp h
  exact canonical_of_openFile hopen

/-- A canonical name that opens a file is the text of its location. -/
theorem namesOnce_of_canonical {names : List String} (nodup : names.Nodup)
    (canonical : ∀ name ∈ names, fs.canonical name = .ok name) : fs.NamesOnce names where
  nodup := nodup
  apart := by
    intro a ha b hb l hal hbl
    have hatext := Except.ok.inj ((canonical a ha).symm.trans (canonical_of_target? hal))
    have hbtext := Except.ok.inj ((canonical b hb).symm.trans (canonical_of_target? hbl))
    rw [hatext, hbtext]

theorem canonicalOnce_of_forms {paths : List Path} {forms : List String}
    (h : List.Forall₂ (fun p form => (fs.resolve p).map Location.text = .ok form) paths forms) :
    fs.canonicalOnce paths = .ok (distinct forms) := by
  rw [canonicalOnce, mapM_eq_ok_iff.mpr h]
  rfl

theorem canonicalOnce_of_canonical {names : List String} (canonical : ∀ name ∈ names, fs.canonical name = .ok name) :
    fs.canonicalOnce (names.map Path.ofText) = .ok (distinct names) := by
  apply canonicalOnce_of_forms
  rw [List.forall₂_map_left_iff]
  exact List.forall₂_same.mpr canonical

section LoopFree

variable (lawful : fs.Lawful) (loopFree : fs.LoopFree)
include lawful loopFree

theorem canonical_of_resolve {p : Path} {form : String} (noSlash : ∀ name ∈ p.parts, '/' ∉ name.toList)
    (h : (fs.resolve p).map Location.text = .ok form) : fs.canonical form = .ok form := by
  obtain ⟨l, hl, rfl⟩ := map_eq_ok_iff.mp h
  exact (loopFree.settled lawful noSlash hl).canonical_text

/-- The canonical forms of some paths can be told, and each of them is its own canonical form. -/
theorem exists_forms {paths : List Path} (noSlash : ∀ p ∈ paths, ∀ name ∈ p.parts, '/' ∉ name.toList)
    (noNul : ∀ p ∈ paths, p.parts.any hasNul = false) :
    ∃ forms, List.Forall₂ (fun p form => (fs.resolve p).map Location.text = .ok form) paths forms ∧
      ∀ form ∈ forms, fs.canonical form = .ok form := by
  have hforms : ∀ p ∈ paths, ∃ form, (fs.resolve p).map Location.text = .ok form := by
    intro p hp
    obtain ⟨l, hl⟩ := loopFree.resolves (noNul p hp)
    exact ⟨_, map_eq_ok_iff.mpr ⟨l, hl, rfl⟩⟩
  obtain ⟨forms, hforms⟩ := exists_forall₂ hforms
  refine ⟨forms, hforms, fun form hform => ?_⟩
  obtain ⟨p, hp, hpform⟩ := exists_of_forall₂ hforms hform
  exact canonical_of_resolve lawful loopFree (noSlash p hp) hpform

/-- Whatever paths are given, the list of their canonical forms names no file twice. -/
theorem exists_canonicalOnce {paths : List Path} (noSlash : ∀ p ∈ paths, ∀ name ∈ p.parts, '/' ∉ name.toList)
    (noNul : ∀ p ∈ paths, p.parts.any hasNul = false) :
    ∃ forms names, List.Forall₂ (fun p form => (fs.resolve p).map Location.text = .ok form) paths forms ∧
      fs.canonicalOnce paths = .ok names ∧ IsFirstOccurrences forms names ∧
      (∀ name ∈ names, fs.canonical name = .ok name) ∧ fs.NamesOnce names := by
  obtain ⟨forms, hforms, hcanonical⟩ := exists_forms lawful loopFree noSlash noNul
  have hnames : ∀ name ∈ distinct forms, fs.canonical name = .ok name :=
    fun name hm => hcanonical name (mem_distinct.mp hm)
  exact ⟨forms, distinct forms, hforms, canonicalOnce_of_forms hforms, isFirstOccurrences_distinct forms, hnames,
    namesOnce_of_canonical (nodup_distinct forms) hnames⟩

end LoopFree
end Files

namespace CommandLine

variable {fs : Files}

/-- The sources of a run are those of its options and then those of a database, which is empty if none is given. -/
theorem sources_of_inputs {g : Given} {sources includes : List Path} (h : inputs fs g = .ok (sources, includes)) :
    ∃ (db : Database) (found : List Location), db.sources fs = .ok found ∧
      sources = (g.values source).map Path.ofText ++ found.map Path.ofLocation := by
  unfold inputs at h
  cases hdb : (g.values database).getLast? with
  | none =>
    obtain ⟨rfl, -⟩ : (g.values source).map Path.ofText = sources ∧ _ := by simpa [hdb, pure, Except.pure] using h
    exact ⟨⟨[]⟩, [], rfl, by simp⟩
  | some path =>
    simp only [hdb, bind_eq_ok_iff, mapError_eq_ok_iff] at h
    obtain ⟨db, -, found, hfound, includes', -, hall⟩ := h
    exact ⟨db, found, hfound, (Prod.mk.inj (Except.ok.inj hall)).1.symm⟩

theorem sourceFiles_of_workItem {g : Given} {sources includes : List Path} {work : WorkItem}
    (h : workItem fs g sources includes = .ok work) : fs.canonicalOnce sources = .ok work.sourceFiles := by
  simp only [workItem, bind_eq_ok_iff, mapError_eq_ok_iff] at h
  obtain ⟨includePaths, -, sourceFiles, hsources, root, -, hwork⟩ := h
  rw [hsources, ← Except.ok.inj hwork]

section LoopFree

variable (lawful : fs.Lawful) (loopFree : fs.LoopFree)
include lawful loopFree

/-- Files given by options and files of a database, put together. -/
theorem exists_allSources {texts : List String} (noNul : ∀ s ∈ texts, hasNul s = false) {db : Database}
    {found : List Location} (h : db.sources fs = .ok found) :
    ∃ all, fs.canonicalOnce (texts.map Path.ofText ++ found.map Path.ofLocation) = .ok all ∧ fs.NamesOnce all := by
  have hfound : ∀ l ∈ found, fs.Settled l := fun l hl => db.settled_of_source lawful loopFree h hl
  have hslash : ∀ p ∈ texts.map Path.ofText ++ found.map Path.ofLocation, ∀ name ∈ p.parts, '/' ∉ name.toList := by
    simp only [List.forall_mem_append, List.forall_mem_map]
    exact ⟨fun s _ _ => Path.slash_notMem_ofText, fun l hl name hm => ((hfound l hl).named name hm).2.2.2.1⟩
  have hnul : ∀ p ∈ texts.map Path.ofText ++ found.map Path.ofLocation, p.parts.any hasNul = false := by
    simp only [List.forall_mem_append, List.forall_mem_map]
    exact ⟨fun s hs => Files.noNul_ofText (noNul s hs), fun l hl => Files.noNul_of_resolve (hfound l hl).resolve⟩
  obtain ⟨-, all, -, hall, -, -, honce⟩ := Files.exists_canonicalOnce lawful loopFree hslash hnul
  exact ⟨all, hall, honce⟩

/-- Each source file is looked at under one name. The names of some paths are their canonical forms, each once, in the
order of first occurrence; naming the names again changes nothing, and paths that open the same file have the same
name. So no file is named twice by what the options and the compilation database say together. -/
theorem each_file_under_one_name {texts : List String} (noNul : ∀ s ∈ texts, hasNul s = false) :
    ∃ forms names, List.Forall₂ (fun s form => fs.canonical s = .ok form) texts forms ∧
      fs.canonicalOnce (texts.map Path.ofText) = .ok names ∧ IsFirstOccurrences forms names ∧
      fs.canonicalOnce (names.map Path.ofText) = .ok names ∧
      (∀ s ∈ texts, ∀ s' ∈ texts, ∀ l, fs.target? s = some l → fs.target? s' = some l →
        fs.canonical s = .ok l.text ∧ fs.canonical s' = .ok l.text ∧ names.count l.text = 1) ∧
      (∀ db : Database, (∀ c ∈ db.commands, ∃ p, c.filePath = .ok p ∧ p.parts.any hasNul = false) →
        ∃ found all, db.sources fs = .ok found ∧
          fs.canonicalOnce (texts.map Path.ofText ++ found.map Path.ofLocation) = .ok all ∧ fs.NamesOnce all) ∧
      ∀ g sources includes work, g.values source = texts → inputs fs g = .ok (sources, includes) →
        workItem fs g sources includes = .ok work → fs.NamesOnce work.sourceFiles := by
  obtain ⟨forms, names, hforms, hnames, hfirst, hcanonical, honce⟩ :=
    @Files.exists_canonicalOnce fs lawful loopFree (texts.map Path.ofText)
      (List.forall_mem_map.mpr fun s _ _ => Path.slash_notMem_ofText)
      (List.forall_mem_map.mpr fun s hs => Files.noNul_ofText (noNul s hs))
  rw [List.forall₂_map_left_iff] at hforms
  refine ⟨forms, names, hforms, hnames, hfirst, ?_, ?_, ?_, ?_⟩
  · rw [Files.canonicalOnce_of_canonical hcanonical, distinct_of_nodup honce.nodup]
  · intro s hs s' _ l hl hl'
    have hcs := Files.canonical_of_target? hl
    obtain ⟨form, hform, hsform⟩ := exists_of_forall₂ (R := flip _) hforms.flip hs
    obtain rfl := Except.ok.inj (hcs.symm.trans hsform)
    exact ⟨hcs, Files.canonical_of_target? hl', List.count_eq_one_of_mem honce.nodup ((hfirst.mem_iff _).mpr hform)⟩
  · intro db hdb
    obtain ⟨found, hfound⟩ := db.exists_sources loopFree hdb
    obtain ⟨all, hall, hallOnce⟩ := exists_allSources lawful loopFree noNul hfound
    exact ⟨found, all, hfound, hall, hallOnce⟩
  · intro g sources includes work htexts hinputs hwork
    obtain ⟨db, found, hfound, rfl⟩ := sources_of_inputs hinputs
    obtain ⟨all, hall, hallOnce⟩ := exists_allSources lawful loopFree noNul hfound
    rw [← htexts] at hall
    obtain rfl := Except.ok.inj (hall.symm.trans (sourceFiles_of_workItem hwork))
    exact hallOnce

end LoopFree

/-! A file to which two links lead, given by options in four spellings and by a database in a fifth. -/

namespace Respelled

def files : Files where
  entries := [
    (["src"], .directory),
    (["src", "a.c"], .file (Bytes.ofText "int a;\n")),
    (["src", "alias.c"], .link "./a.c"),
    (["tree"], .link "/src")]
  here := ["src"]

def given : List String := ["a.c", "alias.c", "../tree//./a.c", "gone.c", "/tree/../src/alias.c"]

def names : List String := ["/src/a.c", "/src/gone.c"]

def options : Given :=
  ⟨given.map (fun s => ⟨source.declared, some s⟩) ++ [⟨sourceRoot.declared, some "."⟩], []⟩

def database : Database :=
  ⟨[⟨.str "/tree", .str "../src/alias.c", .str "cc -c ../src/alias.c", .null, .null⟩]⟩

theorem lawful : files.Lawful :=
  Files.lawful_of_entries (by decide) (by decide)

theorem loopFree : files.LoopFree :=
  Files.loopFree_of_links (by decide +kernel)

end Respelled

/-- All spellings of the file come to one name, and so does the place at which the database has it. -/
theorem respelled_under_one_name :
    Respelled.files.canonicalOnce (Respelled.given.map Path.ofText) = .ok Respelled.names ∧
      Respelled.files.canonicalOnce (Respelled.names.map Path.ofText) = .ok Respelled.names ∧
      Respelled.database.sources Respelled.files = .ok [["src", "a.c"]] ∧
      Respelled.files.canonicalOnce (Respelled.given.map Path.ofText ++ [Path.ofLocation ["src", "a.c"]]) =
        .ok Respelled.names ∧
      workItem Respelled.files Respelled.options (Respelled.given.map Path.ofText) [] =
        .ok ⟨[], Respelled.names, "/src"⟩ ∧
      Respelled.files.NamesOnce Respelled.names := by
  obtain ⟨forms, names, -, hnames, -, hagain, -, hdatabase, hrun⟩ :=
    @each_file_under_one_name Respelled.files Respelled.lawful Respelled.loopFree Respelled.given (by decide)
  have hgiven : Respelled.files.canonicalOnce (Respelled.given.map Path.ofText) = .ok Respelled.names := by
    decide +kernel
  obtain rfl := Except.ok.inj (hgiven.symm.trans hnames)
  obtain ⟨found, all, hfound, hall, -⟩ := hdatabase Respelled.database
    (List.forall_mem_singleton.mpr ⟨Path.ofText "/tree/../src/alias.c", rfl, by decide⟩)
  have hsources : Respelled.database.sources Respelled.files = .ok [["src", "a.c"]] := by decide +kernel
  obtain rfl := Except.ok.inj (hsources.symm.trans hfound)
  have hsame : all = Respelled.names := by
    refine Except.ok.inj (hall.symm.trans ?_)
    decide +kernel
  have hwork : workItem Respelled.files Respelled.options (Respelled.given.map Path.ofText) [] =
      .ok ⟨[], Respelled.names, "/src"⟩ := by
    decide +kernel
  exact ⟨hgiven, hagain, hfound, hsame ▸ hall, hwork,
    hrun Respelled.options _ [] _ (by decide) (by decide +kernel) hwork⟩

end CommandLine
end ThreadLocal
