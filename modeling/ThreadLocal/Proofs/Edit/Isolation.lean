import ThreadLocal.Proofs.Edit.Splicing
import ThreadLocal.Proofs.Edit.Writing

/-!
What writing a plan does to each file: the file of an entry whose edits fit gets their patch, every other one stays as
it is, and the entries that cannot be carried out fail. The order of the entries and of their edits does not count.
-/

namespace ThreadLocal

namespace Edit

variable {a b c : Edit} {edits edits' : List Edit}

theorem atMost_iff : a.atMost b = true ↔ a.offset < b.offset ∨
    a.offset = b.offset ∧ (a.length < b.length ∨ a.length = b.length ∧ a.text ≤ b.text) := by
  simp [atMost]

theorem atMost_trans (hab : a.atMost b = true) (hbc : b.atMost c = true) : a.atMost c = true := by
  have htext : a.text ≤ b.text → b.text ≤ c.text → a.text ≤ c.text := String.le_trans
  rw [atMost_iff] at *
  grind

theorem atMost_total (a b : Edit) : (a.atMost b || b.atMost a) = true := by
  have htext : a.text ≤ b.text ∨ b.text ≤ a.text := String.le_total a.text b.text
  rw [Bool.or_eq_true, atMost_iff, atMost_iff]
  grind

theorem atMost_antisymm (hab : a.atMost b = true) (hba : b.atMost a = true) : a = b := by
  have htext : a.text ≤ b.text → b.text ≤ a.text → a.text = b.text := String.le_antisymm
  rw [atMost_iff] at *
  obtain ⟨o, n, s⟩ := a
  obtain ⟨o', n', s'⟩ := b
  grind

theorem mem_sort {e : Edit} : e ∈ Edit.sort edits ↔ e ∈ edits :=
  List.mem_mergeSort

/-- Sorting forgets in which order the edits came. -/
theorem sort_eq_of_perm (h : edits.Perm edits') : Edit.sort edits = Edit.sort edits' := by
  have hsorted : ∀ edits, (Edit.sort edits).Pairwise fun a b => a.atMost b = true := by
    apply List.pairwise_mergeSort
    · exact fun _ _ _ => atMost_trans
    · exact atMost_total
  have hperm : (Edit.sort edits).Perm (Edit.sort edits') :=
    ((List.mergeSort_perm edits _).trans h).trans (List.mergeSort_perm edits' _).symm
  exact hperm.eq_of_pairwise (fun _ _ _ _ => atMost_antisymm) (hsorted edits) (hsorted edits')

end Edit

/-- The path opens the file at `l`; of its edits, in ascending order, each ends before any later one begins, and none
ends past the content. -/
structure Files.Accepts (fs : Files) (path : String) (edits : List Edit) (l : Location) (content : Bytes) : Prop where
  opens : fs.openFile path = .ok (l, content)
  apart : Edit.Apart (Edit.sort edits)
  inside : ∀ e ∈ edits, e.offset + e.length ≤ content.length

namespace Files

variable {fs : Files} {path : String} {edits : List Edit} {l : Location} {content : Bytes}

theorem accepts_iff (nonneg : ∀ e ∈ edits, 0 ≤ e.offset ∧ 0 ≤ e.length) :
    fs.Accepts path edits l content ↔ ∃ written, fs.Rewrites path edits l content written := by
  have hsorted : ∀ e ∈ Edit.sort edits, 0 ≤ e.offset ∧ 0 ≤ e.length := fun e he => nonneg e (Edit.mem_sort.mp he)
  constructor
  · intro h
    have hfits : Patch.Fits content.length 0 (Edit.sort edits) := by
      refine Patch.fits_iff.mpr ⟨?_, h.apart.isChain, fun e he => h.inside e (Edit.mem_sort.mp he)⟩
      exact fun e he => (hsorted e (List.mem_of_mem_head? he)).1
    obtain ⟨written, hpatch⟩ := Patch.exists_applyFrom_iff.mpr hfits
    exact ⟨written, h.opens, hpatch⟩
  · rintro ⟨written, h⟩
    have hfits := Patch.exists_applyFrom_iff.mp ⟨written, h.patched⟩
    refine ⟨h.opens, hfits.apart fun e he => (hsorted e he).2, ?_⟩
    exact fun e he => (Patch.fits_iff.mp hfits).2.2 e (Edit.mem_sort.mpr he)

theorem refuses_of_not_accepts (nonneg : ∀ e ∈ edits, 0 ≤ e.offset ∧ 0 ≤ e.length)
    (h : ∀ l content, ¬ fs.Accepts path edits l content) : ∃ fault, fs.Refuses path edits fault := by
  rcases fs.rewrites_or_refuses path edits with ⟨l, content, written, hr⟩ | hrefuses
  · exact absurd ((accepts_iff nonneg).mpr ⟨written, hr⟩) (h l content)
  · exact hrefuses

end Files

/-- What writing a plan leaves in the files and in the failures. -/
structure Plan.Effect (plan : Plan) (fs : Files) (failures : Failures) (fate : Fate) (w : Writing) : Prop where
  shape : Files.SameShape fs w.files
  unchanged : ∀ l, (∀ path edits, (path, edits) ∈ plan → edits ≠ [] → ∀ content, ¬ fs.Accepts path edits l content) →
    w.files.entryAt? l = fs.entryAt? l
  patched : ∀ path edits, (path, edits) ∈ plan → edits ≠ [] → ∀ l content, fs.Accepts path edits l content →
    ∃ written, patch content (Edit.sort edits) = .ok written ∧
      w.files.entryAt? l = some (.file (fate l content written).1) ∧
      Table.get? w.failures path = ((fate l content written).2.map .disk).or (Table.get? failures path)
  failed : ∀ path edits, (path, edits) ∈ plan → edits ≠ [] → (∀ l content, ¬ fs.Accepts path edits l content) →
    ∃ fault, fs.Refuses path edits fault ∧ Table.get? w.failures path = some fault
  kept : ∀ path, (∀ edits, (path, edits) ∈ plan → edits = []) →
    Table.get? w.failures path = Table.get? failures path

/-- The same paths, each with the same edits, in whatever order. -/
structure Plan.Alike (plan plan' : Plan) : Prop where
  distinct : (Table.keys plan').Nodup
  edits : ∀ path, Option.Rel List.Perm (Table.get? plan path) (Table.get? plan' path)

namespace Plan.Alike

variable {plan plan' : Plan}

theorem mem_keys (h : plan.Alike plan') (path : String) : path ∈ Table.keys plan' ↔ path ∈ Table.keys plan := by
  have hedits := h.edits path
  rw [← not_iff_not, ← Table.get?_eq_none_iff, ← Table.get?_eq_none_iff]
  generalize Table.get? plan path = there at hedits
  generalize Table.get? plan' path = there' at hedits
  cases hedits <;> simp

theorem exists_perm (h : plan.Alike plan') {path : String} {edits : List Edit}
    (he : Table.get? plan path = some edits) : ∃ edits', (path, edits') ∈ plan' ∧ edits.Perm edits' := by
  have hedits := h.edits path
  rw [he] at hedits
  cases hget : Table.get? plan' path with
  | none =>
    rw [hget] at hedits
    cases hedits
  | some edits' =>
    rw [hget] at hedits
    cases hedits with
    | some hperm => exact ⟨edits', Table.mem_of_get? hget, hperm⟩

theorem separate {fs : Files} (h : plan.Alike plan') (separate : plan.Separate fs) : plan'.Separate fs := by
  apply List.Pairwise.imp_of_mem _ h.distinct
  intro path other hpath hother hne
  exact List.Pairwise.forall separate ((h.mem_keys path).mp hpath) ((h.mem_keys other).mp hother) hne

end Plan.Alike

/-- The order of the edits does not count. -/
theorem Writing.write_perm {edits edits' : List Edit} (h : edits.Perm edits') (disk : Disk) (r : Writing)
    (path : String) : r.write disk path edits = r.write disk path edits' := by
  simp only [write, Files.patchFile, Edit.sort_eq_of_perm h, h.isEmpty_eq]

section

variable {plan plan' : Plan} {fs : Files} {failures : Failures} {fate : Fate}

theorem writePlan_agreesAt (separate : plan.Separate fs) {path : String} {edits : List Edit}
    (he : (path, edits) ∈ plan) : (writePlan fs failures plan fate.disk).AgreesAt path
      (Writing.write fate.disk ⟨fs, failures, [], none⟩ path edits) :=
  @Writing.foldl_agreesAt fate ⟨fs, failures, [], none⟩ path plan edits rfl separate he

/-- What no key opens stays as it was. -/
theorem writePlan_entryAt? {l : Location} (hne : ∀ path ∈ Table.keys plan, fs.target? path ≠ some l) :
    (writePlan fs failures plan fate.disk).files.entryAt? l = fs.entryAt? l :=
  @Writing.foldl_entryAt? fate ⟨fs, failures, [], none⟩ plan l rfl fun e he => hne e.1 (List.mem_map_of_mem he)

theorem writePlan_effect (separate : plan.Separate fs)
    (nonneg : ∀ entry ∈ plan, ∀ e ∈ entry.2, 0 ≤ e.offset ∧ 0 ≤ e.length) (failures : Failures) (fate : Fate) :
    plan.Effect fs failures fate (writePlan fs failures plan fate.disk) where
  shape := writePlan_sameShape fs failures plan fate
  unchanged := by
    intro l hnone
    by_cases hkey : ∃ e ∈ plan, fs.target? e.1 = some l
    · obtain ⟨⟨path, edits⟩, he, htarget⟩ := hkey
      have hopen := (@writePlan_agreesAt plan fs failures fate separate path edits he).opens
      have hidle : (Writing.write fate.disk ⟨fs, failures, [], none⟩ path edits).files = fs := by
        by_cases hnil : edits = []
        · rw [hnil, Writing.write_nil]
        have hrefused : ∀ l' content, ¬ fs.Accepts path edits l' content := by
          intro l' content haccepts
          have htarget' := Files.target?_eq_some_iff.mpr ⟨content, haccepts.opens⟩
          obtain rfl := Option.some.inj (htarget'.symm.trans htarget)
          exact hnone path edits he hnil content haccepts
        obtain ⟨fault, hrefuses⟩ := Files.refuses_of_not_accepts (nonneg _ he) hrefused
        rw [Writing.write_files rfl hnil, hrefuses.patchFile_eq]
      rw [hidle] at hopen
      exact (writePlan_sameShape fs failures plan fate).entryAt?_eq_of_opens htarget hopen
    · apply writePlan_entryAt?
      intro path hpath htarget
      obtain ⟨e, he, rfl⟩ := List.mem_map.mp hpath
      exact hkey ⟨e, he, htarget⟩
  patched := by
    intro path edits he hnil l content haccepts
    obtain ⟨written, hr⟩ := (Files.accepts_iff (nonneg _ he)).mp haccepts
    obtain ⟨hopen, hfailure⟩ := @writePlan_agreesAt plan fs failures fate separate path edits he
    rw [Writing.write_files rfl hnil, hr.patchFile_eq, hr.openFile_put] at hopen
    rw [Writing.write_failures rfl hnil, hr.patchFile_eq] at hfailure
    exact ⟨written, hr.patched, (Files.openFile_eq_ok_iff.mp hopen).2, hfailure⟩
  failed := by
    intro path edits he hnil hnone
    obtain ⟨fault, hrefuses⟩ := Files.refuses_of_not_accepts (nonneg _ he) hnone
    have hfailure := (@writePlan_agreesAt plan fs failures fate separate path edits he).failure
    rw [Writing.write_failures rfl hnil, hrefuses.patchFile_eq] at hfailure
    exact ⟨fault, hrefuses, hfailure⟩
  kept := by
    intro path hnil
    by_cases hkey : path ∈ Table.keys plan
    · obtain ⟨⟨_, edits⟩, he, rfl⟩ := List.mem_map.mp hkey
      have hfailure := (@writePlan_agreesAt plan fs failures fate separate _ edits he).failure
      rwa [hnil edits he, Writing.write_nil] at hfailure
    · exact Writing.foldl_failures_other hkey

/-- The order of the entries and of their edits does not count. -/
theorem writePlan_alike (separate : plan.Separate fs) (alike : plan.Alike plan') (failures : Failures) (fate : Fate) :
    (∀ l, (writePlan fs failures plan' fate.disk).files.entryAt? l =
      (writePlan fs failures plan fate.disk).files.entryAt? l) ∧
    ∀ path, Table.get? (writePlan fs failures plan' fate.disk).failures path =
      Table.get? (writePlan fs failures plan fate.disk).failures path := by
  have hkey : ∀ path ∈ Table.keys plan,
      (writePlan fs failures plan' fate.disk).AgreesAt path (writePlan fs failures plan fate.disk) := by
    intro path hpath
    obtain ⟨⟨_, edits⟩, he, rfl⟩ := List.mem_map.mp hpath
    have hget := Table.get?_of_mem (separate.imp Files.Foreign.ne) he
    obtain ⟨edits', he', hperm⟩ := alike.exists_perm hget
    have hfirst := @writePlan_agreesAt plan fs failures fate separate _ edits he
    have hsecond := @writePlan_agreesAt plan' fs failures fate (alike.separate separate) _ edits' he'
    rw [← Writing.write_perm hperm] at hsecond
    exact hsecond.trans hfirst.symm
  constructor
  · intro l
    by_cases hopened : ∃ path ∈ Table.keys plan, fs.target? path = some l
    · obtain ⟨path, hpath, htarget⟩ := hopened
      exact (writePlan_sameShape fs failures plan' fate).entryAt?_eq_of_opens htarget (hkey path hpath).opens
    · rw [writePlan_entryAt? fun path hpath htarget => hopened ⟨path, hpath, htarget⟩,
        writePlan_entryAt? fun path hpath htarget => hopened ⟨path, (alike.mem_keys path).mp hpath, htarget⟩]
  · intro path
    by_cases hpath : path ∈ Table.keys plan
    · exact (hkey path hpath).failure
    · rw [writePlan_failures_of_not_mem hpath, writePlan_failures_of_not_mem (mt (alike.mem_keys path).mp hpath)]

end

namespace Mixed

def files : Files where
  entries := [(["two.c"], .file (Bytes.ofText "static int x;\nint y;\n")), (["dir"], .directory),
    (["alias.c"], .link "short.c"), (["short.c"], .file (Bytes.ofText "x")),
    (["over.c"], .file (Bytes.ofText "abcdef")), (["idle.c"], .file (Bytes.ofText "int z;\n"))]
  here := []

def plan : Plan :=
  [("/missing.c", [⟨0, 0, "__thread "⟩]), ("/two.c", [⟨14, 0, "__thread "⟩, ⟨7, 0, "__thread "⟩]),
    ("/dir", [⟨0, 0, "__thread "⟩]), ("alias.c", [⟨10, 0, "__thread "⟩]), ("/over.c", [⟨1, 3, "X"⟩, ⟨2, 0, "Y"⟩]),
    ("/idle.c", [])]

def reordered : Plan :=
  [("/idle.c", []), ("/over.c", [⟨2, 0, "Y"⟩, ⟨1, 3, "X"⟩]), ("alias.c", [⟨10, 0, "__thread "⟩]),
    ("/dir", [⟨0, 0, "__thread "⟩]), ("/two.c", [⟨7, 0, "__thread "⟩, ⟨14, 0, "__thread "⟩]),
    ("/missing.c", [⟨0, 0, "__thread "⟩])]

/-- Two files failed before, one of them for good reason then. -/
def earlier : Failures :=
  [("/two.c", .access (.refused .noEntry "/two.c")), ("/missing.c", .patch (.overlap 0 1))]

theorem separate : plan.Separate files := by
  have h : (Table.keys plan).Pairwise files.Foreign := by decide +kernel
  exact h

theorem alike : plan.Alike reordered where
  distinct := by decide
  edits := by
    intro path
    by_cases hkey : path ∈ Table.keys plan
    · simp only [plan, Table.keys, List.map_cons, List.map_nil, List.mem_cons, List.not_mem_nil, or_false] at hkey
      rcases hkey with rfl | rfl | rfl | rfl | rfl | rfl
      all_goals exact .some (by decide)
    · have hkey' : path ∉ Table.keys reordered := by
        simp only [plan, reordered, Table.keys, List.map_cons, List.map_nil, List.mem_cons, List.not_mem_nil] at hkey ⊢
        tauto
      rw [Table.get?_eq_none_iff.mpr hkey, Table.get?_eq_none_iff.mpr hkey']
      exact .none

theorem sort_two : Edit.sort [⟨14, 0, "__thread "⟩, ⟨7, 0, "__thread "⟩] =
    [⟨7, 0, "__thread "⟩, ⟨14, 0, "__thread "⟩] := by
  rw [Edit.sort_eq_of_perm (List.Perm.swap ..), Edit.sort_of_ascending (by decide)]

theorem accepts_two : files.Accepts "/two.c" [⟨14, 0, "__thread "⟩, ⟨7, 0, "__thread "⟩] ["two.c"]
    (Bytes.ofText "static int x;\nint y;\n") where
  opens := by decide +kernel
  apart := by
    rw [sort_two]
    decide
  inside := by decide +kernel

theorem openFile_missing : files.openFile "/missing.c" = .error (.refused .noEntry "/missing.c") := by
  decide +kernel

/-- The link leads to the only key for this file, and there is no place for its edit. -/
theorem not_accepts_short {path : String} {edits : List Edit} (he : (path, edits) ∈ plan) (content : Bytes) :
    ¬ files.Accepts path edits ["short.c"] content := by
  intro h
  have htarget : files.target? path = some ["short.c"] := Files.target?_eq_some_iff.mpr ⟨content, h.opens⟩
  have hlink : ∀ entry ∈ plan, files.target? entry.1 = some ["short.c"] →
      entry = ("alias.c", [⟨10, 0, "__thread "⟩]) := by
    decide +kernel
  obtain ⟨rfl, rfl⟩ := Prod.mk.inj (hlink _ he htarget)
  have hopen : files.openFile "alias.c" = .ok (["short.c"], Bytes.ofText "x") := by decide +kernel
  obtain ⟨-, rfl⟩ := Prod.mk.inj (Except.ok.inj (hopen.symm.trans h.opens))
  have hinside := h.inside ⟨10, 0, "__thread "⟩ (by simp)
  revert hinside
  decide +kernel

end Mixed

end ThreadLocal
