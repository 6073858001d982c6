import ThreadLocal.Proofs.Edit.Agreement
import ThreadLocal.Proofs.Edit.Insertion
import ThreadLocal.Proofs.Edit.Writing

/-!
Edits that overlap. Merging looks for differences at one place only and so lets them pass; patching refuses the file
for which they are planned.
-/

namespace ThreadLocal

/-- Every edit ends before any later one begins. -/
def Edit.Apart (edits : List Edit) : Prop :=
  edits.Pairwise fun a b => a.offset + a.length ≤ b.offset

instance (edits : List Edit) : Decidable (Edit.Apart edits) :=
  inferInstanceAs (Decidable (List.Pairwise _ _))

/-- In ascending order whatever begins earlier stands earlier, and so it ends before the other begins. -/
theorem Edit.Apart.end_le {edits : List Edit} (apart : Edit.Apart edits)
    (ascending : edits.Pairwise fun a b => a.offset < b.offset) {a b : Edit} (ha : a ∈ edits) (hb : b ∈ edits)
    (h : a.offset < b.offset) : a.offset + a.length ≤ b.offset := by
  induction edits with
  | nil => simp at ha
  | cons e rest ih =>
    obtain ⟨hfirst, hrest⟩ := List.pairwise_cons.mp apart
    obtain ⟨hlater, hascending⟩ := List.pairwise_cons.mp ascending
    rcases List.mem_cons.mp ha with rfl | ha'
    · rcases List.mem_cons.mp hb with rfl | hb'
      · omega
      · exact hfirst b hb'
    · rcases List.mem_cons.mp hb with rfl | hb'
      · have := hlater a ha'
        omega
      · exact ih hrest hascending ha' hb'

/-- A proposal for a file begins inside the span that another one replaces. -/
def Overlapping (proposals : List Proposal) (path : String) : Prop :=
  ∃ p ∈ proposals, ∃ q ∈ proposals, p.path = path ∧ q.path = path ∧ p.offset < q.offset ∧
    q.offset < p.offset + p.length

namespace Patch

variable {content written : Bytes} {size : Nat} {cursor : Int} {edits : List Edit}

/-- Every edit begins where the one before it ends or later, the first one at `cursor` or later, and none ends past
`size` bytes. -/
def Fits (size : Nat) (cursor : Int) : List Edit → Prop
  | [] => True
  | e :: rest => cursor ≤ e.offset ∧ e.offset + e.length ≤ size ∧ Fits size (e.offset + e.length) rest

theorem applyFrom_cons_eq_ok_iff {e : Edit} {rest : List Edit} :
    applyFrom content cursor (e :: rest) = .ok written ↔
      cursor ≤ e.offset ∧ e.offset + e.length ≤ content.length ∧
        ∃ tail, applyFrom content (e.offset + e.length) rest = .ok tail ∧
          written = content.slice cursor e.offset ++ Bytes.ofText e.text ++ tail := by
  rw [applyFrom]
  by_cases hlow : e.offset < cursor
  · simp [hlow, Int.not_le.mpr hlow]
  by_cases hhigh : (content.length : Int) < e.offset + e.length
  · simp [hlow, hhigh, Int.not_le.mpr hhigh]
  rw [if_neg hlow, if_neg hhigh, and_iff_right (Int.not_lt.mp hlow), and_iff_right (Int.not_lt.mp hhigh)]
  cases applyFrom content (e.offset + e.length) rest with
  | error f => simp
  | ok tail => simp [eq_comm]

/-- Just the edits that fit are applied. -/
theorem exists_applyFrom_iff : (∃ written, applyFrom content cursor edits = .ok written) ↔
    Fits content.length cursor edits := by
  induction edits generalizing cursor with
  | nil => simp [applyFrom, Fits]
  | cons e rest ih =>
    rw [Fits, ← ih]
    constructor
    · rintro ⟨written, h⟩
      obtain ⟨hlow, hhigh, tail, htail, -⟩ := applyFrom_cons_eq_ok_iff.mp h
      exact ⟨hlow, hhigh, tail, htail⟩
    · rintro ⟨hlow, hhigh, tail, htail⟩
      exact ⟨_, applyFrom_cons_eq_ok_iff.mpr ⟨hlow, hhigh, tail, htail, rfl⟩⟩

theorem Fits.from_cursor (h : Fits size cursor edits) (nonneg : ∀ e ∈ edits, 0 ≤ e.length) :
    ∀ e ∈ edits, cursor ≤ e.offset := by
  induction edits generalizing cursor with
  | nil => simp
  | cons e rest ih =>
    obtain ⟨hlow, -, hrest⟩ := h
    have hlength := nonneg e List.mem_cons_self
    intro e' he'
    rcases List.mem_cons.mp he' with rfl | he'
    · exact hlow
    · have hlater := ih hrest (fun e he => nonneg e (List.mem_cons_of_mem _ he)) e' he'
      omega

theorem Fits.apart (h : Fits size cursor edits) (nonneg : ∀ e ∈ edits, 0 ≤ e.length) : Edit.Apart edits := by
  induction edits generalizing cursor with
  | nil => exact List.Pairwise.nil
  | cons e rest ih =>
    have hrest := fun e he => nonneg e (List.mem_cons_of_mem _ he)
    exact List.pairwise_cons.mpr ⟨h.2.2.from_cursor hrest, ih h.2.2 hrest⟩

end Patch

/-- A file is not touched if the edits planned for it overlap, and it fails for what it holds, not for the disk. -/
theorem Files.patchFile_of_overlap {edits : List Edit} (ascending : edits.Pairwise fun a b => a.offset < b.offset)
    (nonneg : ∀ e ∈ edits, 0 ≤ e.length) (overlap : ¬ Edit.Apart edits) (disk : Disk) (fs : Files) (path : String) :
    ∃ fault, fs.patchFile disk path edits = (fs, some fault) ∧ ∀ f, fault ≠ .disk f := by
  rcases fs.rewrites_or_refuses path edits with ⟨l, content, written, h⟩ | ⟨fault, h⟩
  · have hpatch := h.patched
    rw [Edit.sort_of_ascending ascending] at hpatch
    exact absurd ((Patch.exists_applyFrom_iff.mp ⟨written, hpatch⟩).apart nonneg) overlap
  · exact ⟨fault, h.patchFile_eq disk, h.ne_disk⟩

namespace Plan.Represents

variable {plan : Plan} {proposals : List Proposal} {path : String} {edits : List Edit}

theorem length_nonneg (h : plan.Represents proposals) (planned : Table.get? plan path = some edits) :
    ∀ e ∈ edits, 0 ≤ e.length := by
  intro e he
  obtain ⟨p, -, -, rfl⟩ := (h.mem_edits path edits planned e).mp he
  exact Int.natCast_nonneg _

/-- The edits of a file are apart unless proposals for it overlap. -/
theorem apart_iff (h : plan.Represents proposals) (planned : Table.get? plan path = some edits) :
    Edit.Apart edits ↔ ¬ Overlapping proposals path := by
  have hmem := h.mem_edits path edits planned
  have hascending := h.ascending path edits planned
  constructor
  · rintro hapart ⟨p, hp, q, hq, hpp, hqp, hlt, hinside⟩
    have hp' := (hmem p.edit).mpr ⟨p, hp, hpp, rfl⟩
    have hq' := (hmem q.edit).mpr ⟨q, hq, hqp, rfl⟩
    have hend := hapart.end_le hascending hp' hq' (Int.ofNat_lt.mpr hlt)
    simp only [Proposal.edit] at hend
    omega
  · intro hfree
    apply hascending.imp_of_mem
    intro a b ha hb hab
    obtain ⟨p, hp, hpp, rfl⟩ := (hmem a).mp ha
    obtain ⟨q, hq, hqp, rfl⟩ := (hmem b).mp hb
    by_contra hover
    refine hfree ⟨p, hp, q, hq, hpp, hqp, ?_, ?_⟩
    · simpa [Proposal.edit] using hab
    · simp only [Proposal.edit, Int.not_le] at hover
      omega

end Plan.Represents
end ThreadLocal
