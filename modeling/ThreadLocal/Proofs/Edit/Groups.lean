import Mathlib.Data.List.Basic
import ThreadLocal.Edit.Agreement

/-!
What the grouping of proposals keeps: every path, every offset and every substitution that was proposed,
each once.
-/

namespace ThreadLocal

def Proposal.edit (p : Proposal) : Edit :=
  ⟨p.offset, p.length, p.text⟩

namespace Groups

/-- The offsets of a file; none if nothing is proposed for it. -/
def offsetsAt (groups : Groups) (path : String) : Table Nat (List Substitution) :=
  (Table.get? groups path).getD []

def substitutionsAt (groups : Groups) (path : String) (offset : Nat) : List Substitution :=
  (Table.get? (groups.offsetsAt path) offset).getD []

/-- The groups hold exactly some proposals, and nothing twice. -/
structure Hold (groups : Groups) (proposals : List Proposal) : Prop where
  paths_nodup : (Table.keys groups).Nodup
  offsets_nodup : ∀ path, (Table.keys (groups.offsetsAt path)).Nodup
  substitutions_nodup : ∀ path offset, (groups.substitutionsAt path offset).Nodup
  mem_paths : ∀ path, path ∈ Table.keys groups ↔ ∃ p ∈ proposals, p.path = path
  mem_offsets : ∀ path offset, offset ∈ Table.keys (groups.offsetsAt path) ↔
    ∃ p ∈ proposals, p.path = path ∧ p.offset = offset
  mem_substitutions : ∀ path offset s, s ∈ groups.substitutionsAt path offset ↔
    ∃ p ∈ proposals, p.path = path ∧ p.offset = offset ∧ p.substitution = s

theorem hold_nil : Hold [] [] := by
  constructor <;> simp [Table.keys, offsetsAt, substitutionsAt]

theorem offsetsAt_add (groups : Groups) (p : Proposal) (path : String) :
    (groups.add p).offsetsAt path =
      if p.path = path then
        Table.alter (groups.offsetsAt path) p.offset [] fun substitutions =>
          if p.substitution ∈ substitutions then substitutions else substitutions ++ [p.substitution]
      else groups.offsetsAt path := by
  unfold offsetsAt add
  rw [Table.get?_alter]
  split
  next he => simp [he]
  next => rfl

theorem substitutionsAt_add (groups : Groups) (p : Proposal) (path : String) (offset : Nat) :
    (groups.add p).substitutionsAt path offset =
      if p.path = path ∧ p.offset = offset ∧ p.substitution ∉ groups.substitutionsAt path offset then
        groups.substitutionsAt path offset ++ [p.substitution]
      else groups.substitutionsAt path offset := by
  unfold substitutionsAt
  rw [offsetsAt_add]
  by_cases hp : p.path = path
  swap
  · simp [hp]
  by_cases ho : p.offset = offset
  swap
  · simp [hp, ho, Table.get?_alter]
  subst hp ho
  simp only [if_true, Table.get?_alter, Option.getD_some, true_and]
  by_cases hs : p.substitution ∈ (Table.get? (groups.offsetsAt p.path) p.offset).getD []
  · simp [hs]
  · simp [hs]

theorem mem_paths_add (groups : Groups) (p : Proposal) (path : String) :
    path ∈ Table.keys (groups.add p) ↔ path ∈ Table.keys groups ∨ p.path = path := by
  rw [add, Table.mem_keys_alter, @eq_comm _ path]

theorem mem_offsets_add (groups : Groups) (p : Proposal) (path : String) (offset : Nat) :
    offset ∈ Table.keys ((groups.add p).offsetsAt path) ↔
      offset ∈ Table.keys (groups.offsetsAt path) ∨ p.path = path ∧ p.offset = offset := by
  rw [offsetsAt_add]
  split
  next hpath => rw [Table.mem_keys_alter, @eq_comm _ offset, and_iff_right hpath]
  next hpath => simp only [hpath, false_and, or_false]

theorem mem_substitutions_add (groups : Groups) (p : Proposal) (path : String) (offset : Nat) (s : Substitution) :
    s ∈ (groups.add p).substitutionsAt path offset ↔
      s ∈ groups.substitutionsAt path offset ∨ p.path = path ∧ p.offset = offset ∧ p.substitution = s := by
  rw [substitutionsAt_add]
  split
  next hnew => rw [List.mem_append, List.mem_singleton, @eq_comm _ s, and_iff_right hnew.1, and_iff_right hnew.2.1]
  next hold =>
    constructor
    · exact Or.inl
    · intro hmem
      rcases hmem with hmem | ⟨hpath, hoffset, hs⟩
      · exact hmem
      · -- what is not added again is there already
        by_contra hout
        exact hold ⟨hpath, hoffset, hs ▸ hout⟩

theorem exists_mem_concat {proposals : List Proposal} {p : Proposal} {P : Proposal → Prop} :
    (∃ q ∈ proposals ++ [p], P q) ↔ (∃ q ∈ proposals, P q) ∨ P p := by
  simp [or_and_right, exists_or]

theorem Hold.add {groups : Groups} {proposals : List Proposal} (h : Hold groups proposals) (p : Proposal) :
    Hold (groups.add p) (proposals ++ [p]) where
  paths_nodup := Table.nodup_keys_put h.paths_nodup _ _
  offsets_nodup := by
    intro path
    rw [offsetsAt_add]
    split
    next => exact Table.nodup_keys_put (h.offsets_nodup path) _ _
    next => exact h.offsets_nodup path
  substitutions_nodup := by
    intro path offset
    rw [substitutionsAt_add]
    split
    next hn =>
      refine List.nodup_append.mpr ⟨h.substitutions_nodup path offset, by simp, ?_⟩
      intro a ha b hb he
      have hb' : b = p.substitution := by simpa using hb
      exact hn.2.2 (hb' ▸ he ▸ ha)
    next => exact h.substitutions_nodup path offset
  mem_paths := by
    intro path
    rw [mem_paths_add, h.mem_paths, exists_mem_concat]
  mem_offsets := by
    intro path offset
    rw [mem_offsets_add, h.mem_offsets, exists_mem_concat]
  mem_substitutions := by
    intro path offset s
    rw [mem_substitutions_add, h.mem_substitutions, exists_mem_concat]

theorem Hold.foldl_add {groups : Groups} {before : List Proposal} (h : Hold groups before)
    (proposals : List Proposal) : Hold (proposals.foldl Groups.add groups) (before ++ proposals) := by
  induction proposals generalizing groups before with
  | nil => simpa using h
  | cons p rest ih => simpa using ih (h.add p)

theorem hold_ofProposals (proposals : List Proposal) : Hold (ofProposals proposals) proposals :=
  hold_nil.foldl_add proposals

end Groups
end ThreadLocal
