import Mathlib.Data.List.Basic
import ThreadLocal.Table

/-!
The distinct members of a list are its first occurrences in their order.
-/

namespace ThreadLocal

variable {α : Type} [DecidableEq α]

theorem distinct_append_singleton (xs : List α) (x : α) :
    distinct (xs ++ [x]) = if x ∈ xs then distinct xs else distinct xs ++ [x] := by
  induction xs with
  | nil => rfl
  | cons y ys ih =>
    rw [List.cons_append, distinct, ih, distinct]
    by_cases hxy : x = y
    · subst hxy
      by_cases hx : x ∈ ys <;> simp [hx]
    · by_cases hx : x ∈ ys <;> simp [hx, hxy]

theorem mem_distinct {xs : List α} {x : α} : x ∈ distinct xs ↔ x ∈ xs := by
  induction xs with
  | nil => rfl
  | cons y ys ih =>
    rw [distinct, List.mem_cons, List.mem_filter, ih, List.mem_cons]
    by_cases hxy : x = y <;> simp [hxy]

theorem nodup_distinct (xs : List α) : (distinct xs).Nodup := by
  induction xs with
  | nil => exact List.nodup_nil
  | cons y ys ih =>
    rw [distinct, List.nodup_cons]
    exact ⟨by simp, ih.filter _⟩

theorem distinct_of_nodup {xs : List α} (h : xs.Nodup) : distinct xs = xs := by
  induction xs with
  | nil => rfl
  | cons x rest ih =>
    obtain ⟨hx, hrest⟩ := List.nodup_cons.mp h
    rw [distinct, ih hrest, List.filter_eq_self.mpr]
    intro y hy
    have hne : y ≠ x := fun he => hx (he ▸ hy)
    simpa using hne

/-- The members of a list, each once and in the order in which they first occur there. -/
structure IsFirstOccurrences (xs firsts : List α) : Prop where
  nodup : firsts.Nodup
  mem_iff : ∀ x, x ∈ firsts ↔ x ∈ xs
  ordered : firsts.Pairwise fun x y => xs.idxOf x < xs.idxOf y

theorem distinct_ordered (xs : List α) : (distinct xs).Pairwise fun x y => xs.idxOf x < xs.idxOf y := by
  induction xs with
  | nil => exact .nil
  | cons first rest ih =>
    have hlater : ∀ y ∈ (distinct rest).filter (· ≠ first), (first :: rest).idxOf y = rest.idxOf y + 1 := by
      intro y hy
      have hne : y ≠ first := by simpa using (List.mem_filter.mp hy).2
      exact List.idxOf_cons_ne rest hne.symm
    rw [distinct, List.pairwise_cons]
    constructor
    · intro y hy
      rw [List.idxOf_cons_self, hlater y hy]
      exact Nat.succ_pos _
    · apply (ih.filter _).imp_of_mem
      intro x y hx hy hxy
      rw [hlater x hx, hlater y hy]
      exact Nat.succ_lt_succ hxy

theorem isFirstOccurrences_distinct (xs : List α) : IsFirstOccurrences xs (distinct xs) :=
  ⟨nodup_distinct xs, fun _ => mem_distinct, distinct_ordered xs⟩

end ThreadLocal
