import Mathlib.Data.List.Forall2

/-!
Attempts that can fail, one by one and in a row.
-/

namespace ThreadLocal

variable {ε ε' α β : Type} {f : ε → ε'} {outcome : Except ε α}

theorem mapError_eq_ok_iff {x : α} : outcome.mapError f = .ok x ↔ outcome = .ok x := by
  cases outcome <;> simp [Except.mapError]

theorem exists_error_of_mapError {e' : ε'} (h : outcome.mapError f = .error e') :
    ∃ e, outcome = .error e ∧ f e = e' := by
  cases outcome with
  | ok x => simp [Except.mapError] at h
  | error e => exact ⟨e, rfl, by simpa [Except.mapError] using h⟩

theorem map_eq_ok_iff {g : α → β} {y : β} : outcome.map g = .ok y ↔ ∃ x, outcome = .ok x ∧ g x = y := by
  cases outcome <;> simp [Except.map]

theorem bind_eq_ok_iff {g : α → Except ε β} {y : β} : outcome >>= g = .ok y ↔ ∃ x, outcome = .ok x ∧ g x = .ok y := by
  cases outcome <;> simp [bind, Except.bind]

/-- A row of attempts succeeds with what the attempts, one by one, succeed with. -/
theorem mapM_eq_ok_iff {attempt : α → Except ε β} {xs : List α} {ys : List β} :
    xs.mapM attempt = .ok ys ↔ List.Forall₂ (fun x y => attempt x = .ok y) xs ys := by
  induction xs generalizing ys with
  | nil => simp [pure, Except.pure, eq_comm]
  | cons x rest ih =>
    simp only [List.mapM_cons, List.forall₂_cons_left_iff, bind_eq_ok_iff, ih]
    constructor
    · rintro ⟨y, hy, others, hrest, hall⟩
      exact ⟨y, others, hy, hrest, (Except.ok.inj hall).symm⟩
    · rintro ⟨y, others, hy, hrest, rfl⟩
      exact ⟨y, hy, others, hrest, rfl⟩

theorem exists_forall₂ {R : α → β → Prop} {xs : List α} (h : ∀ x ∈ xs, ∃ y, R x y) : ∃ ys, List.Forall₂ R xs ys := by
  induction xs with
  | nil => exact ⟨[], .nil⟩
  | cons x rest ih =>
    obtain ⟨hx, hrest⟩ := List.forall_mem_cons.mp h
    obtain ⟨y, hy⟩ := hx
    obtain ⟨ys, hys⟩ := ih hrest
    exact ⟨y :: ys, .cons hy hys⟩

theorem exists_of_forall₂ {R : α → β → Prop} {xs : List α} {ys : List β} (h : List.Forall₂ R xs ys) {y : β}
    (hy : y ∈ ys) : ∃ x ∈ xs, R x y := by
  induction h with
  | nil => cases hy
  | cons hxy _ ih =>
    rcases List.mem_cons.mp hy with rfl | hy
    · exact ⟨_, List.mem_cons_self, hxy⟩
    · obtain ⟨x, hx, hxy⟩ := ih hy
      exact ⟨x, List.mem_cons_of_mem _ hx, hxy⟩

end ThreadLocal
