import ThreadLocal.Proofs.Decimal.Value
import ThreadLocal.Proofs.Work.Shards

/-!
How many shards there are and how long they are. All are as long as the share of a worker, rounded up, only the last one
may be shorter, and there are no more of them than workers.
-/

namespace ThreadLocal

variable {α : Type}

namespace Shards

theorem pieces_eq_nil_iff {size : Nat} {items : List α} : pieces size items = [] ↔ items = [] := by
  cases items <;> simp [pieces]

section

variable {size : Nat} (positive : 0 < size)

include positive

theorem length_le_of_mem_pieces (items : List α) : ∀ piece ∈ pieces size items, piece.length ≤ size := by
  induction items using pieces.induct size with
  | case1 => simp [pieces]
  | case2 x rest ih =>
    rw [pieces]
    intro piece hpiece
    rcases List.mem_cons.mp hpiece with rfl | hpiece
    · simp only [List.length_cons, List.length_take]
      omega
    · exact ih piece hpiece

/-- Only the last piece can be shorter than the others. -/
theorem length_of_mem_dropLast (items : List α) : ∀ piece ∈ (pieces size items).dropLast, piece.length = size := by
  induction items using pieces.induct size with
  | case1 => simp [pieces]
  | case2 x rest ih =>
    rw [pieces]
    by_cases hlast : pieces size (rest.drop (size - 1)) = []
    · simp [hlast]
    · intro piece hpiece
      rw [List.dropLast_cons_of_ne_nil hlast] at hpiece
      rcases List.mem_cons.mp hpiece with rfl | hpiece
      · have hmore : size - 1 < rest.length := by
          rw [pieces_eq_nil_iff, List.drop_eq_nil_iff] at hlast
          omega
        simp only [List.length_cons, List.length_take]
        omega
      · exact ih piece hpiece

theorem length_le_pieces (items : List α) : items.length ≤ (pieces size items).length * size := by
  induction items using pieces.induct size with
  | case1 => simp [pieces]
  | case2 x rest ih =>
    rw [pieces, List.length_cons, List.length_cons, Nat.add_one_mul]
    rw [List.length_drop] at ih
    omega

theorem pieces_lt_length (items : List α) :
    ∀ full, (pieces size items).length = full + 1 → full * size < items.length := by
  induction items using pieces.induct size with
  | case1 => simp [pieces]
  | case2 x rest ih =>
    intro full hfull
    rw [pieces, List.length_cons, Nat.add_right_cancel_iff] at hfull
    cases full with
    | zero => simp
    | succ full =>
      have hrest := ih full hfull
      rw [List.length_drop] at hrest
      rw [List.length_cons, Nat.add_one_mul]
      omega

end

/-- A whole number is the ceiling of a quotient if it is the first one that reaches it. -/
theorem ceil_eq {count parts whole : Nat} (positive : 0 < parts) (short : ∀ n, whole = n + 1 → n * parts < count)
    (enough : count ≤ whole * parts) : ⌈(count : ℚ) / parts⌉ = whole := by
  have hparts : (0 : ℚ) < parts := Nat.cast_pos.mpr positive
  have henough : (count : ℚ) ≤ whole * parts := by exact_mod_cast enough
  rw [Int.ceil_eq_iff, lt_div_iff₀ hparts, div_le_iff₀ hparts]
  refine ⟨?_, by exact_mod_cast henough⟩
  cases whole with
  | zero =>
    have hcount : (0 : ℚ) ≤ count := Nat.cast_nonneg count
    push_cast
    linarith
  | succ n =>
    have hshort : (n : ℚ) * parts < count := by exact_mod_cast short n rfl
    push_cast
    linarith

section

variable {count parallelism : Nat} (positive : 0 < parallelism)

include positive

theorem le_size_mul : count ≤ size count parallelism * parallelism := by
  have hlt := Nat.lt_div_mul_add (a := count + parallelism - 1) positive
  unfold size
  omega

theorem size_mul_lt : ∀ n, size count parallelism = n + 1 → n * parallelism < count := by
  intro n hn
  have hle := Nat.div_mul_le_self (count + parallelism - 1) parallelism
  unfold size at hn
  rw [hn, Nat.add_one_mul] at hle
  omega

/-- The size of a shard is the share of a worker, rounded up. -/
theorem size_eq_ceil : ⌈(count : ℚ) / parallelism⌉ = size count parallelism :=
  ceil_eq positive (size_mul_lt positive) (le_size_mul positive)

end

/-- Shards of some items, of a given size, for a number of workers. -/
structure Cover (items : List α) (workers size : Nat) (parts : List (List α)) : Prop where
  whole : parts.flatten = items
  nonempty : ∀ part ∈ parts, part ≠ []
  full : ∀ part ∈ parts.dropLast, part.length = size
  last : ∀ part, parts.getLast? = some part → part.length ≤ size
  number : (parts.length : ℤ) = ⌈(items.length : ℚ) / size⌉
  atMost : parts.length ≤ workers

theorem cover_nil (workers size : Nat) : Cover ([] : List α) workers size [] := by
  constructor <;> simp

theorem cover_pieces {items : List α} {workers : Nat} (some : items ≠ []) (positive : 0 < workers) :
    Cover items workers (size items.length workers) (pieces (size items.length workers) items) := by
  have hcount : 0 < items.length := List.length_pos_iff.mpr some
  have henough := @le_size_mul items.length workers positive
  have hsize : 0 < size items.length workers := by
    rcases Nat.eq_zero_or_pos (size items.length workers) with hzero | hpos
    · rw [hzero, Nat.zero_mul] at henough
      omega
    · exact hpos
  have hshort := pieces_lt_length hsize items
  refine ⟨flatten_pieces _ items, pieces_ne_nil _ items, length_of_mem_dropLast hsize items, ?_, ?_, ?_⟩
  · intro part hpart
    exact length_le_of_mem_pieces hsize items part (List.mem_of_getLast? hpart)
  · exact (ceil_eq hsize hshort (length_le_pieces hsize items)).symm
  · cases hlength : (pieces (size items.length workers) items).length with
    | zero => exact Nat.zero_le _
    | succ full =>
      have hlt := Nat.lt_of_lt_of_le (hshort full hlength) henough
      rw [Nat.mul_comm (size items.length workers)] at hlt
      exact Nat.lt_of_mul_lt_mul_right hlt

end Shards

/-- A number of workers below one is refused, whatever there is to do. Otherwise the items are cut into shards of one
size, which is the share of a worker rounded up; below `2 ^ 53` it makes no difference that the share is a floating-point
number. Nothing is lost, doubled or moved, no shard is empty, and only the last one may be shorter. -/
theorem shards_cover_exactly (items : List α) (parallelism : Int) :
    (parallelism < 1 → shards items parallelism = .error (.notPositive parallelism)) ∧
      (1 ≤ parallelism → parallelism < 2 ^ 53 → items.length < 2 ^ 53 →
        ∃ parts size share, shards items parallelism = .ok parts ∧
          Shards.Cover items parallelism.toNat size parts ∧
          (size : ℤ) = ⌈(items.length : ℚ) / parallelism⌉ ∧
          (Binary64.ofRatio false ⟨items.length, parallelism.toNat⟩).value? = some share ∧ (size : ℤ) = ⌈share⌉ ∧
          (items = [] → parts = [])) := by
  constructor
  · intro hlow
    rw [shards, if_pos hlow]
  · intro hlow hhigh hfew
    obtain ⟨workers, rfl⟩ := Int.eq_ofNat_of_zero_le (Int.le_trans Int.one_nonneg hlow)
    have hpositive : 0 < workers := by omega
    obtain ⟨share, hshare, hceil⟩ := Binary64.ceil_quotient hfew hpositive (by exact_mod_cast hhigh)
    have hsize := (@Shards.size_eq_ceil items.length workers hpositive).symm
    rw [Int.toNat_natCast, Int.cast_natCast]
    by_cases hnil : items = []
    · subst hnil
      refine ⟨[], _, share, ?_, Shards.cover_nil workers _, hsize, hshare, hsize.trans hceil.symm, fun _ => rfl⟩
      rw [shards, if_neg (by omega)]
      rfl
    · have hcut := shards_eq_pieces hnil hlow (by exact_mod_cast hhigh)
      rw [Int.toNat_natCast] at hcut
      exact ⟨_, _, share, hcut, Shards.cover_pieces hnil hpositive, hsize, hshare, hsize.trans hceil.symm,
        fun h => absurd h hnil⟩

/-- Three workers get three, three and one of seven items. -/
theorem seven_among_three :
    shards [1, 2, 3, 4, 5, 6, 7] 3 = .ok [[1, 2, 3], [4, 5, 6], [7]] ∧
      Shards.Cover [1, 2, 3, 4, 5, 6, 7] 3 3 [[1, 2, 3], [4, 5, 6], [7]] ∧
      shards [1, 2, 3, 4, 5, 6, 7] 0 = .error (.notPositive 0) := by
  obtain ⟨hrefused, hserved⟩ := shards_cover_exactly [1, 2, 3, 4, 5, 6, 7] 0
  obtain ⟨-, hcut⟩ := shards_cover_exactly [1, 2, 3, 4, 5, 6, 7] 3
  obtain ⟨parts, size, share, hparts, hcover, hsize, -⟩ := hcut (by decide) (by decide) (by decide)
  have hcomputed : shards [1, 2, 3, 4, 5, 6, 7] 3 = .ok [[1, 2, 3], [4, 5, 6], [7]] := by
    simp [shards_eq_pieces, Shards.size, Shards.pieces]
  have hthree : ⌈(([1, 2, 3, 4, 5, 6, 7] : List Nat).length : ℚ) / ((3 : ℤ) : ℚ)⌉ = 3 := by
    norm_num
  obtain rfl := Except.ok.inj (hcomputed.symm.trans hparts)
  obtain rfl : size = 3 := by exact_mod_cast hsize.trans hthree
  exact ⟨hcomputed, hcover, hrefused (by decide)⟩

end ThreadLocal
