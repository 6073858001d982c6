import Mathlib.Data.List.Basic
import ThreadLocal.Work.Shards

/-!
Shards are the items, cut into non-empty stretches.
-/

namespace ThreadLocal

variable {α : Type}

namespace Shards

theorem flatten_pieces (size : Nat) (items : List α) : (pieces size items).flatten = items := by
  induction items using pieces.induct size with
  | case1 => rw [pieces, List.flatten_nil]
  | case2 x rest ih => rw [pieces, List.flatten_cons, ih, List.cons_append, List.take_append_drop]

theorem pieces_ne_nil (size : Nat) (items : List α) : ∀ piece ∈ pieces size items, piece ≠ [] := by
  induction items using pieces.induct size with
  | case1 => simp [pieces]
  | case2 x rest ih =>
    rw [pieces]
    intro piece h
    rcases List.mem_cons.mp h with h | h
    · simp [h]
    · exact ih piece h

theorem pieces_one (items : List α) : pieces 1 items = items.map fun x => [x] := by
  induction items with
  | nil => rw [pieces, List.map_nil]
  | cons x rest ih => rw [pieces, List.map_cons, List.drop_zero, ih, List.take_zero]

theorem lt_share {count size : Nat} (hc : 1 ≤ count) (hs : 53 ≤ size) {parallelism : Int}
    (high : parallelism < Nat.pow 2 53) : parallelism < (count * Nat.pow 2 size : Nat) := by
  have hpow : Nat.pow 2 53 ≤ Nat.pow 2 size := Nat.pow_le_pow_right (by decide) hs
  have hmul : Nat.pow 2 53 ≤ count * Nat.pow 2 size := Nat.le_trans hpow (Nat.le_mul_of_pos_left _ hc)
  exact Int.lt_of_lt_of_le high (Int.ofNat_le.mpr hmul)

end Shards

theorem shards_eq_pieces {items : List α} (hne : items ≠ []) {parallelism : Int} (low : 1 ≤ parallelism)
    (high : parallelism < Nat.pow 2 53) :
    shards items parallelism = .ok (Shards.pieces (Shards.size items.length parallelism.toNat) items) := by
  have hshare := Shards.lt_share (List.length_pos_iff.mpr hne) (by decide : 53 ≤ 1075) high
  unfold shards
  rw [if_neg (by omega)]
  rw [if_neg (by simpa using hne)]
  rw [if_neg (Int.not_le.mpr hshare)]

/-- As many workers as items get one each. -/
theorem shards_singletons {items : List α} (hne : items ≠ []) (few : items.length < Nat.pow 2 53) :
    shards items items.length = .ok (items.map fun x => [x]) := by
  have hlow : (1 : Int) ≤ items.length := Int.ofNat_le.mpr (List.length_pos_iff.mpr hne)
  have hsize : Shards.size items.length items.length = 1 := by
    have hpos := List.length_pos_iff.mpr hne
    exact Nat.div_eq_of_lt_le (by omega) (by omega)
  rw [shards_eq_pieces hne hlow (Int.ofNat_lt.mpr few), Int.toNat_natCast, hsize]
  congr 1
  exact Shards.pieces_one items

/-- Every positive number of workers below the 53rd power of two is served: the shards put together are the items again,
and none is empty. -/
theorem shards_ok (items : List α) {parallelism : Int} (low : 1 ≤ parallelism) (high : parallelism < Nat.pow 2 53) :
    ∃ parts, shards items parallelism = .ok parts ∧ parts.flatten = items ∧ ∀ part ∈ parts, part ≠ [] := by
  by_cases hnil : items = []
  · subst hnil
    refine ⟨[], ?_, rfl, by simp⟩
    unfold shards
    rw [if_neg (by omega)]
    rfl
  · exact ⟨_, shards_eq_pieces hnil low high, Shards.flatten_pieces _ items, Shards.pieces_ne_nil _ items⟩

end ThreadLocal
