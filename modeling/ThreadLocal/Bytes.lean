/-!
Byte strings, stretches of them, and the line and column of an offset.
-/

namespace ThreadLocal

abbrev Bytes := List UInt8

/-- The place of a byte in a file; both parts count from one. -/
structure Position where
  line : Int
  column : Int
deriving DecidableEq, Repr

namespace Bytes

def newline : UInt8 := 10

/-- The index that a number stands for: counted from the end if negative, and never outside. -/
def index (size : Nat) (i : Int) : Nat :=
  if i < 0 then (i + size).toNat else min i.toNat size

/-- The bytes from index `low` up to index `high`. -/
def slice (bs : Bytes) (low high : Int) : Bytes :=
  (bs.take (index bs.length high)).drop (index bs.length low)

/-- Line and column of an offset. -/
def position (content : Bytes) (offset : Int) : Position :=
  let before := content.take (index content.length offset)
  let lineStart := before.length - (before.reverse.takeWhile (· ≠ newline)).length
  ⟨before.count newline + 1, offset - lineStart + 1⟩

theorem index_of_nonneg {size : Nat} {i : Int} (h : 0 ≤ i) : index size i = min i.toNat size := by
  simp [index, Int.not_lt.mpr h]

theorem slice_of_nonneg {bs : Bytes} {low high : Int} (hl : 0 ≤ low) (hh : 0 ≤ high) :
    bs.slice low high = (bs.take high.toNat).drop low.toNat := by
  rw [slice, index_of_nonneg hl, index_of_nonneg hh, List.take_eq_take_min (i := high.toNat)]
  by_cases h : low.toNat ≤ bs.length
  · rw [Nat.min_eq_left h]
  · rw [List.drop_of_length_le (by simp; omega), List.drop_of_length_le (by simp; omega)]

theorem length_slice {bs : Bytes} {low high : Int} (hl : 0 ≤ low) (hle : low ≤ high) (hh : high ≤ bs.length) :
    (bs.slice low high).length = (high - low).toNat := by
  rw [slice_of_nonneg hl (by omega), List.length_drop, List.length_take]
  omega

theorem take_append_slice {bs : Bytes} {low high : Int} (hl : 0 ≤ low) (hle : low ≤ high) :
    bs.take low.toNat ++ bs.slice low high = bs.take high.toNat := by
  have hfirst : (bs.take high.toNat).take low.toNat = bs.take low.toNat := by
    rw [List.take_take, Nat.min_eq_left (by omega)]
  rw [slice_of_nonneg hl (by omega), ← hfirst, List.take_append_drop]

theorem slice_append_drop {bs : Bytes} {low high : Int} (hl : 0 ≤ low) (hle : low ≤ high) (hh : high ≤ bs.length) :
    bs.slice low high ++ bs.drop high.toNat = bs.drop low.toNat := by
  have hroom : low.toNat ≤ (bs.take high.toNat).length := by
    rw [List.length_take]
    omega
  have hcut := congrArg (List.drop low.toNat) (List.take_append_drop high.toNat bs)
  rw [List.drop_append_of_le_length hroom] at hcut
  rw [slice_of_nonneg hl (by omega), hcut]

/-- A stretch that stands behind others is found at its place. -/
theorem slice_middle {front middle rest : Bytes} {low high : Int} (hl : low = front.length)
    (hh : high = low + middle.length) : slice (front ++ (middle ++ rest)) low high = middle := by
  rw [slice_of_nonneg (by omega) (by omega)]
  have hstart : low.toNat = front.length := by omega
  have hend : high.toNat = front.length + middle.length := by omega
  rw [hstart, hend, List.take_length_add_append, List.drop_left, List.take_left]

end Bytes
end ThreadLocal
