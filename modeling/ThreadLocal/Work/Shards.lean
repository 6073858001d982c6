/-!
Splitting a list into contiguous shards of equal size, the last of which may be shorter.
-/

namespace ThreadLocal

inductive ShardFault where
  | notPositive (parallelism : Int)
  | vanishing
deriving DecidableEq, Repr

def ShardFault.message : ShardFault → String
  | .notPositive parallelism => "parallelism must be positive, got " ++ toString parallelism
  | .vanishing => "range() arg 3 must not be zero"

namespace Shards

/-- Pieces of `size` items, and of what is left at the end. A size of zero counts as one. -/
def pieces {α : Type} (size : Nat) : List α → List (List α)
  | [] => []
  | x :: rest => (x :: rest.take (size - 1)) :: pieces size (rest.drop (size - 1))
termination_by items => items.length
decreasing_by simp only [List.length_cons, List.length_drop]; omega

/-- The least size with which `parallelism` shards hold `count` items. -/
def size (count parallelism : Nat) : Nat :=
  (count + parallelism - 1) / parallelism

end Shards

/-- At most `parallelism` non-empty shards. The share of one shard must not be so small that it counts as
zero in double precision. -/
def shards {α : Type} (items : List α) (parallelism : Int) : Except ShardFault (List (List α)) :=
  if parallelism < 1 then .error (.notPositive parallelism)
  else if items.isEmpty then .ok []
  else if (items.length * Nat.pow 2 1075 : Nat) ≤ parallelism then .error .vanishing
  else .ok (Shards.pieces (Shards.size items.length parallelism.toNat) items)

end ThreadLocal
