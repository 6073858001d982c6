import Mathlib.Data.List.Forall2
import ThreadLocal.Proofs.Analysis.Traversal

/-!
The places in a tree, each of them the way down to a node. The traversal comes to every place below the root once, in
the opposite of post-order, and gives the node there together with the nodes passed on the way down.
-/

namespace ThreadLocal

/-- The way down from a node: which child to take at each step. -/
abbrev Place := List Nat

/-- Post-order: what lies below a place comes before it, and below an earlier child before below a later one. -/
def Place.Before : Place → Place → Prop
  | [], _ => False
  | _ :: _, [] => True
  | i :: p, j :: q => i < j ∨ i = j ∧ Before p q

theorem Place.not_before_self (p : Place) : ¬ p.Before p := by
  induction p with
  | nil => exact id
  | cons i p ih => simp [Before, ih]

namespace Node

/-- What stands at a place, with the nodes passed on the way to it, the last one first. -/
def from? : (above : List NodeInfo) → Node → Place → Option Found
  | above, .mk info _, [] => some ⟨info, above⟩
  | above, .mk info children, i :: p =>
    match children[i]? with
    | some child => from? (info :: above) child p
    | none => none

def at? (root : Node) (p : Place) : Option Found :=
  root.from? [] p

mutual

/-- The places in a tree in post-order. -/
def places : Node → List Place
  | .mk _ children => placesAmong 0 children ++ [[]]

def placesAmong (first : Nat) : List Node → List Place
  | [] => []
  | n :: rest => (places n).map (first :: ·) ++ placesAmong (first + 1) rest

end

theorem mem_placesAmong {nodes : List Node} {first : Nat} {p : Place} :
    p ∈ placesAmong first nodes ↔ ∃ i q n, p = (first + i) :: q ∧ nodes[i]? = some n ∧ q ∈ n.places := by
  induction nodes generalizing first with
  | nil => simp [placesAmong]
  | cons n rest ih =>
    rw [placesAmong, List.mem_append, List.mem_map, ih]
    constructor
    · rintro (⟨q, hq, rfl⟩ | ⟨i, q, m, rfl, hm, hq⟩)
      · exact ⟨0, q, n, rfl, rfl, hq⟩
      · exact ⟨i + 1, q, m, by rw [Nat.add_right_comm, Nat.add_assoc], hm, hq⟩
    · rintro ⟨i, q, m, rfl, hm, hq⟩
      cases i with
      | zero =>
        obtain rfl : n = m := by simpa using hm
        exact .inl ⟨q, hq, rfl⟩
      | succ i => exact .inr ⟨i, q, m, by rw [Nat.add_right_comm, Nat.add_assoc], by simpa using hm, hq⟩

/-- The listed places are those at which something stands. -/
theorem mem_places {n : Node} (above : List NodeInfo) {p : Place} :
    p ∈ n.places ↔ ∃ f, n.from? above p = some f := by
  induction p generalizing n above with
  | nil =>
    obtain ⟨info, children⟩ := n
    simp [places, from?]
  | cons i p ih =>
    obtain ⟨info, children⟩ := n
    rw [places, List.mem_append, mem_placesAmong, from?]
    cases hchild : children[i]? with
    | none =>
      simp only [List.mem_singleton, reduceCtorEq, or_false, exists_false, iff_false]
      rintro ⟨j, q, m, he, hm, -⟩
      rw [Nat.zero_add] at he
      obtain ⟨rfl, rfl⟩ := List.cons.inj he
      cases hchild.symm.trans hm
    | some child =>
      rw [← ih]
      simp only [List.mem_singleton, reduceCtorEq, or_false]
      constructor
      · rintro ⟨j, q, m, he, hm, hq⟩
        rw [Nat.zero_add] at he
        obtain ⟨rfl, rfl⟩ := List.cons.inj he
        obtain rfl := Option.some.inj (hchild.symm.trans hm)
        exact hq
      · intro hp
        exact ⟨i, p, child, by rw [Nat.zero_add], hchild, hp⟩

mutual

theorem places_ordered : (n : Node) → n.places.Pairwise Place.Before
  | .mk info children => by
    rw [places, List.pairwise_append]
    refine ⟨placesAmong_ordered 0 children, List.pairwise_singleton _ _, ?_⟩
    intro p hp q hq
    obtain ⟨i, p, m, rfl, -, -⟩ := mem_placesAmong.mp hp
    obtain rfl := List.mem_singleton.mp hq
    trivial

theorem placesAmong_ordered (first : Nat) : (nodes : List Node) → (placesAmong first nodes).Pairwise Place.Before
  | [] => List.Pairwise.nil
  | n :: rest => by
    rw [placesAmong, List.pairwise_append, List.pairwise_map]
    refine ⟨(places_ordered n).imp fun h => .inr ⟨rfl, h⟩, placesAmong_ordered (first + 1) rest, ?_⟩
    intro p hp q hq
    obtain ⟨p, -, rfl⟩ := List.mem_map.mp hp
    obtain ⟨i, q, m, rfl, -, -⟩ := mem_placesAmong.mp hq
    exact .inl (by omega)

end

mutual

/-- The nodes in post-order are those at the places in post-order. -/
theorem postOrder_at_places (above : List NodeInfo) : (n : Node) →
    List.Forall₂ (fun p f => n.from? above p = some f) n.places (postOrder above n)
  | .mk info children => by
    rw [places, postOrder]
    refine List.rel_append ?_ (.cons rfl .nil)
    refine (postOrderAmong_at_places (info :: above) 0 children).imp ?_
    rintro p f ⟨i, q, child, rfl, hchild, hf⟩
    rw [Nat.zero_add, from?, hchild]
    exact hf

theorem postOrderAmong_at_places (above : List NodeInfo) (first : Nat) : (nodes : List Node) →
    List.Forall₂ (fun p f => ∃ i q n, p = (first + i) :: q ∧ nodes[i]? = some n ∧ n.from? above q = some f)
      (placesAmong first nodes) (postOrderAmong above nodes)
  | [] => .nil
  | n :: rest => by
    rw [placesAmong, postOrderAmong]
    refine List.rel_append ?_ ?_
    · rw [List.forall₂_map_left_iff]
      exact (postOrder_at_places above n).imp fun q f hf => ⟨0, q, n, rfl, rfl, hf⟩
    · refine (postOrderAmong_at_places above (first + 1) rest).imp ?_
      rintro p f ⟨i, q, m, rfl, hm, hf⟩
      exact ⟨i + 1, q, m, by rw [Nat.add_right_comm, Nat.add_assoc], hm, hf⟩

end

/-- The places below the root, in post-order. -/
def placesBelow (root : Node) : List Place :=
  placesAmong 0 root.children

theorem mem_placesBelow {root : Node} {p : Place} : p ∈ root.placesBelow ↔ p ≠ [] ∧ ∃ f, root.at? p = some f := by
  obtain ⟨info, children⟩ := root
  rw [at?, ← mem_places, places, placesBelow, List.mem_append, List.mem_singleton]
  constructor
  · intro hp
    refine ⟨?_, .inl hp⟩
    rintro rfl
    obtain ⟨i, q, m, he, -⟩ := mem_placesAmong.mp hp
    cases he
  · rintro ⟨hne, hp | hnil⟩
    · exact hp
    · exact absurd hnil hne

theorem descendants_at_placesBelow (root : Node) :
    List.Forall₂ (fun p f => root.at? p = some f) root.placesBelow root.descendants := by
  obtain ⟨info, children⟩ := root
  refine (postOrderAmong_at_places [info] 0 children).imp ?_
  rintro p f ⟨i, q, child, rfl, hchild, hf⟩
  rw [Nat.zero_add, at?, from?, hchild]
  exact hf

/-- The traversal breaks off at once if the root is wanted. Otherwise it comes to its end, and what it has found are
the wanted nodes below the root in the opposite of post-order: the nodes at all places below the root at which a wanted
one stands, each place once, with their ancestors up to the root. -/
theorem traverse_visits_once (wanted : NodeKind → Bool) (root : Node) :
    root.traverse wanted =
      (if wanted root.info.kind then ⟨[], true⟩
      else ⟨root.descendants.reverse.filter fun f => wanted f.node.kind, false⟩) ∧
    ∃ places : List Place, places.Nodup ∧ (places.Pairwise fun p q => q.Before p) ∧
      (∀ p, p ∈ places ↔ p ≠ [] ∧ ∃ f, root.at? p = some f ∧ wanted f.node.kind = true) ∧
      List.Forall₂ (fun p f => root.at? p = some f) places
        (root.descendants.reverse.filter fun f => wanted f.node.kind) := by
  have hordered : (root.placesBelow.reverse.filter fun p => (root.at? p).any fun f => wanted f.node.kind).Pairwise
      fun p q => q.Before p :=
    (List.pairwise_reverse.mpr (placesAmong_ordered 0 root.children)).filter _
  refine ⟨?_, _, hordered.imp ?_, hordered, ?_, ?_⟩
  · by_cases hroot : wanted root.info.kind = true
    · rw [if_pos hroot, traverse_of_wanted hroot]
    · rw [if_neg hroot, traverse_of_plain (Bool.eq_false_iff.mpr hroot), foundFrom_root (Bool.eq_false_iff.mpr hroot)]
  · rintro p q hbefore rfl
    exact p.not_before_self hbefore
  · intro p
    rw [List.mem_filter, List.mem_reverse, mem_placesBelow, Option.any_eq_true]
    constructor
    · rintro ⟨⟨hne, -⟩, f, hf, hw⟩
      exact ⟨hne, f, hf, hw⟩
    · rintro ⟨hne, f, hf, hw⟩
      exact ⟨⟨hne, f, hf⟩, f, hf, hw⟩
  · refine List.rel_filter ?_ (List.rel_reverse root.descendants_at_placesBelow)
    intro p f hf
    simp [hf]

end Node
end ThreadLocal
