import ThreadLocal.Traversal

/-!
The order in which nodes are found: that of a walk which visits every node behind its children, read backwards.
-/

namespace ThreadLocal

namespace Node

mutual

/-- The wanted nodes of a tree, itself included: a node before its children, later children before
earlier ones. -/
def foundFrom (wanted : NodeKind → Bool) (ancestors : List NodeInfo) : Node → List Found
  | .mk info children =>
    (if wanted info.kind then [⟨info, ancestors⟩] else []) ++ foundAmong wanted (info :: ancestors) children

def foundAmong (wanted : NodeKind → Bool) (ancestors : List NodeInfo) : List Node → List Found
  | [] => []
  | n :: rest => foundAmong wanted ancestors rest ++ foundFrom wanted ancestors n

end

mutual

/-- The nodes of a tree with their ancestors, every node behind its children and the children from first to last. -/
def postOrder (above : List NodeInfo) : Node → List Found
  | .mk info children => postOrderAmong (info :: above) children ++ [⟨info, above⟩]

def postOrderAmong (above : List NodeInfo) : List Node → List Found
  | [] => []
  | n :: rest => postOrder above n ++ postOrderAmong above rest

end

/-- The nodes below the root with their ancestors, in post-order. -/
def descendants (root : Node) : List Found :=
  postOrderAmong [root.info] root.children

mutual

theorem foundFrom_eq (wanted : NodeKind → Bool) (above : List NodeInfo) : (n : Node) →
    foundFrom wanted above n = ((postOrder above n).filter fun f => wanted f.node.kind).reverse
  | .mk info children => by
    have hchildren := foundAmong_eq wanted (info :: above) children
    rw [foundFrom, hchildren, postOrder, List.filter_append, List.reverse_append]
    by_cases hw : wanted info.kind = true
    · simp [hw]
    · simp [hw]

theorem foundAmong_eq (wanted : NodeKind → Bool) (above : List NodeInfo) : (nodes : List Node) →
    foundAmong wanted above nodes = ((postOrderAmong above nodes).filter fun f => wanted f.node.kind).reverse
  | [] => rfl
  | n :: rest => by
    rw [foundAmong, foundFrom_eq wanted above n, foundAmong_eq wanted above rest, postOrderAmong, List.filter_append,
      List.reverse_append]

end

end Node

namespace Traversal

variable {wanted : NodeKind → Bool}

/-- The nodes that are still to be found by visiting what is on a stack. -/
def toFind (wanted : NodeKind → Bool) (stack : List Pending) : List Found :=
  stack.flatMap fun p => p.node.foundFrom wanted p.ancestors

theorem toFind_push (ancestors : List NodeInfo) (children : List Node) (stack : List Pending) :
    toFind wanted (push ancestors children stack) =
      Node.foundAmong wanted ancestors children ++ toFind wanted stack := by
  induction children generalizing stack with
  | nil => rfl
  | cons first rest ih => rw [push_cons, ih, Node.foundAmong, toFind, List.flatMap_cons, List.append_assoc]; rfl

/-- Only a node without a parent can break the traversal off. -/
def Unbroken (wanted : NodeKind → Bool) (stack : List Pending) : Prop :=
  ∀ p ∈ stack, wanted p.node.info.kind = true → p.ancestors ≠ []

theorem Unbroken.push {stack : List Pending} (h : Unbroken wanted stack) (info : NodeInfo)
    (ancestors : List NodeInfo) (children : List Node) :
    Unbroken wanted (Traversal.push (info :: ancestors) children stack) := by
  induction children generalizing stack with
  | nil => exact h
  | cons first rest ih =>
    apply ih
    intro p hp hw
    rcases List.mem_cons.mp hp with rfl | hp
    · exact List.cons_ne_nil _ _
    · exact h p hp hw

/-- Visiting what is on a stack finds all that is to be found there: a visited node goes from the stack to what is
found, and its children stand for the rest of it. -/
theorem ofStack_eq {stack : List Pending} (h : Unbroken wanted stack) :
    ofStack wanted stack = ⟨toFind wanted stack, false⟩ := by
  induction stack using ofStack.induct wanted with
  | case1 => rw [ofStack]; rfl
  | case2 info children ancestors stack hw hnone =>
    exact absurd (List.isEmpty_iff.mp hnone) (h _ List.mem_cons_self hw)
  | case3 info children ancestors stack hw hsome ih =>
    have hrest := ih (Unbroken.push (fun p hp => h p (List.mem_cons_of_mem _ hp)) info ancestors children)
    rw [ofStack, if_pos hw, if_neg hsome, hrest]
    simp only [toFind_push]
    simp [toFind, Node.foundFrom, hw]
  | case4 info children ancestors stack hw ih =>
    have hrest := ih (Unbroken.push (fun p hp => h p (List.mem_cons_of_mem _ hp)) info ancestors children)
    rw [ofStack, if_neg hw, hrest, toFind_push]
    simp [toFind, Node.foundFrom, hw]

end Traversal

namespace Node

variable {wanted : NodeKind → Bool} {root : Node}

/-- A wanted root breaks the traversal off before anything is found. -/
theorem traverse_of_wanted (h : wanted root.info.kind = true) : root.traverse wanted = ⟨[], true⟩ := by
  obtain ⟨info, children⟩ := root
  have hroot : wanted info.kind = true := h
  rw [traverse, Traversal.ofStack, if_pos hroot]
  rfl

theorem traverse_of_plain (plain : wanted root.info.kind = false) :
    root.traverse wanted = ⟨root.foundFrom wanted [], false⟩ := by
  have hunbroken : Traversal.Unbroken wanted [⟨root, []⟩] := by
    intro p hp hw
    obtain rfl := List.mem_singleton.mp hp
    simp [plain] at hw
  rw [traverse, Traversal.ofStack_eq hunbroken]
  simp [Traversal.toFind]

/-- In a tree whose root is not wanted, what is found are the wanted nodes below it. -/
theorem foundFrom_root (plain : wanted root.info.kind = false) :
    root.foundFrom wanted [] = root.descendants.reverse.filter fun f => wanted f.node.kind := by
  obtain ⟨info, children⟩ := root
  have hroot : wanted info.kind = false := plain
  have hchildren := foundAmong_eq wanted [info] children
  rw [List.filter_reverse, descendants]
  simp [foundFrom, Node.info, Node.children, hroot, hchildren]

theorem found?_of_wanted (h : wanted root.info.kind = true) : root.found? wanted = none := by
  simp [found?, traverse_of_wanted h]

theorem found?_of_plain (plain : wanted root.info.kind = false) :
    root.found? wanted = some (root.foundFrom wanted []) := by
  simp [found?, traverse_of_plain plain]

/-- The wanted nodes below a root that is not wanted itself. -/
theorem found?_eq (plain : wanted root.info.kind = false) :
    root.found? wanted = some (root.descendants.reverse.filter fun f => wanted f.node.kind) := by
  rw [found?_of_plain plain, foundFrom_root plain]

end Node
end ThreadLocal
