import ThreadLocal.Node

/-!
Going through a tree with a stack of the nodes that are still to be visited. Every node comes off the stack once, and
its children go on it then.
-/

namespace ThreadLocal

/-- A node found in a tree and its ancestors, the direct parent first. -/
structure Found where
  node : NodeInfo
  ancestors : List NodeInfo
deriving Repr

/-- A node to be visited and its ancestors, the direct parent first. -/
structure Pending where
  node : Node
  ancestors : List NodeInfo

/-- What going through a tree comes to: the nodes found, in order, and whether it broke off at a wanted node that has
no parent. -/
structure Traversal where
  found : List Found
  broken : Bool

namespace Traversal

/-- The children go on the stack from first to last, so the last one comes off first. -/
def push (ancestors : List NodeInfo) (children : List Node) (stack : List Pending) : List Pending :=
  children.foldl (fun stack child => ⟨child, ancestors⟩ :: stack) stack

/-- The number of nodes that are visited before the stack is empty. -/
def owed : List Pending → Nat
  | [] => 0
  | p :: stack => p.node.size + owed stack

theorem push_cons (ancestors : List NodeInfo) (first : Node) (rest : List Node) (stack : List Pending) :
    push ancestors (first :: rest) stack = push ancestors rest (⟨first, ancestors⟩ :: stack) :=
  rfl

theorem owed_push (ancestors : List NodeInfo) (children : List Node) (stack : List Pending) :
    owed (push ancestors children stack) = Node.sizeAmong children + owed stack := by
  induction children generalizing stack with
  | nil => simp [push, Node.sizeAmong]
  | cons first rest ih =>
    simp only [push_cons, ih, Node.sizeAmong, owed]
    omega

/-- Visits what is on a stack. The stack may grow with every visit; what ends the traversal is that a visited node is
not owed any more. -/
def ofStack (wanted : NodeKind → Bool) : List Pending → Traversal
  | [] => ⟨[], false⟩
  | ⟨.mk info children, ancestors⟩ :: stack =>
    if wanted info.kind then
      if ancestors.isEmpty then ⟨[], true⟩
      else
        let rest := ofStack wanted (push (info :: ancestors) children stack)
        { rest with found := ⟨info, ancestors⟩ :: rest.found }
    else ofStack wanted (push (info :: ancestors) children stack)
termination_by stack => owed stack
decreasing_by
  all_goals
    simp only [owed_push, owed, Node.size]
    omega

end Traversal

namespace Node

def traverse (wanted : NodeKind → Bool) (root : Node) : Traversal :=
  .ofStack wanted [⟨root, []⟩]

/-- The wanted nodes below the root, or nothing at all if the root itself is wanted. -/
def found? (wanted : NodeKind → Bool) (root : Node) : Option (List Found) :=
  let t := root.traverse wanted
  if t.broken then none else some t.found

end Node
end ThreadLocal
