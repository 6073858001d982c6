import ThreadLocal.Proofs.Analysis.Traversal

/-!
Trees of the same shape whose nodes are related one by one, and what that says of the nodes found in them.
-/

namespace ThreadLocal

/-- Rows of trees of the same shapes. Every node is related to the one in its place, both taken with their
ancestors. -/
inductive Node.Correspond (R : Found → Found → Prop) :
    (above above' : List NodeInfo) → List Node → List Node → Prop where
  | nil {above above' : List NodeInfo} : Correspond R above above' [] []
  | cons {above above' : List NodeInfo} {info info' : NodeInfo} {children children' rest rest' : List Node}
    (here : R ⟨info, above⟩ ⟨info', above'⟩)
    (below : Correspond R (info :: above) (info' :: above') children children')
    (others : Correspond R above above' rest rest') :
    Correspond R above above' (.mk info children :: rest) (.mk info' children' :: rest')

namespace Node.Correspond

variable {R : Found → Found → Prop} {above above' : List NodeInfo} {nodes nodes' : List Node}
  {wanted : NodeKind → Bool}

/-- If related nodes are of the same kind, what is found in the second trees is related to something found in the
first ones, and their ancestors are of the same kinds. -/
theorem exists_found (h : Correspond R above above' nodes nodes')
    (kinds : ∀ found found', R found found' → found'.node.kind = found.node.kind)
    (outer : above'.map NodeInfo.kind = above.map NodeInfo.kind) :
    ∀ found' ∈ foundAmong wanted above' nodes', ∃ found ∈ foundAmong wanted above nodes, R found found' ∧
      wanted found.node.kind = true ∧ found'.ancestors.map NodeInfo.kind = found.ancestors.map NodeInfo.kind := by
  induction h with
  | nil => simp [foundAmong]
  | @cons above above' info info' children children' rest rest' here below others ihbelow ihothers =>
    have hkind : info'.kind = info.kind := kinds _ _ here
    simp only [foundAmong, foundFrom, List.mem_append, hkind]
    rintro found' (hothers | hhere | hbelow)
    · obtain ⟨found, hfound, hrelated⟩ := ihothers outer found' hothers
      exact ⟨found, .inl hfound, hrelated⟩
    · split at hhere
      next hwanted =>
        obtain rfl := List.mem_singleton.mp hhere
        exact ⟨⟨info, above⟩, .inr (.inl (by simp [hwanted])), here, hwanted, outer⟩
      next => simp at hhere
    · have houter : (info' :: above').map NodeInfo.kind = (info :: above).map NodeInfo.kind := by
        rw [List.map_cons, List.map_cons, hkind, outer]
      obtain ⟨found, hfound, hrelated⟩ := ihbelow houter found' hbelow
      exact ⟨found, .inr (.inr hfound), hrelated⟩

end Node.Correspond
end ThreadLocal
