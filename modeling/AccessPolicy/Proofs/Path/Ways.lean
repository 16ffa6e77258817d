import AccessPolicy.Proofs.Path.DocumentOrder
import AccessPolicy.Proofs.Path.Written

/-!
# Ways through tags

A path of tags alone goes down level by level. Its chains part where they go to different
children and do not meet again, so no node is met twice, and the path selects what one
finds branch by branch (`Path.select_ofTags`). It is the path that its tags, written with
slashes between them, are read as (`Path.read?_intercalate`).
-/

namespace AccessPolicy

namespace Path

/-- The chains of a way end in document order, and so at different nodes. -/
theorem chainEnds_ofTags (tags : List String) (node : Node) :
    (chainEnds (ofTags tags).steps node).Pairwise Node.Before ∧
      ∀ last ∈ chainEnds (ofTags tags).steps node, node.position <+: last.position := by
  induction tags generalizing node with
  | nil =>
    refine ⟨List.pairwise_singleton _ _, fun last hlast => ?_⟩
    rw [List.mem_singleton.1 hlast]
  | cons tag tags ih =>
    show ((Step.choices ⟨.child, .tag tag, []⟩ node).flatMap
      (chainEnds (ofTags tags).steps)).Pairwise Node.Before ∧
      ∀ last ∈ (Step.choices ⟨.child, .tag tag, []⟩ node).flatMap
        (chainEnds (ofTags tags).steps), node.position <+: last.position
    have chosen : ∀ other ∈ Step.choices ⟨.child, .tag tag, []⟩ node,
        ∃ i, other.position = node.position ++ [i] := by
      intro other hother
      obtain ⟨i, _, hchild⟩ := List.mem_mapIdx.1 (List.mem_filter.1 hother).1
      exact ⟨i, by rw [← hchild]⟩
    -- chains through two children stay below their positions, which part at the last index
    refine ⟨List.pairwise_flatMap.2 ⟨fun other _ => (ih other).1, ?_⟩, fun last hlast => ?_⟩
    · refine (choices_pairwise _ node).imp_of_mem fun {a b} ha hb hbefore x hx y hy => ?_
      obtain ⟨i, hi⟩ := chosen a ha
      obtain ⟨j, hj⟩ := chosen b hb
      have part : ¬ a.position <+: b.position := fun hab =>
        hbefore.ne (hab.eq_of_length (by rw [hi, hj]; simp))
      obtain ⟨is, his⟩ := (ih a).2 x hx
      obtain ⟨js, hjs⟩ := (ih b).2 y hy
      rw [Node.Before, ← his, ← hjs]
      exact append_lt_append hbefore part is js
    · obtain ⟨other, hother, hlast⟩ := List.mem_flatMap.1 hlast
      obtain ⟨i, hi⟩ := chosen other hother
      have down : node.position <+: other.position := hi ▸ List.prefix_append _ _
      exact down.trans ((ih other).2 last hlast)

/-- A way selects what one comes to branch by branch. -/
theorem select_ofTags (tags : List String) (root : Element) :
    (ofTags tags).select root = root.descend tags := by
  have apart := (chainEnds_ofTags tags ⟨[], root⟩).1.imp Node.Before.ne
  rw [select, nodes_eq, distinctBy_eq_self apart, map_element_chainEnds]

/-! ## Ways as they are written -/

theorem toText_ofTags (tags : List String) : (ofTags tags).toText = "/".intercalate tags := by
  rw [← String.toList_inj, toText, String.toList_ofList, String.toList_intercalate]
  induction tags with
  | nil => rfl
  | cons tag tags ih =>
    have alone : Step.write ⟨.child, .tag tag, []⟩ = tag.toList := List.append_nil _
    cases tags with
    | nil => simpa [ofTags, writeSteps] using alone
    | cons next tags =>
      show Step.write ⟨.child, .tag tag, []⟩ ++
        ('/' :: writeSteps (ofTags (next :: tags)).steps) = _
      rw [alone, ih]
      simp [List.intercalate]

/-- Tags that are names, with slashes between them, are read as the way through them. -/
theorem read?_intercalate {tags : List String} (hne : tags ≠ [])
    (h : ∀ tag ∈ tags, NodeTest.IsWritable (.tag tag)) :
    read? ("/".intercalate tags) = .ok (ofTags tags) := by
  have writable : (ofTags tags).IsWritable := by
    obtain ⟨first, rest, rfl⟩ := List.exists_cons_of_ne_nil hne
    refine ⟨List.cons_ne_nil _ _, ?_, fun step hstep => ?_⟩
    · rintro step ⟨⟩
      rfl
    · obtain ⟨tag, htag, rfl⟩ := List.mem_map.1 hstep
      exact ⟨h tag htag, fun p hp => absurd hp List.not_mem_nil⟩
  refine read?_of_written writable ?_
  rw [← toText_ofTags]
  exact spells_toText writable

end Path

end AccessPolicy
