import AccessPolicy.Proofs.Collection.Answers
import AccessPolicy.Proofs.Path.Chains
import AccessPolicy.Proofs.Profile.Written
import AccessPolicy.Store.Basic

/-!
# Rules as what a path selects

The rules of a kind are found in two ways: in the profiles themselves, or in their
elements by the path that goes to all nodes with the tag of the kind. Both give the
same rules, as they come and as often (`Store.query_rulesOf`).

Only rules have the tag of a kind. An attachment, a permission, the lists that hold
them and a profile have other tags, so of the nodes below a profile those with the tag
are its rules of the kind and those of the profiles in it
(`Profile.withTag_toElement`).
-/

namespace AccessPolicy

open Element

/-! ## All nodes with a tag -/

namespace Element

/-- The nodes of some trees that have a tag, in document order. -/
def withTag (tag : String) (es : List Element) : List Element :=
  (preorderAll es).filter fun e => e.tag == tag

variable {tag : String}

@[simp] theorem withTag_nil : withTag tag [] = [] := rfl

theorem withTag_cons (e : Element) (es : List Element) : withTag tag (e :: es) =
    (if e.tag = tag then [e] else []) ++ withTag tag e.children ++ withTag tag es := by
  obtain ⟨name, attributes, text, children⟩ := e
  rw [withTag, preorderAll, preorder, List.filter_append, List.filter_cons]
  by_cases h : name = tag
  · simp [h, withTag]
  · simp [h, withTag]

theorem withTag_append (es fs : List Element) :
    withTag tag (es ++ fs) = withTag tag es ++ withTag tag fs := by
  simp only [withTag, preorderAll_eq_flatMap, List.flatMap_append, List.filter_append]

/-- A node that only holds others adds what is found among these. -/
theorem withTag_cons_of_ne {e : Element} (h : e.tag ≠ tag) (es : List Element) :
    withTag tag (e :: es) = withTag tag e.children ++ withTag tag es := by
  rw [withTag_cons, if_neg h, List.nil_append]

/-- Nodes without children are found when they have the tag themselves. -/
theorem withTag_leaves {es : List Element} (h : ∀ e ∈ es, e.children = [] ∧ e.tag ≠ tag) :
    withTag tag es = [] := by
  induction es with
  | nil => rfl
  | cons e es ih =>
    obtain ⟨⟨hleaf, htag⟩, hes⟩ := List.forall_mem_cons.1 h
    rw [withTag_cons_of_ne htag, hleaf, ih hes]
    rfl

end Element

/-! ## The path to all nodes with a tag -/

namespace Path

/-- The path to all nodes below that have a tag. -/
def allWithTag (tag : String) : Path :=
  ⟨[⟨.child, .current, []⟩, ⟨.descendant, .tag tag, []⟩]⟩

theorem read?_allWithTag (kind : ObjectKind) :
    read? (".//" ++ kind.toText) = .ok (allWithTag kind.toText) := by
  cases kind <;> cbv

/-- No node is met twice on the way to all nodes below. -/
theorem nodes_allWithTag (tag : String) (root : Element) :
    (allWithTag tag).nodes root =
      (Node.descendants ⟨[], root⟩).filter fun node => node.element.tag == tag := by
  have ends : chainEnds (allWithTag tag).steps ⟨[], root⟩ =
      (Node.descendants ⟨[], root⟩).filter fun node => node.element.tag == tag := by
    simp [chainEnds, allWithTag, Step.choices, Step.candidates, Step.accepts, NodeTest.accepts,
      List.flatMap_singleton']
  have once := ((descendants_pairwise ⟨[], root⟩).filter
    fun node => node.element.tag == tag).imp Node.Before.ne
  rw [nodes_eq, ends, distinctBy_eq_self once]

theorem select_allWithTag (tag : String) (root : Element) :
    (allWithTag tag).select root = withTag tag root.children := by
  rw [select, nodes_allWithTag, withTag, Node.descendants, ← map_element_nodesBelow [] 0,
    List.filter_map]
  rfl

end Path

/-! ## The nodes of rules and profiles -/

variable {kind : ObjectKind}

/-- No kind is spelled like the tag of another part of a profile. -/
theorem ObjectKind.toText_ne (kind : ObjectKind) : kind.toText ≠ profileTag ∧
    kind.toText ≠ attachmentTag ∧ kind.toText ≠ attachmentsTag ∧ kind.toText ≠ permissionsTag ∧
      ∀ p : Permission, kind.toText ≠ p.toText := by
  cases kind <;> refine ⟨by decide, by decide, by decide, by decide, fun p => ?_⟩ <;>
    cases p <;> decide

theorem withTag_attachments (kind : ObjectKind) (attachments : List String) :
    withTag kind.toText (attachments.map attachmentElement) = [] := by
  refine withTag_leaves fun e he => ?_
  obtain ⟨a, _, rfl⟩ := List.mem_map.1 he
  exact ⟨rfl, kind.toText_ne.2.1.symm⟩

/-- There is no rule among the parts of a rule. -/
theorem Rule.withTag_partElements (kind : ObjectKind) (r : Rule) :
    withTag kind.toText r.partElements = [] := by
  obtain ⟨_, _, hattachments, hpermissions, hpermission⟩ := kind.toText_ne
  have verbs : withTag kind.toText (r.permissions.map fun p => ofTag p.toText) = [] := by
    refine withTag_leaves fun e he => ?_
    obtain ⟨p, _, rfl⟩ := List.mem_map.1 he
    exact ⟨rfl, (hpermission p).symm⟩
  have inside : ∀ (name : String) (es : List Element),
      ((ofTag name).withChildren es).children = es := fun _ es => List.nil_append es
  rw [partElements, withTag_cons_of_ne hattachments.symm, withTag_cons_of_ne hpermissions.symm,
    inside, inside, withTag_attachments, verbs]
  rfl

theorem Rule.withTag_cons_toElement (r : Rule) (es : List Element) :
    withTag kind.toText (r.toElement :: es) =
      (if r.kind = kind then [r.toElement] else []) ++ withTag kind.toText es := by
  rw [withTag_cons, r.tag_toElement, r.children_toElement, r.withTag_partElements]
  by_cases h : r.kind = kind
  · simp [h]
  · have other : r.kind.toText ≠ kind.toText := fun same => h (ObjectKind.toText_inj same)
    simp [h, other]

namespace Profile

theorem tag_toElement_ne (p : Profile) (kind : ObjectKind) : p.toElement.tag ≠ kind.toText := by
  rw [p.tag_toElement]
  exact kind.toText_ne.1.symm

mutual

/-- The nodes below a profile's element that have the tag of a kind are its rules of
the kind. -/
theorem withTag_toElement (kind : ObjectKind) : ∀ p : Profile,
    withTag kind.toText p.toElement.children = (p.rulesOf kind).map Rule.toElement
  | ⟨name, attachments, modifier, items⟩ => by
    rw [children_toElement, withTag_append, withTag_attachments, List.nil_append,
      ← itemElements_eq_map, withTag_itemElements kind items, rulesOf]

theorem withTag_itemElements (kind : ObjectKind) : ∀ items : List (Item Profile),
    withTag kind.toText (itemElements items) = (itemRulesOf kind items).map Rule.toElement
  | [] => rfl
  | .rule r :: items => by
    rw [itemElements, r.withTag_cons_toElement, withTag_itemElements kind items, itemRulesOf]
    split <;> rfl
  | .profile p :: items => by
    rw [itemElements, withTag_cons_of_ne (p.tag_toElement_ne kind), withTag_toElement kind p,
      withTag_itemElements kind items, itemRulesOf, List.map_append]

end

end Profile

/-! ## Documents and stores -/

theorem Document.query_kind (d : Document) (kind : ObjectKind) :
    d.query (".//" ++ kind.toText) = .ok ((ofTag Path.resultsTag).withChildren
      ((d.rulesOf kind).map Rule.toElement)) := by
  have profiles : withTag kind.toText (d.profiles.map Profile.toElement) =
      (d.rulesOf kind).map Rule.toElement := by
    rw [Document.rulesOf]
    induction d.profiles with
    | nil => rfl
    | cons p ps ih =>
      rw [List.map_cons, withTag_cons_of_ne (p.tag_toElement_ne kind),
        p.withTag_toElement kind, ih, List.flatMap_cons, List.map_append]
  have children : d.toElement.children = d.profiles.map Profile.toElement := List.nil_append _
  rw [Document.query, Element.query, Element.findAll, Path.read?_allWithTag]
  show Except.ok ((ofTag Path.resultsTag).withChildren
    ((Path.allWithTag kind.toText).select d.toElement)) = _
  rw [Path.select_allWithTag, children, profiles]

/-- The path to all nodes with the tag of a kind selects, in the elements of a store,
the elements of its rules of that kind, in the same order and as often. -/
theorem Store.query_rulesOf (s : Store) (kind : ObjectKind) :
    s.query (".//" ++ kind.toText) = .ok ((ofTag Path.resultsTag).withChildren
      ((s.rulesOf kind).map Rule.toElement)) := by
  have documents : s.documents.mapM (fun d => d.query (".//" ++ kind.toText)) =
      .ok (s.documents.map fun d => (ofTag Path.resultsTag).withChildren
        ((d.rulesOf kind).map Rule.toElement)) :=
    mapM_eq_ok fun d _ => d.query_kind kind
  have found : (s.documents.map fun d => (ofTag Path.resultsTag).withChildren
        ((d.rulesOf kind).map Rule.toElement)).flatMap (·.children) =
      (s.rulesOf kind).map Rule.toElement := by
    rw [List.flatMap_map, Store.rulesOf, List.map_flatMap]
    rfl
  rw [Store.query, documents]
  show Except.ok ((ofTag Path.resultsTag).withChildren _) = _
  rw [found]

end AccessPolicy
