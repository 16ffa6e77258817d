import AccessPolicy.Proofs.Element.Sorted
import AccessPolicy.Proofs.Path.Chains
import Mathlib.Data.List.Forall2
import Mathlib.Data.Prod.Lex
import Mathlib.Order.WithBot

/-!
# What sorting makes of an element

Siblings are compared by a key: text, tag, name and the text of an attachment, where a
value comes before none (`Element.keyBy`). In an element in order the children of every
node are those it had, each in order itself, by their keys and, where these are equal, as
they stood (`Element.PutInOrder`). Sorting gives that form and leaves it as it is.

The attachment in the key is the first of the first list of attachments
(`Element.firstAttachment?`). It is the one that the path `attachments/attachment` finds
(`Element.listedAttachment?`), but for an element whose first list is empty and another
is not.
-/

namespace AccessPolicy

/-! ## Keys -/

section Compares

variable {α β : Type}

theorem compares_compare [LinearOrder α] (a b : α) : (compare a b).Compares a b := by
  cases h : compare a b with
  | lt => exact compare_lt_iff_lt.1 h
  | eq => exact compare_eq_iff_eq.1 h
  | gt => exact compare_gt_iff_gt.1 h

/-- Pairs are compared by their first parts, and where these are equal by the others. -/
theorem compares_then [LT α] [LT β] {o o' : Ordering} {a b : α} {a' b' : β}
    (h : o.Compares a b) (h' : o'.Compares a' b') :
    (o.then o').Compares (toLex (a, a')) (toLex (b, b')) := by
  cases o with
  | lt => exact Prod.Lex.toLex_lt_toLex.2 (.inl h)
  | gt => exact Prod.Lex.toLex_lt_toLex.2 (.inl h)
  | eq =>
    obtain rfl : a = b := h
    cases o' with
    | lt => exact Prod.Lex.toLex_lt_toLex.2 (.inr ⟨rfl, h'⟩)
    | gt => exact Prod.Lex.toLex_lt_toLex.2 (.inr ⟨rfl, h'⟩)
    | eq => exact congrArg (fun c => toLex (a, c)) h'

theorem isLE_iff_of_compares [LinearOrder α] {o : Ordering} {a b : α} (h : o.Compares a b) :
    o.isLE = true ↔ a ≤ b := by
  cases o with
  | lt => exact iff_of_true rfl (le_of_lt h)
  | eq => exact iff_of_true rfl (le_of_eq h)
  | gt => exact iff_of_false (by decide) (not_le_of_gt h)

end Compares

namespace Element

/-- A value in the order in which values come before none. -/
def presentFirst : Option String → WithTop String
  | some value => value
  | none => ⊤

theorem compares_comparePresent (a b : Option String) :
    (comparePresent a b).Compares (presentFirst a) (presentFirst b) := by
  cases a with
  | none =>
    cases b with
    | none => exact rfl
    | some b => exact WithTop.coe_lt_top b
  | some a =>
    cases b with
    | none => exact WithTop.coe_lt_top a
    | some b =>
      have values := compares_compare a b
      show (compare a b).Compares (a : WithTop String) b
      cases h : compare a b <;> rw [h] at values
      · exact WithTop.coe_lt_coe.2 values
      · exact WithTop.coe_inj.2 values
      · exact WithTop.coe_lt_coe.2 values

/-- A text, a tag, a name and the text of an attachment, the earlier ones first. -/
abbrev Key : Type := WithTop String ×ₗ String ×ₗ WithTop String ×ₗ WithTop String

/-- What an element is compared by, where it is told which attachment counts. -/
def keyBy (attachment : Element → Option String) (e : Element) : Key :=
  toLex (presentFirst e.text, toLex (e.tag,
    toLex (presentFirst (e.attribute? nameAttribute), presentFirst (attachment e))))

theorem keyBy_congr {attachment attachment' : Element → Option String} {e : Element}
    (h : attachment e = attachment' e) : keyBy attachment e = keyBy attachment' e := by
  rw [keyBy, keyBy, h]

/-- Siblings are compared by their keys. -/
theorem compares_compareSiblings (a b : Element) :
    (compareSiblings a b).Compares (keyBy firstAttachment? a) (keyBy firstAttachment? b) :=
  compares_then (compares_comparePresent ..) <| compares_then (compares_compare ..) <|
    compares_then (compares_comparePresent ..) (compares_comparePresent ..)

theorem siblingLE_iff (a b : Element) : (compareSiblings a b).isLE = true ↔
    keyBy firstAttachment? a ≤ keyBy firstAttachment? b :=
  isLE_iff_of_compares (compares_compareSiblings a b)

/-! ## Elements in order -/

/-- The second element is the first one in order: on every level the children are those
of the first, each in order itself, by their keys and else as they stood. -/
inductive PutInOrder (key : Element → Key) : Element → Element → Prop
  | node {e f : Element} {children : List Element} :
      f.tag = e.tag → f.attributes = e.attributes → f.text = e.text →
      List.Forall₂ (PutInOrder key) e.children children →
      f.children.Perm children → f.children.Pairwise (fun a b => key a ≤ key b) →
      (∀ k, f.children.filter (fun c => key c = k) = children.filter fun c => key c = k) →
        PutInOrder key e f

theorem children_sort (e : Element) : e.sort.children =
    (e.children.map sort).mergeSort fun a b => (compareSiblings a b).isLE := by
  cases e
  rw [sort, sortAll_eq_map]

theorem perm_children_sort (e : Element) : e.sort.children.Perm (e.children.map sort) := by
  rw [children_sort]
  exact List.mergeSort_perm _ _

theorem pairwise_children_sort (e : Element) :
    e.sort.children.Pairwise fun a b => keyBy firstAttachment? a ≤ keyBy firstAttachment? b := by
  rw [children_sort]
  exact (List.pairwise_mergeSort siblingLE_trans siblingLE_total _).imp (siblingLE_iff _ _).1

theorem filter_children_sort (e : Element) (k : Key) :
    e.sort.children.filter (fun c => keyBy firstAttachment? c = k) =
      (e.children.map sort).filter fun c => keyBy firstAttachment? c = k := by
  rw [children_sort]
  refine filter_mergeSort siblingLE_trans siblingLE_total _ fun a _ b _ ha hb => ?_
  rw [siblingLE_iff, of_decide_eq_true ha, of_decide_eq_true hb]

theorem mem_children_sort {e child : Element} (h : child ∈ e.children) :
    child.sort ∈ e.sort.children :=
  (perm_children_sort e).mem_iff.2 (List.mem_map_of_mem h)

/-- Sorting puts an element in order, by any keys that agree with those that are compared
on what is sorted. -/
theorem putInOrder_sort {key : Element → Key} (e : Element)
    (h : ∀ f ∈ e.sort.preorder, key f = keyBy firstAttachment? f) : PutInOrder key e e.sort := by
  induction e using inductionOn with
  | step e ih =>
    have inside : ∀ child ∈ e.children, ∀ f ∈ child.sort.preorder, f ∈ e.sort.preorder :=
      fun child hchild f hf => mem_preorder.2 (.inr ⟨_, mem_children_sort hchild, hf⟩)
    have same : ∀ c ∈ e.sort.children, key c = keyBy firstAttachment? c :=
      fun c hc => h c (mem_preorder.2 (.inr ⟨c, hc, mem_preorder.2 (.inl rfl)⟩))
    have each : List.Forall₂ (PutInOrder key) e.children (e.children.map sort) :=
      List.forall₂_map_right_iff.2 (List.forall₂_same.2 fun child hchild =>
        ih child hchild fun f hf => h f (inside child hchild f hf))
    refine .node ?_ ?_ ?_ each (perm_children_sort e) ?_ fun k => ?_
    · cases e
      rw [sort]
    · cases e
      rw [sort]
    · cases e
      rw [sort]
    · refine (pairwise_children_sort e).imp_of_mem fun ha hb hab => ?_
      rwa [same _ ha, same _ hb]
    · have keys : ∀ c ∈ e.sort.children,
          decide (key c = k) = decide (keyBy firstAttachment? c = k) := fun c hc => by
        rw [same c hc]
      rw [List.filter_congr keys, filter_children_sort]
      exact (List.filter_congr fun c hc =>
        keys c ((perm_children_sort e).mem_iff.2 hc)).symm

/-- The children of every node are in order. -/
def IsSorted (e : Element) : Prop :=
  ∀ f ∈ e.preorder, f.children.Pairwise fun a b => (compareSiblings a b).isLE = true

instance (e : Element) : Decidable e.IsSorted :=
  inferInstanceAs (Decidable
    (∀ f ∈ e.preorder, f.children.Pairwise fun a b => (compareSiblings a b).isLE = true))

theorem isSorted_iff {e : Element} : e.IsSorted ↔
    (e.children.Pairwise fun a b => (compareSiblings a b).isLE = true) ∧
      ∀ child ∈ e.children, child.IsSorted := by
  simp only [IsSorted, mem_preorder (e := e)]
  refine ⟨fun h => ⟨h e (.inl rfl), fun c hc f hf => h f (.inr ⟨c, hc, hf⟩)⟩, fun h f hf => ?_⟩
  rcases hf with rfl | ⟨c, hc, hf⟩
  · exact h.1
  · exact h.2 c hc f hf

theorem isSorted_sort (e : Element) : e.sort.IsSorted := by
  induction e using inductionOn with
  | step e ih =>
    refine isSorted_iff.2 ⟨(pairwise_children_sort e).imp (siblingLE_iff _ _).2, fun c hc => ?_⟩
    obtain ⟨child, hchild, rfl⟩ := List.mem_map.1 ((perm_children_sort e).mem_iff.1 hc)
    exact ih child hchild

theorem IsSorted.sort_eq {e : Element} (h : e.IsSorted) : e.sort = e := by
  induction e using inductionOn with
  | step e ih =>
    obtain ⟨ordered, inner⟩ := isSorted_iff.1 h
    obtain ⟨tag, attributes, text, children⟩ := e
    have same : children.map sort = children :=
      (List.map_congr_left fun c hc => ih c hc (inner c hc)).trans (List.map_id _)
    rw [sort, sortAll_eq_map, same, List.mergeSort_of_pairwise ordered]

/-- Sorting leaves as they are the elements in which all children are in order. -/
theorem sort_eq_self_iff {e : Element} : e.sort = e ↔ e.IsSorted :=
  ⟨fun h => h ▸ e.isSorted_sort, IsSorted.sort_eq⟩

/-! ## The attachment of a key -/

/-- The text of what the path `attachments/attachment` finds first. -/
def listedAttachment? (e : Element) : Option String :=
  (Path.ofTags [attachmentsTag, attachmentTag]).text? e

/-- If the first list of attachments is empty, there is no attachment in any other. -/
def ListsFirst (e : Element) : Prop :=
  ∀ list, e.child? attachmentsTag = some list → list.child? attachmentTag = none →
    ∀ other ∈ e.childrenNamed attachmentsTag, other.child? attachmentTag = none

theorem head?_childrenNamed (e : Element) (tag : String) :
    (e.childrenNamed tag).head? = e.child? tag := by
  rw [childrenNamed, List.head?_filter, child?]

/-- The path selects the attachments of all lists. -/
theorem map_element_attachments (e : Element) :
    (Path.chainEnds (Path.ofTags [attachmentsTag, attachmentTag]).steps ⟨[], e⟩).map (·.element) =
      (e.childrenNamed attachmentsTag).flatMap fun list => list.childrenNamed attachmentTag := by
  rw [Path.map_element_chainEnds]
  simp only [descend, List.flatMap_singleton']

/-- The path finds an attachment in the first list that has one. -/
theorem listedAttachment?_eq (e : Element) : e.listedAttachment? =
    ((e.childrenNamed attachmentsTag).findSome? fun list => list.child? attachmentTag).bind
      (·.text) := by
  have first : ∀ nodes : List Path.Node,
      (distinctBy (·.position) nodes).head? = nodes.head? := by
    intro nodes
    cases nodes <;> rfl
  rw [listedAttachment?, Path.text?, Path.select, Path.nodes_eq, List.head?_map, first,
    ← List.head?_map, map_element_attachments, List.head?_flatMap]
  simp only [head?_childrenNamed]

theorem firstAttachment?_eq_listedAttachment? {e : Element} (h : e.ListsFirst) :
    e.firstAttachment? = e.listedAttachment? := by
  rw [listedAttachment?_eq, firstAttachment?, ← head?_childrenNamed e attachmentsTag]
  congr 1
  cases hlists : e.childrenNamed attachmentsTag with
  | nil => rfl
  | cons list lists =>
    have head : e.child? attachmentsTag = some list := by
      rw [← head?_childrenNamed, hlists, List.head?_cons]
    rw [List.head?_cons, Option.bind_some, List.findSome?_cons]
    cases hfound : list.child? attachmentTag with
    | some found => rfl
    | none =>
      refine (List.findSome?_eq_none_iff.2 fun other hother => ?_).symm
      exact h list head hfound other (hlists ▸ List.mem_cons_of_mem list hother)

/-! ## Sorting -/

instance (e : Element) : Decidable e.ListsFirst :=
  decidable_of_iff (∀ list ∈ e.child? attachmentsTag, list.child? attachmentTag = none →
    ∀ other ∈ e.childrenNamed attachmentsTag, other.child? attachmentTag = none) Iff.rfl

/-- Sorting puts an element in order and leaves what is in order. Siblings are compared by
their texts, tags, names and the first attachments of their first lists, and these are
what the path `attachments/attachment` finds if no first list is empty before another
that is not. The order of siblings is a total preorder. -/
theorem sort_putsInOrder (e : Element) :
    PutInOrder (keyBy firstAttachment?) e e.sort ∧
      ((∀ f ∈ e.sort.preorder, f.ListsFirst) → PutInOrder (keyBy listedAttachment?) e e.sort) ∧
      e.sort.sort = e.sort ∧ (e.sort = e ↔ e.IsSorted) ∧
      (∀ a, (compareSiblings a a).isLE = true) ∧
      (∀ a b c, (compareSiblings a b).isLE = true → (compareSiblings b c).isLE = true →
        (compareSiblings a c).isLE = true) ∧
      ∀ a b, (compareSiblings a b).isLE = true ∨ (compareSiblings b a).isLE = true := by
  refine ⟨putInOrder_sort e fun _ _ => rfl, fun h => ?_, e.isSorted_sort.sort_eq,
    sort_eq_self_iff, fun a => ?_, siblingLE_trans, fun a b => ?_⟩
  · exact putInOrder_sort e fun f hf =>
      keyBy_congr (firstAttachment?_eq_listedAttachment? (h f hf)).symm
  · exact (siblingLE_iff a a).2 le_rfl
  · rw [siblingLE_iff, siblingLE_iff]
    exact le_total _ _

/-- A rule on topics with lists of attachments. -/
def topicRule (lists : List (List String)) : Element :=
  (((ofTag "topic").withAttribute qualifierAttribute "ALLOW").withChildren
    (lists.map fun list =>
      (ofTag attachmentsTag).withChildren (list.map attachmentElement))).withChild
        ((ofTag permissionsTag).withChild (ofTag "publish"))

/-- A document with a profile whose parts stand the wrong way round. -/
def unsortedDocument : Element :=
  (ofTag "profiles").withChildren [(ofTag profileTag).withChildren
    [topicRule [["/c"]], topicRule [["/a", "/b"], []], attachmentElement "/robot"]]

/-- The document with the attachment of the profile first, and the rules by what they begin
with then. -/
def sortedDocument : Element :=
  (ofTag "profiles").withChildren [(ofTag profileTag).withChildren
    [attachmentElement "/robot", topicRule [["/a", "/b"], []], topicRule [["/c"]]]]

/-- An empty list of attachments behind another does no harm. -/
theorem sort_putsInOrder_unsortedDocument :
    unsortedDocument.sort = sortedDocument ∧
      (∀ f ∈ unsortedDocument.sort.preorder, f.ListsFirst) ∧
      PutInOrder (keyBy listedAttachment?) unsortedDocument unsortedDocument.sort := by
  have inner : sortAll [topicRule [["/c"]], topicRule [["/a", "/b"], []],
      attachmentElement "/robot"] =
        [topicRule [["/c"]], topicRule [["/a", "/b"], []], attachmentElement "/robot"] := by
    have rules : (topicRule [["/c"]]).IsSorted ∧ (topicRule [["/a", "/b"], []]).IsSorted := by
      decide
    rw [sortAll, sortAll, sortAll, sortAll, rules.1.sort_eq, rules.2.sort_eq, sort_leaf rfl]
  have sorted : unsortedDocument.sort = sortedDocument := by
    rw [unsortedDocument, sort_withChildren rfl, sortSiblings_singleton, sort_withChildren rfl,
      sortSiblings, inner, mergeSort_cons_eq siblingLE_trans siblingLE_total,
      mergeSort_cons_eq siblingLE_trans siblingLE_total, List.mergeSort_singleton]
    decide
  have lists : ∀ f ∈ unsortedDocument.sort.preorder, f.ListsFirst := by
    rw [sorted]
    decide
  exact ⟨sorted, lists, (sort_putsInOrder unsortedDocument).2.1 lists⟩

/-- A profile in which the first rule has an empty list of attachments first. -/
def emptyListFirst : Element :=
  ((ofTag profileTag).withAttribute nameAttribute "robot").withChildren
    [topicRule [[], ["/a"]], topicRule [["/b"]]]

/-- A rule with an empty list ahead is sorted as one without attachments, behind a rule
whose first attachment is greater. -/
theorem sort_emptyListFirst :
    emptyListFirst.sort.children.map listedAttachment? = [some "/b", some "/a"] ∧
      emptyListFirst.sort.children.map firstAttachment? = [some "/b", none] ∧
      ¬ PutInOrder (keyBy listedAttachment?) emptyListFirst emptyListFirst.sort := by
  have inner : (topicRule [["/b"]]).IsSorted ∧ (topicRule [[], ["/a"]]).IsSorted := by
    decide
  have sorted : emptyListFirst.sort.children = [topicRule [["/b"]], topicRule [[], ["/a"]]] := by
    have each : emptyListFirst.children.map sort = [topicRule [[], ["/a"]], topicRule [["/b"]]] :=
      congrArg₂ (fun a b => [a, b]) inner.2.sort_eq inner.1.sort_eq
    rw [children_sort, each, mergeSort_cons_eq siblingLE_trans siblingLE_total,
      List.mergeSort_singleton]
    decide
  have listed : [topicRule [["/b"]], topicRule [[], ["/a"]]].map listedAttachment? =
      [some "/b", some "/a"] := by
    decide
  refine ⟨by rw [sorted, listed], by rw [sorted]; decide, fun h => ?_⟩
  cases h with
  | node _ _ _ _ _ ordered _ =>
    rw [sorted] at ordered
    revert ordered
    decide

end Element

end AccessPolicy
