import AccessPolicy.Document.Basic
import AccessPolicy.Proofs.Element.Sorted
import AccessPolicy.Proofs.Profile.Keeps
import AccessPolicy.Proofs.Profile.Written

/-!
# Documents and their elements in order

Profiles are put in order by their names, attachments and terms, elements by texts,
tags and attributes that know of no profile. Both agree: the element of what is in
order is the element in order (`Document.sorted_toElement`).

The parts of an element are compared as what they are written from. Attachments alone
have a text, so that they stay ahead of all items; items have none, and their tags,
names and first attachments are those of their elements (`compareSiblings_itemElement`).
The last of these is read from a rule whose own parts are in order already.
-/

namespace AccessPolicy

open Element

/-! ## Attachments and permissions -/

theorem isLE_compare_text (a b : String) : (compare a b).isLE = decide (a ≤ b) := by
  rw [Bool.eq_iff_iff, decide_eq_true_iff]
  exact Ordering.isLE_iff_ne_gt.trans compare_le_iff_le

theorem sortSiblings_attachments (attachments : List String) :
    sortSiblings (attachments.map attachmentElement) =
      (sortTexts attachments).map attachmentElement := by
  refine sortSiblings_map (fun a => sort_leaf rfl) (fun a b => ?_) attachments
  -- the texts decide, and equal texts leave nothing that differs
  have siblings : Element.compareSiblings (attachmentElement a) (attachmentElement b) =
      (compare a b).then ((compare attachmentTag attachmentTag).then .eq) := rfl
  have tags : compare attachmentTag attachmentTag = .eq := compare_eq_iff_eq.2 rfl
  rw [siblings, tags, ← isLE_compare_text]
  cases compare a b <;> rfl

theorem sortSiblings_permissions (permissions : List Permission) :
    sortSiblings (permissions.map fun p => ofTag p.toText) =
      (permissions.mergeSort fun p q => decide (p.toText ≤ q.toText)).map
        fun p => ofTag p.toText := by
  refine sortSiblings_map (fun p => sort_leaf rfl) (fun p q => ?_) permissions
  have siblings : Element.compareSiblings (ofTag p.toText) (ofTag q.toText) =
      (compare p.toText q.toText).then .eq := rfl
  rw [siblings, ← isLE_compare_text]
  cases compare p.toText q.toText <;> rfl

/-! ## Rules -/

namespace Rule

/-- The parts of a rule's element are put in order as the rule's are. -/
theorem sortSiblings_partElements (r : Rule) :
    sortSiblings r.partElements = r.sort.partElements := by
  have attachments := sort_withChildren (children_ofTag attachmentsTag)
    (r.attachments.map attachmentElement)
  have permissions := sort_withChildren (children_ofTag permissionsTag)
    (r.permissions.map fun p => ofTag p.toText)
  have tags : compare attachmentsTag permissionsTag = .lt := by decide
  show sortSiblings ([_] ++ [_]) = _
  rw [sortSiblings_append]
  · rw [sortSiblings_singleton, sortSiblings_singleton, attachments, permissions,
      sortSiblings_attachments, sortSiblings_permissions]
    rfl
  · intro x hx y hy
    rw [List.mem_singleton.1 hx, List.mem_singleton.1 hy, attachments, permissions,
      compareSiblings_of_tags rfl rfl tags]
    rfl

theorem toElement_sort (r : Rule) : r.sort.toElement = r.toElement.sort := by
  rw [toElement_eq r, sort_withChildren r.children_headElement, sortSiblings_partElements]
  exact r.sort.toElement_eq

/-- A rule's element begins with the first attachment of the rule. -/
theorem firstAttachment?_toElement (r : Rule) :
    r.toElement.firstAttachment? = r.attachments.head? := by
  rw [firstAttachment?, child?, children_toElement, partElements]
  cases r.attachments <;> rfl

end Rule

/-! ## Items -/

namespace Profile

variable (item : Item Profile)

/-- No child of a profile's element is a list of attachments. -/
theorem child?_attachments_toElement (p : Profile) :
    p.toElement.child? attachmentsTag = none := by
  rw [child?, List.find?_eq_none]
  intro e he
  rw [children_toElement] at he
  rcases List.mem_append.1 he with he | he
  · obtain ⟨a, _, rfl⟩ := List.mem_map.1 he
    show ¬ (attachmentTag == attachmentsTag) = true
    decide
  · obtain ⟨item, _, rfl⟩ := List.mem_map.1 he
    rw [tag_itemElement]
    cases item with
    | rule r =>
      show ¬ (r.kind.toText == attachmentsTag) = true
      cases r.kind <;> decide
    | profile q =>
      show ¬ (profileTag == attachmentsTag) = true
      decide

theorem firstAttachment?_itemElement :
    (itemElement item).firstAttachment? = item.firstAttachment? := by
  cases item with
  | rule r => exact r.firstAttachment?_toElement
  | profile p =>
    show Element.firstAttachment? p.toElement = none
    rw [Element.firstAttachment?, child?_attachments_toElement]
    rfl

/-- Items compare as their elements do. -/
theorem compareSiblings_itemElement (a b : Item Profile) :
    Element.compareSiblings (itemElement a) (itemElement b) = a.compareSiblings b := by
  unfold Element.compareSiblings Item.compareSiblings
  simp only [tag_itemElement, text_itemElement, name?_itemElement, firstAttachment?_itemElement]
  rfl

/-- An attachment comes before every item. -/
theorem compareSiblings_attachment_item (a : String) :
    Element.compareSiblings (attachmentElement a) (itemElement item) = .lt :=
  compareSiblings_of_text rfl (text_itemElement item)

/-! ## Profiles -/

/-- Items whose elements are put in order as they are, are sorted as their elements
are. -/
theorem sortSiblings_items {items : List (Item Profile)}
    (h : ∀ item ∈ items, (itemElement item).sort = itemElement (item.change Rule.sort sort)) :
    sortSiblings (items.map itemElement) =
      ((sortParts items).mergeSort fun a b => (a.compareSiblings b).isLE).map itemElement := by
  have elements : (items.map itemElement).map Element.sort =
      (sortParts items).map itemElement := by
    rw [sortParts_eq_map, List.map_map, List.map_map]
    exact List.map_congr_left h
  rw [sortSiblings, sortAll_eq_map, elements]
  refine (List.map_mergeSort fun a _ b _ => ?_).symm
  rw [compareSiblings_itemElement]

/-- The element of a profile in order is the profile's element in order. -/
theorem toElement_sort (p : Profile) : p.sort.toElement = p.toElement.sort := by
  induction p using inductionOn with
  | step p ih =>
    obtain ⟨name, attachments, modifier, items⟩ := p
    have hitem : ∀ item ∈ items,
        (itemElement item).sort = itemElement (item.change Rule.sort sort) := by
      intro item hitem
      cases item with
      | rule r => exact r.toElement_sort.symm
      | profile q => exact (ih q hitem).symm
    have ahead : ∀ x ∈ attachments.map attachmentElement, ∀ y ∈ items.map itemElement,
        (Element.compareSiblings x.sort y.sort).isLE = true := by
      intro x hx y hy
      obtain ⟨a, _, rfl⟩ := List.mem_map.1 hx
      obtain ⟨item, hmem, rfl⟩ := List.mem_map.1 hy
      rw [sort_leaf rfl, hitem item hmem, compareSiblings_attachment_item]
      rfl
    rw [toElement_eq ⟨name, attachments, modifier, items⟩,
      sort_withChildren (children_headElement name modifier), sortSiblings_append ahead,
      sortSiblings_attachments, sortSiblings_items hitem, Profile.sort, toElement_eq]

end Profile

namespace Document

/-- The element of what is in order is its element in order, for a document as for a
single profile. -/
theorem sorted_toElement :
    (∀ d : Document, d.sort.toElement = d.toElement.sort) ∧
      ∀ p : Profile, p.sort.toElement = p.toElement.sort := by
  refine ⟨fun d => ?_, Profile.toElement_sort⟩
  have elements : (d.profiles.map Profile.toElement).map Element.sort =
      (d.profiles.map Profile.sort).map Profile.toElement := by
    rw [List.map_map, List.map_map]
    exact List.map_congr_left fun p _ => p.toElement_sort.symm
  have siblings : ∀ p q : Profile, decide (p.name ≤ q.name) =
      (Element.compareSiblings p.toElement q.toElement).isLE := by
    intro p q
    have items := Profile.compareSiblings_itemElement (.profile p) (.profile q)
    have tags : compare profileTag profileTag = .eq := compare_eq_iff_eq.2 rfl
    have byName : Item.compareSiblings (.profile p) (.profile q) =
        (compare profileTag profileTag).then ((compare p.name q.name).then .eq) := rfl
    show _ = (Element.compareSiblings (Profile.itemElement (.profile p))
      (Profile.itemElement (.profile q))).isLE
    rw [items, byName, tags, ← isLE_compare_text]
    cases compare p.name q.name <;> rfl
  rw [toElement, toElement, sort_withChildren (children_ofTag profilesTag), sortSiblings,
    sortAll_eq_map, elements]
  congr 1
  exact List.map_mergeSort fun p _ q _ => siblings p q

end Document

end AccessPolicy
