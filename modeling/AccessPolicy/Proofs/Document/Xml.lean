import AccessPolicy.Document.Basic
import AccessPolicy.Proofs.Element.Xml
import AccessPolicy.Proofs.Profile.Walk
import AccessPolicy.Proofs.Profile.Written

/-!
# The XML of a document tells the profiles

The tags and attribute names of profiles and rules are names (`Document.isNamed_toElement`),
whatever texts they carry. The elements of two profiles that agree up to empty texts are
those of one profile: an attachment always has its text, and the parts of profiles and rules
can be told apart by their tags (`Profile.eq_of_toElement`). So documents that are written
alike hold the same profiles (`Document.xml_tells`).
-/

namespace AccessPolicy

open Element

/-! ## Named elements are built from named elements -/

namespace Element

variable {e : Element}

theorem isNamed_ofTag {tag : String} (h : IsName tag) : (ofTag tag).IsNamed :=
  isNamed_iff.2 ⟨h, fun _ hentry => absurd hentry List.not_mem_nil,
    fun _ hchild => absurd hchild List.not_mem_nil⟩

theorem IsNamed.withAttribute (he : e.IsNamed) {key : String} (hkey : IsName key)
    (value : String) : (e.withAttribute key value).IsNamed := by
  obtain ⟨tag, entries, children⟩ := isNamed_iff.1 he
  refine isNamed_iff.2 ⟨tag, fun entry hentry => ?_, children⟩
  rcases Attributes.mem_insertEntry hentry with rfl | hentry
  · exact hkey
  · exact entries entry hentry

theorem IsNamed.withAttribute? (he : e.IsNamed) {key : String} (hkey : IsName key)
    (value? : Option String) : (e.withAttribute? key value?).IsNamed := by
  cases value? with
  | none => exact he
  | some value => exact he.withAttribute hkey value

theorem IsNamed.withText (he : e.IsNamed) (text : String) : (e.withText text).IsNamed :=
  isNamed_iff.2 ((isNamed_iff (e := e)).1 he)

theorem IsNamed.withChildren (he : e.IsNamed) {es : List Element}
    (hes : ∀ child ∈ es, child.IsNamed) : (e.withChildren es).IsNamed := by
  obtain ⟨tag, entries, children⟩ := isNamed_iff.1 he
  refine isNamed_iff.2 ⟨tag, entries, fun child hchild => ?_⟩
  rcases List.mem_append.1 hchild with hchild | hchild
  · exact children child hchild
  · exact hes child hchild

end Element

theorem isNamed_attachmentElement (pattern : String) : (attachmentElement pattern).IsNamed :=
  (isNamed_ofTag (by decide)).withText pattern

theorem Rule.isNamed_toElement (r : Rule) : r.toElement.IsNamed := by
  have kind : IsName r.kind.toText := by cases r.kind <;> decide
  have permission : ∀ p : Permission, IsName p.toText := by
    intro p
    cases p <;> decide
  have head : r.headElement.IsNamed :=
    ((isNamed_ofTag kind).withAttribute (by decide) _).withAttribute? (by decide) _
  rw [toElement_eq]
  refine head.withChildren fun part hpart => ?_
  rw [partElements, List.mem_pair] at hpart
  rcases hpart with rfl | rfl
  · refine (isNamed_ofTag (by decide)).withChildren (List.forall_mem_map.2 fun a _ => ?_)
    exact isNamed_attachmentElement a
  · refine (isNamed_ofTag (by decide)).withChildren (List.forall_mem_map.2 fun p _ => ?_)
    exact isNamed_ofTag (permission p)

theorem Profile.isNamed_toElement (p : Profile) : p.toElement.IsNamed := by
  induction p using Profile.inductionOn with
  | step p ih =>
    have head : (headElement p.name p.modifier).IsNamed :=
      ((isNamed_ofTag (by decide)).withAttribute (by decide) _).withAttribute? (by decide) _
    rw [toElement_eq]
    refine head.withChildren fun child hchild => ?_
    rcases List.mem_append.1 hchild with hchild | hchild
    · obtain ⟨a, _, rfl⟩ := List.mem_map.1 hchild
      exact isNamed_attachmentElement a
    · obtain ⟨item, hitem, rfl⟩ := List.mem_map.1 hchild
      cases item with
      | rule r => exact r.isNamed_toElement
      | profile q => exact ih q hitem

/-- The element of a document is named, whatever texts the profiles carry. -/
theorem Document.isNamed_toElement (d : Document) : d.toElement.IsNamed :=
  (isNamed_ofTag (by decide)).withChildren
    (List.forall_mem_map.2 fun p _ => p.isNamed_toElement)

/-! ## Elements tell what was written -/

/-- A list is told by its image if its members are told by theirs. -/
theorem eq_of_map_eq {α β : Type} {f : α → β} {xs ys : List α}
    (tells : ∀ x ∈ xs, ∀ y, f x = f y → x = y) (h : xs.map f = ys.map f) : xs = ys := by
  induction xs generalizing ys with
  | nil => exact (List.map_eq_nil_iff.1 h.symm).symm
  | cons x xs ih =>
    cases ys with
    | nil => exact nomatch h
    | cons y ys =>
      rw [List.map_cons, List.map_cons] at h
      obtain ⟨first, others⟩ := List.cons.inj h
      rw [tells x List.mem_cons_self y first,
        ih (fun z hz => tells z (List.mem_cons_of_mem _ hz)) others]

/-- What a list is written as tells it, if each member is told, up to empty texts. -/
theorem eq_of_map_toElement {α : Type} {write : α → Element} {xs ys : List α}
    (tells : ∀ x ∈ xs, ∀ y, (write x).withoutEmptyTexts = (write y).withoutEmptyTexts → x = y)
    (h : (xs.map write).map withoutEmptyTexts = (ys.map write).map withoutEmptyTexts) :
    xs = ys := by
  rw [List.map_map, List.map_map] at h
  exact eq_of_map_eq tells h

theorem attribute?_of_withoutEmptyTexts {a b : Element}
    (h : a.withoutEmptyTexts = b.withoutEmptyTexts) (key : String) :
    a.attribute? key = b.attribute? key := by
  rw [attribute?, attribute?, (withoutEmptyTexts_eq_iff.1 h).2.1]

/-- An attachment always has its text, if an empty one. -/
theorem eq_of_attachmentElement {a b : String}
    (h : (attachmentElement a).withoutEmptyTexts = (attachmentElement b).withoutEmptyTexts) :
    a = b :=
  (withoutEmptyTexts_eq_iff.1 h).2.2.1

namespace Rule

theorem eq_of_toElement {r s : Rule}
    (h : r.toElement.withoutEmptyTexts = s.toElement.withoutEmptyTexts) : r = s := by
  obtain ⟨kind, _, _, children⟩ := withoutEmptyTexts_eq_iff.1 h
  have qualifier := attribute?_of_withoutEmptyTexts h qualifierAttribute
  have modifier := attribute?_of_withoutEmptyTexts h modifierAttribute
  rw [tag_toElement, tag_toElement] at kind
  rw [qualifier_toElement, qualifier_toElement, Option.some_inj] at qualifier
  rw [modifier_toElement, modifier_toElement] at modifier
  rw [children_toElement, children_toElement, partElements, partElements] at children
  obtain ⟨first, others⟩ := List.cons.inj children
  have attachments := (withoutEmptyTexts_eq_iff.1 first).2.2.2
  have permissions := (withoutEmptyTexts_eq_iff.1 (List.cons.inj others).1).2.2.2
  have sameKind := ObjectKind.toText_inj kind
  have sameQualifier : r.qualifier = s.qualifier := by
    rw [← Option.some_inj, ← Qualifier.ofText?_toText, qualifier, Qualifier.ofText?_toText]
  have sameAttachments : r.attachments = s.attachments :=
    eq_of_map_toElement (fun a _ b => eq_of_attachmentElement) attachments
  have samePermissions : r.permissions = s.permissions :=
    eq_of_map_toElement
      (fun p _ q hpq => Permission.toText_inj (withoutEmptyTexts_eq_iff.1 hpq).1) permissions
  cases r
  cases s
  simp only [Rule.mk.injEq]
  exact ⟨sameKind, sameQualifier, modifier, sameAttachments, samePermissions⟩

end Rule

namespace Profile

/-- The element of an item tells it, if the element of a profile does. -/
theorem eq_of_itemElement {item other : Item Profile}
    (tells : ∀ p, item = .profile p → ∀ q,
      p.toElement.withoutEmptyTexts = q.toElement.withoutEmptyTexts → p = q)
    (h : (itemElement item).withoutEmptyTexts = (itemElement other).withoutEmptyTexts) :
    item = other := by
  have tag := (withoutEmptyTexts_eq_iff.1 h).1
  have kinds : ∀ kind : ObjectKind, kind.toText ≠ profileTag := by
    intro kind
    cases kind <;> decide
  rw [tag_itemElement, tag_itemElement] at tag
  cases item with
  | rule r =>
    cases other with
    | rule s => rw [Rule.eq_of_toElement h]
    | profile q => exact absurd tag (kinds r.kind)
  | profile p =>
    cases other with
    | rule s => exact absurd tag.symm (kinds s.kind)
    | profile q => rw [tells p rfl q h]

theorem tag_of_mem_attachments (as : List String) :
    ∀ e ∈ (as.map attachmentElement).map withoutEmptyTexts, (e.tag == attachmentTag) = true := by
  simp only [List.forall_mem_map]
  intro a _
  rw [withoutEmptyTexts_eq]
  rfl

/-- What stands behind the attachments is no attachment. -/
theorem tag_of_mem_head?_items (items : List (Item Profile)) :
    ∀ e ∈ ((items.map itemElement).map withoutEmptyTexts).head?,
      (e.tag == attachmentTag) = false := by
  intro e he
  obtain ⟨item, _, rfl⟩ : ∃ item ∈ items, (itemElement item).withoutEmptyTexts = e := by
    simpa using List.mem_of_mem_head? he
  rw [withoutEmptyTexts_eq, beq_eq_false_iff_ne]
  show (itemElement item).tag ≠ attachmentTag
  rw [tag_itemElement]
  cases item with
  | rule r => cases hr : r.kind <;> simp only [Item.tag, hr] <;> decide
  | profile p =>
    show profileTag ≠ attachmentTag
    decide

/-- The element of a profile tells it, up to empty texts. -/
theorem eq_of_toElement (p : Profile) : ∀ q : Profile,
    p.toElement.withoutEmptyTexts = q.toElement.withoutEmptyTexts → p = q := by
  induction p using inductionOn with
  | step p ih =>
    intro q h
    have name := attribute?_of_withoutEmptyTexts h nameAttribute
    have modifier := attribute?_of_withoutEmptyTexts h modifierAttribute
    have children := (withoutEmptyTexts_eq_iff.1 h).2.2.2
    rw [name_toElement, name_toElement, Option.some_inj] at name
    rw [modifier_toElement, modifier_toElement] at modifier
    rw [children_toElement, children_toElement, List.map_append, List.map_append] at children
    -- the attachments end at the first child with another tag
    obtain ⟨attachments, items⟩ := prefix_unique (tag_of_mem_attachments _)
      (tag_of_mem_attachments _) (tag_of_mem_head?_items _) (tag_of_mem_head?_items _) children
    have sameAttachments := eq_of_map_toElement (fun a _ b => eq_of_attachmentElement) attachments
    have sameItems : p.items = q.items :=
      eq_of_map_toElement
        (fun item hitem other => eq_of_itemElement fun p hp => ih p (hp ▸ hitem)) items
    cases p
    cases q
    simp only [Profile.mk.injEq]
    exact ⟨name, sameAttachments, modifier, sameItems⟩

end Profile

/-! ## Documents -/

namespace Document

/-- Documents are written alike exactly when they hold the same profiles. -/
theorem toXml_toElement_eq_iff {d d' : Document} :
    d.toElement.toXml = d'.toElement.toXml ↔ d.profiles = d'.profiles := by
  rw [toXml_eq_iff d.isNamed_toElement d'.isNamed_toElement]
  constructor
  · intro h
    exact eq_of_map_toElement (fun p _ q => p.eq_of_toElement q)
      (withoutEmptyTexts_eq_iff.1 h).2.2.2
  · intro h
    rw [toElement, toElement, h]

/-- Elements whose tags and attribute names are names, with any values and texts, are written
alike exactly when they are the same but for empty texts; documents are written alike exactly
when they hold the same profiles. -/
theorem xml_tells :
    (∀ a b : Element, a.IsNamed → b.IsNamed →
      (a.toXml = b.toXml ↔ a.withoutEmptyTexts = b.withoutEmptyTexts)) ∧
    ∀ d d' : Document, d.toElement.toXml = d'.toElement.toXml ↔ d.profiles = d'.profiles :=
  ⟨fun _ _ => toXml_eq_iff, fun _ _ => toXml_toElement_eq_iff⟩

/-- A text that looks like a child on a line of its own is written in another way than the
child, and an empty text like no text. -/
theorem xml_tells_text_from_child :
    let written : Element := ⟨"a", .empty, some "\n  <b/>\n", []⟩
    let child : Element := ⟨"a", .empty, some "", [⟨"b", .empty, none, []⟩]⟩
    let bare : Element := ⟨"a", .empty, none, [⟨"b", .empty, some "", []⟩]⟩
    written.IsNamed ∧ child.IsNamed ∧ bare.IsNamed ∧ written.toXml ≠ child.toXml ∧
      child.toXml = bare.toXml := by
  intro written child bare
  have hwritten : written.IsNamed := by decide
  have hchild : child.IsNamed := by decide
  have hbare : bare.IsNamed := by decide
  refine ⟨hwritten, hchild, hbare, fun h => ?_, (xml_tells.1 child bare hchild hbare).2 rfl⟩
  have same := (xml_tells.1 written child hwritten hchild).1 h
  revert same
  decide

end Document

end AccessPolicy
