import AccessPolicy.Document.Basic
import AccessPolicy.Proofs.Profile.Walk
import AccessPolicy.Proofs.Rule.Read

/-!
# Reading documents

A document is well-formed when all its profiles, at whatever depth, have names, and all
attachments and rules in it are such as can be read. What is read is well-formed, and
exactly the well-formed documents are read back from their elements
(`Document.readBack_iff_isWellFormed`).

The children of a profile's element are read like those of any other element, each
giving an attachment, a rule or a profile (`Profile.ofElement?_eq`).
-/

namespace AccessPolicy

open Element

namespace Profile

/-! ## Members -/

/-- What a child of a profile's element contributes. -/
def readMember (location : Location) (e : Element) : Except StructureError Member :=
  if e.tag = attachmentTag then (readAttachment location e).map .attachment
  else if e.tag = profileTag then (ofElement? location e).map fun p => .item (.profile p)
  else (Rule.ofElement? location e).map fun r => .item (.rule r)

theorem readMembers_eq (location : Location) (before : List String) (es : List Element) :
    readMembers location before es =
      (placed before es).mapM fun (index, e) => readMember (location.down e.tag index) e := by
  induction es generalizing before with
  | nil => rfl
  | cons e es ih =>
    rw [readMembers, placed, mapM_cons_eq, ← ih]
    simp only [readMember]
    generalize readMembers location (e.tag :: before) es = others
    -- whatever the child is, the others follow it in the same way
    split
    · cases readAttachment (location.down e.tag (before.count e.tag + 1)) e <;>
        cases others <;> rfl
    · split
      · cases ofElement? (location.down e.tag (before.count e.tag + 1)) e <;>
          cases others <;> rfl
      · cases Rule.ofElement? (location.down e.tag (before.count e.tag + 1)) e <;>
          cases others <;> rfl

/-- The children of a profile's element are read one by one. -/
theorem ofElement?_eq (location : Location) (e : Element) : ofElement? location e =
    if e.tag ≠ profileTag then .error (.unexpectedElement e.tag location)
    else do
      let name ← readName location e
      let members ← readPlaced location readMember e.children
      return ⟨name, members.filterMap Member.attachment?, e.attribute? modifierAttribute,
        members.filterMap Member.item?⟩ := by
  obtain ⟨tag, attributes, text, children⟩ := e
  rw [ofElement?, readMembers_eq]
  rfl

/-! ## Well-formed profiles -/

/-- The parts that a profile has itself can be read: it has a name, and its attachments
and rules are well-formed. -/
structure HasReadableParts (p : Profile) : Prop where
  named : p.name ≠ ""
  attachments : ∀ a ∈ p.attachments, IsAttachment a
  rules : ∀ r ∈ p.rules, r.IsWellFormed

/-- The profile and all profiles in it have parts that can be read. -/
def IsWellFormed (p : Profile) : Prop := ∀ q ∈ p.walk, q.HasReadableParts

theorem isWellFormed_iff {p : Profile} : p.IsWellFormed ↔
    p.HasReadableParts ∧ ∀ q, .profile q ∈ p.items → q.IsWellFormed :=
  forall_mem_walk

/-- A member that can be written and read without a change. -/
def Member.IsWellFormed : Member → Prop
  | attachment pattern => IsAttachment pattern
  | item (.rule r) => r.IsWellFormed
  | item (.profile p) => p.IsWellFormed

/-! ## What is read is well-formed -/

theorem isWellFormed_of_readMember {location : Location} {e : Element} {member : Member}
    (ih : ∀ location p, ofElement? location e = .ok p → p.IsWellFormed)
    (h : readMember location e = .ok member) : member.IsWellFormed := by
  unfold readMember at h
  split at h
  · obtain ⟨pattern, hread, rfl⟩ := exists_ok_of_map h
    exact isAttachment_of_readAttachment hread
  · split at h
    · obtain ⟨p, hread, rfl⟩ := exists_ok_of_map h
      exact ih location p hread
    · obtain ⟨r, hread, rfl⟩ := exists_ok_of_map h
      exact Rule.isWellFormed_of_ofElement? hread

theorem named_of_readName {location : Location} {e : Element} {name : String}
    (h : readName location e = .ok name) : name ≠ "" := by
  unfold readName at h
  split at h
  · exact nomatch h
  · split at h
    · exact nomatch h
    · rename_i hne
      injection h with h
      rintro rfl
      exact hne (by rw [h]; rfl)

/-- A profile put together from well-formed members under a name is well-formed. -/
theorem isWellFormed_of_members {name : String} {modifier : Option String}
    {members : List Member} (hname : name ≠ "") (h : ∀ m ∈ members, m.IsWellFormed) :
    IsWellFormed ⟨name, members.filterMap Member.attachment?, modifier,
      members.filterMap Member.item?⟩ := by
  have items : ∀ i ∈ members.filterMap Member.item?, (Member.item i).IsWellFormed := by
    intro i hi
    obtain ⟨m, hm, hitem⟩ := List.mem_filterMap.1 hi
    cases m with
    | attachment pattern => exact nomatch hitem
    | item j =>
      injection hitem with hitem
      rw [← hitem]
      exact h _ hm
  refine isWellFormed_iff.2 ⟨⟨hname, fun a ha => ?_, fun r hr => ?_⟩, fun q hq => items _ hq⟩
  · obtain ⟨m, hm, hpattern⟩ := List.mem_filterMap.1 ha
    cases m with
    | attachment pattern =>
      injection hpattern with hpattern
      rw [← hpattern]
      exact h _ hm
    | item i => exact nomatch hpattern
  · exact items _ (mem_rules.1 hr)

/-- What is read as a profile is well-formed. -/
theorem isWellFormed_of_ofElement? (e : Element) : ∀ (location : Location) (p : Profile),
    ofElement? location e = .ok p → p.IsWellFormed := by
  induction e using Element.inductionOn with
  | step e ih =>
    intro location p h
    rw [ofElement?_eq] at h
    split at h
    · exact nomatch h
    · obtain ⟨name, hname, h⟩ := exists_ok_of_bind h
      obtain ⟨members, hmembers, h⟩ := exists_ok_of_bind h
      injection h with h
      rw [← h]
      refine isWellFormed_of_members (named_of_readName hname) fun m hm => ?_
      obtain ⟨here, child, hchild, hread⟩ := exists_of_mem_readPlaced hmembers hm
      exact isWellFormed_of_readMember (ih child hchild) hread

/-! ## What is well-formed is read back -/

/-- A member as an element. -/
def Member.toElement : Member → Element
  | attachment pattern => attachmentElement pattern
  | item i => itemElement i

/-- The members that a profile is put together from, its attachments first. -/
def members (p : Profile) : List Member :=
  p.attachments.map .attachment ++ p.items.map .item

theorem children_eq_members (p : Profile) :
    p.toElement.children = p.members.map Member.toElement := by
  rw [children_toElement, members, List.map_append, List.map_map, List.map_map]
  rfl

theorem attachments_members (p : Profile) :
    p.members.filterMap Member.attachment? = p.attachments := by
  simp [members, List.filterMap_map, Function.comp_def, Member.attachment?]

theorem items_members (p : Profile) : p.members.filterMap Member.item? = p.items := by
  simp [members, List.filterMap_map, Function.comp_def, Member.item?]

/-- A member is read back from its element, if those that are profiles are. -/
theorem readMember_toElement {member : Member} (h : member.IsWellFormed)
    (ih : ∀ p, member = .item (.profile p) → ∀ here, ofElement? here p.toElement = .ok p)
    (location : Location) : readMember location member.toElement = .ok member := by
  cases member with
  | attachment pattern =>
    have tag : (Member.attachment pattern).toElement.tag = attachmentTag := rfl
    rw [readMember, if_pos tag, Member.toElement, readAttachment_attachmentElement h]
    rfl
  | item i =>
    rw [readMember, Member.toElement, tag_itemElement]
    cases i with
    | rule r =>
      have tags : r.kind.toText ≠ attachmentTag ∧ r.kind.toText ≠ profileTag := by
        cases r.kind <;> decide
      rw [Item.tag, if_neg tags.1, if_neg tags.2, itemElement, Rule.ofElement?_toElement h]
      rfl
    | profile p =>
      have tag : profileTag ≠ attachmentTag := by decide
      rw [Item.tag, if_neg tag, if_pos rfl, itemElement, ih p rfl]
      rfl

/-- A well-formed profile is read back from its element. -/
theorem ofElement?_toElement (p : Profile) (h : p.IsWellFormed) (location : Location) :
    ofElement? location p.toElement = .ok p := by
  induction p using inductionOn generalizing location with
  | step p ih =>
    obtain ⟨parts, nested⟩ := isWellFormed_iff.1 h
    have name : readName location p.toElement = .ok p.name := by
      have hne : p.name.isEmpty = false := by
        rw [← Bool.not_eq_true, String.isEmpty_iff]
        exact parts.named
      simp only [readName, name_toElement, hne, Bool.false_eq_true, if_false]
    have wellFormed : ∀ m ∈ p.members, m.IsWellFormed := by
      intro m hm
      rcases List.mem_append.1 hm with hm | hm
      · obtain ⟨a, ha, rfl⟩ := List.mem_map.1 hm
        exact parts.attachments a ha
      · obtain ⟨i, hi, rfl⟩ := List.mem_map.1 hm
        cases i with
        | rule r => exact parts.rules r (mem_rules.2 hi)
        | profile q => exact nested q hi
    have readBack : ∀ m ∈ p.members, ∀ here, readMember here m.toElement = .ok m := by
      intro m hm
      refine readMember_toElement (wellFormed m hm) ?_
      rintro q rfl
      have hq : .profile q ∈ p.items := by
        rw [← items_members p]
        exact List.mem_filterMap.2 ⟨_, hm, rfl⟩
      exact ih q hq (nested q hq)
    rw [ofElement?_eq, if_neg (not_not_intro p.tag_toElement), name, children_eq_members,
      readPlaced_map readBack, modifier_toElement]
    show Except.ok (⟨p.name, p.members.filterMap Member.attachment?, p.modifier,
      p.members.filterMap Member.item?⟩ : Profile) = .ok p
    rw [attachments_members, items_members]
    cases p
    rfl

end Profile

/-! ## Documents -/

namespace Document

variable {d : Document}

/-- All profiles of the document, at whatever depth, have parts that can be read. -/
def IsWellFormed (d : Document) : Prop := ∀ p ∈ d.walk, p.HasReadableParts

theorem isWellFormed_iff : d.IsWellFormed ↔ ∀ p ∈ d.profiles, p.IsWellFormed :=
  List.forall_mem_flatMap

/-- What is read as a document is well-formed. -/
theorem isWellFormed_of_ofElement? {root : Element} (h : ofElement? root = .ok d) :
    d.IsWellFormed := by
  unfold ofElement? at h
  rw [isWellFormed_iff]
  intro p hp
  split at h
  · obtain ⟨profiles, hprofiles, rfl⟩ := exists_ok_of_map h
    obtain ⟨here, e, _, hread⟩ := exists_of_mem_readPlaced hprofiles hp
    exact Profile.isWellFormed_of_ofElement? e here p hread
  · split at h
    · obtain ⟨q, hread, rfl⟩ := exists_ok_of_map h
      rw [List.mem_singleton.1 hp]
      exact Profile.isWellFormed_of_ofElement? root _ q hread
    · exact nomatch h

/-- A well-formed document is read back from its element, but for a note of where it was
found. -/
theorem ofElement?_toElement (h : d.IsWellFormed) :
    ofElement? d.toElement = .ok (ofProfiles d.profiles) := by
  have readBack : ∀ p ∈ d.profiles, ∀ here, Profile.ofElement? here p.toElement = .ok p :=
    fun p hp => p.ofElement?_toElement (isWellFormed_iff.1 h p hp)
  have tag : d.toElement.tag = profilesTag := rfl
  rw [ofElement?, if_pos tag, toElement, children_withChildren, children_ofTag, List.nil_append,
    readPlaced_map readBack]
  rfl

/-- Reading the element of a document gives the same profiles exactly when the document
is well-formed, and whatever is read is well-formed. -/
theorem readBack_iff_isWellFormed :
    (∀ d : Document, (∃ e, ofElement? d.toElement = .ok e ∧ e.profiles = d.profiles) ↔
      d.IsWellFormed) ∧
    ∀ root d, ofElement? root = .ok d → d.IsWellFormed := by
  refine ⟨fun d => ?_, fun root d h => isWellFormed_of_ofElement? h⟩
  constructor
  · rintro ⟨e, hread, hprofiles⟩
    rw [isWellFormed_iff, ← hprofiles, ← isWellFormed_iff]
    exact isWellFormed_of_ofElement? hread
  · intro h
    exact ⟨_, ofElement?_toElement h, rfl⟩

/-- Read from a profile whose attachment has blanks around it and stands behind a rule and
a nested profile. -/
theorem readBack_interleaved :
    let rule : Element := ⟨"topic", .ofList [("qualifier", "ALLOW")], none,
      [⟨"attachments", .empty, none, [⟨"attachment", .empty, some "/a", []⟩]⟩,
        ⟨"permissions", .empty, none, [⟨"publish", .empty, none, []⟩]⟩]⟩
    let root : Element := ⟨"profile", .ofList [("name", "outer")], none,
      [rule, ⟨"profile", .ofList [("name", "inner")], none, []⟩,
        ⟨"attachment", .empty, some " /outer ", []⟩]⟩
    let d := ofProfiles [⟨"outer", ["/outer"], none,
      [.rule ⟨.topic, .allow, none, ["/a"], [.publish]⟩, .profile (.ofName "inner")]⟩]
    ofElement? root = .ok d ∧ d.IsWellFormed ∧
      ∃ e, ofElement? d.toElement = .ok e ∧ e.profiles = d.profiles := by
  intro rule root d
  have hread : ofElement? root = .ok d := rfl
  have hwell : d.IsWellFormed := readBack_iff_isWellFormed.2 root d hread
  exact ⟨hread, hwell, (readBack_iff_isWellFormed.1 d).2 hwell⟩

end Document

end AccessPolicy
