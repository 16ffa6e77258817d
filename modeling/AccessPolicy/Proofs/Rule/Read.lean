import AccessPolicy.Proofs.Collection.Answers
import AccessPolicy.Proofs.Profile.Written
import AccessPolicy.Proofs.Text.Trimmed
import Mathlib.Data.List.Forall2

/-!
# Reading rules

An attachment is read from a text that is trimmed first and must leave something, so
that what is read is an attachment that is written as it is (`IsAttachment`). A rule is
well-formed when it has attachments and all of them are such. What is read as a rule is
well-formed (`Rule.isWellFormed_of_ofElement?`), and a well-formed rule is read back from
its element (`Rule.ofElement?_toElement`).
-/

namespace AccessPolicy

open Element Text

/-! ## Reading the members of a list -/

section Placed

variable {α : Type} {read : Location → Element → Except StructureError α} {location : Location}

/-- Members are given places in their order. -/
theorem map_snd_placed (before : List String) (es : List Element) :
    (placed before es).map Prod.snd = es := by
  induction es generalizing before with
  | nil => rfl
  | cons e es ih => rw [placed, List.map_cons, ih]

theorem mem_of_mem_placed {before : List String} {es : List Element} {place : Nat × Element}
    (h : place ∈ placed before es) : place.2 ∈ es := by
  have hmem := List.mem_map_of_mem (f := Prod.snd) h
  rwa [map_snd_placed] at hmem

theorem exists_mem_placed {es : List Element} {e : Element} (he : e ∈ es) (before : List String) :
    ∃ index, (index, e) ∈ placed before es := by
  rw [← map_snd_placed before es] at he
  obtain ⟨⟨index, _⟩, hmem, rfl⟩ := List.mem_map.1 he
  exact ⟨index, hmem⟩

/-- What is read from a list is read from its members. -/
theorem exists_of_mem_readPlaced {es : List Element} {as : List α} {a : α}
    (h : readPlaced location read es = .ok as) (ha : a ∈ as) :
    ∃ here, ∃ e ∈ es, read here e = .ok a := by
  obtain ⟨⟨index, e⟩, hmem, hread⟩ := (mem_of_mapM_ok h a).1 ha
  exact ⟨location.down e.tag index, e, mem_of_mem_placed hmem, hread⟩

/-- Every member of a list that is read gives something. -/
theorem exists_mem_of_readPlaced {es : List Element} {as : List α} {e : Element}
    (h : readPlaced location read es = .ok as) (he : e ∈ es) :
    ∃ here, ∃ a ∈ as, read here e = .ok a := by
  obtain ⟨index, hmem⟩ := exists_mem_placed he []
  obtain ⟨a, hread⟩ := exists_mapM_ok.1 ⟨as, h⟩ _ hmem
  exact ⟨location.down e.tag index, a, (mem_of_mapM_ok h a).2 ⟨_, hmem, hread⟩, hread⟩

/-- A list is read as its members are read, wherever they stand. -/
theorem readPlaced_of_forall₂ {es : List Element} {as : List α}
    (h : List.Forall₂ (fun e a => ∀ here, read here e = .ok a) es as) :
    readPlaced location read es = .ok as := by
  rw [← map_snd_placed [] es, List.forall₂_map_left_iff] at h
  exact mapM_of_forall₂ (h.imp fun place a hread => hread _)

/-- Members that are read back wherever they stand are read back from a list. -/
theorem readPlaced_map {write : α → Element} {as : List α}
    (h : ∀ a ∈ as, ∀ here, read here (write a) = .ok a) :
    readPlaced location read (as.map write) = .ok as := by
  refine readPlaced_of_forall₂ (List.forall₂_map_left_iff.2 ?_)
  exact List.forall₂_same.2 h

end Placed

/-! ## Attachments -/

/-- A text that is written and read as an attachment without a change: it is not empty,
and no blank stands at either end of it. -/
structure IsAttachment (pattern : String) : Prop where
  nonempty : pattern ≠ ""
  trimmed : IsTrimmed pattern.toList

theorem isAttachment_iff {pattern : String} :
    IsAttachment pattern ↔ pattern ≠ "" ∧ trim pattern = pattern := by
  refine ⟨fun h => ⟨h.nonempty, trim_eq_self h.trimmed⟩, fun ⟨hne, htrim⟩ => ⟨hne, ?_⟩⟩
  rw [← htrim]
  exact isTrimmed_trim pattern

instance (pattern : String) : Decidable (IsAttachment pattern) :=
  decidable_of_iff _ isAttachment_iff.symm

theorem isAttachment_of_readAttachment {location : Location} {e : Element} {pattern : String}
    (h : readAttachment location e = .ok pattern) : IsAttachment pattern := by
  unfold readAttachment at h
  split at h
  · exact nomatch h
  · simp only at h
    split at h
    · exact nomatch h
    · rename_i hne
      injection h with h
      rw [h] at hne
      exact ⟨fun hempty => hne (by rw [hempty]; rfl), h ▸ isTrimmed_trim _⟩

theorem readAttachment_attachmentElement {pattern : String} (h : IsAttachment pattern)
    (location : Location) : readAttachment location (attachmentElement pattern) = .ok pattern := by
  have tag : (attachmentElement pattern).tag = attachmentTag := rfl
  have text : (attachmentElement pattern).text = some pattern := rfl
  have hne : pattern.isEmpty = false := by
    rw [← Bool.not_eq_true, String.isEmpty_iff]
    exact h.nonempty
  rw [readAttachment, if_neg (not_not_intro tag), text]
  simp only [Option.getD_some, trim_eq_self h.trimmed, hne, Bool.false_eq_true, if_false]

theorem readPermission_ofTag (p : Permission) (location : Location) :
    readPermission location (ofTag p.toText) = .ok p := by
  rw [readPermission, tag_ofTag, Permission.ofText?_toText]

/-! ## Rules -/

namespace Rule

/-- A rule that is attached to objects, by attachments that are read as they are
written. -/
structure IsWellFormed (r : Rule) : Prop where
  attached : r.attachments ≠ []
  attachments : ∀ a ∈ r.attachments, IsAttachment a

/-- What is read as part of a rule contributes attachments that are written as they
are. -/
theorem isAttachment_of_readPart {location : Location} {e : Element} {part : Part}
    (h : readPart location e = .ok part) : ∀ a ∈ part.patterns, IsAttachment a := by
  intro a ha
  unfold readPart at h
  split at h
  · obtain ⟨patterns, hpatterns, rfl⟩ := exists_ok_of_map h
    obtain ⟨_, _, _, hread⟩ := exists_of_mem_readPlaced hpatterns ha
    exact isAttachment_of_readAttachment hread
  · split at h
    · obtain ⟨verbs, _, rfl⟩ := exists_ok_of_map h
      exact nomatch ha
    · exact nomatch h

/-- What is read as a rule is well-formed. -/
theorem isWellFormed_of_ofElement? {location : Location} {e : Element} {r : Rule}
    (h : Rule.ofElement? location e = .ok r) : r.IsWellFormed := by
  obtain ⟨kind, _, h⟩ := exists_ok_of_bind h
  obtain ⟨qualifier, _, h⟩ := exists_ok_of_bind h
  obtain ⟨parts, hparts, h⟩ := exists_ok_of_bind h
  simp only at h
  split at h
  · exact nomatch h
  · rename_i hne
    split at h
    · exact nomatch h
    · cases h
      refine ⟨fun hempty => hne (List.isEmpty_iff.2 hempty), ?_⟩
      intro a ha
      obtain ⟨part, hpart, ha⟩ := List.mem_flatMap.1 ha
      obtain ⟨_, _, _, hread⟩ := exists_of_mem_readPlaced hparts hpart
      exact isAttachment_of_readPart hread a ha

/-- The parts of a rule's element contribute the attachments and the permissions of the
rule. -/
theorem readPlaced_partElements {r : Rule} (h : ∀ a ∈ r.attachments, IsAttachment a)
    (location : Location) : readPlaced location readPart r.partElements =
      .ok [.attachments r.attachments, .permissions r.permissions] := by
  have attachments : ∀ here, readPlaced here readAttachment
      (r.attachments.map attachmentElement) = .ok r.attachments := fun here =>
    readPlaced_map fun a ha => readAttachment_attachmentElement (h a ha)
  have permissions : ∀ here, readPlaced here readPermission
      (r.permissions.map fun p => ofTag p.toText) = .ok r.permissions := fun here =>
    readPlaced_map fun p _ => readPermission_ofTag p
  have tags : permissionsTag ≠ attachmentsTag := by decide
  refine readPlaced_of_forall₂ (.cons (fun here => ?_) (.cons (fun here => ?_) .nil))
  · rw [readPart, tag_withChildren, tag_ofTag, if_pos rfl, children_withChildren,
      children_ofTag, List.nil_append, attachments]
    rfl
  · rw [readPart, tag_withChildren, tag_ofTag, if_neg tags, if_pos rfl, children_withChildren,
      children_ofTag, List.nil_append, permissions]
    rfl

/-- A well-formed rule is read back from its element. -/
theorem ofElement?_toElement {r : Rule} (h : r.IsWellFormed) (location : Location) :
    Rule.ofElement? location r.toElement = .ok r := by
  have kind : readKind location r.toElement = .ok r.kind := by
    rw [readKind, tag_toElement, ObjectKind.ofText?_toText]
  have qualifier : readQualifier location r.toElement = .ok r.qualifier := by
    rw [readQualifier, qualifier_toElement]
    simp only [Qualifier.ofText?_toText]
  have attachments : [Part.attachments r.attachments, .permissions r.permissions].flatMap
      Part.patterns = r.attachments := List.append_nil _
  have attached : r.attachments.isEmpty = false := by
    rw [← Bool.not_eq_true, List.isEmpty_iff]
    exact h.attached
  have permissions : r.permissions ++ [] = r.permissions := List.append_nil _
  rw [Rule.ofElement?, kind, qualifier, children_toElement, readPlaced_partElements h.attachments,
    modifier_toElement]
  show (if List.isEmpty _ then _ else _) = _
  rw [attachments, attached]
  show Except.ok (⟨r.kind, r.qualifier, r.modifier, r.attachments, r.permissions ++ []⟩ : Rule) = _
  rw [permissions]

end Rule

end AccessPolicy
