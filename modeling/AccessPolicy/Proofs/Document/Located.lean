import AccessPolicy.Proofs.Document.Read

/-!
# Where a document is wrong

The place among siblings with one tag that a member of a list is given is the place at
which a step from the parent finds it (`Element.step?_of_mem_placed`). So every reader
reports the place of a node, and this node has the defect that is reported
(`StructureError.Blames`), from the attachments of a rule up to the document
(`Document.error_describes`).
-/

namespace AccessPolicy

open Element Text

/-! ## Defects -/

/-- The element is one of a rule: its tag names a kind of objects. -/
def Element.IsRule (e : Element) : Prop := ∃ kind, ObjectKind.ofText? e.tag = some kind

/-- The element has no text other than blanks. -/
def Element.HasBlankText (e : Element) : Prop :=
  ∀ text ∈ e.text, ∀ c ∈ text.toList, isBlank c = true

/-- An element with the tag may stand at the root or below the parent: profiles below the
root that holds them, attachments below their list, and lists below a rule. -/
def Element.HasPlace (tag : String) : Option Element → Prop
  | none => tag = profilesTag ∨ tag = profileTag
  | some parent =>
    if parent.tag = profilesTag then tag = profileTag
    else if parent.tag = attachmentsTag then tag = attachmentTag
    else tag = attachmentsTag ∨ tag = permissionsTag

/-- The node has the defect that the error reports, where it stands below the parent. -/
def StructureError.Describes (parent? : Option Element) : StructureError → Element → Prop
  | unexpectedElement tag _, node => node.tag = tag ∧ ¬ HasPlace tag parent?
  | missingName _, node =>
    node.tag = profileTag ∧
      (node.attribute? nameAttribute = none ∨ node.attribute? nameAttribute = some "")
  | missingAttachments _, node =>
    node.IsRule ∧ ∀ part ∈ node.childrenNamed attachmentsTag, part.children = []
  | missingPermissions _, node => node.IsRule ∧ node.childrenNamed permissionsTag = []
  | unknownPermission verb _, node => node.tag = verb ∧ Permission.ofText? verb = none
  | unknownObjectKind kind _, node => node.tag = kind ∧ ObjectKind.ofText? kind = none
  | unknownQualifier qualifier _, node =>
    node.IsRule ∧ node.attribute? qualifierAttribute = some qualifier ∧
      Qualifier.ofText? qualifier = none
  | missingField field _, node =>
    field = "@qualifier" ∧ node.IsRule ∧ node.attribute? qualifierAttribute = none ∨
      field = "text()" ∧ node.tag = attachmentTag ∧ node.HasBlankText
  | duplicateProfile _, _ => False

/-- The error speaks of the node at the location, or of a node to which steps from there
lead. -/
inductive StructureError.Blames (e : StructureError) :
    Location → Option Element → Element → Prop
  | here {location : Location} {parent? : Option Element} {node : Element} :
      e.location? = some location → e.Describes parent? node → Blames e location parent? node
  | inside {location : Location} {parent? : Option Element} {node child : Element} {index : Nat} :
      node.step? ⟨child.tag, index⟩ = some child →
        Blames e (location.down child.tag index) (some node) child →
          Blames e location parent? node

/-- The parent of the node to which steps lead. -/
def Element.above? (root : Element) : List LocationStep → Option Element
  | [] => none
  | step :: steps => root.follow? (step :: steps).dropLast

/-! ## Steps -/

section Steps

variable {e : StructureError} {location : Location}

theorem Element.follow?_cons (node : Element) (step : LocationStep) (steps : List LocationStep) :
    node.follow? (step :: steps) = (node.step? step).bind fun child => child.follow? steps :=
  List.foldlM_cons

/-- An error that speaks of a node reports the steps that lead to it. -/
theorem StructureError.Blames.exists_steps {parent? : Option Element} {node : Element}
    (h : e.Blames location parent? node) : ∃ steps defective,
      e.location? = some ⟨location.base, location.steps ++ steps⟩ ∧
        node.follow? steps = some defective ∧
          e.Describes (if steps = [] then parent? else node.above? steps) defective := by
  induction h with
  | @here location parent? node hlocation hdescribes =>
    exact ⟨[], node, by rw [hlocation, List.append_nil], rfl, hdescribes⟩
  | @inside location parent? node child index hstep _ ih =>
    -- the steps from the child, with the step to it in front
    obtain ⟨steps, defective, hlocation, hfollow, hdescribes⟩ := ih
    refine ⟨⟨child.tag, index⟩ :: steps, defective, ?_, ?_, ?_⟩
    · rw [hlocation, Location.down, List.append_assoc]
      rfl
    · rw [Element.follow?_cons, hstep]
      exact hfollow
    · rw [if_neg (List.cons_ne_nil _ _)]
      cases steps with
      | nil => exact hdescribes
      | cons next steps =>
        rw [Element.above?, List.dropLast_cons_cons, Element.follow?_cons, hstep]
        exact hdescribes

/-- The place that a member is given counts the members with its tag up to it. -/
theorem Element.getElem?_of_mem_placed {before : List String} {es : List Element}
    {place : Nat × Element} (h : place ∈ placed before es) :
    ∃ k, place.1 = before.count place.2.tag + k + 1 ∧
      (es.filter fun e => e.tag == place.2.tag)[k]? = some place.2 := by
  induction es generalizing before with
  | nil => cases h
  | cons first es ih =>
    rw [placed] at h
    rcases List.mem_cons.1 h with rfl | h
    · exact ⟨0, rfl, by simp⟩
    · obtain ⟨k, hindex, hfound⟩ := ih h
      by_cases htag : first.tag = place.2.tag
      · refine ⟨k + 1, ?_, ?_⟩
        · rw [hindex, htag, List.count_cons_self]
          omega
        · rw [List.filter_cons_of_pos (by simpa using htag)]
          exact hfound
      · refine ⟨k, ?_, ?_⟩
        · rw [hindex, List.count_cons_of_ne htag]
        · rw [List.filter_cons_of_neg (by simpa using htag)]
          exact hfound

/-- The place that a child is given is where a step from its parent finds it. -/
theorem Element.step?_of_mem_placed {parent : Element} {place : Nat × Element}
    (h : place ∈ placed [] parent.children) :
    parent.step? ⟨place.2.tag, place.1⟩ = some place.2 := by
  obtain ⟨k, hindex, hfound⟩ := getElem?_of_mem_placed h
  rw [List.count_nil, Nat.zero_add] at hindex
  rw [step?, hindex]
  exact hfound

/-- When the children of an element cannot be read, the error speaks of one of them. -/
theorem blames_of_readPlaced {α : Type} {read : Location → Element → Except StructureError α}
    {parent? : Option Element} {parent : Element}
    (h : readPlaced location read parent.children = .error e)
    (each : ∀ child ∈ parent.children, ∀ here, read here child = .error e →
      e.Blames here (some parent) child) : e.Blames location parent? parent := by
  obtain ⟨place, hplace, herror⟩ := exists_error_of_mapM h
  exact .inside (step?_of_mem_placed hplace) (each _ (mem_of_mem_placed hplace) _ herror)

end Steps

/-! ## Attachments and rules -/

section Readers

variable {e : StructureError} {location : Location} {parent? : Option Element} {node : Element}

theorem blames_of_readAttachment (hplace : HasPlace node.tag parent? → node.tag = attachmentTag)
    (h : readAttachment location node = .error e) : e.Blames location parent? node := by
  rw [readAttachment] at h
  split at h
  · rename_i htag
    cases h
    exact .here rfl ⟨rfl, fun hplaced => htag (hplace hplaced)⟩
  · rename_i htag
    simp only at h
    split at h
    · rename_i hempty
      cases h
      refine .here rfl (.inr ⟨rfl, not_not.1 htag, fun text htext => ?_⟩)
      rw [htext, Option.getD_some, String.isEmpty_iff, trim, String.ofList_eq_empty_iff] at hempty
      exact trimChars_eq_nil_iff.1 hempty
    · cases h

theorem blames_of_readPermission (h : readPermission location node = .error e) :
    e.Blames location parent? node := by
  rw [readPermission] at h
  split at h
  · cases h
  · rename_i hverb
    cases h
    exact .here rfl ⟨rfl, hverb⟩

namespace Rule

/-- An element that is one of a rule is neither a list of profiles nor one of attachments. -/
theorem hasPlace_below_rule {parent : Element} (h : parent.IsRule) {tag : String} :
    HasPlace tag (some parent) ↔ tag = attachmentsTag ∨ tag = permissionsTag := by
  obtain ⟨kind, hkind⟩ := h
  have tags : parent.tag ≠ profilesTag ∧ parent.tag ≠ attachmentsTag := by
    constructor <;> intro htag <;> rw [htag] at hkind <;> cases hkind
  rw [HasPlace, if_neg tags.1, if_neg tags.2]

theorem blames_of_readPart {rule : Element} (hrule : rule.IsRule)
    (h : readPart location node = .error e) : e.Blames location (some rule) node := by
  unfold readPart at h
  split at h
  · rename_i htag
    refine blames_of_readPlaced (error_of_map h) fun child _ _ => blames_of_readAttachment ?_
    have tags : attachmentsTag ≠ profilesTag := by decide
    rw [HasPlace, htag, if_neg tags, if_pos rfl]
    exact id
  · split at h
    · exact blames_of_readPlaced (error_of_map h) fun _ _ _ => blames_of_readPermission
    · rename_i hattachments hpermissions
      cases h
      refine .here rfl ⟨rfl, ?_⟩
      rw [hasPlace_below_rule hrule]
      exact not_or.2 ⟨hattachments, hpermissions⟩

theorem blames_of_readKind (h : readKind location node = .error e) :
    e.Blames location parent? node := by
  rw [readKind] at h
  split at h
  · cases h
  · rename_i hkind
    cases h
    exact .here rfl ⟨rfl, hkind⟩

theorem isRule_of_readKind {kind : ObjectKind} (h : readKind location node = .ok kind) :
    node.IsRule := by
  rw [readKind] at h
  split at h
  · exact ⟨_, by assumption⟩
  · cases h

theorem blames_of_readQualifier (hrule : node.IsRule)
    (h : readQualifier location node = .error e) : e.Blames location parent? node := by
  rw [readQualifier] at h
  split at h
  · rename_i hqualifier
    cases h
    exact .here rfl (.inl ⟨rfl, hrule, hqualifier⟩)
  · rename_i text hqualifier
    split at h
    · cases h
    · rename_i hunknown
      cases h
      exact .here rfl ⟨hrule, hqualifier, hunknown⟩

/-- A part with attachments contributes one for each element in it. -/
theorem children_eq_nil_of_parts {parts : List Part}
    (h : readPlaced location readPart node.children = .ok parts)
    (hnone : parts.flatMap Part.patterns = []) :
    ∀ part ∈ node.childrenNamed attachmentsTag, part.children = [] := by
  intro part hpart
  obtain ⟨hchild, htag⟩ := List.mem_filter.1 hpart
  obtain ⟨here, read, hmem, hread⟩ := exists_mem_of_readPlaced h hchild
  rw [readPart, if_pos (beq_iff_eq.1 htag)] at hread
  obtain ⟨patterns, hpatterns, rfl⟩ := exists_ok_of_map hread
  refine List.eq_nil_iff_forall_not_mem.2 fun attachment hattachment => ?_
  obtain ⟨_, pattern, hpattern, _⟩ := exists_mem_of_readPlaced hpatterns hattachment
  have contributed : pattern ∈ parts.flatMap Part.patterns :=
    List.mem_flatMap.2 ⟨_, hmem, hpattern⟩
  rw [hnone] at contributed
  exact absurd contributed List.not_mem_nil

theorem childrenNamed_eq_nil_of_parts {parts : List Part}
    (h : readPlaced location readPart node.children = .ok parts)
    (hnone : parts.filterMap Part.permissions? = []) :
    node.childrenNamed permissionsTag = [] := by
  refine List.eq_nil_iff_forall_not_mem.2 fun part hpart => ?_
  obtain ⟨hchild, htag⟩ := List.mem_filter.1 hpart
  obtain ⟨here, read, hmem, hread⟩ := exists_mem_of_readPlaced h hchild
  have tags : permissionsTag ≠ attachmentsTag := by decide
  rw [readPart, beq_iff_eq.1 htag, if_neg tags, if_pos rfl] at hread
  obtain ⟨verbs, _, rfl⟩ := exists_ok_of_map hread
  have contributed : verbs ∈ parts.filterMap Part.permissions? :=
    List.mem_filterMap.2 ⟨_, hmem, rfl⟩
  rw [hnone] at contributed
  exact absurd contributed List.not_mem_nil

theorem blames_of_ofElement? (h : Rule.ofElement? location node = .error e) :
    e.Blames location parent? node := by
  rcases error_of_bind h with hkind | ⟨kind, hkind, h⟩
  · exact blames_of_readKind hkind
  have hrule := isRule_of_readKind hkind
  rcases error_of_bind h with hqualifier | ⟨qualifier, _, h⟩
  · exact blames_of_readQualifier hrule hqualifier
  rcases error_of_bind h with hparts | ⟨parts, hparts, h⟩
  · exact blames_of_readPlaced hparts fun _ _ _ => blames_of_readPart hrule
  simp only at h
  split at h
  · rename_i hnone
    cases h
    exact .here rfl ⟨hrule, children_eq_nil_of_parts hparts (List.isEmpty_iff.1 hnone)⟩
  · split at h
    · rename_i hnone
      cases h
      exact .here rfl ⟨hrule, childrenNamed_eq_nil_of_parts hparts (List.isEmpty_iff.1 hnone)⟩
    · cases h

end Rule

/-! ## Profiles and documents -/

namespace Profile

theorem blames_of_readName (htag : node.tag = profileTag)
    (h : readName location node = .error e) : e.Blames location parent? node := by
  rw [readName] at h
  split at h
  · rename_i hname
    cases h
    exact .here rfl ⟨htag, .inl hname⟩
  · rename_i name hname
    split at h
    · rename_i hempty
      cases h
      rw [String.isEmpty_iff.1 hempty] at hname
      exact .here rfl ⟨htag, .inr hname⟩
    · cases h

/-- When an element cannot be read as a profile, the error speaks of a node of it. -/
theorem blames_of_ofElement? (node : Element) : ∀ (location : Location) (parent? : Option Element),
    (HasPlace node.tag parent? → node.tag = profileTag) →
      ofElement? location node = .error e → e.Blames location parent? node := by
  induction node using Element.inductionOn with
  | step node ih =>
    intro location parent? hplace h
    rw [ofElement?_eq] at h
    split at h
    · rename_i htag
      cases h
      exact .here rfl ⟨rfl, fun hplaced => htag (hplace hplaced)⟩
    · rename_i htag
      rcases error_of_bind h with hname | ⟨name, _, h⟩
      · exact blames_of_readName (not_not.1 htag) hname
      rcases error_of_bind h with hmembers | ⟨members, _, h⟩
      · refine blames_of_readPlaced hmembers fun child hchild here hread => ?_
        unfold readMember at hread
        split at hread
        · rename_i hattachment
          exact blames_of_readAttachment (fun _ => hattachment) (error_of_map hread)
        · split at hread
          · rename_i hprofile
            exact ih child hchild here _ (fun _ => hprofile) (error_of_map hread)
          · exact Rule.blames_of_ofElement? (error_of_map hread)
      · cases h

end Profile

end Readers

/-- From a base that is not empty, a location is written as the base and the steps with
slashes between them. -/
theorem Location.toText_eq_intercalate {base : String} {steps : List LocationStep}
    (h : base ≠ "" ∨ steps = []) : (⟨base, steps⟩ : Location).toText =
      "/".intercalate (base :: steps.map LocationStep.toText) := by
  induction steps generalizing base with
  | nil => rfl
  | cons step steps ih =>
    have hbase := h.resolve_right (List.cons_ne_nil step steps)
    have first : appendStep base step = base ++ "/" ++ step.toText := by
      rw [appendStep, if_neg (mt String.isEmpty_iff.1 hbase)]
    have behind : appendStep base step ≠ "" := by simp [first, hbase]
    have rest := ih (.inl behind)
    rw [first] at rest
    show (⟨appendStep base step, steps⟩ : Location).toText = _
    rw [first]
    exact rest

namespace Document

theorem blames_of_ofElement? {root : Element} {e : StructureError}
    (h : ofElement? root = .error e) : e.Blames (.ofBase root.tag) none root := by
  unfold ofElement? at h
  split at h
  · rename_i htag
    rw [htag]
    refine blames_of_readPlaced (error_of_map h) fun child _ here =>
      Profile.blames_of_ofElement? child here _ ?_
    rw [HasPlace, if_pos htag]
    exact id
  · split at h
    · rename_i htag
      rw [htag]
      exact Profile.blames_of_ofElement? root _ none (fun _ => htag) (error_of_map h)
    · rename_i hprofiles hprofile
      cases h
      exact .here rfl ⟨rfl, not_or.2 ⟨hprofiles, hprofile⟩⟩

/-- A root without a tag is unexpected itself. -/
theorem tag_ne_empty_or_unexpected {root : Element} {e : StructureError}
    (h : ofElement? root = .error e) :
    root.tag ≠ "" ∨ e = .unexpectedElement root.tag (.ofBase root.tag) := by
  unfold ofElement? at h
  split at h
  · rename_i htag
    exact .inl (by rw [htag]; decide)
  · split at h
    · rename_i htag
      exact .inl (by rw [htag]; decide)
    · cases h
      exact .inr rfl

/-- When an element cannot be read as a document, the error reports the root tag and steps
that lead from the root to a node, and this node has the defect. -/
theorem error_describes {root : Element} {e : StructureError} (h : ofElement? root = .error e) :
    ∃ steps node, e.location? = some ⟨root.tag, steps⟩ ∧
      (⟨root.tag, steps⟩ : Location).toText =
        "/".intercalate (root.tag :: steps.map LocationStep.toText) ∧
      root.follow? steps = some node ∧ e.Describes (root.above? steps) node := by
  obtain ⟨steps, node, hlocation, hfollow, hdescribes⟩ := (blames_of_ofElement? h).exists_steps
  have above : (if steps = [] then none else root.above? steps) = root.above? steps := by
    cases steps <;> rfl
  rw [above] at hdescribes
  refine ⟨steps, node, hlocation, Location.toText_eq_intercalate ?_, hfollow, hdescribes⟩
  refine (tag_ne_empty_or_unexpected h).imp_right fun herror => ?_
  rw [herror] at hlocation
  cases hlocation
  rfl

/-- The second rule on topics of the second profile of the second profile names a permission
that is none; profiles, attachments and rules on other objects stand between. -/
theorem error_describes_nested :
    let attachments : Element := ⟨"attachments", .empty, none,
      [⟨"attachment", .empty, some "/a", []⟩]⟩
    let rule (tag verb : String) : Element := ⟨tag, .ofList [("qualifier", "ALLOW")], none,
      [attachments, ⟨"permissions", .empty, none, [.ofTag "publish", .ofTag verb]⟩]⟩
    let profile (name : String) (children : List Element) : Element :=
      ⟨"profile", .ofList [("name", name)], none, children⟩
    let root : Element := ⟨"profiles", .empty, none,
      [profile "a" [], profile "b"
        [profile "c" [], rule "topic" "call", ⟨"attachment", .empty, some "/b", []⟩,
          profile "d" [rule "topic" "call", rule "service" "call", rule "topic" "calls"]]]⟩
    let error := StructureError.unknownPermission "calls" ⟨"profiles", [⟨"profile", 2⟩,
      ⟨"profile", 2⟩, ⟨"topic", 2⟩, ⟨"permissions", 1⟩, ⟨"calls", 1⟩]⟩
    ofElement? root = .error error ∧
      ∃ steps node, error.location? = some ⟨"profiles", steps⟩ ∧
        (⟨"profiles", steps⟩ : Location).toText =
          "/".intercalate ("profiles" :: steps.map LocationStep.toText) ∧
        root.follow? steps = some node ∧ error.Describes (root.above? steps) node := by
  intro attachments rule profile root error
  have rejected : ofElement? root = .error error := by rfl
  exact ⟨rejected, error_describes rejected⟩

end Document

end AccessPolicy
