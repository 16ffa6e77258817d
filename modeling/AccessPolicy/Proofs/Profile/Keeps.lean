import AccessPolicy.Proofs.Profile.Walk
import AccessPolicy.Profile.Merge
import AccessPolicy.Profile.Order

/-!
# Changes that keep what a profile says

What a profile says itself is told by the attachments of its rules and the terms
on which they stand: kind, qualifier, modifier and permissions. A change of
profiles keeps what they say when it keeps the attachments of every profile, the
attachments on every set of terms, and changes the profiles inside in the same way
(`Profile.Keeps`). Merging and sorting are such changes. What is proved of all of
them holds on every level of nesting, because each level is changed by itself.
-/

namespace AccessPolicy

open Pattern (AnyMatches)

theorem Pattern.anyMatches_congr {sources sources' : List String} {name : String}
    (h : ∀ a, a ∈ sources ↔ a ∈ sources') :
    AnyMatches sources name ↔ AnyMatches sources' name :=
  exists_congr fun a => and_congr_left' (h a)

namespace Rule

/-- The rules have the same kind, qualifier and modifier and list the same
permissions. -/
structure SameTerms (r s : Rule) : Prop where
  kind : r.kind = s.kind
  qualifier : r.qualifier = s.qualifier
  modifier : r.modifier = s.modifier
  permissions : ∀ v, v ∈ r.permissions ↔ v ∈ s.permissions

theorem SameTerms.refl (r : Rule) : r.SameTerms r := ⟨rfl, rfl, rfl, fun _ => Iff.rfl⟩

theorem SameTerms.symm {r s : Rule} (h : r.SameTerms s) : s.SameTerms r :=
  ⟨h.kind.symm, h.qualifier.symm, h.modifier.symm, fun v => (h.permissions v).symm⟩

theorem SameTerms.trans {r s t : Rule} (h : r.SameTerms s) (h' : s.SameTerms t) :
    r.SameTerms t :=
  ⟨h.kind.trans h'.kind, h.qualifier.trans h'.qualifier, h.modifier.trans h'.modifier,
    fun v => (h.permissions v).trans (h'.permissions v)⟩

/-- Whether a rule has the property depends on its terms only. -/
def OnTerms (P : Rule → Prop) : Prop := ∀ r s : Rule, r.SameTerms s → P r → P s

/-- To stand on the terms of one rule is a matter of terms. -/
theorem onTerms_sameTerms (r : Rule) : OnTerms r.SameTerms :=
  fun _ _ htu hrt => hrt.trans htu

theorem OnTerms.iff {P : Rule → Prop} (h : OnTerms P) {r s : Rule} (hrs : r.SameTerms s) :
    P r ↔ P s := ⟨h r s hrs, h s r hrs.symm⟩

/-- Rules are alike when they stand on the same terms. -/
theorem isAlike_iff {r s : Rule} : r.isAlike s = true ↔ r.SameTerms s := by
  simp only [isAlike, Bool.and_eq_true, beq_iff_eq, permissionSet_eq_iff]
  constructor
  · rintro ⟨⟨⟨hkind, hqualifier⟩, hmodifier⟩, hpermissions⟩
    exact ⟨hkind, hqualifier, hmodifier, hpermissions⟩
  · intro h
    exact ⟨⟨⟨h.kind, h.qualifier⟩, h.modifier⟩, h.permissions⟩

theorem sameTerms_distinct (r : Rule) : r.distinct.SameTerms r :=
  ⟨rfl, rfl, rfl, fun _ => mem_distinct⟩

theorem sameTerms_absorb (r s : Rule) : (r.absorb s).SameTerms r :=
  ⟨rfl, rfl, rfl, fun _ => Iff.rfl⟩

theorem sameTerms_sort (r : Rule) : r.sort.SameTerms r :=
  ⟨rfl, rfl, rfl, fun _ => List.mem_mergeSort⟩

end Rule

theorem mem_sortTexts {a : String} {texts : List String} : a ∈ sortTexts texts ↔ a ∈ texts :=
  List.mem_mergeSort

/-- An item with its rule or its profile changed. -/
def Item.change (onRule : Rule → Rule) (onProfile : Profile → Profile) :
    Item Profile → Item Profile
  | .rule r => .rule (onRule r)
  | .profile p => .profile (onProfile p)

namespace Profile

/-- An attachment is one of a rule with the property among the items. -/
def Attaches (items : List (Item Profile)) (P : Rule → Prop) (a : String) : Prop :=
  ∃ r, .rule r ∈ items ∧ P r ∧ a ∈ r.attachments

variable {P : Rule → Prop} {a : String} {items : List (Item Profile)}

theorem attaches_nil : ¬ Attaches [] P a := by
  intro ⟨r, hr, _⟩
  exact absurd hr List.not_mem_nil

theorem attaches_rule {r : Rule} :
    Attaches (.rule r :: items) P a ↔ (P r ∧ a ∈ r.attachments) ∨ Attaches items P a := by
  simp only [Attaches, List.mem_cons, Item.rule.injEq, or_and_right, exists_or, exists_eq_left]

theorem attaches_profile {p : Profile} :
    Attaches (.profile p :: items) P a ↔ Attaches items P a := by
  simp [Attaches]

theorem attaches_append {items' : List (Item Profile)} :
    Attaches (items ++ items') P a ↔ Attaches items P a ∨ Attaches items' P a := by
  simp only [Attaches, List.mem_append, or_and_right, exists_or]

@[simp] theorem name_merge (p : Profile) : p.merge.name = p.name := by
  cases p
  rw [merge]

@[simp] theorem name_sort (p : Profile) : p.sort.name = p.name := by
  cases p
  rw [sort]

/-! ## Changing each item -/

section

variable {onRule : Rule → Rule} {onProfile : Profile → Profile}

theorem rule_mem_map_change {t : Rule} :
    .rule t ∈ items.map (Item.change onRule onProfile) ↔
      ∃ r, .rule r ∈ items ∧ onRule r = t := by
  rw [List.mem_map]
  refine ⟨fun ⟨item, hitem, hchange⟩ => ?_, fun ⟨r, hr, hrt⟩ => ⟨.rule r, hr, congrArg _ hrt⟩⟩
  cases item with
  | rule r => exact ⟨r, hitem, Item.rule.inj hchange⟩
  | profile p => cases hchange

theorem profile_mem_map_change {q : Profile} :
    .profile q ∈ items.map (Item.change onRule onProfile) ↔
      ∃ p, .profile p ∈ items ∧ onProfile p = q := by
  rw [List.mem_map]
  refine ⟨fun ⟨item, hitem, hchange⟩ => ?_, fun ⟨p, hp, hpq⟩ => ⟨.profile p, hp, congrArg _ hpq⟩⟩
  cases item with
  | rule r => cases hchange
  | profile p => exact ⟨p, hitem, Item.profile.inj hchange⟩

theorem attaches_map_change
    (h : ∀ r, P (onRule r) ∧ a ∈ (onRule r).attachments ↔ P r ∧ a ∈ r.attachments) :
    Attaches (items.map (Item.change onRule onProfile)) P a ↔ Attaches items P a := by
  simp only [Attaches, rule_mem_map_change]
  refine ⟨fun ⟨_, ⟨r, hr, hrt⟩, hattaches⟩ => ?_, fun ⟨r, hr, hattaches⟩ => ?_⟩
  · subst hrt
    exact ⟨r, hr, (h r).1 hattaches⟩
  · exact ⟨_, ⟨r, hr, rfl⟩, (h r).2 hattaches⟩

/-- Items that are left as they are. -/
theorem map_change_eq_self (hrules : ∀ r, .rule r ∈ items → onRule r = r)
    (hprofiles : ∀ p, .profile p ∈ items → onProfile p = p) :
    items.map (Item.change onRule onProfile) = items := by
  refine (List.map_congr_left fun item hitem => ?_).trans (List.map_id items)
  cases item with
  | rule r => exact congrArg _ (hrules r hitem)
  | profile p => exact congrArg _ (hprofiles p hitem)

end

/-! ## Merging -/

/-- Merging a rule in adds its attachments, and to rules on its terms only. -/
theorem attaches_mergeRule (hP : Rule.OnTerms P) (r : Rule) (items : List (Item Profile)) :
    Attaches (mergeRule r items) P a ↔ Attaches items P a ∨ (P r ∧ a ∈ r.attachments) := by
  induction items with
  | nil =>
    rw [mergeRule, attaches_rule, hP.iff r.sameTerms_distinct]
    simp [attaches_nil, Rule.distinct, mem_distinct]
  | cons item items ih =>
    cases item with
    | rule s =>
      rw [mergeRule]
      by_cases halike : s.isAlike r = true
      · -- the rule that takes over the attachments stands on the same terms
        have terms := hP.iff (Rule.isAlike_iff.1 halike)
        rw [if_pos halike, attaches_rule, attaches_rule, hP.iff (s.sameTerms_absorb r), ← terms]
        have union : a ∈ (s.absorb r).attachments ↔ a ∈ s.attachments ∨ a ∈ r.attachments := by
          rw [Rule.absorb, mem_distinct, List.mem_append]
        rw [union, and_or_left]
        exact or_right_comm
      · rw [if_neg halike, attaches_rule, attaches_rule, ih, or_assoc]
    | profile p => rw [mergeRule, attaches_profile, attaches_profile, ih]

theorem profile_mem_mergeRule {p : Profile} (r : Rule) (items : List (Item Profile)) :
    .profile p ∈ mergeRule r items ↔ .profile p ∈ items := by
  induction items with
  | nil => simp [mergeRule]
  | cons item items ih =>
    cases item with
    | rule s =>
      rw [mergeRule]
      split
      · simp
      · simp [ih]
    | profile q => simp [mergeRule, ih]

theorem attaches_mergeItem (hP : Rule.OnTerms P) (merged : List (Item Profile))
    (item : Item Profile) :
    Attaches (mergeItem merged item) P a ↔ Attaches merged P a ∨ Attaches [item] P a := by
  cases item with
  | rule r => rw [mergeItem, attaches_mergeRule hP, attaches_rule, or_iff_left attaches_nil]
  | profile p => rw [mergeItem, attaches_append]

theorem profile_mem_mergeItem {p : Profile} (merged : List (Item Profile))
    (item : Item Profile) :
    .profile p ∈ mergeItem merged item ↔ .profile p ∈ merged ∨ .profile p ∈ [item] := by
  cases item with
  | rule r => simp [mergeItem, profile_mem_mergeRule]
  | profile q => simp [mergeItem]

theorem attaches_mergeItems (hP : Rule.OnTerms P) (items : List (Item Profile)) :
    Attaches (mergeItems items) P a ↔ Attaches items P a := by
  -- the items merged so far grow along the fold
  have run : ∀ merged, Attaches (items.foldl mergeItem merged) P a ↔
      Attaches merged P a ∨ Attaches items P a := by
    induction items with
    | nil => simp [attaches_nil]
    | cons item items ih =>
      intro merged
      rw [List.foldl_cons, ih, attaches_mergeItem hP, or_assoc, ← attaches_append,
        List.singleton_append]
  rw [mergeItems, run, or_iff_right attaches_nil]

theorem profile_mem_mergeItems {p : Profile} (items : List (Item Profile)) :
    .profile p ∈ mergeItems items ↔ .profile p ∈ items := by
  have run : ∀ merged, .profile p ∈ items.foldl mergeItem merged ↔
      .profile p ∈ merged ∨ .profile p ∈ items := by
    induction items with
    | nil => simp
    | cons item items ih =>
      intro merged
      rw [List.foldl_cons, ih, profile_mem_mergeItem, or_assoc, ← List.mem_append,
        List.singleton_append]
  rw [mergeItems, run, or_iff_right List.not_mem_nil]

theorem mergeNested_eq_map (items : List (Item Profile)) :
    mergeNested items = items.map (Item.change id merge) := by
  induction items with
  | nil => rfl
  | cons item items ih => cases item <;> simp [mergeNested, Item.change, ih]

theorem attaches_mergeNested (items : List (Item Profile)) :
    Attaches (mergeNested items) P a ↔ Attaches items P a := by
  rw [mergeNested_eq_map]
  exact attaches_map_change fun _ => Iff.rfl

theorem profile_mem_mergeNested {q : Profile} (items : List (Item Profile)) :
    .profile q ∈ mergeNested items ↔ ∃ p, .profile p ∈ items ∧ merge p = q := by
  rw [mergeNested_eq_map, profile_mem_map_change]

/-! ## Sorting -/

theorem sortParts_eq_map (items : List (Item Profile)) :
    sortParts items = items.map (Item.change Rule.sort sort) := by
  induction items with
  | nil => rfl
  | cons item items ih => cases item <;> simp [sortParts, Item.change, ih]

theorem attaches_sortParts (hP : Rule.OnTerms P) (items : List (Item Profile)) :
    Attaches (sortParts items) P a ↔ Attaches items P a := by
  rw [sortParts_eq_map]
  exact attaches_map_change fun r => and_congr (hP.iff r.sameTerms_sort) mem_sortTexts

theorem profile_mem_sortParts {q : Profile} (items : List (Item Profile)) :
    .profile q ∈ sortParts items ↔ ∃ p, .profile p ∈ items ∧ sort p = q := by
  rw [sortParts_eq_map, profile_mem_map_change]

/-! ## Changes of profiles -/

/-- The change keeps the attachments of a profile and those of its rules on all
terms, and changes the profiles inside by itself. -/
structure Keeps (change : Profile → Profile) : Prop where
  mem_attachments : ∀ p n, n ∈ (change p).attachments ↔ n ∈ p.attachments
  attaches : ∀ p {P}, Rule.OnTerms P → ∀ a,
    Attaches (change p).items P a ↔ Attaches p.items P a
  nested : ∀ p q, .profile q ∈ (change p).items ↔ ∃ c, .profile c ∈ p.items ∧ change c = q

theorem keeps_merge : Keeps merge where
  mem_attachments p n := by
    cases p
    rw [merge]
  attaches p P hP a := by
    cases p
    rw [merge, attaches_mergeItems hP, attaches_mergeNested]
  nested p q := by
    cases p
    rw [merge, profile_mem_mergeItems, profile_mem_mergeNested]

theorem keeps_sort : Keeps sort where
  mem_attachments p n := by
    cases p
    rw [sort]
    exact mem_sortTexts
  attaches p P hP a := by
    cases p
    rw [sort]
    refine Iff.trans ?_ (attaches_sortParts hP _)
    show Attaches (List.mergeSort _ _) P a ↔ _
    simp only [Attaches, List.mem_mergeSort]
  nested p q := by
    cases p
    rw [sort, List.mem_mergeSort, profile_mem_sortParts]

variable {change change' : Profile → Profile}

theorem Keeps.comp (h' : Keeps change') (h : Keeps change) :
    Keeps fun p => change' (change p) where
  mem_attachments p n := by rw [h'.mem_attachments, h.mem_attachments]
  attaches p P hP a := by rw [h'.attaches _ hP, h.attaches p hP]
  nested p q := by
    rw [h'.nested]
    simp only [h.nested]
    refine ⟨fun h => ?_, fun h => ?_⟩
    · obtain ⟨_, ⟨c, hc, rfl⟩, hq⟩ := h
      exact ⟨c, hc, hq⟩
    · obtain ⟨c, hc, hq⟩ := h
      exact ⟨_, ⟨c, hc, rfl⟩, hq⟩

/-! ## The canonical form -/

/-- The profile with its rules merged and everything in order. -/
def canonical (p : Profile) : Profile := p.merge.sort

@[simp] theorem name_canonical (p : Profile) : p.canonical.name = p.name := by
  rw [canonical, name_sort, name_merge]

theorem keeps_canonical : Keeps canonical := keeps_sort.comp keeps_merge

/-! ## What a change keeps on all levels -/

variable {subject : String} {p : Profile}

theorem Keeps.isFor (h : Keeps change) : (change p).IsFor subject ↔ p.IsFor subject :=
  Pattern.anyMatches_congr (h.mem_attachments p)

/-- A rule with the property governs the subject and has the attachment. -/
def Grants (subject : String) (P : Rule → Prop) (a : String) (p : Profile) : Prop :=
  ∃ r, p.Governs subject r ∧ P r ∧ a ∈ r.attachments

theorem grants_iff : p.Grants subject P a ↔
    p.IsFor subject ∧ (Attaches p.items P a ∨ ∃ q, .profile q ∈ p.items ∧ q.Grants subject P a) := by
  simp only [Grants, governs_iff (p := p)]
  refine ⟨fun h => ?_, fun ⟨hfor, h⟩ => ?_⟩
  · obtain ⟨r, ⟨hfor, hr | ⟨q, hq, hr⟩⟩, hP, ha⟩ := h
    · exact ⟨hfor, .inl ⟨r, hr, hP, ha⟩⟩
    · exact ⟨hfor, .inr ⟨q, hq, r, hr, hP, ha⟩⟩
  · rcases h with ⟨r, hr, hP, ha⟩ | ⟨q, hq, r, hr, hP, ha⟩
    · exact ⟨r, ⟨hfor, .inl hr⟩, hP, ha⟩
    · exact ⟨r, ⟨hfor, .inr ⟨q, hq, hr⟩⟩, hP, ha⟩

/-- No attachment is lost, gained or moved to rules on other terms or to another
level. -/
theorem Keeps.grants (h : Keeps change) (hP : Rule.OnTerms P) (p : Profile) :
    (change p).Grants subject P a ↔ p.Grants subject P a := by
  induction p using inductionOn with
  | step p ih =>
    -- the profile's own rules are kept by the change, those inside by induction
    rw [grants_iff, grants_iff, h.isFor, h.attaches p hP]
    refine and_congr_right fun _ => or_congr_right ⟨fun inner => ?_, fun inner => ?_⟩
    · obtain ⟨q, hq, hgrants⟩ := inner
      obtain ⟨c, hc, rfl⟩ := (h.nested p q).1 hq
      exact ⟨c, hc, (ih c hc).1 hgrants⟩
    · obtain ⟨c, hc, hgrants⟩ := inner
      exact ⟨change c, (h.nested p _).2 ⟨c, hc, rfl⟩, (ih c hc).2 hgrants⟩

/-- A walk comes by the same profiles, each of them changed. -/
theorem Keeps.mem_walk (h : Keeps change) (p q : Profile) :
    q ∈ (change p).walk ↔ ∃ c ∈ p.walk, change c = q := by
  induction p using inductionOn with
  | step p ih =>
    simp only [Profile.mem_walk (p := change p), Profile.mem_walk (p := p)]
    refine ⟨fun hq => ?_, fun hq => ?_⟩
    · rcases hq with rfl | ⟨d, hd, hq⟩
      · exact ⟨p, .inl rfl, rfl⟩
      · obtain ⟨c, hc, rfl⟩ := (h.nested p d).1 hd
        obtain ⟨b, hb, rfl⟩ := (ih c hc).1 hq
        exact ⟨b, .inr ⟨c, hc, hb⟩, rfl⟩
    · obtain ⟨b, rfl | ⟨c, hc, hb⟩, rfl⟩ := hq
      · exact .inl rfl
      · exact .inr ⟨change c, (h.nested p _).2 ⟨c, hc, rfl⟩, (ih c hc).2 ⟨b, hb, rfl⟩⟩

end Profile

end AccessPolicy
