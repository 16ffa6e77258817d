import AccessPolicy.Element.Xml
import AccessPolicy.Proofs.Profile.Ordered
import Mathlib.Data.List.Permutation
import Mathlib.Logic.Relation

/-!
# Where the canonical form is unique

A profile is shuffled when its items, attachments and the lists of its rules are
put in other orders, in it and in the profiles inside (`Profile.Shuffled`). Rules
that are not merged may still tie: of two rules of one kind that begin with the same
attachment neither comes before the other, and they keep the order in which they
were found. Where no rules tie (`Profile.Untied`), every profile that is shuffled
from one has its canonical form, and where some do, there is one that has not
(`Profile.canonical_of_shuffled`).

The forward direction follows one step on all levels (`Profile.Shuffle.canonical_eq`)
and then a run of steps. For the other, each of two rules that tie is put in front
of the other (`Profile.exists_shuffle_of_tie`).
-/

namespace AccessPolicy

/-- The second rule lists the same in some other order. -/
structure Rule.Shuffle (r s : Rule) : Prop where
  kind : r.kind = s.kind
  qualifier : r.qualifier = s.qualifier
  modifier : r.modifier = s.modifier
  attachments : r.attachments.Perm s.attachments
  permissions : r.permissions.Perm s.permissions

namespace Rule

theorem Shuffle.refl (r : Rule) : r.Shuffle r := ⟨rfl, rfl, rfl, .refl _, .refl _⟩

theorem Shuffle.symm {r s : Rule} (h : r.Shuffle s) : s.Shuffle r :=
  ⟨h.kind.symm, h.qualifier.symm, h.modifier.symm, h.attachments.symm, h.permissions.symm⟩

theorem Shuffle.sameTerms {r s : Rule} (h : r.Shuffle s) : r.SameTerms s :=
  ⟨h.kind, h.qualifier, h.modifier, fun _ => h.permissions.mem_iff⟩

end Rule

namespace Profile

/-- The second profile is the first one with one of its lists in some other order. -/
inductive Shuffle : Profile → Profile → Prop where
  | attachments {name as bs modifier items} : as.Perm bs →
      Shuffle ⟨name, as, modifier, items⟩ ⟨name, bs, modifier, items⟩
  | items {name attachments modifier xs ys} : xs.Perm ys →
      Shuffle ⟨name, attachments, modifier, xs⟩ ⟨name, attachments, modifier, ys⟩
  | rule {name attachments modifier xs ys r s} : Rule.Shuffle r s →
      Shuffle ⟨name, attachments, modifier, xs ++ .rule r :: ys⟩
        ⟨name, attachments, modifier, xs ++ .rule s :: ys⟩
  | nested {name attachments modifier xs ys c d} : Shuffle c d →
      Shuffle ⟨name, attachments, modifier, xs ++ .profile c :: ys⟩
        ⟨name, attachments, modifier, xs ++ .profile d :: ys⟩

/-- The second profile is the first one with any of its lists in other orders. -/
def Shuffled : Profile → Profile → Prop := Relation.ReflTransGen Shuffle

/-- No two rules that are not alike are of one kind and begin with one attachment
after those that are alike are merged. -/
def RulesApart (p : Profile) : Prop :=
  ∀ r ∈ p.rules, ∀ s ∈ p.rules, r.kind = s.kind →
    firstLike? p.rules r = firstLike? p.rules s → r.isAlike s = true

instance (p : Profile) : Decidable p.RulesApart :=
  inferInstanceAs (Decidable (∀ r ∈ p.rules, ∀ s ∈ p.rules, r.kind = s.kind →
    firstLike? p.rules r = firstLike? p.rules s → r.isAlike s = true))

/-- No rules tie, in the profile or in one inside. -/
def Untied (p : Profile) : Prop := ∀ c ∈ p.walk, c.RulesApart

instance (p : Profile) : Decidable p.Untied :=
  inferInstanceAs (Decidable (∀ c ∈ p.walk, c.RulesApart))

/-- Profiles that share a parent have different names. -/
def NamesApart (p : Profile) : Prop := ∀ c ∈ p.walk, (c.nested.map (·.name)).Nodup

instance (p : Profile) : Decidable p.NamesApart :=
  inferInstanceAs (Decidable (∀ c ∈ p.walk, (c.nested.map (·.name)).Nodup))

variable {p q : Profile} {a b : Item Profile}

theorem untied_iff : p.Untied ↔ p.RulesApart ∧ ∀ c, .profile c ∈ p.items → c.Untied :=
  forall_mem_walk

theorem namesApart_iff :
    p.NamesApart ↔ (namesOf p.items).Nodup ∧ ∀ c, .profile c ∈ p.items → c.NamesApart := by
  rw [namesOf_items]
  exact forall_mem_walk

/-! ## One step, seen from the profile -/

theorem Shuffle.name_eq (h : Shuffle p q) : p.name = q.name := by
  cases h <;> rfl

theorem Shuffle.symm (h : Shuffle p q) : Shuffle q p := by
  induction h with
  | attachments h => exact .attachments h.symm
  | items h => exact .items h.symm
  | rule h => exact .rule h.symm
  | nested _ ih => exact .nested ih

/-- The second profile has the rules and the profiles of the first, shuffled or as
they are, and the names of the profiles. -/
structure Matches (p q : Profile) : Prop where
  rules : ∀ r, .rule r ∈ p.items → ∃ s, .rule s ∈ q.items ∧ r.Shuffle s
  nested : ∀ c, .profile c ∈ p.items → ∃ d, .profile d ∈ q.items ∧ (c = d ∨ Shuffle c d)
  names : (namesOf p.items).Perm (namesOf q.items)

theorem Shuffle.matches (h : Shuffle p q) : p.Matches q := by
  cases h with
  | attachments _ =>
    exact ⟨fun r hr => ⟨r, hr, .refl r⟩, fun c hc => ⟨c, hc, .inl rfl⟩, .refl _⟩
  | items h =>
    exact ⟨fun r hr => ⟨r, h.mem_iff.1 hr, .refl r⟩, fun c hc => ⟨c, h.mem_iff.1 hc, .inl rfl⟩,
      h.filterMap _⟩
  | @rule name attachments modifier xs ys r s h =>
    refine ⟨fun t ht => ?_, fun c hc => ⟨c, ?_, .inl rfl⟩, ?_⟩
    · rw [List.mem_append, List.mem_cons, Item.rule.injEq] at ht
      rcases ht with ht | rfl | ht
      · exact ⟨t, List.mem_append_left _ ht, .refl t⟩
      · exact ⟨s, by simp, h⟩
      · exact ⟨t, by simp [ht], .refl t⟩
    · simpa using hc
    · rw [namesOf_append, namesOf_append, namesOf_rule, namesOf_rule]
  | @nested name attachments modifier xs ys c d h =>
    refine ⟨fun r hr => ⟨r, ?_, .refl r⟩, fun e he => ?_, ?_⟩
    · simpa using hr
    · rw [List.mem_append, List.mem_cons, Item.profile.injEq] at he
      rcases he with he | rfl | he
      · exact ⟨e, List.mem_append_left _ he, .inl rfl⟩
      · exact ⟨d, by simp, .inr h⟩
      · exact ⟨e, by simp [he], .inl rfl⟩
    · rw [namesOf_append, namesOf_append, namesOf_profile, namesOf_profile, h.name_eq]

theorem Matches.attaches (h : p.Matches q) {P : Rule → Prop} (hP : Rule.OnTerms P) {a : String}
    (ha : Attaches p.items P a) : Attaches q.items P a := by
  obtain ⟨r, hr, hPr, har⟩ := ha
  obtain ⟨s, hs, hrs⟩ := h.rules r hr
  exact ⟨s, hs, hP r s hrs.sameTerms hPr, hrs.attachments.mem_iff.1 har⟩

theorem Matches.mem_termsOf (h : p.Matches q)
    {terms : ObjectKind × Qualifier × Option String × List Permission}
    (hterms : terms ∈ termsOf p.items) : terms ∈ termsOf q.items := by
  obtain ⟨r, hr, rfl⟩ := Profile.mem_termsOf.1 hterms
  obtain ⟨s, hs, hrs⟩ := h.rules r hr
  exact Profile.mem_termsOf.2 ⟨s, hs, (Rule.terms_eq_iff.2 hrs.sameTerms).symm⟩

/-! ## One level -/

/-- Items of the canonical form that can stand either way round are equal, if no
rules tie and no names come twice. -/
theorem eq_of_compareSiblings (hnames : (namesOf p.items).Nodup) (hapart : p.RulesApart)
    (ha : a ∈ p.canonical.items) (hb : b ∈ p.canonical.items) (h : a.compareSiblings b = .eq) :
    a = b := by
  obtain ⟨htag, hname, hfirst⟩ := Item.compareSiblings_eq_iff.1 h
  have noTag : ∀ kind : ObjectKind, kind.toText ≠ Element.profileTag := by
    intro kind
    cases kind <;> decide
  cases a with
  | rule t =>
    cases b with
    | rule u =>
      -- both come from rules of the profile on their terms, and these do not tie
      obtain ⟨r, hr, hrt⟩ := mem_termsOf.1 (mem_termsOf_canonical.1 (mem_termsOf.2 ⟨t, ha, rfl⟩))
      obtain ⟨s, hs, hsu⟩ := mem_termsOf.1 (mem_termsOf_canonical.1 (mem_termsOf.2 ⟨u, hb, rfl⟩))
      have rt := Rule.terms_eq_iff.1 hrt
      have su := Rule.terms_eq_iff.1 hsu
      have kinds : r.kind = s.kind := by
        rw [rt.kind, su.kind]
        exact ObjectKind.toText_inj htag
      have firsts : firstLike? p.rules r = firstLike? p.rules s := by
        rw [firstLike?_of_sameTerms rt, firstLike?_of_sameTerms su, ← head?_attachments ha,
          ← head?_attachments hb]
        exact hfirst
      have alike := hapart r (mem_rules.2 hr) s (mem_rules.2 hs) kinds firsts
      have terms : t.terms = u.terms := by
        rw [← hrt, ← hsu, Rule.isAlike_iff_terms.1 alike]
      rw [eq_of_terms_eq (nodup_termsOf_canonical p) ha hb terms]
    | profile d => exact absurd htag (noTag t.kind)
  | profile c =>
    cases b with
    | rule u => exact absurd htag.symm (noTag u.kind)
    | profile d =>
      rw [eq_of_name_eq (nodup_namesOf_canonical hnames) ha hb (Option.some.inj hname)]

/-- Profiles that match each other have the same items in canonical form, if the
profiles inside have. -/
theorem items_canonical_eq (h : p.Matches q) (h' : q.Matches p)
    (hnames : (namesOf p.items).Nodup) (hapart : p.RulesApart)
    (hnested : ∀ c, .profile c ∈ q.canonical.items ↔ .profile c ∈ p.canonical.items) :
    q.canonical.items = p.canonical.items := by
  have rules : ∀ {p q : Profile}, p.Matches q → q.Matches p → ∀ t,
      .rule t ∈ p.canonical.items → .rule t ∈ q.canonical.items := by
    intro p q h h' t ht
    have terms := h.mem_termsOf (mem_termsOf_canonical.1 (mem_termsOf.2 ⟨t, ht, rfl⟩))
    obtain ⟨u, hu, hut⟩ := mem_termsOf.1 (mem_termsOf_canonical.2 terms)
    have same := Rule.terms_eq_iff.1 hut
    rw [canonical_rule_eq ht hu same.symm fun a => ?_]
    · exact hu
    · refine ⟨fun ha => ?_, fun ha => ?_⟩
      · obtain ⟨s, hs, hts, has⟩ := h.attaches t.onTerms_sameTerms ha
        exact ⟨s, hs, same.trans hts, has⟩
      · obtain ⟨s, hs, hus, has⟩ := h'.attaches u.onTerms_sameTerms ha
        exact ⟨s, hs, same.symm.trans hus, has⟩
  have members : ∀ item, item ∈ q.canonical.items ↔ item ∈ p.canonical.items := by
    intro item
    cases item with
    | rule t => exact ⟨rules h' h t, rules h h' t⟩
    | profile c => exact hnested c
  have perm : q.canonical.items.Perm p.canonical.items :=
    (List.perm_ext_iff_of_nodup (nodup_items_canonical (h.names.nodup_iff.1 hnames))
      (nodup_items_canonical hnames)).2 members
  refine perm.eq_of_pairwise (fun a b ha hb hab hba => ?_) (pairwise_items_canonical q)
    (pairwise_items_canonical p)
  exact eq_of_compareSiblings hnames hapart ((members a).1 ha) hb
    (Std.OrientedCmp.isLE_antisymm hab hba)

/-- Rules that do not tie do not tie either when they are shuffled. -/
theorem RulesApart.of_matches (hapart : p.RulesApart) (h : p.Matches q) (h' : q.Matches p) :
    q.RulesApart := by
  have firsts : ∀ {r s : Rule}, s.Shuffle r → firstLike? q.rules s = firstLike? p.rules r := by
    intro r s hsr
    have onTerms := r.onTerms_sameTerms
    refine firstLike?_congr fun a => ⟨fun ha => ?_, fun ha => ?_⟩
    · obtain ⟨t, ht, hst, hat⟩ := h'.attaches s.onTerms_sameTerms ha
      exact ⟨t, ht, hsr.sameTerms.symm.trans hst, hat⟩
    · obtain ⟨t, ht, hrt, hat⟩ := h.attaches onTerms ha
      exact ⟨t, ht, hsr.sameTerms.trans hrt, hat⟩
  intro s hs u hu hkind hfirst
  obtain ⟨r, hr, hsr⟩ := h'.rules s (mem_rules.1 hs)
  obtain ⟨t, ht, hut⟩ := h'.rules u (mem_rules.1 hu)
  rw [firsts hsr, firsts hut] at hfirst
  have kinds : r.kind = t.kind := by rw [← hsr.kind, ← hut.kind, hkind]
  have alike := Rule.isAlike_iff.1 (hapart r (mem_rules.2 hr) t (mem_rules.2 ht) kinds hfirst)
  exact Rule.isAlike_iff.2 (hsr.sameTerms.trans (alike.trans hut.sameTerms.symm))

/-! ## All levels -/

theorem Shuffle.attachments_perm (h : Shuffle p q) : p.attachments.Perm q.attachments := by
  cases h with
  | attachments h => exact h
  | _ => exact .refl _

theorem Shuffle.modifier_eq (h : Shuffle p q) : p.modifier = q.modifier := by
  cases h <;> rfl

/-- Beside the items nothing of the canonical form is told by the order of a list. -/
theorem Shuffle.canonical_eq_of_items (h : Shuffle p q)
    (items : q.canonical.items = p.canonical.items) : q.canonical = p.canonical := by
  have attachments := sortTexts_eq_of_perm h.attachments_perm
  have name := h.name_eq
  have modifier := h.modifier_eq
  cases p
  cases q
  rw [Profile.canonical_eq, Profile.canonical_eq] at items ⊢
  simp only at items attachments name modifier
  rw [items, attachments, name, modifier]

/-- One step keeps the canonical form where no rules tie, and lets none tie. -/
theorem Shuffle.canonical_eq (h : Shuffle p q) (hnames : p.NamesApart) (huntied : p.Untied) :
    q.canonical = p.canonical ∧ q.NamesApart ∧ q.Untied := by
  induction p using inductionOn generalizing q with
  | step p ih =>
    have there := h.matches
    have back := h.symm.matches
    obtain ⟨hnodup, hinner⟩ := namesApart_iff.1 hnames
    obtain ⟨hapart, hrest⟩ := untied_iff.1 huntied
    -- a profile inside is one of the first, as it is or shuffled by the step
    have inside : ∀ d, .profile d ∈ q.items → ∃ c, .profile c ∈ p.items ∧
        d.canonical = c.canonical ∧ d.NamesApart ∧ d.Untied := by
      intro d hd
      obtain ⟨c, hc, rfl | hdc⟩ := back.nested d hd
      · exact ⟨d, hc, rfl, hinner d hc, hrest d hc⟩
      · exact ⟨c, hc, ih c hc hdc.symm (hinner c hc) (hrest c hc)⟩
    have nested : ∀ e, .profile e ∈ q.canonical.items ↔ .profile e ∈ p.canonical.items := by
      intro e
      rw [keeps_canonical.nested, keeps_canonical.nested]
      refine ⟨fun ⟨d, hd, hde⟩ => ?_, fun ⟨c, hc, hce⟩ => ?_⟩
      · obtain ⟨c, hc, hsame, _⟩ := inside d hd
        exact ⟨c, hc, hsame ▸ hde⟩
      · obtain ⟨d, hd, rfl | hcd⟩ := there.nested c hc
        · exact ⟨c, hd, hce⟩
        · exact ⟨d, hd, (ih c hc hcd (hinner c hc) (hrest c hc)).1.trans hce⟩
    have items := items_canonical_eq there back hnodup hapart nested
    refine ⟨?_, ?_, ?_⟩
    · exact h.canonical_eq_of_items items
    · refine namesApart_iff.2 ⟨there.names.nodup_iff.1 hnodup, fun d hd => ?_⟩
      obtain ⟨_, _, _, hd, _⟩ := inside d hd
      exact hd
    · refine untied_iff.2 ⟨hapart.of_matches there back, fun d hd => ?_⟩
      obtain ⟨_, _, _, _, hd⟩ := inside d hd
      exact hd

/-- So do any number of steps. -/
theorem Shuffled.canonical_eq (h : Shuffled p q) (hnames : p.NamesApart) (huntied : p.Untied) :
    q.canonical = p.canonical ∧ q.NamesApart ∧ q.Untied := by
  induction h with
  | refl => exact ⟨rfl, hnames, huntied⟩
  | tail _ step ih =>
    obtain ⟨hsame, hnames', huntied'⟩ := ih
    obtain ⟨hnext, hafter⟩ := step.canonical_eq hnames' huntied'
    exact ⟨hnext.trans hsame, hafter⟩

/-! ## Rules that tie -/

/-- Of two rules that tie, the one that stands in front of all other items comes
first in the canonical form. -/
theorem pair_sublist_canonical {r s : Rule} {items : List (Item Profile)}
    (hp : p.items = .rule r :: items) (hs : s.terms ∈ termsOf p.items) (hkind : r.kind = s.kind)
    (hfirst : firstLike? p.rules r = firstLike? p.rules s) (hne : r.terms ≠ s.terms) :
    [r.terms, s.terms].Sublist (termsOf p.canonical.items) := by
  obtain ⟨t, merged, hmerged, htr⟩ := mergeItems_rule r (mergeNested items)
  have parts : canonicalParts p.items = .rule t.sort :: sortParts merged := by
    rw [canonicalParts, hp, mergeNested, hmerged, sortParts]
  have front : .rule t.sort ∈ p.canonical.items := by
    rw [(perm_items_canonical p).mem_iff, parts]
    exact List.mem_cons_self
  obtain ⟨u, hu, hus⟩ := mem_termsOf.1 (mem_termsOf_canonical.2 hs)
  have behind : .rule u ∈ sortParts merged := by
    have there := hu
    rw [(perm_items_canonical p).mem_iff, parts, List.mem_cons, Item.rule.injEq] at there
    refine there.resolve_left fun same => hne ?_
    rw [← hus, same, t.terms_sort, htr]
  -- the two compare equal, so sorting keeps the first in front of the second
  have tr := Rule.terms_eq_iff.1 ((t.terms_sort).trans htr)
  have us := Rule.terms_eq_iff.1 hus
  have ties : (Item.rule t.sort).compareSiblings (.rule u) = .eq := by
    refine Item.compareSiblings_eq_iff.2 ⟨?_, rfl, ?_⟩
    · show t.sort.kind.toText = u.kind.toText
      rw [tr.kind, us.kind, hkind]
    · show t.sort.attachments.head? = u.attachments.head?
      rw [head?_attachments front, head?_attachments hu, firstLike?_of_sameTerms tr,
        firstLike?_of_sameTerms us, hfirst]
  have pair : [Item.rule t.sort, .rule u].Sublist p.canonical.items := by
    rw [items_canonical, parts]
    apply List.pair_sublist_mergeSort Item.siblingLE_trans Item.siblingLE_total
    · rw [ties]
      rfl
    · exact (List.singleton_sublist.2 behind).cons_cons _
  have terms : termsOf [Item.rule t.sort, .rule u] = [r.terms, s.terms] := by
    rw [termsOf_rule, termsOf_rule, t.terms_sort, htr, hus]
    rfl
  rw [← terms]
  exact pair.filterMap _

/-- A rule is put in front of all other items by one permutation. -/
theorem exists_shuffle_front {r : Rule} (hr : .rule r ∈ p.items) :
    ∃ q items, Shuffle p q ∧ q.items = .rule r :: items := by
  obtain ⟨name, attachments, modifier, xs⟩ := p
  obtain ⟨before, after, rfl⟩ := List.append_of_mem hr
  exact ⟨⟨name, attachments, modifier, .rule r :: (before ++ after)⟩, _,
    .items List.perm_middle, rfl⟩

/-- Where rules tie there is a permutation that changes the canonical form. -/
theorem exists_shuffle_of_tie (h : ¬ p.RulesApart) :
    ∃ q, Shuffle p q ∧ q.canonical ≠ p.canonical := by
  by_contra unchanged
  have same : ∀ q, Shuffle p q → q.canonical = p.canonical := by
    intro q hq
    by_contra hne
    exact unchanged ⟨q, hq, hne⟩
  simp only [RulesApart, not_forall] at h
  obtain ⟨r, hr, s, hs, hkind, hfirst, halike⟩ := h
  rw [mem_rules] at hr hs
  rw [Rule.isAlike_iff_terms] at halike
  -- whichever of the two is put in front, it comes first
  have order : ∀ {r s : Rule}, .rule r ∈ p.items → .rule s ∈ p.items → r.kind = s.kind →
      firstLike? p.rules r = firstLike? p.rules s → r.terms ≠ s.terms →
        [r.terms, s.terms].Sublist (termsOf p.canonical.items) := by
    intro r s hr hs hkind hfirst hne
    obtain ⟨q, items, hq, hitems⟩ := exists_shuffle_front hr
    have there := hq.matches
    have back := hq.symm.matches
    have firsts : ∀ t : Rule, firstLike? q.rules t = firstLike? p.rules t :=
      fun t => firstLike?_congr fun a => ⟨back.attaches t.onTerms_sameTerms,
        there.attaches t.onTerms_sameTerms⟩
    rw [← same q hq]
    refine pair_sublist_canonical hitems ?_ hkind ?_ hne
    · exact there.mem_termsOf (mem_termsOf.2 ⟨s, hs, rfl⟩)
    · rw [firsts, firsts, hfirst]
  exact not_sublist_swap (nodup_termsOf_canonical p) (order hr hs hkind hfirst halike)
    (order hs hr hkind.symm hfirst.symm fun hterms => halike hterms.symm)

/-- So there is where rules tie in a profile inside. -/
theorem exists_shuffle_ne (hnames : p.NamesApart) (h : ¬ p.Untied) :
    ∃ q, Shuffle p q ∧ q.canonical ≠ p.canonical := by
  induction p using inductionOn with
  | step p ih =>
    by_cases hapart : p.RulesApart
    · obtain ⟨hnodup, hinner⟩ := namesApart_iff.1 hnames
      simp only [untied_iff (p := p), hapart, true_and, not_forall] at h
      obtain ⟨c, hc, hties⟩ := h
      obtain ⟨d, hcd, hne⟩ := ih c hc (hinner c hc) hties
      have inner := keeps_canonical.nested p
      obtain ⟨name, attachments, modifier, xs⟩ := p
      obtain ⟨before, after, rfl⟩ := List.append_of_mem hc
      refine ⟨_, .nested hcd, fun same => ?_⟩
      -- the form of the profile inside is told by its name, and that stays
      have there : .profile d.canonical ∈
          (canonical ⟨name, attachments, modifier, before ++ .profile c :: after⟩).items := by
        rw [← same]
        exact (keeps_canonical.nested _ _).2 ⟨d, by simp, rfl⟩
      obtain ⟨e, he, hed⟩ := (inner d.canonical).1 there
      have names : e.name = c.name := by
        rw [← name_canonical e, hed, name_canonical, hcd.name_eq]
      rw [eq_of_name_eq hnodup he hc names] at hed
      exact hne hed.symm
    · exact exists_shuffle_of_tie hapart

/-- Every profile that is shuffled from one in which no rules tie serializes as that
one does in canonical form. Where rules tie, one of them has another canonical form. -/
theorem canonical_of_shuffled (p : Profile) (hnames : p.NamesApart) :
    (p.Untied → ∀ q, Shuffled p q →
        q.merge.sort.toElement.toXml = p.merge.sort.toElement.toXml) ∧
      (¬ p.Untied → ∃ q, Shuffled p q ∧ q.merge.sort ≠ p.merge.sort) := by
  refine ⟨fun huntied q hq => ?_, fun hties => ?_⟩
  · have same : q.merge.sort = p.merge.sort := (hq.canonical_eq hnames huntied).1
    rw [same]
  · obtain ⟨q, hq, hne⟩ := exists_shuffle_ne hnames hties
    exact ⟨q, .single hq, hne⟩

/-- A profile with rules that are merged and a profile in it. -/
def watchman : Profile :=
  { name := "watchman", attachments := ["/watch", "/guard"], items := [
    .profile { name := "arm", attachments := ["/arm"], items := [
      .rule { kind := .topic, qualifier := .deny, attachments := ["/log_b", "/log_a"],
              permissions := [.publish, .subscribe] }] },
    .rule { kind := .topic, qualifier := .allow, attachments := ["/log_b"],
            permissions := [.subscribe, .publish] },
    .rule { kind := .topic, qualifier := .allow, attachments := ["/log_a"],
            permissions := [.publish, .subscribe] }] }

/-- The profile with the attachments of the inner rule in order, and then its items
the other way round. -/
def watchmanShuffled : Profile :=
  { watchman with items := [
    .rule { kind := .topic, qualifier := .allow, attachments := ["/log_a"],
            permissions := [.publish, .subscribe] },
    .rule { kind := .topic, qualifier := .allow, attachments := ["/log_b"],
            permissions := [.subscribe, .publish] },
    .profile { name := "arm", attachments := ["/arm"], items := [
      .rule { kind := .topic, qualifier := .deny, attachments := ["/log_a", "/log_b"],
              permissions := [.publish, .subscribe] }] }] }

/-- A profile that allows and denies the same. -/
def selfDenial : Profile :=
  { name := "robot", attachments := ["/robot"], items := [
    .rule { kind := .topic, qualifier := .allow, attachments := ["/log"],
            permissions := [.publish] },
    .rule { kind := .topic, qualifier := .deny, attachments := ["/log"],
            permissions := [.publish] }] }

/-- A profile without ties that is shuffled in two steps, and one whose rules tie. -/
theorem canonical_of_shuffled_watchman :
    (watchman.NamesApart ∧ watchman.Untied ∧ Shuffled watchman watchmanShuffled ∧
      watchmanShuffled.merge.sort.toElement.toXml = watchman.merge.sort.toElement.toXml) ∧
    (selfDenial.NamesApart ∧ ¬ selfDenial.Untied ∧
      ∃ q, Shuffled selfDenial q ∧ q.merge.sort ≠ selfDenial.merge.sort) := by
  have names : watchman.NamesApart ∧ selfDenial.NamesApart := by decide
  have ties : watchman.Untied ∧ ¬ selfDenial.Untied := by decide
  have shuffled : Shuffled watchman watchmanShuffled := by
    have inner : Rule.Shuffle
        { kind := .topic, qualifier := .deny, attachments := ["/log_b", "/log_a"],
          permissions := [.publish, .subscribe] }
        { kind := .topic, qualifier := .deny, attachments := ["/log_a", "/log_b"],
          permissions := [.publish, .subscribe] } := ⟨rfl, rfl, rfl, by decide, by decide⟩
    have last : Shuffle { watchman with items := watchmanShuffled.items.reverse }
        watchmanShuffled := .items (List.reverse_perm _)
    refine .tail (.single ?_) last
    exact @Shuffle.nested _ _ _ [] _ _ _ (@Shuffle.rule _ _ _ [] _ _ _ inner)
  exact ⟨⟨names.1, ties.1, shuffled,
      (canonical_of_shuffled watchman names.1).1 ties.1 _ shuffled⟩,
    names.2, ties.2, (canonical_of_shuffled selfDenial names.2).2 ties.2⟩

/-- Rules that allow and deny the same keep the order in which they stand, and the
profile serializes in two ways. -/
theorem selfDenial_serializes_twice : selfDenial.NamesApart ∧
    Shuffled selfDenial { selfDenial with items := selfDenial.items.reverse } ∧
    ({ selfDenial with items := selfDenial.items.reverse } : Profile).merge.sort.toElement.toXml ≠
      selfDenial.merge.sort.toElement.toXml := by
  have settled : selfDenial.merge.sort = selfDenial ∧
      ({ selfDenial with items := selfDenial.items.reverse } : Profile).merge.sort =
        { selfDenial with items := selfDenial.items.reverse } := ⟨by cbv, by cbv⟩
  have lines :
      Element.xmlLines 0 (toElement { selfDenial with items := selfDenial.items.reverse }) ≠
        Element.xmlLines 0 selfDenial.toElement := by
    decide
  refine ⟨by decide, .single (.items (List.reverse_perm _).symm), ?_⟩
  rw [settled.1, settled.2]
  exact fun same => lines (String.ofList_injective same)

end Profile

end AccessPolicy
