import AccessPolicy.Proofs.Collection.Distinct
import AccessPolicy.Proofs.Profile.Merged
import Mathlib.Data.List.Induction

/-!
# Merging as one rule for each terms

Merging takes one item after the other into a list that changes on the way. What comes out
is told at once (`Profile.merge_eq_united`): of the rules of a profile on the same terms the
first is left where it stood, with the attachments of all of them
(`Profile.attachments_unitedRule`), and everything else stays where it is.
-/

namespace AccessPolicy

namespace Item

/-- The items are rules on the same terms. -/
def SameTerms : Item Profile → Item Profile → Prop
  | rule r, rule s => r.SameTerms s
  | _, _ => False

end Item

instance (r s : Rule) : Decidable (r.SameTerms s) :=
  decidable_of_iff (r.isAlike s = true) Rule.isAlike_iff

instance : (a b : Item Profile) → Decidable (a.SameTerms b)
  | .rule r, .rule s => inferInstanceAs (Decidable (r.SameTerms s))
  | .rule _, .profile _ => isFalse id
  | .profile _, .rule _ => isFalse id
  | .profile _, .profile _ => isFalse id

namespace Profile

/-- The items without the rules on whose terms a rule stands further ahead. -/
def firstOnTerms (items : List (Item Profile)) : List (Item Profile) :=
  (items.zipIdx.filter fun placed : Item Profile × Nat =>
    ∀ earlier ∈ items.take placed.2, ¬ earlier.SameTerms placed.1).map (·.1)

/-- The attachments of all rules among the items that stand on the terms of a rule. -/
def attachmentsOn (items : List (Item Profile)) (r : Rule) : List String :=
  items.flatMap fun
    | .rule s => if r.SameTerms s then s.attachments else []
    | .profile _ => []

/-- The rule with the attachments of all rules on its terms and its own permissions, each
where it comes first. -/
def unitedRule (items : List (Item Profile)) (r : Rule) : Rule :=
  { r with
    attachments := distinct (attachmentsOn items r)
    permissions := distinct r.permissions }

/-- What is left of an item: a rule for all on its terms, or a profile merged by itself. -/
def unitedItem (items : List (Item Profile)) : Item Profile → Item Profile
  | .rule r => .rule (unitedRule items r)
  | .profile c => .profile c.merge

variable {items : List (Item Profile)}

/-! ## One more item -/

theorem firstOnTerms_concat (items : List (Item Profile)) (item : Item Profile) :
    firstOnTerms (items ++ [item]) = firstOnTerms items ++
      if ∀ earlier ∈ items, ¬ earlier.SameTerms item then [item] else [] := by
  -- what stands ahead of an earlier item is not changed
  have ahead : ∀ x ∈ items.zipIdx, (items ++ [item]).take x.2 = items.take x.2 := fun x hx =>
    List.take_append_of_le_length (Nat.le_of_lt (List.snd_lt_of_mem_zipIdx hx))
  have all : (items ++ [item]).take items.length = items := List.take_left
  rw [firstOnTerms, List.zipIdx_append, List.filter_append, List.map_append, firstOnTerms]
  congr 1
  · refine congrArg _ (List.filter_congr fun x hx => ?_)
    rw [ahead x hx]
  · rw [List.zipIdx_cons, List.zipIdx_nil, List.filter_cons, Nat.zero_add]
    simp only [all, decide_eq_true_eq]
    split <;> rfl

theorem attachmentsOn_concat_rule (items : List (Item Profile)) (r s : Rule) :
    attachmentsOn (items ++ [.rule r]) s =
      attachmentsOn items s ++ if s.SameTerms r then r.attachments else [] := by
  rw [attachmentsOn, List.flatMap_append, attachmentsOn, List.flatMap_singleton]

theorem attachmentsOn_concat_profile (items : List (Item Profile)) (c : Profile) (s : Rule) :
    attachmentsOn (items ++ [.profile c]) s = attachmentsOn items s := by
  rw [attachmentsOn, List.flatMap_append, attachmentsOn, List.flatMap_singleton, List.append_nil]

/-- A rule on new terms has no attachments further ahead. -/
theorem attachmentsOn_of_fresh {r : Rule} (h : r.terms ∉ termsOf items) :
    attachmentsOn items r = [] := by
  rw [attachmentsOn, List.flatMap_eq_nil_iff]
  intro item hitem
  cases item with
  | rule s =>
    refine if_neg fun same => h (mem_termsOf.2 ⟨s, hitem, ?_⟩)
    exact (Rule.terms_eq_iff.2 same).symm
  | profile c => rfl

theorem sameTerms_unitedRule (items : List (Item Profile)) (r : Rule) :
    (unitedRule items r).SameTerms r :=
  ⟨rfl, rfl, rfl, fun _ => mem_distinct⟩

theorem unitedItem_concat_profile (items : List (Item Profile)) (c : Profile) :
    unitedItem (items ++ [.profile c]) = unitedItem items := by
  funext item
  cases item with
  | rule s => rw [unitedItem, unitedItem, unitedRule, unitedRule, attachmentsOn_concat_profile]
  | profile d => rfl

/-- A rule that comes last is taken over by the rules on its terms. -/
theorem unitedItem_concat_rule (items : List (Item Profile)) (r : Rule) (item : Item Profile) :
    unitedItem (items ++ [.rule r]) item = takeOver r (unitedItem items item) := by
  cases item with
  | rule s =>
    have alike : (unitedRule items s).isAlike r = true ↔ s.SameTerms r :=
      Rule.isAlike_iff.trans ⟨(sameTerms_unitedRule items s).symm.trans,
        (sameTerms_unitedRule items s).trans⟩
    rw [unitedItem, unitedItem, takeOver, unitedRule, attachmentsOn_concat_rule]
    by_cases same : s.SameTerms r
    · rw [if_pos same, if_pos (alike.2 same), Rule.absorb]
      simp only [unitedRule, distinct_distinct_append]
    · rw [if_neg same, if_neg fun h => same (alike.1 h), List.append_nil, unitedRule]
  | profile d => rfl

/-- A rule on new terms is left with its own attachments. -/
theorem unitedRule_concat_of_fresh {r : Rule} (h : r.terms ∉ termsOf items) :
    unitedRule (items ++ [.rule r]) r = r.distinct := by
  rw [unitedRule, attachmentsOn_concat_rule, attachmentsOn_of_fresh h, if_pos (.refl r),
    List.nil_append, Rule.distinct]

/-! ## All items -/

theorem mergeItem_united (items : List (Item Profile)) (item : Item Profile)
    (h : mergeItems (mergeNested items) = (firstOnTerms items).map (unitedItem items)) :
    mergeItem ((firstOnTerms items).map (unitedItem items)) (item.change id merge) =
      (firstOnTerms (items ++ [item])).map (unitedItem (items ++ [item])) := by
  have terms : termsOf ((firstOnTerms items).map (unitedItem items)) =
      distinct (termsOf items) := by
    rw [← h, termsOf_mergeItems, termsOf_mergeNested]
  rw [firstOnTerms_concat, List.map_append]
  cases item with
  | profile c =>
    have new : ∀ earlier ∈ items, ¬ earlier.SameTerms (.profile c) := by
      intro earlier _
      cases earlier <;> exact id
    rw [if_pos new, unitedItem_concat_profile]
    rfl
  | rule r =>
    have known : (∀ earlier ∈ items, ¬ earlier.SameTerms (.rule r)) ↔ r.terms ∉ termsOf items := by
      rw [mem_termsOf]
      refine ⟨fun h ⟨s, hs, hterms⟩ => h _ hs (Rule.terms_eq_iff.1 hterms), fun h earlier he => ?_⟩
      cases earlier with
      | rule s => exact fun same => h ⟨s, he, Rule.terms_eq_iff.2 same⟩
      | profile c => exact id
    have later : unitedItem (items ++ [.rule r]) = takeOver r ∘ unitedItem items :=
      funext (unitedItem_concat_rule items r)
    by_cases hterms : r.terms ∈ termsOf items
    · rw [if_neg fun h => known.1 h hterms, List.map_nil, List.append_nil, later, ← List.map_map]
      refine mergeRule_of_known ?_ (terms ▸ mem_distinct.2 hterms)
      exact terms ▸ nodup_distinct _
    · have fresh : r.terms ∉ termsOf ((firstOnTerms items).map (unitedItem items)) :=
        fun h => hterms (mem_distinct.1 (terms ▸ h))
      rw [if_pos (known.2 hterms), List.map_singleton, Item.change, id_eq, mergeItem,
        mergeRule_of_fresh fresh, unitedItem, unitedRule_concat_of_fresh hterms, later,
        ← List.map_map, map_takeOver_of_fresh fresh]

theorem mergeItems_mergeNested (items : List (Item Profile)) :
    mergeItems (mergeNested items) = (firstOnTerms items).map (unitedItem items) := by
  induction items using List.reverseRecOn with
  | nil => rfl
  | append_singleton items item ih =>
    rw [← mergeItem_united items item ih, ← ih, mergeNested_eq_map, mergeNested_eq_map,
      List.map_append, mergeItems, mergeItems, List.foldl_append]
    rfl

/-- Merging leaves of the rules of a profile on the same terms the first, where it stood,
with the attachments of all of them and its own permissions, each where it is named first.
It leaves every profile inside where it stood, merged by itself, and the name, the
attachments and the modifier of the profile. -/
theorem merge_eq_united (p : Profile) :
    p.merge = { p with items := (firstOnTerms p.items).map (unitedItem p.items) } := by
  cases p
  rw [merge, mergeItems_mergeNested]

theorem mem_attachmentsOn {r : Rule} {a : String} :
    a ∈ attachmentsOn items r ↔ ∃ s, .rule s ∈ items ∧ r.SameTerms s ∧ a ∈ s.attachments := by
  rw [attachmentsOn, List.mem_flatMap]
  refine ⟨fun ⟨item, hitem, ha⟩ => ?_, fun ⟨s, hs, hsame, ha⟩ => ⟨.rule s, hs, ?_⟩⟩
  · cases item with
    | profile c => cases ha
    | rule s =>
      simp only [List.mem_ite_nil_right] at ha
      exact ⟨s, hitem, ha⟩
  · simpa only [List.mem_ite_nil_right] using ⟨hsame, ha⟩

/-- The one rule that is left for all on its terms has their attachments and no others, none of
them twice and in the order of the profile. Rules further behind only add to the end. -/
theorem attachments_unitedRule (items : List (Item Profile)) (r : Rule) :
    (∀ a, a ∈ (unitedRule items r).attachments ↔
      ∃ s, .rule s ∈ items ∧ r.SameTerms s ∧ a ∈ s.attachments) ∧
    (unitedRule items r).attachments.Nodup ∧
    (unitedRule items r).attachments.Sublist (attachmentsOn items r) ∧
    ∀ behind,
      (unitedRule items r).attachments <+: (unitedRule (items ++ behind) r).attachments := by
  refine ⟨fun a => mem_distinct.trans mem_attachmentsOn, nodup_distinct _,
    distinctBy_sublist id _, fun behind => ?_⟩
  have further : attachmentsOn (items ++ behind) r =
      attachmentsOn items r ++ attachmentsOn behind r := List.flatMap_append
  show distinct _ <+: distinct (attachmentsOn (items ++ behind) r)
  rw [further, distinct, distinct, distinctBy_append]
  exact List.prefix_append _ _

end Profile

end AccessPolicy
