import AccessPolicy.Rule.Basic

/-!
# Profiles

A profile is a named policy for the subjects whose names match one of its
attachments. It holds rules and further profiles, in order. What a nested
profile says holds only for subjects that all profiles around it are for, too.
-/

namespace AccessPolicy

/-- What a profile holds: a rule, or a profile of its own. -/
inductive Item (Nested : Type) where
  | rule (r : Rule)
  | profile (p : Nested)
deriving DecidableEq, Repr

/-- A named policy for the subjects that its attachments match. -/
structure Profile where
  name : String
  attachments : List String := []
  modifier : Option String := none
  items : List (Item Profile) := []

namespace Profile

instance : Inhabited Profile := ⟨⟨"", [], none, []⟩⟩

/-! ## Equality -/

mutual

/-- Whether two profiles agree in every part. -/
def agrees : Profile → Profile → Bool
  | ⟨name, attachments, modifier, items⟩, ⟨name', attachments', modifier', items'⟩ =>
    name == name' && attachments == attachments' && modifier == modifier' &&
      itemsAgree items items'

/-- Whether two lists of items agree. -/
def itemsAgree : List (Item Profile) → List (Item Profile) → Bool
  | [], [] => true
  | .rule r :: items, .rule r' :: items' => r == r' && itemsAgree items items'
  | .profile p :: items, .profile p' :: items' => agrees p p' && itemsAgree items items'
  | _, _ => false

end

mutual

theorem agrees_iff_eq : ∀ p q : Profile, agrees p q = true ↔ p = q
  | ⟨name, attachments, modifier, items⟩, ⟨name', attachments', modifier', items'⟩ => by
    simp [agrees, itemsAgree_iff_eq items items', and_assoc]

theorem itemsAgree_iff_eq : ∀ xs ys : List (Item Profile), itemsAgree xs ys = true ↔ xs = ys
  | [], [] => by simp [itemsAgree]
  | [], _ :: _ => by simp [itemsAgree]
  | .rule r :: xs, [] => by simp [itemsAgree]
  | .profile p :: xs, [] => by simp [itemsAgree]
  | .rule r :: xs, .rule s :: ys => by simp [itemsAgree, itemsAgree_iff_eq xs ys]
  | .profile p :: xs, .profile q :: ys => by
    simp [itemsAgree, agrees_iff_eq p q, itemsAgree_iff_eq xs ys]
  | .rule r :: xs, .profile q :: ys => by simp [itemsAgree]
  | .profile p :: xs, .rule s :: ys => by simp [itemsAgree]

end

instance : DecidableEq Profile := fun p q =>
  decidable_of_iff (agrees p q = true) (agrees_iff_eq p q)

/-! ## Building -/

/-- A profile that has only a name. -/
def ofName (name : String) : Profile := ⟨name, [], none, []⟩

/-- Sets the modifier. -/
def withModifier (p : Profile) (modifier : String) : Profile :=
  { p with modifier := some modifier }

/-- Appends an attachment. -/
def withAttachment (p : Profile) (pattern : String) : Profile :=
  { p with attachments := p.attachments ++ [pattern] }

/-- Appends an item. -/
def withItem (p : Profile) (item : Item Profile) : Profile :=
  { p with items := p.items ++ [item] }

/-! ## Contents -/

/-- The rules that the profile holds itself, in order. -/
def rules (p : Profile) : List Rule :=
  p.items.filterMap fun
    | .rule r => some r
    | .profile _ => none

/-- The profiles that the profile holds itself, in order. -/
def nested (p : Profile) : List Profile :=
  p.items.filterMap fun
    | .rule _ => none
    | .profile q => some q

mutual

/-- The profile and all profiles in it, each before those it holds. -/
def walk : Profile → List Profile
  | ⟨name, attachments, modifier, items⟩ =>
    ⟨name, attachments, modifier, items⟩ :: walkItems items

/-- All profiles among the items and in them. -/
def walkItems : List (Item Profile) → List Profile
  | [] => []
  | .rule _ :: items => walkItems items
  | .profile p :: items => walk p ++ walkItems items

end

mutual

/-- The rules of a kind in the profile and in all profiles in it, where they
stand. -/
def rulesOf (kind : ObjectKind) : Profile → List Rule
  | ⟨_, _, _, items⟩ => itemRulesOf kind items

/-- The rules of a kind among the items and in them. -/
def itemRulesOf (kind : ObjectKind) : List (Item Profile) → List Rule
  | [] => []
  | .rule r :: items =>
    if r.kind = kind then r :: itemRulesOf kind items else itemRulesOf kind items
  | .profile p :: items => rulesOf kind p ++ itemRulesOf kind items

end

/-- The number of rules in the profile and in all profiles in it. -/
def ruleCount (p : Profile) : Nat :=
  (p.walk.flatMap rules).length

/-- Whether the profile is for a subject. -/
def attachesTo (p : Profile) (subject : String) : Cached Bool :=
  Cache.matchesAny p.attachments subject

end Profile

end AccessPolicy
