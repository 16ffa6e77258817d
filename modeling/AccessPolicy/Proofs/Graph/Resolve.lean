import AccessPolicy.Graph.Resolve
import AccessPolicy.Proofs.Pattern.Cached

/-!
# What a resolution says

A rule speaks on a permission and an object when it lists the one and covers the
other. Resolving a permission against some rules depends on two facts only:
whether a rule that denies speaks on it, and whether one that allows does
(`resolve_spec`). The order of the rules has no influence, nor what the cache
holds, and there is an answer exactly when all attachments of the rules compile
(`resolve_answers`).
-/

namespace AccessPolicy

open Cached
open Pattern (AnyMatches Compiles)

namespace Rule

/-- The rule lists the permission and an attachment matches the object. -/
def SpeaksOn (r : Rule) (object : String) (permission : Permission) : Prop :=
  permission ∈ r.permissions ∧ AnyMatches r.attachments object

variable {r : Rule} {object : String} {permission : Permission}

theorem transparent_appliesTo (r : Rule) (object : String) (permission : Permission) :
    (r.appliesTo object permission).Transparent := by
  unfold appliesTo
  split
  · exact Cache.transparent_matchesAny r.attachments object
  · exact transparent_pure false

theorem appliesTo_spec {applies : Bool}
    (h : (r.appliesTo object permission).fresh = .ok applies) :
    applies = true ↔ r.SpeaksOn object permission := by
  have lists : r.lists permission = true ↔ permission ∈ r.permissions := List.contains_iff_mem
  unfold appliesTo at h
  by_cases hl : r.lists permission = true
  · rw [if_pos hl] at h
    rw [Cache.matchesAny_spec h, SpeaksOn, and_iff_right (lists.1 hl)]
  · rw [if_neg hl, fresh_pure] at h
    injection h with h
    simp [← h, SpeaksOn, ← lists, hl]

theorem appliesTo_answers (h : ∀ source ∈ r.attachments, Compiles source) (object : String)
    (permission : Permission) : ∃ applies, (r.appliesTo object permission).fresh = .ok applies := by
  unfold appliesTo
  split
  · exact Cache.matchesAny_answers h object
  · exact ⟨false, rfl⟩

end Rule

/-- A rule with the qualifier speaks on the permission and the object. -/
def SomeSpeaks (rules : List Rule) (q : Qualifier) (object : String) (permission : Permission) :
    Prop :=
  ∃ r ∈ rules, r.qualifier = q ∧ r.SpeaksOn object permission

/-- What a resolution says of the rules that deny and of those that allow. -/
def Resolution.Follows (denied allowed : Prop) : Resolution → Prop
  | explicitDeny => denied
  | explicitAllow => ¬ denied ∧ allowed
  | noMatch => ¬ denied ∧ ¬ allowed

namespace Resolution

variable {denied allowed : Prop}

/-- Two resolutions that say the same are the same. -/
theorem Follows.unique {a b : Resolution} (ha : a.Follows denied allowed)
    (hb : b.Follows denied allowed) : a = b := by
  cases a <;> cases b <;> simp_all [Follows]

theorem Follows.congr {a : Resolution} {denied' allowed' : Prop} (h : a.Follows denied allowed)
    (hd : denied ↔ denied') (ha : allowed ↔ allowed') : a.Follows denied' allowed' := by
  rwa [← propext hd, ← propext ha]

end Resolution

/-! ## Searching -/

variable {object : String} {permission : Permission}

theorem searchRules_cons (object : String) (permission : Permission) (allowed : Bool)
    (r : Rule) (rules : List Rule) : searchRules object permission allowed (r :: rules) =
      r.appliesTo object permission >>= fun applies =>
        if applies then
          match r.qualifier with
          | .deny => pure .explicitDeny
          | .allow => searchRules object permission true rules
        else searchRules object permission allowed rules := rfl

theorem transparent_searchRules (object : String) (permission : Permission) (allowed : Bool)
    (rules : List Rule) : (searchRules object permission allowed rules).Transparent := by
  induction rules generalizing allowed with
  | nil => cases allowed <;> exact transparent_pure _
  | cons r rules ih =>
    rw [searchRules_cons]
    apply transparent_bind (r.transparent_appliesTo object permission)
    intro applies
    cases applies
    · exact ih allowed
    · cases r.qualifier
      · exact ih true
      · exact transparent_pure _

theorem fresh_searchRules_cons (object : String) (permission : Permission) (allowed : Bool)
    (r : Rule) (rules : List Rule) : (searchRules object permission allowed (r :: rules)).fresh =
      (r.appliesTo object permission).fresh.bind fun applies =>
        if applies then
          match r.qualifier with
          | .deny => .ok .explicitDeny
          | .allow => (searchRules object permission true rules).fresh
        else (searchRules object permission allowed rules).fresh := by
  rw [searchRules_cons, fresh_bind]
  · congr
    funext applies
    cases applies
    · rfl
    · cases r.qualifier <;> rfl
  · intro applies
    cases applies
    · exact transparent_searchRules object permission allowed rules
    · cases r.qualifier
      · exact transparent_searchRules object permission true rules
      · exact transparent_pure _

theorem someSpeaks_cons {r : Rule} {rules : List Rule} {q : Qualifier} :
    SomeSpeaks (r :: rules) q object permission ↔
      (r.qualifier = q ∧ r.SpeaksOn object permission) ∨ SomeSpeaks rules q object permission := by
  simp [SomeSpeaks]

theorem searchRules_spec {rules : List Rule} {allowed : Bool} {resolution : Resolution}
    (h : (searchRules object permission allowed rules).fresh = .ok resolution) :
    resolution.Follows (SomeSpeaks rules .deny object permission)
      (allowed = true ∨ SomeSpeaks rules .allow object permission) := by
  -- that a rule before these has allowed is remembered, and a rule that denies ends
  -- the search, so both facts are told by what is left
  induction rules generalizing allowed with
  | nil =>
    cases allowed <;> (injection h with h; simp [← h, Resolution.Follows, SomeSpeaks])
  | cons r rules ih =>
    rw [fresh_searchRules_cons] at h
    obtain ⟨applies, happlies, h⟩ := exists_ok_of_bind h
    have speaks := Rule.appliesTo_spec happlies
    cases applies with
    | false =>
      have silent : ¬ r.SpeaksOn object permission := fun hs => by simpa using speaks.2 hs
      simp only [someSpeaks_cons, silent, and_false, false_or]
      exact ih h
    | true =>
      have hs := speaks.1 rfl
      cases hq : r.qualifier with
      | deny =>
        rw [hq] at h
        injection h with h
        rw [← h]
        exact someSpeaks_cons.2 (.inl ⟨hq, hs⟩)
      | allow =>
        rw [hq] at h
        refine (ih h).congr ?_ ?_
        · rw [someSpeaks_cons, hq]
          simp
        · rw [someSpeaks_cons]
          simp [hq, hs]

/-! ## Compiling first -/

theorem transparent_forM {α : Type} {f : α → Cached Unit} (h : ∀ a, (f a).Transparent)
    (as : List α) : (as.forM f).Transparent := by
  induction as with
  | nil => exact transparent_pure ()
  | cons a as ih =>
    show (f a >>= fun _ => as.forM f).Transparent
    exact transparent_bind (h a) fun _ => ih

theorem forM_ok_iff {α : Type} {f : α → Cached Unit} (h : ∀ a, (f a).Transparent)
    (as : List α) : (as.forM f).fresh = .ok () ↔ ∀ a ∈ as, (f a).fresh = .ok () := by
  induction as with
  | nil => simp [List.forM]
  | cons a as ih =>
    have front : ((a :: as).forM f).fresh = (f a).fresh.bind fun _ => (as.forM f).fresh :=
      fresh_bind fun _ => transparent_forM h as
    rw [front, List.forall_mem_cons, ← ih]
    refine ⟨fun hok => ?_, fun ⟨hfirst, hrest⟩ => ?_⟩
    · obtain ⟨_, hfirst, hrest⟩ := exists_ok_of_bind hok
      exact ⟨hfirst, hrest⟩
    · rw [hfirst]
      exact hrest

theorem transparent_discard_compile (source : String) :
    (discard (Cache.compile source) : Cached Unit).Transparent :=
  transparent_bind (Cache.transparent_compile source) fun _ => transparent_pure _

theorem fresh_discard_compile (source : String) :
    (discard (Cache.compile source) : Cached Unit).fresh =
      (Pattern.compile? source).map fun _ => () := by
  rw [← Cache.fresh_compile]
  exact fresh_map

theorem transparent_compileAttachments (rules : List Rule) :
    (compileAttachments rules).Transparent :=
  transparent_forM transparent_discard_compile _

/-- Compiling all attachments fails unless all of them compile. -/
theorem compileAttachments_ok_iff {rules : List Rule} :
    (compileAttachments rules).fresh = .ok () ↔
      ∀ r ∈ rules, ∀ source ∈ r.attachments, Compiles source := by
  unfold compileAttachments
  rw [forM_ok_iff transparent_discard_compile]
  have compiles : ∀ source, (discard (Cache.compile source) : Cached Unit).fresh = .ok () ↔
      Compiles source := by
    intro source
    rw [fresh_discard_compile, Compiles]
    cases Pattern.compile? source <;> simp [Except.map]
  simp only [compiles, List.mem_flatMap]
  exact ⟨fun h r hr source hs => h source ⟨r, hr, hs⟩, fun h source ⟨r, hr, hs⟩ => h r hr source hs⟩

/-! ## Resolving -/

theorem transparent_resolve (rules : List Rule) (object : String) (permission : Permission) :
    (resolve rules object permission).Transparent :=
  transparent_bind (transparent_compileAttachments rules) fun _ =>
    transparent_searchRules object permission false rules

theorem fresh_resolve (rules : List Rule) (object : String) (permission : Permission) :
    (resolve rules object permission).fresh =
      (compileAttachments rules).fresh.bind fun _ =>
        (searchRules object permission false rules).fresh :=
  fresh_bind fun _ => transparent_searchRules object permission false rules

/-- A resolution denies what a rule denies, and allows what no rule denies and
some rule allows. -/
theorem resolve_spec {rules : List Rule} {resolution : Resolution}
    (h : (resolve rules object permission).fresh = .ok resolution) :
    resolution.Follows (SomeSpeaks rules .deny object permission)
      (SomeSpeaks rules .allow object permission) := by
  rw [fresh_resolve] at h
  obtain ⟨_, _, h⟩ := exists_ok_of_bind h
  exact (searchRules_spec h).congr Iff.rfl (by simp)

theorem searchRules_answers {rules : List Rule}
    (h : ∀ r ∈ rules, ∀ source ∈ r.attachments, Compiles source) (object : String)
    (permission : Permission) (allowed : Bool) :
    ∃ resolution, (searchRules object permission allowed rules).fresh = .ok resolution := by
  induction rules generalizing allowed with
  | nil => cases allowed <;> exact ⟨_, rfl⟩
  | cons r rules ih =>
    have later := ih fun s hs => h s (List.mem_cons_of_mem _ hs)
    obtain ⟨applies, happlies⟩ :=
      Rule.appliesTo_answers (h r List.mem_cons_self) object permission
    rw [fresh_searchRules_cons, happlies]
    cases applies with
    | false => exact later allowed
    | true =>
      cases hq : r.qualifier with
      | allow => exact later true
      | deny => exact ⟨.explicitDeny, rfl⟩

/-- There is a resolution exactly when all attachments of the rules compile. -/
theorem resolve_answers {rules : List Rule} :
    (∃ resolution, (resolve rules object permission).fresh = .ok resolution) ↔
      ∀ r ∈ rules, ∀ source ∈ r.attachments, Compiles source := by
  rw [← compileAttachments_ok_iff, fresh_resolve]
  refine ⟨fun h => ?_, fun h => ?_⟩
  · obtain ⟨_, h⟩ := h
    obtain ⟨_, hcompiled, _⟩ := exists_ok_of_bind h
    exact hcompiled
  · rw [h]
    exact searchRules_answers (compileAttachments_ok_iff.1 h) object permission false

end AccessPolicy
