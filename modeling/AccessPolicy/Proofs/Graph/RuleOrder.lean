import AccessPolicy.Proofs.Graph.Resolve
import AccessPolicy.Proofs.Profile.Shuffled

/-!
# Resolutions in any order

What a permission is resolved to depends on which rules are there, and not on their order, the
order in which they list attachments and permissions, or what the cache holds. The call fails
when an attachment of any of the rules does not compile, and otherwise says what the rules say
(`resolve_by_presence`).
-/

namespace AccessPolicy

open Pattern (AnyMatches Compiles)

variable {rules rules' : List Rule} {object : String} {permission : Permission}

/-- The second list has the rules of the first in some other order, and each of them lists the
same in some other order. -/
def RulesShuffled (rules rules' : List Rule) : Prop :=
  ∃ between, rules.Perm between ∧ List.Forall₂ Rule.Shuffle between rules'

theorem RulesShuffled.symm (h : RulesShuffled rules rules') : RulesShuffled rules' rules := by
  obtain ⟨between, hperm, hrules⟩ := h
  -- the lists of the rules may as well be put in another order before the rules are
  obtain ⟨front, hfront, hback⟩ := List.perm_comp_forall₂ hperm hrules
  exact ⟨front, hback.symm, (hfront.imp fun _ _ => Rule.Shuffle.symm).flip⟩

theorem RulesShuffled.exists_mem (h : RulesShuffled rules rules') {r : Rule} (hr : r ∈ rules) :
    ∃ s ∈ rules', r.Shuffle s := by
  obtain ⟨between, hperm, hrules⟩ := h
  obtain ⟨i, hi, rfl⟩ := List.getElem_of_mem (hperm.mem_iff.1 hr)
  have hi' : i < rules'.length := hrules.length_eq ▸ hi
  exact ⟨rules'[i], List.getElem_mem hi', hrules.get hi hi'⟩

theorem Rule.Shuffle.speaksOn {r s : Rule} (h : r.Shuffle s) (hr : r.SpeaksOn object permission) :
    s.SpeaksOn object permission :=
  ⟨h.permissions.mem_iff.1 hr.1, (Pattern.anyMatches_congr fun _ => h.attachments.mem_iff).1 hr.2⟩

theorem RulesShuffled.someSpeaks (h : RulesShuffled rules rules') {q : Qualifier}
    (hspeaks : SomeSpeaks rules q object permission) : SomeSpeaks rules' q object permission := by
  obtain ⟨r, hr, hq, hspeaks⟩ := hspeaks
  obtain ⟨s, hs, hrs⟩ := h.exists_mem hr
  exact ⟨s, hs, hrs.qualifier ▸ hq, hrs.speaksOn hspeaks⟩

theorem RulesShuffled.compile (h : RulesShuffled rules rules')
    (hcompile : ∀ r ∈ rules', ∀ source ∈ r.attachments, Compiles source) :
    ∀ r ∈ rules, ∀ source ∈ r.attachments, Compiles source := by
  intro r hr source hsource
  obtain ⟨s, hs, hrs⟩ := h.exists_mem hr
  exact hcompile s hs source (hrs.attachments.mem_iff.1 hsource)

/-- Rules in other orders are resolved to the same, or fail as well. -/
theorem toOption_resolve_of_shuffled (h : RulesShuffled rules rules') :
    (resolve rules object permission).fresh.toOption =
      (resolve rules' object permission).fresh.toOption := by
  cases hres : (resolve rules object permission).fresh with
  | ok resolution =>
    obtain ⟨resolution', hres'⟩ :=
      resolve_answers.2 (h.symm.compile (resolve_answers.1 ⟨resolution, hres⟩))
    have follows := (resolve_spec hres).congr ⟨h.someSpeaks, h.symm.someSpeaks⟩
      ⟨h.someSpeaks, h.symm.someSpeaks⟩
    rw [hres', follows.unique (resolve_spec hres')]
  | error e =>
    cases hres' : (resolve rules' object permission).fresh with
    | error e' => rfl
    | ok resolution' =>
      obtain ⟨resolution, hok⟩ := resolve_answers.2 (h.compile (resolve_answers.1 ⟨_, hres'⟩))
      rw [hres] at hok
      nomatch hok

/-- Whatever the cache holds, resolving fails exactly when some attachment of some rule does not
compile. Otherwise it says that the permission is denied when a rule that denies speaks on it,
else that it is allowed when one that allows does, and else that no rule matches. The order of
the rules and of what they list has no influence. -/
theorem resolve_by_presence (rules : List Rule) (object : String) (permission : Permission)
    (cache : Cache) :
    ((∃ e, ((resolve rules object permission).run cache).1 = .error e) ↔
      ∃ r ∈ rules, ∃ source ∈ r.attachments, ¬ Compiles source) ∧
    (∀ resolution, ((resolve rules object permission).run cache).1 = .ok resolution ↔
      (∀ r ∈ rules, ∀ source ∈ r.attachments, Compiles source) ∧
        resolution.Follows (SomeSpeaks rules .deny object permission)
          (SomeSpeaks rules .allow object permission)) ∧
    ∀ rules' cache', RulesShuffled rules rules' →
      ((resolve rules' object permission).run cache').1.toOption =
        ((resolve rules object permission).run cache).1.toOption := by
  simp only [transparent_resolve _ _ _ _]
  refine ⟨?_, fun resolution => ⟨fun h => ⟨resolve_answers.1 ⟨_, h⟩, resolve_spec h⟩, ?_⟩,
    fun rules' _ h => (toOption_resolve_of_shuffled h).symm⟩
  · have fails : (∃ e, (resolve rules object permission).fresh = .error e) ↔
        ¬ ∃ resolution, (resolve rules object permission).fresh = .ok resolution := by
      cases (resolve rules object permission).fresh <;> simp
    simp only [fails, resolve_answers, not_forall, exists_prop]
  · rintro ⟨compile, follows⟩
    obtain ⟨found, hfound⟩ := resolve_answers.2 compile
    rw [hfound, (resolve_spec hfound).unique follows]

/-- A rule that allows all sensors and one behind it that denies two of them. -/
def sensorRules : List Rule :=
  [{ kind := .topic, qualifier := .allow, attachments := ["/sensors/**"],
     permissions := [.subscribe] },
    { kind := .topic, qualifier := .deny, attachments := ["/sensors/raw", "/sensors/secret"],
      permissions := [.publish, .subscribe] }]

/-- The same in other orders. -/
def sensorRulesShuffled : List Rule :=
  [{ kind := .topic, qualifier := .deny, attachments := ["/sensors/secret", "/sensors/raw"],
     permissions := [.subscribe, .publish] },
    { kind := .topic, qualifier := .allow, attachments := ["/sensors/**"],
      permissions := [.subscribe] }]

/-- What is denied behind what is allowed is denied in front of it, with caches that keep one
pattern and none. -/
theorem resolve_by_presence_sensors :
    RulesShuffled sensorRules sensorRulesShuffled ∧
    ((resolve sensorRules "/sensors/secret" .subscribe).run (Cache.empty 1)).1 =
      .ok .explicitDeny ∧
    ((resolve sensorRulesShuffled "/sensors/secret" .subscribe).run (Cache.empty 0)).1.toOption =
      some .explicitDeny := by
  have shuffled : RulesShuffled sensorRules sensorRulesShuffled := by
    refine ⟨_, List.Perm.swap _ _ _, .cons ⟨rfl, rfl, rfl, ?_, ?_⟩ (.cons (.refl _) .nil)⟩
    · exact List.Perm.swap _ _ _
    · exact List.Perm.swap _ _ _
  have denied : ((resolve sensorRules "/sensors/secret" .subscribe).run (Cache.empty 1)).1 =
      .ok .explicitDeny := ok_of_toOption (by decide +kernel)
  have same := (resolve_by_presence sensorRules "/sensors/secret" .subscribe (Cache.empty 1)).2.2
    sensorRulesShuffled (Cache.empty 0) shuffled
  refine ⟨shuffled, denied, ?_⟩
  rw [same, denied]
  rfl

end AccessPolicy
