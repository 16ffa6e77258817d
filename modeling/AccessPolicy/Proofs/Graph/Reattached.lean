import AccessPolicy.Proofs.Graph.Session
import AccessPolicy.Proofs.Profile.Places

/-!
# Evaluation with attachments in another order

What is left of two stores for a subject, where the profiles list their attachments in other
orders, has the same rules (`Store.rulesOf_filter_reattached`). So the orders have an influence on
an evaluation only where filtering answers for one store and fails for the other. Where no
order decides (`Profile.OrderFree`), both evaluations have one outcome, but that they may name
different patterns when they fail (`Store.agree_evaluate`).
-/

namespace AccessPolicy

open Cached

/-! ## Work that comes to the same -/

namespace Evaluating

variable {α : Type} {work work' : Evaluating α}

/-- Both leave the same graph, and answer the same or both fail. -/
def Agree (work work' : Evaluating α) : Prop :=
  ∀ g, (work.outcome g).2 = (work'.outcome g).2 ∧
    (work.outcome g).1.toOption = (work'.outcome g).1.toOption

theorem Agree.refl (work : Evaluating α) : Agree work work := fun _ => ⟨rfl, rfl⟩

/-- Steps that agree make runs that agree. -/
theorem agree_foldlM {γ : Type} {f f' : α → γ → Evaluating α}
    (h : ∀ a c, (f a c).Transparent) (h' : ∀ a c, (f' a c).Transparent) {cs : List γ}
    (agree : ∀ c ∈ cs, ∀ a, Agree (f a c) (f' a c)) (a : α) :
    Agree (cs.foldlM f a) (cs.foldlM f' a) := by
  -- both runs are in the same graph in front of every step
  induction cs generalizing a with
  | nil => exact Agree.refl _
  | cons c cs ih =>
    intro g
    have others := ih fun c hc => agree c (List.mem_cons_of_mem _ hc)
    have first := agree c List.mem_cons_self a g
    rw [outcome_foldlM_cons h, outcome_foldlM_cons h']
    generalize (f a c).outcome g = outcome at first ⊢
    generalize (f' a c).outcome g = outcome' at first ⊢
    obtain ⟨e | b, later⟩ := outcome <;> obtain ⟨e' | b', later'⟩ := outcome'
    · exact first
    · nomatch first.2
    · nomatch first.2
    · obtain rfl : later = later' := first.1
      obtain rfl : b = b' := Option.some.inj first.2
      exact others b later

end Evaluating

namespace Store

open Evaluating

/-! ## Stores that differ in the order of attachments -/

/-- The stores are the same, but for the order in which profiles list their attachments. -/
def Reattached (s s' : Store) : Prop := List.Forall₂ Document.Reattached s.documents s'.documents

instance (s s' : Store) : Decidable (s.Reattached s') :=
  inferInstanceAs (Decidable (List.Forall₂ Document.Reattached s.documents s'.documents))

variable {s s' : Store} {subject : String}

theorem Reattached.symm (h : s.Reattached s') : s'.Reattached s :=
  List.Forall₂.flip (h.imp fun _ _ h => ⟨h.origin.symm, h.profiles.symm⟩)

theorem Reattached.profiles (h : s.Reattached s') :
    Profile.AllReattached s.profiles s'.profiles := by
  obtain ⟨ds⟩ := s
  obtain ⟨ds'⟩ := s'
  show List.Forall₂ _ (ds.flatMap (·.profiles)) (ds'.flatMap (·.profiles))
  have documents : List.Forall₂ Document.Reattached ds ds' := h
  induction documents with
  | nil => exact .nil
  | cons first _ ih =>
    rw [List.flatMap_cons, List.flatMap_cons]
    exact List.rel_append first.profiles (ih ‹_›)

/-- A store is filtered when all its profiles are. -/
theorem answers_filter_iff : (s.filter subject).Answers ↔
    (Profile.filterAll subject s.profiles).Answers := by
  have documents : ∀ ds : List Document, (filterDocuments subject ds).Answers ↔
      (Profile.filterAll subject (ds.flatMap (·.profiles))).Answers := by
    intro ds
    induction ds with
    | nil => exact iff_of_true ⟨[], rfl⟩ ⟨[], rfl⟩
    | cons d ds ih =>
      have parts : (filterDocuments subject (d :: ds)).Answers ↔
          (Profile.filterAll subject d.profiles).Answers ∧ (filterDocuments subject ds).Answers := by
        rw [Answers, Answers, Answers, fresh_filterDocuments_cons, Document.fresh_filter]
        cases (Profile.filterAll subject d.profiles).fresh <;>
          cases (filterDocuments subject ds).fresh <;> simp [Except.bind, Except.map]
      rw [parts, ih, List.flatMap_cons]
      simp only [Profile.answers_filterAll_iff, Profile.ReachedIn, List.mem_append, or_and_right,
        exists_or, or_imp, forall_and]
  have dressed : (s.filter subject).Answers ↔ (filterDocuments subject s.documents).Answers := by
    rw [Answers, Answers, fresh_filter]
    cases (filterDocuments subject s.documents).fresh <;> simp [Except.map]
  exact dressed.trans (documents s.documents)

/-- Where no order decides, stores that differ in the order of attachments are both filtered, or
none of them is. -/
theorem Reattached.answers_filter_iff (h : s.Reattached s')
    (hfree : Profile.OrderFree subject s.profiles) :
    (s.filter subject).Answers ↔ (s'.filter subject).Answers := by
  rw [Store.answers_filter_iff, Store.answers_filter_iff]
  exact ⟨Profile.answers_of_orderFree hfree h.profiles,
    Profile.answers_of_orderFree (hfree.reattached h.profiles) h.symm.profiles⟩

/-- What is left of stores that differ in the order of attachments has the same rules. -/
theorem Reattached.rulesOf_filter (h : s.Reattached s') {policy policy' : Store}
    (hpolicy : (s.filter subject).fresh = .ok policy)
    (hpolicy' : (s'.filter subject).fresh = .ok policy') (kind : ObjectKind) :
    policy.rulesOf kind = policy'.rulesOf kind := by
  rw [fresh_filter] at hpolicy hpolicy'
  obtain ⟨kept, hkept, rfl⟩ := exists_ok_of_map hpolicy
  obtain ⟨kept', hkept', rfl⟩ := exists_ok_of_map hpolicy'
  show kept.flatMap (fun d => d.rulesOf kind) = kept'.flatMap fun d => d.rulesOf kind
  have documents : List.Forall₂ Document.Reattached s.documents s'.documents := h
  generalize s.documents = ds at documents hkept
  generalize s'.documents = ds' at documents hkept'
  clear hpolicy hpolicy'
  induction documents generalizing kept kept' with
  | nil =>
    obtain rfl : [] = kept := Except.ok.inj hkept
    obtain rfl : [] = kept' := Except.ok.inj hkept'
    rfl
  | cons first _ ih =>
    rw [fresh_filterDocuments_cons] at hkept hkept'
    obtain ⟨left, hleft, hkept⟩ := exists_ok_of_bind hkept
    obtain ⟨left', hleft', hkept'⟩ := exists_ok_of_bind hkept'
    obtain ⟨others, hothers, rfl⟩ := exists_ok_of_map hkept
    obtain ⟨others', hothers', rfl⟩ := exists_ok_of_map hkept'
    have rules : left.rulesOf kind = left'.rulesOf kind := by
      rw [Document.filter_eq_restrict hleft, Document.filter_eq_restrict hleft',
        ← Document.isKept_reattached first]
      exact (first.restrict _).rulesOf kind
    rw [flatMap_rulesOf_kept, flatMap_rulesOf_kept, rules, ih _ _ hothers hothers']

/-! ## Evaluation -/

/-- Permissions are resolved against the rules that are left, and nothing else of the store. -/
theorem evaluateAccess_congr {policy policy' : Store}
    (h : ∀ kind, policy.rulesOf kind = policy'.rulesOf kind) :
    evaluateAccess policy = evaluateAccess policy' := by
  funext report access
  rw [evaluateAccess_eq, evaluateAccess_eq]
  congr 1
  funext g
  unfold evaluateNode
  split
  · rw [h]
  · rfl

/-- Evaluations of stores that differ in the order of attachments agree if filtering answers for
both or for none, for all subjects of the graph. -/
theorem Reattached.agree_evaluate (h : s.Reattached s') (g : AccessGraph)
    (answers : ∀ subject ∈ g.subjects,
      ((s.filter subject.2).Answers ↔ (s'.filter subject.2).Answers)) :
    (s.evaluate.outcome g).2 = (s'.evaluate.outcome g).2 ∧
      (s.evaluate.outcome g).1.toOption = (s'.evaluate.outcome g).1.toOption := by
  rw [outcome_evaluate, outcome_evaluate]
  refine agree_foldlM (transparent_evaluateSubject s) (transparent_evaluateSubject s')
    (fun subject hsubject report g => ?_) Report.empty g
  have both := answers subject hsubject
  rw [outcome_evaluateSubject, outcome_evaluateSubject]
  cases hpolicy : (s.filter subject.2).fresh with
  | error e =>
    cases hpolicy' : (s'.filter subject.2).fresh with
    | error e' => exact ⟨rfl, rfl⟩
    | ok policy' =>
      obtain ⟨policy, hanswer⟩ := both.2 ⟨policy', hpolicy'⟩
      rw [hpolicy] at hanswer
      nomatch hanswer
  | ok policy =>
    obtain ⟨policy', hpolicy'⟩ := both.1 ⟨policy, hpolicy⟩
    have same := evaluateAccess_congr (h.rulesOf_filter hpolicy hpolicy')
    rw [hpolicy']
    dsimp only
    rw [same]
    exact ⟨rfl, rfl⟩

end Store

/-! ## Documents -/

namespace Document

variable {d d' : Document} {subject : String}

theorem answers_filter_iff : (d.filter subject).Answers ↔
    (Profile.filterAll subject d.profiles).Answers := by
  rw [Answers, Answers, fresh_filter]
  cases (Profile.filterAll subject d.profiles).fresh <;> simp [Except.map]

/-- A document answers in all orders of attachments or in none exactly when no order decides. -/
theorem answers_in_all_orders_iff : (∀ d', d.Reattached d' →
      ((d.filter subject).Answers ↔ (d'.filter subject).Answers)) ↔
    Profile.OrderFree subject d.profiles := by
  simp only [answers_filter_iff]
  constructor
  · exact fun h => Profile.orderFree_of_answers fun qs hqs => h { d with profiles := qs } ⟨rfl, hqs⟩
  · exact fun hfree d' h => ⟨Profile.answers_of_orderFree hfree h.profiles,
      Profile.answers_of_orderFree (hfree.reattached h.profiles) h.profiles.symm⟩

end Document

/-- Whatever the orders in which the profiles of a document list their attachments, filtering
that answers keeps the profiles at the same places. It answers in all orders or in none exactly
when, of the profiles that it reaches, none has both an attachment that matches and one that does
not compile, or some has one that does not compile and none that matches. Where that is so for
the subjects of a graph, evaluations of a store answer the same or fail together, and leave the
same graph. -/
theorem filter_in_all_orders (d : Document) (subject : String) :
    (∀ d', d.Reattached d' → ∀ left left',
      (d.filter subject).fresh = .ok left → (d'.filter subject).fresh = .ok left' →
        left = d.restrict (d.isKept subject) ∧ left' = d'.restrict (d.isKept subject)) ∧
    ((∀ d', d.Reattached d' → ((d.filter subject).Answers ↔ (d'.filter subject).Answers)) ↔
      Profile.OrderFree subject d.profiles) ∧
    ∀ s s' : Store, s.Reattached s' → ∀ session session' : Session,
      session.graph = session'.graph →
      (∀ other ∈ session.graph.subjects, Profile.OrderFree other.2 s.profiles) →
        (s.evaluate.result session).2 = (s'.evaluate.result session').2 ∧
          (s.evaluate.result session).1.toOption = (s'.evaluate.result session').1.toOption := by
  refine ⟨fun d' h left left' hleft hleft' => ?_, Document.answers_in_all_orders_iff,
    fun s s' h session session' hgraph hfree => ?_⟩
  · rw [Document.isKept_reattached h, ← Document.filter_eq_restrict hleft',
      ← Document.isKept_reattached h]
    exact ⟨Document.filter_eq_restrict hleft, rfl⟩
  · rw [s.transparent_evaluate session, s'.transparent_evaluate session', ← hgraph]
    exact h.agree_evaluate session.graph fun other hother =>
      h.answers_filter_iff (hfree other hother)

/-- A profile for robots with one for arms in it, with given attachments. -/
def Document.armPolicy (robots arms : List String) : Document :=
  .ofProfiles [{ name := "robot", attachments := robots, items := [
    .rule { kind := .topic, qualifier := .allow, attachments := ["/log*"],
            permissions := [.publish] },
    .profile { name := "arm", attachments := arms, items := [
      .rule { kind := .topic, qualifier := .deny, attachments := ["/log_b"],
              permissions := [.publish] }] }] }]

/-- Where all attachments compile, both orders keep the same places and evaluate alike; and an
attachment of the inner profile that does not compile fails in every order where none
matches. -/
theorem filter_in_all_orders_arm :
    let d := Document.armPolicy ["/robot*", "/arm*"] ["/arm_1", "/robot_?"]
    let d' := Document.armPolicy ["/arm*", "/robot*"] ["/robot_?", "/arm_1"]
    let bad := Document.armPolicy ["/robot*", "/arm*"] ["\x7bb", "/robot_?"]
    let g : AccessGraph := { nodes := [.subject "/arm_1", .object .topic "/log_a"],
                             edges := [⟨0, 1, .publish, none⟩] }
    d.Reattached d' ∧
      (∃ left left', (d.filter "/arm_1").fresh = .ok left ∧ (d'.filter "/arm_1").fresh = .ok left' ∧
        left = d.restrict (d.isKept "/arm_1") ∧ left' = d'.restrict (d.isKept "/arm_1")) ∧
      (g.evaluate ⟨[d]⟩).2 = (g.evaluate ⟨[d']⟩).2 ∧
      ∀ bad', bad.Reattached bad' → ¬ (bad'.filter "/arm_1").Answers := by
  intro d d' bad g
  have reattached : d.Reattached d' := by decide
  have compile : Profile.AllCompile d.walk := by decide +kernel
  obtain ⟨places, orders, evaluations⟩ := filter_in_all_orders d "/arm_1"
  have free : ∀ subject, Profile.OrderFree subject d.profiles := fun subject =>
    Profile.orderFree_of_allCompile compile
  refine ⟨reattached, ?_, ?_, fun bad' hbad => ?_⟩
  · obtain ⟨left, hleft⟩ : (d.filter "/arm_1").Answers :=
      Document.answers_filter_iff.2 (Profile.filterAll_answers compile "/arm_1")
    obtain ⟨left', hleft'⟩ := (orders.2 (free "/arm_1") d' reattached).1 ⟨left, hleft⟩
    exact ⟨left, left', hleft, hleft', places d' reattached left left' hleft hleft'⟩
  · have profiles : Store.profiles ⟨[d]⟩ = d.profiles := List.append_nil _
    exact (evaluations ⟨[d]⟩ ⟨[d']⟩ (.cons reattached .nil) ⟨g, .empty _⟩ ⟨g, .empty _⟩ rfl
      fun subject _ => profiles ▸ free subject.2).1
  · -- filtering comes to the inner profile, which is broken for this subject
    have broken : Profile.OrderFree "/arm_1" bad.profiles := by
      refine .inr ⟨_, ⟨_, List.mem_singleton.2 rfl, .inside ?_ (.tail _ (.head _)) .self⟩, ?_⟩
      · decide +kernel
      · exact ⟨by decide +kernel, by decide⟩
    have fails : ¬ (bad.filter "/arm_1").Answers := by
      have failed : (bad.filter "/arm_1").fresh.isOk = false := by decide +kernel
      rintro ⟨left, hleft⟩
      rw [hleft] at failed
      nomatch failed
    exact fun answers => fails (((filter_in_all_orders bad "/arm_1").2.1.2 broken bad' hbad).2 answers)

/-- Behind an attachment that matches, one that does not compile is passed over, and in front of
it the document cannot be filtered, and a graph not evaluated. -/
theorem filter_bad_attachment :
    let d := Document.ofProfiles [{ name := "a", attachments := ["/a", "\x7bb"] }]
    let d' := Document.ofProfiles [{ name := "a", attachments := ["\x7bb", "/a"] }]
    let g : AccessGraph := { nodes := [.subject "/a"], edges := [] }
    d.Reattached d' ∧ (d.filter "/a").fresh = .ok d ∧
      (d'.filter "/a").fresh = .error (.unbalancedBrace "\x7bb" 0) ∧
      (g.evaluate ⟨[d]⟩).1 = .ok ⟨1, 0, 0, 0, 0⟩ ∧
      (g.evaluate ⟨[d']⟩).1 = .error (.unbalancedBrace "\x7bb" 0) := by
  decide +kernel

end AccessPolicy
