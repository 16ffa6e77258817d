import AccessPolicy.Graph.Evaluate
import AccessPolicy.Proofs.Graph.Resolve
import AccessPolicy.Proofs.Pattern.History
import AccessPolicy.Proofs.Store.Filter

/-!
# Evaluation step by step

Evaluating a graph changes the graph and the cache, also where it fails. The
answer and the graph do not depend on what the cache holds
(`Evaluating.Transparent`), so an evaluation is told by its outcome: what it
answers and the graph it leaves. The outcome for one permission is that of
resolving it (`Store.outcome_evaluateAccess`), and an evaluation has the outcomes
of its steps in sequence. So whatever calls a cache has answered before, work that
goes through it has the outcome that it has with no history
(`Cache.answers_behind_history`).
-/

namespace AccessPolicy

open Cached

namespace Evaluating

variable {α β : Type} {work : Evaluating α} {next : α → Evaluating β}

theorem run_bind (work : Evaluating α) (next : α → Evaluating β) (session : Session) :
    (work >>= next).run session =
      match work.run session with
      | (.ok a, later) => (next a).run later
      | (.error e, later) => (.error e, later) := by
  show (ExceptT.bindCont next (work.run session).1).run (work.run session).2 = _
  rcases work.run session with ⟨e | a, later⟩ <;> rfl

/-- The answer and the graph behind some work. -/
def result (work : Evaluating α) (session : Session) : Except PatternError α × AccessGraph :=
  ((work.run session).1, (work.run session).2.graph)

/-- The answer and the graph, when the cache is empty in front of the work. -/
def outcome (work : Evaluating α) (g : AccessGraph) : Except PatternError α × AccessGraph :=
  work.result ⟨g, Cache.empty Cache.defaultCapacity⟩

/-- The answer and the graph do not depend on what the cache holds. -/
def Transparent (work : Evaluating α) : Prop :=
  ∀ session, work.result session = work.outcome session.graph

theorem transparent_pure (a : α) : Transparent (pure a : Evaluating α) := fun _ => rfl

@[simp] theorem outcome_pure (a : α) (g : AccessGraph) :
    (pure a : Evaluating α).outcome g = (.ok a, g) := rfl

theorem result_bind (hnext : ∀ a, (next a).Transparent) (session : Session) :
    (work >>= next).result session =
      match work.result session with
      | (.ok a, later) => (next a).outcome later
      | (.error e, later) => (.error e, later) := by
  unfold result
  rw [run_bind]
  rcases work.run session with ⟨e | a, later⟩
  · rfl
  · exact hnext a later

/-- Work in sequence: the second part begins with the graph of the first. -/
theorem outcome_bind (hnext : ∀ a, (next a).Transparent) (g : AccessGraph) :
    (work >>= next).outcome g =
      match work.outcome g with
      | (.ok a, later) => (next a).outcome later
      | (.error e, later) => (.error e, later) :=
  result_bind hnext _

theorem transparent_bind (hwork : work.Transparent) (hnext : ∀ a, (next a).Transparent) :
    (work >>= next).Transparent := by
  intro session
  rw [result_bind hnext, outcome_bind hnext, hwork session]

theorem transparent_graph : Transparent graph := fun _ => rfl

@[simp] theorem outcome_graph (g : AccessGraph) : graph.outcome g = (.ok g, g) := rfl

theorem transparent_note (edge : Nat) (resolution : Resolution) :
    (note edge resolution).Transparent := fun _ => rfl

@[simp] theorem outcome_ofCached (cached : Cached α) (g : AccessGraph) :
    (ofCached cached).outcome g = (cached.fresh, g) := rfl

theorem transparent_ofCached {cached : Cached α} (h : cached.Transparent) :
    (ofCached cached).Transparent := by
  intro session
  rw [outcome_ofCached, ← h session.cache]
  rfl

theorem transparent_foldlM {γ : Type} {f : α → γ → Evaluating α}
    (h : ∀ a c, (f a c).Transparent) (cs : List γ) (a : α) : (cs.foldlM f a).Transparent := by
  induction cs generalizing a with
  | nil => exact transparent_pure a
  | cons c cs ih =>
    rw [List.foldlM_cons]
    exact transparent_bind (h a c) ih

theorem outcome_foldlM_cons {γ : Type} {f : α → γ → Evaluating α}
    (h : ∀ a c, (f a c).Transparent) (c : γ) (cs : List γ) (a : α) (g : AccessGraph) :
    ((c :: cs).foldlM f a).outcome g =
      match (f a c).outcome g with
      | (.ok b, later) => (cs.foldlM f b).outcome later
      | (.error e, later) => (.error e, later) := by
  rw [List.foldlM_cons]
  exact outcome_bind (transparent_foldlM h cs) g

/-- Both answer, with the same answer and the same graph. -/
def Alike (work work' : Evaluating α) : Prop :=
  ∀ g, ∃ answer, work.outcome g = answer ∧ work'.outcome g = answer ∧ ∃ a, answer.1 = .ok a

/-- Steps that are alike make runs that are alike. -/
theorem alike_foldlM {γ : Type} {f f' : α → γ → Evaluating α}
    (h : ∀ a c, (f a c).Transparent) (h' : ∀ a c, (f' a c).Transparent)
    (alike : ∀ a c, Alike (f a c) (f' a c)) (cs : List γ) (a : α) :
    Alike (cs.foldlM f a) (cs.foldlM f' a) := by
  -- both runs are in the same graph in front of every step
  induction cs generalizing a with
  | nil => exact fun g => ⟨(.ok a, g), rfl, rfl, a, rfl⟩
  | cons c cs ih =>
    intro g
    obtain ⟨⟨_, later⟩, hstep, hstep', b, rfl⟩ := alike a c g
    rw [outcome_foldlM_cons h, outcome_foldlM_cons h', hstep, hstep']
    exact ih b later

end Evaluating

namespace Store

open Evaluating

/-- What is done with a permission once the node at its other end is known. -/
def evaluateNode (policy : Store) (report : Report) (access : Access) :
    Option Node → Evaluating Report
  | some (.object kind name) => do
    let resolution ← ofCached (resolve (policy.rulesOf kind) name access.permission)
    note access.edge resolution
    return report.count resolution
  | _ => return report

theorem evaluateAccess_eq (policy : Store) (report : Report) (access : Access) :
    evaluateAccess policy report access =
      graph >>= fun g => evaluateNode policy report access (g.node? access.object) := rfl

theorem transparent_evaluateNode (policy : Store) (report : Report) (access : Access)
    (node : Option Node) : (evaluateNode policy report access node).Transparent := by
  unfold evaluateNode
  split
  · apply Evaluating.transparent_bind
      (transparent_ofCached (transparent_resolve _ _ access.permission))
    intro resolution
    exact Evaluating.transparent_bind (transparent_note access.edge resolution) fun _ =>
      Evaluating.transparent_pure _
  · exact Evaluating.transparent_pure report

theorem transparent_evaluateAccess (policy : Store) (report : Report) (access : Access) :
    (evaluateAccess policy report access).Transparent := by
  rw [evaluateAccess_eq]
  exact Evaluating.transparent_bind transparent_graph fun g =>
    transparent_evaluateNode policy report access (g.node? access.object)

theorem outcome_evaluateAccess_eq (policy : Store) (report : Report) (access : Access)
    (g : AccessGraph) : (evaluateAccess policy report access).outcome g =
      (evaluateNode policy report access (g.node? access.object)).outcome g := by
  rw [evaluateAccess_eq, outcome_bind fun g => transparent_evaluateNode policy report access _,
    outcome_graph]

/-- A permission on a node that is no object is passed over. -/
theorem outcome_evaluateAccess_other {policy : Store} {report : Report} {access : Access}
    {g : AccessGraph} (h : ∀ kind name, g.node? access.object ≠ some (.object kind name)) :
    (evaluateAccess policy report access).outcome g = (.ok report, g) := by
  rw [outcome_evaluateAccess_eq, evaluateNode]
  · exact outcome_pure report g
  · exact h

/-- A permission on an object is resolved, and the resolution noted on its edge. -/
theorem outcome_evaluateAccess {policy : Store} {report : Report} {access : Access}
    {g : AccessGraph} {kind : ObjectKind} {name : String}
    (h : g.node? access.object = some (.object kind name)) :
    (evaluateAccess policy report access).outcome g =
      match (resolve (policy.rulesOf kind) name access.permission).fresh with
      | .ok resolution =>
        (.ok (report.count resolution), g.setQualifier access.edge resolution.qualifier)
      | .error e => (.error e, g) := by
  rw [outcome_evaluateAccess_eq, h, evaluateNode, outcome_bind, outcome_ofCached]
  · cases (resolve (policy.rulesOf kind) name access.permission).fresh <;> rfl
  · intro resolution
    exact Evaluating.transparent_bind (transparent_note access.edge resolution) fun _ =>
      Evaluating.transparent_pure _

theorem transparent_evaluateSubject (store : Store) (report : Report) (subject : Nat × String) :
    (evaluateSubject store report subject).Transparent := by
  apply Evaluating.transparent_bind (transparent_ofCached (transparent_filter subject.2 store))
  intro policy
  apply Evaluating.transparent_bind transparent_graph
  intro g
  exact transparent_foldlM (transparent_evaluateAccess policy) _ _

/-- The permissions of a subject are resolved against what is left for it. -/
theorem outcome_evaluateSubject (store : Store) (report : Report) (subject : Nat × String)
    (g : AccessGraph) : (evaluateSubject store report subject).outcome g =
      match (store.filter subject.2).fresh with
      | .ok policy =>
        ((g.accesses subject.1).foldlM (evaluateAccess policy) report.countSubject).outcome g
      | .error e => (.error e, g) := by
  have rest : ∀ policy : Store, Evaluating.Transparent (do
      let accesses := (← Evaluating.graph).accesses subject.1
      accesses.foldlM (evaluateAccess policy) report.countSubject) := by
    intro policy
    apply Evaluating.transparent_bind transparent_graph
    intro g
    exact transparent_foldlM (transparent_evaluateAccess policy) _ _
  unfold evaluateSubject
  rw [outcome_bind rest, outcome_ofCached]
  cases (store.filter subject.2).fresh with
  | error e => rfl
  | ok policy =>
    show Evaluating.outcome (Evaluating.graph >>= fun g =>
      (g.accesses subject.1).foldlM (evaluateAccess policy) report.countSubject) g = _
    rw [outcome_bind fun g => transparent_foldlM (transparent_evaluateAccess policy) _ _,
      outcome_graph]

theorem transparent_evaluate (store : Store) : store.evaluate.Transparent :=
  Evaluating.transparent_bind transparent_graph fun _ =>
    transparent_foldlM (transparent_evaluateSubject store) _ _

theorem outcome_evaluate (store : Store) (g : AccessGraph) : store.evaluate.outcome g =
    (g.subjects.foldlM (evaluateSubject store) Report.empty).outcome g := by
  unfold evaluate
  rw [outcome_bind fun g => transparent_foldlM (transparent_evaluateSubject store) _ _,
    outcome_graph]

/-! ## Stores that settle everything alike -/

/-- What is left of two stores for a subject resolves every permission, and in
the same way. -/
def SettlesLike (policy policy' : Store) : Prop :=
  ∀ kind object permission, ∃ resolution,
    (resolve (policy.rulesOf kind) object permission).fresh = .ok resolution ∧
      (resolve (policy'.rulesOf kind) object permission).fresh = .ok resolution

theorem alike_evaluateAccess {policy policy' : Store} (h : SettlesLike policy policy')
    (report : Report) (access : Access) :
    Alike (evaluateAccess policy report access) (evaluateAccess policy' report access) := by
  intro g
  by_cases hnode : ∃ kind name, g.node? access.object = some (.object kind name)
  · obtain ⟨kind, name, hnode⟩ := hnode
    obtain ⟨resolution, hp, hp'⟩ := h kind name access.permission
    rw [outcome_evaluateAccess hnode, outcome_evaluateAccess hnode, hp, hp']
    exact ⟨_, rfl, rfl, _, rfl⟩
  · have other : ∀ kind name, g.node? access.object ≠ some (.object kind name) :=
      fun kind name hobject => hnode ⟨kind, name, hobject⟩
    rw [outcome_evaluateAccess_other other, outcome_evaluateAccess_other other]
    exact ⟨_, rfl, rfl, report, rfl⟩

/-- Stores that settle everything alike for every subject evaluate every graph,
and in the same way. -/
theorem alike_evaluate {store store' : Store}
    (h : ∀ subject, ∃ policy policy', (store.filter subject).fresh = .ok policy ∧
      (store'.filter subject).fresh = .ok policy' ∧ SettlesLike policy policy') :
    Alike store.evaluate store'.evaluate := by
  intro g
  rw [outcome_evaluate, outcome_evaluate]
  refine alike_foldlM (transparent_evaluateSubject store) (transparent_evaluateSubject store')
    (fun report subject g => ?_) g.subjects Report.empty g
  obtain ⟨policy, policy', hp, hp', hsettles⟩ := h subject.2
  rw [outcome_evaluateSubject, outcome_evaluateSubject, hp, hp']
  exact alike_foldlM (transparent_evaluateAccess policy) (transparent_evaluateAccess policy')
    (alike_evaluateAccess hsettles) _ _ g

end Store

/-! ## Behind any history -/

/-- A cache of any capacity answers every call of a history as if nothing were kept,
and so it does the next call. Filtering, covering, resolving and evaluating through
the cache that is left have the answers, and evaluating leaves the graph, that they
have with a new cache. -/
theorem Cache.answers_behind_history (capacity : Nat) (history : List Cache.Call) :
    ((Cache.empty capacity).run history).1 = history.map Cache.Call.answer ∧
    let cache := ((Cache.empty capacity).run history).2
    (∀ source, ((Cache.compile source).run cache).1 = Pattern.compile? source) ∧
    (∀ source name, ((Cache.isMatch source name).run cache).1 =
      (Pattern.compile? source).map fun p => p.isMatch name) ∧
    (∀ subject (d : Document), ((d.filter subject).run cache).1 = (d.filter subject).fresh) ∧
    (∀ subject (s : Store), ((s.filter subject).run cache).1 = (s.filter subject).fresh) ∧
    (∀ (r : Rule) object, ((r.covers object).run cache).1 = (r.covers object).fresh) ∧
    (∀ (r : Rule) object permission, ((r.appliesTo object permission).run cache).1 =
      (r.appliesTo object permission).fresh) ∧
    (∀ rules object permission, ((resolve rules object permission).run cache).1 =
      (resolve rules object permission).fresh) ∧
    ∀ (s : Store) (g : AccessGraph), s.evaluate.result ⟨g, cache⟩ = g.evaluate s := by
  refine ⟨Cache.run_answers _ history, ?_⟩
  intro cache
  refine ⟨?_, ?_, ?_, ?_, ?_, ?_, ?_, ?_⟩
  · exact fun source => Cache.answer_compile source cache
  · exact fun source name => Cache.answer_isMatch source name cache
  · exact fun subject d => d.transparent_filter subject cache
  · exact fun subject s => s.transparent_filter subject cache
  · exact fun r object => Cache.transparent_matchesAny r.attachments object cache
  · exact fun r object permission => r.transparent_appliesTo object permission cache
  · exact fun rules object permission => transparent_resolve rules object permission cache
  · exact fun s g => s.transparent_evaluate ⟨g, cache⟩

end AccessPolicy
