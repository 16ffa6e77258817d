import AccessPolicy.Graph.Indexed
import AccessPolicy.Proofs.Graph.Decide
import AccessPolicy.Proofs.Graph.Shape
import Mathlib.Data.List.Basic

/-!
# What a failed evaluation leaves behind

An evaluation goes through the edges between subjects and objects in one order: the subjects by
their numbers, and for each its edges to objects by theirs (`AccessGraph.IsAgenda`). It fails
where a pattern does not compile, either when the store is filtered for a subject or when a
permission is resolved (`AccessGraph.StopsAt`). The edges before that place then have noted on
them what the rules left for their subject say, as if the evaluation had answered, and all
others what they had before (`IndexedGraph.evaluate_stops`).

A run that fails has a first step that fails, behind steps that answer
(`Evaluating.exists_failed_step`). What those have done is known from runs that answer.
-/

namespace AccessPolicy

/-! ## Runs that fail -/

namespace Evaluating

variable {α γ : Type} {f : α → γ → Evaluating α} {cs : List γ} {a b : α} {g left : AccessGraph}
  {e : PatternError}

/-- A run that fails does so in a step that it comes to behind steps that answer. -/
theorem exists_failed_step (transparent : ∀ a c, (f a c).Transparent)
    (h : (cs.foldlM f a).outcome g = (.error e, left)) :
    ∃ done c rest b mid, cs = done ++ c :: rest ∧
      (done.foldlM f a).outcome g = (.ok b, mid) ∧ (f b c).outcome mid = (.error e, left) := by
  induction cs generalizing a g with
  | nil => nomatch h
  | cons c cs ih =>
    rw [outcome_foldlM_cons transparent] at h
    cases hstep : (f a c).outcome g with
    | mk answer mid =>
      rw [hstep] at h
      cases answer with
      | error e' =>
        obtain ⟨rfl, rfl⟩ : e' = e ∧ mid = left := by simpa using h
        exact ⟨[], c, cs, a, g, rfl, rfl, hstep⟩
      | ok b =>
        obtain ⟨done, c', rest, b', mid', rfl, hdone, hfails⟩ := ih h
        refine ⟨c :: done, c', rest, b', mid', rfl, ?_, hfails⟩
        rw [outcome_foldlM_cons transparent, hstep]
        exact hdone

/-- In a run that answers every step answers, in some graph. -/
theorem exists_ok_step (transparent : ∀ a c, (f a c).Transparent)
    (h : (cs.foldlM f a).outcome g = (.ok b, left)) {c : γ} (hc : c ∈ cs) :
    ∃ a' g' b' left', (f a' c).outcome g' = (.ok b', left') := by
  induction cs generalizing a g with
  | nil => nomatch hc
  | cons d cs ih =>
    rw [outcome_foldlM_cons transparent] at h
    cases hstep : (f a d).outcome g with
    | mk answer mid =>
      rw [hstep] at h
      cases answer with
      | error e => nomatch h
      | ok b' =>
        rcases List.mem_cons.1 hc with rfl | hc
        · exact ⟨a, g, b', mid, hstep⟩
        · exact ih h hc

end Evaluating

/-- Whether or not a rule denies and one allows, there is a resolution that says so. -/
theorem Resolution.exists_follows (denied allowed : Prop) :
    ∃ resolution : Resolution, resolution.Follows denied allowed := by
  by_cases hd : denied
  · exact ⟨.explicitDeny, hd⟩
  · by_cases ha : allowed
    · exact ⟨.explicitAllow, hd, ha⟩
    · exact ⟨.noMatch, hd, ha⟩

/-! ## The order of an evaluation -/

/-- The first permission comes before the second: by the number of the subject, and for one
subject by that of the edge. -/
def Access.Before (a b : Access) : Prop :=
  a.subject < b.subject ∨ a.subject = b.subject ∧ a.edge < b.edge

namespace AccessGraph

/-- The permission is one of the subject on the object. -/
structure Concerns (g : AccessGraph) (a : Access) (subject : String) (kind : ObjectKind)
    (object : String) : Prop where
  subject : g.node? a.subject = some (.subject subject)
  object : g.node? a.object = some (.object kind object)

/-- The list has the edges between subjects and objects, each of them once, by the number of the
subject and for one subject by that of the edge. -/
structure IsAgenda (g : AccessGraph) (agenda : List Access) : Prop where
  ordered : agenda.Pairwise Access.Before
  sound : ∀ a ∈ agenda, ∃ subject kind object edge, g.Concerns a subject kind object ∧
    g.edge? a.edge = some edge ∧ a.permission = edge.permission ∧
      g.joined? edge = some (subject, kind, object)
  complete : ∀ i edge, g.edge? i = some edge → (g.joined? edge).isSome = true →
    ∃! a, a ∈ agenda ∧ a.edge = i

/-- Why an evaluation stops there: it cannot filter the store for a subject, with the edges of
all subjects before it done, or it cannot resolve the permission that is next. -/
inductive StopsAt (g : AccessGraph) (store : Store) (e : PatternError) (done rest : List Access) :
    Prop where
  | filtering {node : Nat} {subject : String} :
      g.node? node = some (.subject subject) → (store.filter subject).fresh = .error e →
      (∀ a ∈ done, a.subject < node) → (∀ a ∈ rest, node ≤ a.subject) → StopsAt g store e done rest
  | resolving {a : Access} {after : List Access} {subject object : String} {kind : ObjectKind}
      {policy : Store} :
      rest = a :: after → g.Concerns a subject kind object →
      (store.filter subject).fresh = .ok policy →
      (resolve (policy.rulesOf kind) object a.permission).fresh = .error e →
      StopsAt g store e done rest

/-- The edge of the permission has what the rules left for its subject say noted on it, and is
otherwise as it was. -/
def Settled (g left : AccessGraph) (store : Store) (a : Access) : Prop :=
  ∃ subject kind object policy edge, ∃ resolution : Resolution,
    g.Concerns a subject kind object ∧ (store.filter subject).fresh = .ok policy ∧
    g.edge? a.edge = some edge ∧
    resolution.Follows (SomeSpeaks (policy.rulesOf kind) .deny object edge.permission)
      (SomeSpeaks (policy.rulesOf kind) .allow object edge.permission) ∧
    left.edge? a.edge = some { edge with qualifier := some resolution.qualifier }

/-- The second graph is what an evaluation of the first leaves when it stops between the two
lists: the edges of the one are settled, and all others are as they were. -/
structure StoppedAt (g left : AccessGraph) (store : Store) (e : PatternError)
    (done rest : List Access) : Prop where
  agenda : g.IsAgenda (done ++ rest)
  cause : g.StopsAt store e done rest
  settled : ∀ a ∈ done, g.Settled left store a
  kept : ∀ i, (∀ a ∈ done, a.edge ≠ i) → left.edge? i = g.edge? i

instance (g : AccessGraph) : DecidablePred g.OnObject := fun a =>
  match h : g.node? a.object with
  | some (.object kind object) => .isTrue ⟨kind, object, h⟩
  | some (.subject _) => .isFalse fun ⟨_, _, hobject⟩ => by simp [h] at hobject
  | none => .isFalse fun ⟨_, _, hobject⟩ => by simp [h] at hobject

/-- The permissions of a node on objects. -/
def objectAccesses (g : AccessGraph) (node : Nat) : List Access :=
  (g.accesses node).filter g.OnObject

/-- The permissions of some subjects on objects. -/
def agendaOf (g : AccessGraph) (subjects : List (Nat × String)) : List Access :=
  subjects.flatMap fun s => g.objectAccesses s.1

/-- The permissions of all subjects on objects, as an evaluation comes to them. -/
def agenda (g : AccessGraph) : List Access := g.agendaOf g.subjects

variable {g left : AccessGraph} {store : Store} {e : PatternError} {a b : Access}

theorem mem_objectAccesses {node : Nat} :
    a ∈ g.objectAccesses node ↔ a ∈ g.accesses node ∧ g.OnObject a := by
  simp [objectAccesses]

theorem mem_agendaOf {subjects : List (Nat × String)} :
    a ∈ g.agendaOf subjects ↔ ∃ s ∈ subjects, a ∈ g.objectAccesses s.1 :=
  List.mem_flatMap

theorem subject_of_mem_objectAccesses {node : Nat} (ha : a ∈ g.objectAccesses node) :
    a.subject = node := by
  obtain ⟨_, _, hsubject, _⟩ := mem_accesses.1 (mem_objectAccesses.1 ha).1
  exact hsubject

/-- The permissions of some subjects are those of one of them each. -/
theorem subject_of_mem_agendaOf {subjects : List (Nat × String)} (ha : a ∈ g.agendaOf subjects) :
    ∃ s ∈ subjects, a.subject = s.1 := by
  obtain ⟨s, hs, ha⟩ := mem_agendaOf.1 ha
  exact ⟨s, hs, subject_of_mem_objectAccesses ha⟩

theorem pairwise_numbered {α : Type} (xs : List α) :
    (xs.mapIdx fun i x => (i, x)).Pairwise (·.1 < ·.1) := by
  rw [List.pairwise_iff_getElem]
  intro i j hi hj hij
  simpa using hij

/-- Subjects come in the order of their numbers. -/
theorem pairwise_subjects (g : AccessGraph) : g.subjects.Pairwise (·.1 < ·.1) := by
  refine List.Pairwise.filterMap _ ?_ (pairwise_numbered g.nodes)
  rintro ⟨i, n⟩ ⟨j, m⟩ hij s hs t ht
  cases n with
  | object kind object => nomatch hs
  | subject name =>
    cases m with
    | object kind object => nomatch ht
    | subject name' =>
      obtain rfl := Option.some.inj hs
      obtain rfl := Option.some.inj ht
      exact hij

/-- The permissions of a node come in the order of their edges. Only an edge from the node to
itself comes twice. -/
theorem pairwise_accesses (g : AccessGraph) (node : Nat) :
    (g.accesses node).Pairwise fun a b => a.edge < b.edge ∨ a.object = node := by
  have edge_eq : ∀ (i : Nat) (e : Edge) (a : Access),
      (a ∈ (if e.source = node then [⟨i, node, e.target, e.permission⟩] else []) ++
        if e.target = node then [⟨i, node, e.source, e.permission⟩] else []) → a.edge = i := by
    intro i e a ha
    simp only [List.mem_append, List.mem_ite_nil_right, List.mem_singleton] at ha
    rcases ha with ⟨_, rfl⟩ | ⟨_, rfl⟩ <;> rfl
  refine List.pairwise_flatMap.2 ⟨fun (i, e) _ => ?_, (pairwise_numbered g.edges).imp ?_⟩
  · by_cases htarget : e.target = node <;> by_cases hsource : e.source = node
    all_goals simp [hsource, htarget]
  · rintro ⟨i, e⟩ ⟨j, f⟩ hij a ha b hb
    rw [edge_eq i e a ha, edge_eq j f b hb]
    exact .inl hij

/-- The permissions of a subject on objects come in the order of their edges. -/
theorem pairwise_objectAccesses {s : Nat × String} (hs : s ∈ g.subjects) :
    (g.objectAccesses s.1).Pairwise (·.edge < ·.edge) := by
  refine ((g.pairwise_accesses s.1).filter _).imp_of_mem fun ha _ hab => hab.resolve_right ?_
  intro hself
  obtain ⟨kind, object, hobject⟩ := (mem_objectAccesses.1 ha).2
  rw [hself, mem_subjects.1 hs] at hobject
  nomatch hobject

theorem mem_agenda : a ∈ g.agenda ↔
    a ∈ g.accesses a.subject ∧ ∃ subject kind object, g.Concerns a subject kind object := by
  unfold agenda
  rw [mem_agendaOf]
  refine ⟨fun ⟨s, hs, ha⟩ => ?_, fun ⟨ha, subject, kind, object, concerns⟩ => ?_⟩
  · obtain ⟨haccess, kind, object, hobject⟩ := mem_objectAccesses.1 ha
    rw [subject_of_mem_objectAccesses ha]
    refine ⟨haccess, s.2, kind, object, ?_, hobject⟩
    rw [subject_of_mem_objectAccesses ha, mem_subjects.1 hs]
  · exact ⟨(a.subject, subject), mem_subjects.2 concerns.subject,
      mem_objectAccesses.2 ⟨ha, kind, object, concerns.object⟩⟩

/-- A permission of the agenda is known by its edge. -/
theorem eq_of_mem_agenda (ha : a ∈ g.agenda) (hb : b ∈ g.agenda) (hedge : a.edge = b.edge) :
    a = b := by
  obtain ⟨ha, _, _, _, ca⟩ := mem_agenda.1 ha
  obtain ⟨hb, _, _, _, cb⟩ := mem_agenda.1 hb
  obtain ⟨e, he, _, hpa, enda⟩ := mem_accesses.1 ha
  obtain ⟨f, hf, _, hpb, endb⟩ := mem_accesses.1 hb
  rw [← hedge, he] at hf
  obtain rfl := Option.some.inj hf
  -- no end of the edge is a subject for the one and an object for the other
  have apart : b.object ≠ a.subject := by
    intro h
    have both := cb.object
    rw [h, ca.subject] at both
    nomatch both
  have ends : a.subject = b.subject ∧ a.object = b.object := by
    rcases enda with ⟨hs, ho⟩ | ⟨hs, ho⟩ <;> rcases endb with ⟨hs', ho'⟩ | ⟨hs', ho'⟩
    · exact ⟨hs.symm.trans hs', ho.trans ho'.symm⟩
    · exact absurd (ho'.trans hs) apart
    · exact absurd (ho'.trans hs) apart
    · exact ⟨hs.symm.trans hs', ho.trans ho'.symm⟩
  rw [show a = ⟨a.edge, a.subject, a.object, a.permission⟩ from rfl, hedge, ends.1, ends.2, hpa,
    ← hpb]

/-- The agenda has the edges between subjects and objects, each of them once. -/
theorem isAgenda_agenda (g : AccessGraph) : g.IsAgenda g.agenda where
  ordered := by
    refine List.pairwise_flatMap.2 ⟨fun s hs => ?_, (pairwise_subjects g).imp ?_⟩
    · refine (pairwise_objectAccesses hs).imp_of_mem fun ha hb hab => ?_
      exact .inr ⟨by rw [subject_of_mem_objectAccesses ha, subject_of_mem_objectAccesses hb], hab⟩
    · intro s t hst a ha b hb
      refine .inl ?_
      rwa [subject_of_mem_objectAccesses ha, subject_of_mem_objectAccesses hb]
  sound a ha := by
    obtain ⟨haccess, subject, kind, object, concerns⟩ := mem_agenda.1 ha
    obtain ⟨edge, hedge, hpermission, hjoined⟩ :=
      joined?_of_mem_accesses concerns.subject haccess concerns.object
    exact ⟨subject, kind, object, edge, concerns, hedge, hpermission, hjoined⟩
  complete i edge hedge hjoined := by
    obtain ⟨s, hs, a, ha, hon, rfl⟩ := (exists_access_iff hedge).2 hjoined
    have listed : a ∈ g.agenda := mem_agendaOf.2 ⟨s, hs, mem_objectAccesses.2 ⟨ha, hon⟩⟩
    exact ⟨a, ⟨listed, rfl⟩, fun b ⟨hb, hedge⟩ => eq_of_mem_agenda hb listed hedge⟩

/-! ## Where an evaluation stops -/

/-- A step fails only where a permission on an object cannot be resolved, and notes nothing. -/
theorem failed_access {policy : Store} {report : Report}
    (h : (Store.evaluateAccess policy report a).outcome g = (.error e, left)) :
    ∃ kind object, g.node? a.object = some (.object kind object) ∧
      (resolve (policy.rulesOf kind) object a.permission).fresh = .error e ∧ left = g := by
  by_cases hon : g.OnObject a
  · obtain ⟨kind, object, hobject⟩ := hon
    rw [Store.outcome_evaluateAccess hobject] at h
    cases hres : (resolve (policy.rulesOf kind) object a.permission).fresh with
    | ok resolution =>
      rw [hres] at h
      nomatch h
    | error e' =>
      rw [hres] at h
      obtain ⟨rfl, rfl⟩ : e' = e ∧ g = left := by simpa using h
      exact ⟨kind, object, hobject, hres, rfl⟩
  · rw [Store.outcome_evaluateAccess_other fun kind object hobject =>
      hon ⟨kind, object, hobject⟩] at h
    nomatch h

/-- The steps of a subject fail at one of its permissions on objects, and decide the edges of
those before it. -/
theorem failed_accesses {policy : Store} {report : Report} {noted : Nat → Prop}
    {s : Nat × String} (hs : s ∈ g.subjects) (hpolicy : (store.filter s.2).fresh = .ok policy)
    (h : ((g.accesses s.1).foldlM (Store.evaluateAccess policy) report).outcome
      (g.decidedAt store noted) = (.error e, left)) :
    ∃ before a after kind object, g.objectAccesses s.1 = before ++ a :: after ∧
      g.node? a.object = some (.object kind object) ∧
      (resolve (policy.rulesOf kind) object a.permission).fresh = .error e ∧
      left = g.decidedAt store fun i => noted i ∨ ∃ b ∈ before, i = b.edge := by
  have transparent := Store.transparent_evaluateAccess policy
  obtain ⟨before, a, after, report', mid, hsplit, hbefore, hfails⟩ :=
    Evaluating.exists_failed_step transparent h
  have decides : ∀ b ∈ before, ∀ report, g.Decides store (fun i => g.OnObject b ∧ i = b.edge)
      (Store.evaluateAccess policy report b) := by
    intro b hb
    have hb' : b ∈ g.accesses s.1 := hsplit ▸ List.mem_append_left _ hb
    exact decides_access hpolicy (mem_subjects.1 hs) hb'
  rw [decides_foldlM transparent decides report hbefore] at hfails
  obtain ⟨kind, object, hobject, hres, rfl⟩ := failed_access hfails
  have hon : g.OnObject a := ⟨kind, object, hobject⟩
  refine ⟨before.filter g.OnObject, a, after.filter g.OnObject, kind, object, ?_, hobject, hres, ?_⟩
  · rw [objectAccesses, hsplit, List.filter_append, List.filter_cons_of_pos (by simpa using hon)]
  · exact decidedAt_congr fun i => by simp [and_assoc]

/-- The store can be filtered for the subject of the permission. -/
def Filtered (g : AccessGraph) (store : Store) (a : Access) : Prop :=
  ∃ subject policy, g.node? a.subject = some (.subject subject) ∧
    (store.filter subject).fresh = .ok policy

/-- When the steps of some subjects answer, the store can be filtered for those that have edges to
objects, and these edges are decided. -/
theorem decided_of_answers {front : List (Nat × String)} (hfront : ∀ s ∈ front, s ∈ g.subjects)
    {report report' : Report}
    (h : (front.foldlM (Store.evaluateSubject store) report).outcome g = (.ok report', left)) :
    (∀ a ∈ g.agendaOf front, g.Filtered store a) ∧
      left = g.decidedAt store fun i => ∃ a ∈ g.agendaOf front, i = a.edge := by
  have transparent := store.transparent_evaluateSubject
  refine ⟨fun a ha => ?_, ?_⟩
  · obtain ⟨s, hs, hnode⟩ := subject_of_mem_agendaOf ha
    obtain ⟨_, g', _, _, hstep⟩ := Evaluating.exists_ok_step transparent h hs
    rw [Store.outcome_evaluateSubject] at hstep
    cases hpolicy : (store.filter s.2).fresh with
    | ok policy => exact ⟨s.2, policy, hnode ▸ mem_subjects.1 (hfront s hs), hpolicy⟩
    | error e =>
      rw [hpolicy] at hstep
      nomatch hstep
  · have run : (front.foldlM (Store.evaluateSubject store) report).outcome
        (g.decidedAt store fun _ => False) = (.ok report', left) := by
      rwa [decidedAt_none]
    rw [decides_foldlM transparent (fun s hs => decides_subject (hfront s hs)) report run]
    refine decidedAt_congr fun i => ?_
    simp only [mem_agendaOf, mem_objectAccesses, false_or]
    constructor
    · rintro ⟨a, ⟨s, hs, ha, hon⟩, rfl⟩
      exact ⟨s, hs, a, ha, hon, rfl⟩
    · rintro ⟨s, hs, a, ha, hon, rfl⟩
      exact ⟨a, ⟨s, hs, ha, hon⟩, rfl⟩

theorem agenda_of_subjects {front back : List (Nat × String)} {s : Nat × String}
    (hsubjects : g.subjects = front ++ s :: back) :
    g.agenda = g.agendaOf front ++ (g.objectAccesses s.1 ++ g.agendaOf back) := by
  rw [agenda, hsubjects]
  simp [agendaOf]

/-- A subject for which the store cannot be filtered stands between the subjects before it and
its own edges. -/
theorem stopsAt_of_filter {front back : List (Nat × String)} {s : Nat × String}
    (hsubjects : g.subjects = front ++ s :: back) (hpolicy : (store.filter s.2).fresh = .error e) :
    g.StopsAt store e (g.agendaOf front) (g.objectAccesses s.1 ++ g.agendaOf back) := by
  have hs : s ∈ g.subjects := by simp [hsubjects]
  have ordered := g.pairwise_subjects
  rw [hsubjects, List.pairwise_append, List.pairwise_cons] at ordered
  obtain ⟨_, ⟨behind, _⟩, apart⟩ := ordered
  refine .filtering (mem_subjects.1 hs) hpolicy (fun a ha => ?_) fun a ha => ?_
  · obtain ⟨t, ht, hnode⟩ := subject_of_mem_agendaOf ha
    exact hnode ▸ apart t ht s List.mem_cons_self
  · rcases List.mem_append.1 ha with ha | ha
    · exact Nat.le_of_eq (subject_of_mem_objectAccesses ha).symm
    · obtain ⟨t, ht, hnode⟩ := subject_of_mem_agendaOf ha
      exact hnode ▸ Nat.le_of_lt (behind t ht)

/-- An evaluation that fails stops at one place of its agenda, and has decided the edges before
it. For the subjects of those the store could be filtered. -/
theorem exists_stopsAt
    (h : (g.subjects.foldlM (Store.evaluateSubject store) Report.empty).outcome g =
      (.error e, left)) :
    ∃ done rest, g.agenda = done ++ rest ∧ g.StopsAt store e done rest ∧
      (∀ a ∈ done, g.Filtered store a) ∧
      left = g.decidedAt store fun i => ∃ a ∈ done, i = a.edge := by
  obtain ⟨front, s, back, report, mid, hsubjects, hrun, hfails⟩ :=
    Evaluating.exists_failed_step store.transparent_evaluateSubject h
  have hs : s ∈ g.subjects := by simp [hsubjects]
  obtain ⟨filtered, rfl⟩ := decided_of_answers (fun t ht => by simp [hsubjects, ht]) hrun
  rw [Store.outcome_evaluateSubject, accesses_decidedAt] at hfails
  cases hpolicy : (store.filter s.2).fresh with
  | error e' =>
    rw [hpolicy] at hfails
    obtain ⟨rfl, rfl⟩ : e' = e ∧ _ = left := by simpa using hfails
    exact ⟨_, _, agenda_of_subjects hsubjects, stopsAt_of_filter hsubjects hpolicy, filtered, rfl⟩
  | ok policy =>
    rw [hpolicy] at hfails
    obtain ⟨before, a, after, kind, object, hsplit, hobject, hres, rfl⟩ :=
      failed_accesses hs hpolicy hfails
    have own : ∀ b ∈ before ++ a :: after, g.node? b.subject = some (.subject s.2) := by
      intro b hb
      rw [subject_of_mem_objectAccesses (hsplit ▸ hb), mem_subjects.1 hs]
    refine ⟨g.agendaOf front ++ before, a :: (after ++ g.agendaOf back), ?_, ?_, ?_, ?_⟩
    · simp [agenda_of_subjects hsubjects, hsplit]
    · exact .resolving rfl ⟨own a (by simp), hobject⟩ hpolicy hres
    · intro b hb
      rcases List.mem_append.1 hb with hb | hb
      · exact filtered b hb
      · exact ⟨s.2, policy, own b (List.mem_append_left _ hb), hpolicy⟩
    · exact decidedAt_congr fun i => by simp [or_and_right, exists_or]

/-- An edge that is decided has what the rules left for its subject say noted on it. -/
theorem settled_decidedAt {noted : Nat → Prop} {policy : Store} {subject object : String}
    {kind : ObjectKind} {edge : Edge} (hnoted : noted a.edge)
    (concerns : g.Concerns a subject kind object) (hedge : g.edge? a.edge = some edge)
    (hjoined : g.joined? edge = some (subject, kind, object))
    (hpolicy : (store.filter subject).fresh = .ok policy) :
    g.Settled (g.decidedAt store noted) store a := by
  obtain ⟨resolution, follows⟩ := Resolution.exists_follows
    (SomeSpeaks (policy.rulesOf kind) .deny object edge.permission)
    (SomeSpeaks (policy.rulesOf kind) .allow object edge.permission)
  have verdict : resolution.qualifier = store.verdict subject kind object edge.permission :=
    Store.verdict_of_follows (follows.congr (Store.someSpeaks_rulesOf hpolicy .deny)
      (Store.someSpeaks_rulesOf hpolicy .allow))
  refine ⟨subject, kind, object, policy, edge, resolution, concerns, hpolicy, hedge, follows, ?_⟩
  rw [edge?] at hedge ⊢
  rw [edges_decidedAt hnoted, hedge, Option.map_some, decideEdge, hjoined, verdict]

/-- An evaluation that fails leaves the graph as it is when it stops at one place. -/
theorem exists_stoppedAt
    (h : (g.subjects.foldlM (Store.evaluateSubject store) Report.empty).outcome g =
      (.error e, left)) : ∃ done rest, g.StoppedAt left store e done rest := by
  obtain ⟨done, rest, hagenda, hstops, filtered, rfl⟩ := exists_stopsAt h
  have agenda : g.IsAgenda (done ++ rest) := hagenda ▸ g.isAgenda_agenda
  refine ⟨done, rest, agenda, hstops, fun a ha => ?_, fun i hi => ?_⟩
  · obtain ⟨subject, kind, object, edge, concerns, hedge, _, hjoined⟩ :=
      agenda.sound a (List.mem_append_left _ ha)
    obtain ⟨subject', policy, hsubject, hpolicy⟩ := filtered a ha
    obtain rfl : subject = subject' := by simpa [concerns.subject] using hsubject
    exact settled_decidedAt ⟨a, ha, rfl⟩ concerns hedge hjoined hpolicy
  · refine edges_decidedAt_not ?_
    rintro ⟨a, ha, rfl⟩
    exact hi a ha rfl

end AccessGraph

/-- An evaluation that fails, with whatever the cache holds, leaves the nodes, what every edge
joins with which permission, and the indexes as they are. There is one place in the order of the
edges between subjects and objects such that those before it have what the rules left for their
subject say noted on them, and all other edges what was noted on them before. -/
theorem IndexedGraph.evaluate_stops (g : IndexedGraph) (store : Store) (cache : Cache)
    {e : PatternError} (h : (g.evaluate store cache).1 = .error e) :
    let left := (g.evaluate store cache).2.1
    g.SameShape left.toAccessGraph ∧
      left.subjectNumbers = g.subjectNumbers ∧ left.objectNumbers = g.objectNumbers ∧
      left.edgeNumbers = g.edgeNumbers ∧
      ∃ done rest, g.StoppedAt left.toAccessGraph store e done rest := by
  intro left
  refine ⟨store.sameShape_evaluate ⟨g.toAccessGraph, cache⟩, rfl, rfl, rfl, ?_⟩
  have run := store.transparent_evaluate ⟨g.toAccessGraph, cache⟩
  rw [Store.outcome_evaluate] at run
  apply AccessGraph.exists_stoppedAt
  rw [← run]
  exact Prod.ext h rfl

/-- Two subjects, the first with a topic and a service that is also the other's, with marks on
all edges. -/
def IndexedGraph.marked : IndexedGraph :=
  let named := (((empty.addSubject "/robot").1.addObject .topic "/log").1.addObject .service
    "/reset").1.addSubject "/base" |>.1
  let joined := ((named.connect 0 1 .publish).connect 0 2 .call).connect 3 2 .call
  ((joined.setQualifier 0 .deny).setQualifier 1 .allow).setQualifier 2 .allow

theorem IndexedGraph.toAccessGraph_marked : marked.toAccessGraph =
    ⟨[.subject "/robot", .object .topic "/log", .object .service "/reset", .subject "/base"],
      [⟨0, 1, .publish, some .deny⟩, ⟨0, 2, .call, some .allow⟩, ⟨3, 2, .call, some .allow⟩]⟩ := by
  cbv

/-- A profile whose rule on services has a pattern that does not compile. -/
def Store.brokenService : Store :=
  ⟨[.ofProfiles [{ name := "robot", attachments := ["/robot"], items := [
    .rule { kind := .service, qualifier := .deny, attachments := ["\x7b"], permissions := [.call] },
    .rule { kind := .topic, qualifier := .allow, attachments := ["/log"],
            permissions := [.publish] }] }]]⟩

/-- The topic is settled before the service fails. What is allowed behind it is so from before. -/
theorem IndexedGraph.evaluate_stops_marked :
    let left := (marked.evaluate .brokenService (Cache.empty 1)).2.1
    (marked.evaluate .brokenService (Cache.empty 1)).1 = .error (.unbalancedBrace "\x7b" 0) ∧
      left.edges = [⟨0, 1, .publish, some .allow⟩, ⟨0, 2, .call, some .allow⟩,
        ⟨3, 2, .call, some .allow⟩] ∧
      ∃ done rest, marked.StoppedAt left.toAccessGraph .brokenService
        (.unbalancedBrace "\x7b" 0) done rest := by
  intro left
  have stops : (Store.brokenService.evaluate.run ⟨marked.toAccessGraph, Cache.empty 1⟩).1 =
        .error (.unbalancedBrace "\x7b" 0) ∧
      (Store.brokenService.evaluate.run ⟨marked.toAccessGraph, Cache.empty 1⟩).2.graph.edges =
        [⟨0, 1, .publish, some .allow⟩, ⟨0, 2, .call, some .allow⟩,
          ⟨3, 2, .call, some .allow⟩] := by
    rw [toAccessGraph_marked]
    decide +kernel
  obtain ⟨_, _, _, _, place⟩ := marked.evaluate_stops .brokenService (Cache.empty 1) stops.1
  exact ⟨stops.1, stops.2, place⟩

end AccessPolicy
