import AccessPolicy.Proofs.Graph.Allowed
import AccessPolicy.Proofs.Graph.Lookup
import AccessPolicy.Proofs.Graph.Stopped
import Mathlib.Data.List.Nodup

/-!
# What the report of an evaluation tells

An evaluation that answers reports how many subjects it has met and how its edges were
resolved. The report agrees with the graph that is left (`Report.Tells`): it counts every
subject, and every edge between a subject and an object once, as what is noted on it, whichever
way the edge points and whatever else the graph has (`IndexedGraph.evaluate_tells`).

A report grows by what a step has resolved (`Report.Adds`), and so it does in a run
(`AccessGraph.counts_foldlM`). The steps of an evaluation go through its agenda, which has every
edge between a subject and an object once, so what they have resolved is, in another order, what
the store says on those edges (`AccessGraph.perm_resolutions`).
-/

namespace AccessPolicy

open Evaluating

/-! ## What the store says on a permission -/

namespace Store

open Classical in
/-- What a permission is resolved to by the rules that govern the subject. -/
noncomputable def resolution (s : Store) (subject : String) (kind : ObjectKind) (object : String)
    (permission : Permission) : Resolution :=
  if s.Speaks .deny subject kind object permission then .explicitDeny
  else if s.Speaks .allow subject kind object permission then .explicitAllow
  else .noMatch

variable {s policy : Store} {subject object : String} {kind : ObjectKind} {permission : Permission}

theorem follows_resolution (s : Store) (subject : String) (kind : ObjectKind) (object : String)
    (permission : Permission) : (s.resolution subject kind object permission).Follows
      (s.Speaks .deny subject kind object permission)
      (s.Speaks .allow subject kind object permission) := by
  unfold resolution
  by_cases hd : s.Speaks .deny subject kind object permission
  · rw [if_pos hd]
    exact hd
  · by_cases ha : s.Speaks .allow subject kind object permission
    · rw [if_neg hd, if_pos ha]
      exact ⟨hd, ha⟩
    · rw [if_neg hd, if_neg ha]
      exact ⟨hd, ha⟩

theorem resolution_eq_noMatch_iff :
    s.resolution subject kind object permission = .noMatch ↔
      ∀ q, ¬ s.Speaks q subject kind object permission := by
  have follows := s.follows_resolution subject kind object permission
  cases hres : s.resolution subject kind object permission <;> rw [hres] at follows
  · exact iff_of_false nofun fun silent => silent .deny follows
  · exact iff_of_false nofun fun silent => silent .allow follows.2
  · refine iff_of_true rfl fun q => ?_
    cases q with
    | allow => exact follows.2
    | deny => exact follows.1

theorem qualifier_resolution : (s.resolution subject kind object permission).qualifier =
    s.verdict subject kind object permission :=
  verdict_of_follows (s.follows_resolution subject kind object permission)

/-- A permission that is resolved against what is left for the subject is resolved so. -/
theorem eq_resolution_of_resolve {resolution : Resolution}
    (hpolicy : (s.filter subject).fresh = .ok policy)
    (h : (resolve (policy.rulesOf kind) object permission).fresh = .ok resolution) :
    resolution = s.resolution subject kind object permission :=
  (follows_of_resolve hpolicy h).unique (s.follows_resolution subject kind object permission)

end Store

/-! ## Reports that grow -/

namespace Report

/-- The second report is the first one with so many subjects and these resolutions counted. -/
structure Adds (subjects : Nat) (resolved : List Resolution) (r r' : Report) : Prop where
  subjects : r'.subjects = r.subjects + subjects
  edges : r'.edges = r.edges + resolved.length
  allowed : r'.allowed = r.allowed + resolved.countP (·.qualifier = .allow)
  denied : r'.denied = r.denied + resolved.countP (·.qualifier = .deny)
  unmatched : r'.unmatched = r.unmatched + resolved.countP (· = .noMatch)

theorem adds_nothing (r : Report) : r.Adds 0 [] r := ⟨rfl, rfl, rfl, rfl, rfl⟩

theorem adds_countSubject (r : Report) : r.Adds 1 [] r.countSubject := ⟨rfl, rfl, rfl, rfl, rfl⟩

theorem adds_count (r : Report) (resolution : Resolution) :
    r.Adds 0 [resolution] (r.count resolution) := by
  cases resolution <;> exact ⟨rfl, rfl, rfl, rfl, rfl⟩

variable {r r' r'' : Report} {n m : Nat} {xs ys : List Resolution}

theorem Adds.trans (h : r.Adds n xs r') (h' : r'.Adds m ys r'') :
    r.Adds (n + m) (xs ++ ys) r'' where
  subjects := by rw [h'.subjects, h.subjects, Nat.add_assoc]
  edges := by rw [h'.edges, h.edges, List.length_append, Nat.add_assoc]
  allowed := by rw [h'.allowed, h.allowed, List.countP_append, Nat.add_assoc]
  denied := by rw [h'.denied, h.denied, List.countP_append, Nat.add_assoc]
  unmatched := by rw [h'.unmatched, h.unmatched, List.countP_append, Nat.add_assoc]

/-- The order of the resolutions does not matter. -/
theorem Adds.perm (h : r.Adds n xs r') (same : xs.Perm ys) : r.Adds n ys r' where
  subjects := h.subjects
  edges := by rw [h.edges, same.length_eq]
  allowed := by rw [h.allowed, same.countP_eq]
  denied := by rw [h.denied, same.countP_eq]
  unmatched := by rw [h.unmatched, same.countP_eq]

end Report

/-- A resolution allows or denies. -/
theorem countP_allow_add_deny (resolved : List Resolution) :
    resolved.countP (·.qualifier = .allow) + resolved.countP (·.qualifier = .deny) =
      resolved.length := by
  induction resolved with
  | nil => rfl
  | cons resolution resolved ih =>
    simp only [List.countP_cons, List.length_cons, ← ih]
    cases resolution.qualifier with
    | allow => exact Nat.add_right_comm _ 1 _
    | deny => rfl

/-- What no rule speaks about is denied. -/
theorem countP_noMatch_le (resolved : List Resolution) :
    resolved.countP (· = .noMatch) ≤ resolved.countP (·.qualifier = .deny) := by
  apply List.countP_mono_left
  intro resolution _ h
  have unmatched : resolution = .noMatch := by simpa using h
  rw [unmatched]
  rfl

namespace AccessGraph

variable {g : AccessGraph} {store : Store}

/-! ## Following a run -/

/-- Whenever the work answers, its report is the one that it began with, with so many subjects
and these resolutions counted. -/
def Counts (g : AccessGraph) (store : Store) (subjects : Nat) (resolved : List Resolution)
    (work : Report → Evaluating Report) : Prop :=
  ∀ {noted : Nat → Prop} {report report' : Report} {left : AccessGraph},
    (work report).outcome (g.decidedAt store noted) = (.ok report', left) →
      report.Adds subjects resolved report'

/-- A run counts what its steps count, each of which counts as many subjects. -/
theorem counts_foldlM {γ : Type} {f : Report → γ → Evaluating Report} {touched : γ → Nat → Prop}
    {subjects : Nat} {resolved : γ → List Resolution}
    (transparent : ∀ report c, (f report c).Transparent) {cs : List γ}
    (decides : ∀ c ∈ cs, ∀ report, g.Decides store (touched c) (f report c))
    (step : ∀ c ∈ cs, g.Counts store subjects (resolved c) fun report => f report c) :
    g.Counts store (subjects * cs.length) (cs.flatMap resolved) fun report =>
      cs.foldlM f report := by
  intro noted report report' left h
  induction cs generalizing noted report with
  | nil =>
    obtain ⟨same, _⟩ := Prod.mk.inj h
    rw [← Except.ok.inj same]
    exact report.adds_nothing
  | cons c cs ih =>
    rw [outcome_foldlM_cons transparent] at h
    cases hfirst : (f report c).outcome (g.decidedAt store noted) with
    | mk answer mid =>
      rw [hfirst] at h
      cases answer with
      | error error => nomatch h
      | ok counted =>
        have first := step c List.mem_cons_self hfirst
        -- the others begin with the edges noted that the first step has decided
        rw [decides c List.mem_cons_self report hfirst] at h
        have others := ih (fun d hd => decides d (List.mem_cons_of_mem _ hd))
          (fun d hd => step d (List.mem_cons_of_mem _ hd)) h
        rw [List.length_cons, Nat.mul_succ, Nat.add_comm, List.flatMap_cons]
        exact first.trans others

/-- What the store says on an edge between a subject and an object. -/
noncomputable def resolution? (g : AccessGraph) (store : Store) (e : Edge) : Option Resolution :=
  (g.joined? e).map fun (subject, kind, object) =>
    store.resolution subject kind object e.permission

/-- What the store says on the edge of a permission on an object. -/
noncomputable def resolutionsOf (g : AccessGraph) (store : Store) (a : Access) :
    List Resolution :=
  if g.OnObject a then ((g.edge? a.edge).bind (g.resolution? store)).toList else []

/-- A step counts what its permission on an object is resolved to. -/
theorem counts_access {policy : Store} {node : Nat} {subject : String} {a : Access}
    (hpolicy : (store.filter subject).fresh = .ok policy)
    (hsubject : g.node? node = some (.subject subject)) (ha : a ∈ g.accesses node) :
    g.Counts store 0 (g.resolutionsOf store a) fun report =>
      Store.evaluateAccess policy report a := by
  intro noted report report' left h
  unfold resolutionsOf
  by_cases hon : g.OnObject a
  · obtain ⟨kind, object, hobject⟩ := id hon
    obtain ⟨e, he, hpermission, hjoined⟩ := joined?_of_mem_accesses hsubject ha hobject
    have hobject' : (g.decidedAt store noted).node? a.object = some (.object kind object) :=
      hobject
    rw [Store.outcome_evaluateAccess hobject'] at h
    cases hres : (resolve (policy.rulesOf kind) object a.permission).fresh with
    | error error =>
      rw [hres] at h
      nomatch h
    | ok resolution =>
      rw [hres, Prod.mk.injEq] at h
      have said : (g.edge? a.edge).bind (g.resolution? store) = some resolution := by
        rw [edge?, he, Option.bind_some, resolution?, hjoined, ← hpermission,
          Store.eq_resolution_of_resolve hpolicy hres]
        rfl
      rw [if_pos hon, said, ← Except.ok.inj h.1]
      exact report.adds_count resolution
  · have other : ∀ kind object,
        (g.decidedAt store noted).node? a.object ≠ some (.object kind object) :=
      fun kind object hobject => hon ⟨kind, object, hobject⟩
    rw [Store.outcome_evaluateAccess_other other, Prod.mk.injEq] at h
    rw [if_neg hon, ← Except.ok.inj h.1]
    exact report.adds_nothing

/-- The steps of a subject count it, and what its permissions on objects are resolved to. -/
theorem counts_subject {s : Nat × String} (hs : s ∈ g.subjects) :
    g.Counts store 1 ((g.accesses s.1).flatMap (g.resolutionsOf store)) fun report =>
      Store.evaluateSubject store report s := by
  intro noted report report' left h
  rw [Store.outcome_evaluateSubject, accesses_decidedAt] at h
  cases hpolicy : (store.filter s.2).fresh with
  | error error =>
    rw [hpolicy] at h
    nomatch h
  | ok policy =>
    rw [hpolicy] at h
    have counted := counts_foldlM (Store.transparent_evaluateAccess policy)
      (fun a ha report => decides_access hpolicy (mem_subjects.1 hs) ha report)
      (fun a ha => counts_access hpolicy (mem_subjects.1 hs) ha) h
    rw [Nat.zero_mul] at counted
    exact report.adds_countSubject.trans counted

/-! ## The agenda and the edges -/

/-- Numbers without repetition that are those of all members with an image give all images. -/
theorem perm_filterMap_getElem? {α β : Type} {xs : List α} {f : α → Option β} {numbers : List Nat}
    (apart : numbers.Nodup) (all : ∀ i, i ∈ numbers ↔ ((xs[i]?).bind f).isSome = true) :
    (numbers.filterMap fun i => (xs[i]?).bind f).Perm (xs.filterMap f) := by
  have images : xs.filterMap f = (List.range xs.length).filterMap fun i => (xs[i]?).bind f := by
    have members : xs.map some = (List.range xs.length).map fun i => xs[i]? :=
      List.ext_getElem (by simp) (by simp)
    have := congrArg (List.filterMap fun x? => x?.bind f) members
    simpa [List.filterMap_map, Function.comp_def] using this
  have present : ((List.range xs.length).filter fun i => ((xs[i]?).bind f).isSome).filterMap
      (fun i => (xs[i]?).bind f) = (List.range xs.length).filterMap fun i => (xs[i]?).bind f := by
    rw [List.filterMap_filter]
    apply List.filterMap_congr
    intro i _
    cases (xs[i]?).bind f <;> rfl
  have same : numbers.Perm ((List.range xs.length).filter fun i => ((xs[i]?).bind f).isSome) := by
    refine (List.perm_ext_iff_of_nodup apart (List.nodup_range.filter _)).2 fun i => ?_
    rw [all, List.mem_filter, List.mem_range]
    refine (and_iff_right_of_imp fun h => ?_).symm
    by_contra hi
    simp [List.getElem?_eq_none (Nat.le_of_not_lt hi)] at h
  rw [images, ← present]
  exact same.filterMap _

/-- The edges of the agenda are told apart by their numbers. -/
theorem nodup_agenda_edges (g : AccessGraph) : (g.agenda.map (·.edge)).Nodup := by
  have apart : g.agenda.Nodup := g.isAgenda_agenda.ordered.imp fun {a b} before same => by
    subst same
    rcases before with hlt | ⟨_, hlt⟩ <;> exact Nat.lt_irrefl _ hlt
  exact apart.map_on fun a ha b hb hedge => eq_of_mem_agenda ha hb hedge

/-- What the permissions of all subjects are resolved to is, in some other order, what the store
says on the edges of the graph. -/
theorem perm_resolutions (g : AccessGraph) (store : Store) :
    (g.subjects.flatMap fun s => (g.accesses s.1).flatMap (g.resolutionsOf store)).Perm
      (g.edges.filterMap (g.resolution? store)) := by
  have onAgenda : ∀ as : List Access, as.flatMap (g.resolutionsOf store) =
      ((as.filter g.OnObject).map (·.edge)).filterMap fun i =>
        (g.edges[i]?).bind (g.resolution? store) := by
    intro as
    induction as with
    | nil => rfl
    | cons a as ih =>
      rw [List.flatMap_cons, ih, resolutionsOf]
      by_cases hon : g.OnObject a
      · rw [if_pos hon, List.filter_cons_of_pos (by simpa using hon), List.map_cons,
          List.filterMap_cons, edge?]
        cases (g.edges[a.edge]?).bind (g.resolution? store) <;> rfl
      · rw [if_neg hon, List.filter_cons_of_neg (by simpa using hon), List.nil_append]
  have listed : (g.subjects.flatMap fun s => (g.accesses s.1).flatMap (g.resolutionsOf store)) =
      (g.agenda.map (·.edge)).filterMap fun i => (g.edges[i]?).bind (g.resolution? store) := by
    simp only [onAgenda, agenda, agendaOf, objectAccesses, List.map_flatMap,
      List.filterMap_flatMap]
  rw [listed]
  refine perm_filterMap_getElem? g.nodup_agenda_edges fun i => ?_
  constructor
  · intro hi
    obtain ⟨a, ha, rfl⟩ := List.mem_map.1 hi
    obtain ⟨_, _, _, edge, _, hedge, _, hjoined⟩ := g.isAgenda_agenda.sound a ha
    rw [edge?] at hedge
    simp [hedge, resolution?, hjoined]
  · intro hi
    cases hedge : g.edges[i]? with
    | none => simp [hedge] at hi
    | some edge =>
      have hjoined : (g.joined? edge).isSome = true := by
        simpa [hedge, resolution?] using hi
      obtain ⟨a, ⟨ha, rfl⟩, _⟩ := g.isAgenda_agenda.complete i edge hedge hjoined
      exact List.mem_map_of_mem ha

/-- An evaluation that answers has counted every subject, and on every edge between a subject and
an object what the store says. -/
theorem adds_of_outcome {report : Report} {left : AccessGraph}
    (h : store.evaluate.outcome g = (.ok report, left)) :
    Report.empty.Adds g.subjects.length (g.edges.filterMap (g.resolution? store)) report := by
  have run : (g.subjects.foldlM (Store.evaluateSubject store) Report.empty).outcome
      (g.decidedAt store fun _ => False) = (.ok report, left) := by
    rw [decidedAt_none, ← Store.outcome_evaluate, h]
  have counted := counts_foldlM store.transparent_evaluateSubject
    (fun s hs report => decides_subject hs report) (fun s hs => counts_subject hs) run
  rw [Nat.one_mul] at counted
  exact counted.perm (g.perm_resolutions store)

/-! ## What the report tells -/

/-- The edge joins a subject and an object, and no rule that governs the one speaks on it. -/
def Unspoken (g : AccessGraph) (store : Store) (e : Edge) : Prop :=
  ∃ subject kind object, g.joined? e = some (subject, kind, object) ∧
    ∀ q, ¬ store.Speaks q subject kind object e.permission

theorem length_subjects (g : AccessGraph) : g.subjects.length = g.nodes.countP Node.isSubject := by
  have members : g.nodes = g.numberedNodes.map (·.2) :=
    List.ext_getElem (by simp [numberedNodes]) (by simp [numberedNodes])
  rw [subjects, List.length_filterMap_eq_countP, members, List.countP_map]
  apply List.countP_congr
  rintro ⟨i, n⟩ _
  cases n <;> rfl

/-- Counting what the store says on the edges is counting the decided edges that show it. -/
theorem countP_resolutions {p : Resolution → Bool} {shown : Edge → Bool}
    (h : ∀ e, shown (g.decideEdge store e) = ((g.resolution? store e).map p).getD false) :
    (g.edges.filterMap (g.resolution? store)).countP p =
      (g.decided store).edges.countP shown := by
  rw [List.countP_filterMap, decided, List.countP_map]
  apply List.countP_congr
  intro e _
  rw [Function.comp_apply, h e]

/-- A decided edge joins a subject and an object if the store says something on it. -/
theorem joins_decideEdge (e : Edge) :
    ((g.decided store).joined? (g.decideEdge store e)).isSome =
      ((g.resolution? store e).map fun _ => true).getD false := by
  rw [joined?_decided, resolution?]
  cases g.joined? e <;> rfl

/-- A decided edge has noted on it what the store says on it. -/
theorem shows_decideEdge (e : Edge) (q : Qualifier) :
    (((g.decided store).joined? (g.decideEdge store e)).isSome &&
        decide ((g.decideEdge store e).qualifier = some q)) =
      ((g.resolution? store e).map fun resolution => decide (resolution.qualifier = q)).getD
        false := by
  rw [joined?_decided, resolution?, decideEdge]
  cases g.joined? e with
  | none => rfl
  | some ends =>
    rw [Option.map_some, Option.map_some, Option.getD_some, Store.qualifier_resolution]
    simp

open Classical in
theorem unspoken_decideEdge (e : Edge) :
    decide ((g.decided store).Unspoken store (g.decideEdge store e)) =
      ((g.resolution? store e).map fun resolution => decide (resolution = .noMatch)).getD
        false := by
  obtain ⟨_, _, hpermission⟩ := g.decideEdge_ends store e
  rw [Unspoken, joined?_decided, resolution?, hpermission]
  rcases g.joined? e with _ | ⟨subject, kind, object⟩
  · simp
  · rw [Option.map_some, Option.map_some, Option.getD_some]
    simp only [Store.resolution_eq_noMatch_iff, Option.some.injEq, Prod.mk.injEq]
    apply decide_eq_decide.2
    constructor
    · rintro ⟨_, _, _, ⟨rfl, rfl, rfl⟩, silent⟩
      exact silent
    · exact fun silent => ⟨subject, kind, object, ⟨rfl, rfl, rfl⟩, silent⟩

end AccessGraph

open Classical in
/-- The report tells what the graph shows: how many subjects there are and how many edges between
a subject and an object, and how many of these are allowed, how many are denied, and how many are
so because no rule of the store speaks on them. -/
structure Report.Tells (r : Report) (store : Store) (g : AccessGraph) : Prop where
  subjects : r.subjects = g.nodes.countP Node.isSubject
  edges : r.edges = g.edges.countP fun e => (g.joined? e).isSome
  allowed : r.allowed = g.edges.countP fun e => (g.joined? e).isSome && e.qualifier = some .allow
  denied : r.denied = g.edges.countP fun e => (g.joined? e).isSome && e.qualifier = some .deny
  unmatched : r.unmatched = g.edges.countP fun e => g.Unspoken store e
  total : r.allowed + r.denied = r.edges
  unmatched_le : r.unmatched ≤ r.denied

namespace AccessGraph

variable {g : AccessGraph} {store : Store}

/-- A report of every subject, and on every edge between a subject and an object of what the store
says, tells what the decided graph shows. -/
theorem tells_decided {r : Report} (h : Report.empty.Adds g.subjects.length
    (g.edges.filterMap (g.resolution? store)) r) : r.Tells store (g.decided store) where
  subjects := by
    rw [h.subjects, length_subjects]
    exact Nat.zero_add _
  edges := by
    rw [h.edges, ← List.countP_true]
    exact (Nat.zero_add _).trans (countP_resolutions joins_decideEdge)
  allowed := by
    rw [h.allowed]
    exact (Nat.zero_add _).trans (countP_resolutions (shows_decideEdge · .allow))
  denied := by
    rw [h.denied]
    exact (Nat.zero_add _).trans (countP_resolutions (shows_decideEdge · .deny))
  unmatched := by
    rw [h.unmatched]
    exact (Nat.zero_add _).trans (countP_resolutions unspoken_decideEdge)
  total := by
    rw [h.allowed, h.denied, h.edges, ← countP_allow_add_deny]
    exact Nat.add_add_add_comm 0 _ 0 _
  unmatched_le := by
    rw [h.unmatched, h.denied]
    exact Nat.add_le_add_left (countP_noMatch_le _) _

/-- Graphs of one shape join the same. -/
theorem SameShape.joined? {h : AccessGraph} (same : g.SameShape h) {e f : Edge}
    (hkey : f.key = e.key) : h.joined? f = g.joined? e := by
  obtain ⟨hsource, htarget, _⟩ : f.source = e.source ∧ f.target = e.target ∧ _ := by
    simpa [Edge.key] using hkey
  unfold AccessGraph.joined? node?
  rw [hsource, htarget, same.nodes]

/-- In a graph of the shape of a store's graph every edge joins a subject and an object. -/
theorem isSome_joined?_of_ofStore {built : Store} (same : (ofStore built).SameShape g) {e : Edge}
    (he : e ∈ g.edges) : (g.joined? e).isSome = true := by
  have hkey : e.key ∈ (ofStore built).edges.map Edge.key :=
    same.edges ▸ List.mem_map_of_mem he
  obtain ⟨f, hf, hfe⟩ := List.mem_map.1 hkey
  obtain ⟨subject, kind, object, hjoined, _⟩ := joined?_ofStore hf
  rw [same.joined? hfe.symm, hjoined]
  rfl

/-- Something is noted on a decided edge that joins a subject and an object. -/
theorem qualifier_decideEdge_ne_none {e : Edge} (h : (g.joined? e).isSome = true) :
    (g.decideEdge store e).qualifier ≠ none := by
  obtain ⟨ends, hends⟩ := Option.isSome_iff_exists.1 h
  rw [decideEdge, hends]
  exact Option.some_ne_none _

end AccessGraph

namespace IndexedGraph

theorem IsIndexed.subjectCount_eq {g : IndexedGraph} (hg : g.IsIndexed) :
    g.subjectCount = g.nodes.countP Node.isSubject := by
  rw [subjectCount, hg.subjects.size, List.length_filterMap_eq_countP]
  apply List.countP_congr
  intro n _
  cases n <;> rfl

/-- An evaluation that answers, with whatever the cache holds, reports what the graph shows that it
leaves. If the graph was reached by calls, it has as many subjects as its index says. If it was
built from a store, whatever has been noted on it since, every edge is counted and has something
noted on it. -/
theorem evaluate_tells (g : IndexedGraph) (store : Store) (cache : Cache) {report : Report}
    (h : (g.evaluate store cache).1 = .ok report) :
    let left := (g.evaluate store cache).2.1
    report.Tells store left.toAccessGraph ∧
      (Reaches empty g → report.subjects = left.subjectCount) ∧
      ∀ built, (ofStore built).SameShape g.toAccessGraph →
        report.edges = left.edgeCount ∧ ∀ e ∈ left.edges, e.qualifier ≠ none := by
  intro left
  have outcome : store.evaluate.outcome g.toAccessGraph = (.ok report, left.toAccessGraph) := by
    rw [← store.transparent_evaluate ⟨g.toAccessGraph, cache⟩]
    exact Prod.ext h rfl
  have decided := Store.decided_of_outcome outcome
  have tells : report.Tells store left.toAccessGraph := by
    rw [decided]
    exact AccessGraph.tells_decided (AccessGraph.adds_of_outcome outcome)
  refine ⟨tells, fun run => ?_, fun built same => ⟨?_, ?_⟩⟩
  · rw [tells.subjects, ((isIndexed_of_reaches run).evaluate store cache).subjectCount_eq]
  · have shape : (ofStore built).SameShape left.toAccessGraph :=
      same.trans (store.sameShape_evaluate ⟨g.toAccessGraph, cache⟩)
    rw [(toAccessGraph_ofStore built).2] at shape
    rw [tells.edges, edgeCount, List.countP_eq_length]
    intro e he
    exact AccessGraph.isSome_joined?_of_ofStore shape he
  · rw [(toAccessGraph_ofStore built).2] at same
    rw [decided]
    refine List.forall_mem_map.2 fun e he => ?_
    exact AccessGraph.qualifier_decideEdge_ne_none (AccessGraph.isSome_joined?_of_ofStore same he)

/-- A profile for one subject that allows it a topic of its name and denies it a service. -/
def onlyTopic : Store :=
  ⟨[.ofProfiles [{ name := "a", attachments := ["/a"], items := [
    .rule { kind := .topic, qualifier := .allow, attachments := ["/a"],
            permissions := [.publish] },
    .rule { kind := .service, qualifier := .deny, attachments := ["/a"],
            permissions := [.call] }] }]]⟩

/-- The graph of the store, behind an evaluation. -/
def onceEvaluated : IndexedGraph := ((ofStore onlyTopic).evaluate onlyTopic (Cache.empty 1)).2.1

theorem sameShape_onceEvaluated : (ofStore onlyTopic).SameShape onceEvaluated.toAccessGraph :=
  onlyTopic.sameShape_evaluate ⟨(ofStore onlyTopic).toAccessGraph, Cache.empty 1⟩

/-- A graph with an edge from a subject to itself, one to a second subject, and one in either
direction to a topic, of which one is not spoken of; and the graph of a store, evaluated again. -/
theorem evaluate_tells_namesakes :
    let left := (namesakes.evaluate onlyTopic (Cache.empty 1)).2.1
    let again := (onceEvaluated.evaluate onlyTopic (Cache.empty 1)).2.1
    ((namesakes.evaluate onlyTopic (Cache.empty 1)).1 = .ok ⟨2, 2, 1, 1, 1⟩ ∧
      Report.Tells ⟨2, 2, 1, 1, 1⟩ onlyTopic left.toAccessGraph ∧ left.subjectCount = 2) ∧
    ((onceEvaluated.evaluate onlyTopic (Cache.empty 1)).1 = .ok ⟨1, 2, 1, 1, 0⟩ ∧
      again.edgeCount = 2 ∧ ∀ e ∈ again.edges, e.qualifier ≠ none) := by
  intro left again
  have answers : (onlyTopic.evaluate.run ⟨namesakes.toAccessGraph, Cache.empty 1⟩).1 =
      .ok ⟨2, 2, 1, 1, 1⟩ := by
    rw [toAccessGraph_namesakes]
    exact ok_of_toOption (by decide +kernel)
  have answersAgain : (onceEvaluated.evaluate onlyTopic (Cache.empty 1)).1 =
      .ok ⟨1, 2, 1, 1, 0⟩ := by
    unfold onceEvaluated evaluate
    rw [(toAccessGraph_ofStore onlyTopic).2]
    exact ok_of_toOption (by decide +kernel)
  obtain ⟨tells, counted, _⟩ := evaluate_tells namesakes onlyTopic (Cache.empty 1) answers
  obtain ⟨_, _, whole⟩ := evaluate_tells onceEvaluated onlyTopic (Cache.empty 1) answersAgain
  obtain ⟨edges, noted⟩ := whole onlyTopic sameShape_onceEvaluated
  exact ⟨⟨answers, tells, (counted reaches_namesakes).symm⟩, answersAgain, edges.symm, noted⟩

end IndexedGraph

end AccessPolicy
