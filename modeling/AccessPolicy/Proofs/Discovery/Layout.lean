import AccessPolicy.Discovery.Snapshot
import AccessPolicy.Proofs.Collection.Answers
import AccessPolicy.Proofs.Path.Ways

/-!
# How a snapshot is laid out

What an element holds is laid out along a way: below the element stand containers with
the first tag of the way, as many as one likes, below each of them containers with the
next, and at the ends the items in the order of the document (`Discovery.Along`). Elements
with other tags may stand anywhere between and do not count (`Discovery.Interspersed`).
From an element in which processes are laid out with their participants, and these with
their endpoints, the participants are read in this order, each with its own endpoints
(`Discovery.Snapshot.ofElement?_laidOut`).
-/

namespace AccessPolicy

namespace Discovery

open Element

/-! ## Layouts -/

section Along

variable {α : Type}

/-- Of a row of elements those with the tag hold the items, one after the other. -/
inductive Row (tag : String) (Holds : Element → List α → Prop) : List Element → List α → Prop
  | nil : Row tag Holds [] []
  | holds {e : Element} {es : List Element} {as bs : List α} :
      e.tag = tag → Holds e as → Row tag Holds es bs → Row tag Holds (e :: es) (as ++ bs)
  | other {e : Element} {es : List Element} {as : List α} :
      e.tag ≠ tag → Row tag Holds es as → Row tag Holds (e :: es) as

/-- The items stand at the ends of a way from an element, in the order of the document. -/
def Along (Is : Element → α → Prop) : List String → Element → List α → Prop
  | [], e, as => ∃ a, Is e a ∧ as = [a]
  | tag :: tags, e, as => Row tag (Along Is tags) e.children as

end Along

/-- The element has the text. -/
def IsText (e : Element) (text : String) : Prop := e.text = some text

/-- The element is the record of an endpoint: it has one topic, and of the names of its
partitions the first counts. -/
structure Endpoint.LaidOut (e : Element) (endpoint : Endpoint) : Prop where
  topic : Along IsText ["topic_name"] e [endpoint.topic]
  partition : ∃ names, Along IsText ["partition", "name", "element"] e names ∧
    names.head? = endpoint.partition

/-- The element is the record of a participant: it has one name, which is not empty, and
lists its endpoints. -/
structure Participant.LaidOut (e : Element) (p : Participant) : Prop where
  named : p.name ≠ ""
  name : Along IsText ["participant_data", "participant_name", "name"] e [p.name]
  publications : Along Endpoint.LaidOut ["publications", "value", "element", "publication_data"]
    e p.publications
  subscriptions : Along Endpoint.LaidOut
    ["subscriptions", "value", "element", "subscription_data"] e p.subscriptions

/-- The element lists the participants of a process. -/
def ProcessLaidOut (e : Element) (participants : List Participant) : Prop :=
  Along Participant.LaidOut ["domain_participants", "value", "element"] e participants

/-- The element lists processes. -/
def Snapshot.LaidOut (root : Element) (processes : List (List Participant)) : Prop :=
  Along ProcessLaidOut ["processes", "value", "element"] root processes

/-! ## Reading what is laid out -/

section Reading

variable {α : Type} {Is : Element → α → Prop} {tags : List String} {e : Element} {as : List α}

/-- The items are those of the elements that one comes to branch by branch. -/
theorem forall₂_of_along (h : Along Is tags e as) : List.Forall₂ Is (e.descend tags) as := by
  induction tags generalizing e as with
  | nil =>
    obtain ⟨a, ha, rfl⟩ := h
    exact .cons ha .nil
  | cons tag tags ih =>
    rw [descend, childrenNamed]
    -- on one level the induction is on the row of children
    have row : Row tag (Along Is tags) e.children as := h
    clear h
    generalize e.children = es at row
    induction row with
    | nil => exact .nil
    | holds htag hholds _ ih' =>
      rw [List.filter_cons_of_pos (by simpa using htag), List.flatMap_cons]
      exact List.rel_append (ih hholds) ih'
    | other htag _ ih' =>
      rw [List.filter_cons_of_neg (by simpa using htag)]
      exact ih'

theorem forall₂_elementsAt (h : Along Is tags e as) : List.Forall₂ Is (elementsAt tags e) as := by
  rw [elementsAt, Path.select_ofTags]
  exact forall₂_of_along h

theorem textAt?_of_along {texts : List String} (h : Along IsText tags e texts) :
    textAt? tags e = texts.head? := by
  have found : List.Forall₂ IsText ((Path.ofTags tags).select e) texts := forall₂_elementsAt h
  rw [textAt?, Path.text?]
  generalize (Path.ofTags tags).select e = es at found
  cases found with
  | nil => rfl
  | cons htext _ => exact htext

/-- Items that are read wherever they stand are read from the ends of a way. -/
theorem readAt_of_along {read : Location → Element → Except StructureError α}
    (h : Along Is tags e as) (hread : ∀ e a, Is e a → ∀ here, read here e = .ok a)
    (location : Location) : readAt location tags read e = .ok as := by
  have elements : ((elementsAt tags e).mapIdx fun index found => (index + 1, found)).map Prod.snd =
      elementsAt tags e := List.ext_getElem (by simp) (by simp)
  have found := forall₂_elementsAt h
  rw [← elements, List.forall₂_map_left_iff] at found
  exact mapM_of_forall₂ (found.imp fun place a ha => hread place.2 a ha _)

/-- From the whole way one comes to what one comes to from the ends of its first part. -/
theorem Along.flatten {front back : List String} {ass : List (List α)}
    (h : Along (Along Is back) front e ass) : Along Is (front ++ back) e ass.flatten := by
  induction front generalizing e ass with
  | nil =>
    obtain ⟨as, has, rfl⟩ := h
    rwa [List.flatten_singleton]
  | cons tag front ih =>
    have row : Row tag (Along (Along Is back) front) e.children ass := h
    show Row tag (Along Is (front ++ back)) e.children ass.flatten
    clear h
    generalize e.children = es at row
    induction row with
    | nil => exact .nil
    | holds htag hholds _ ih' =>
      rw [List.flatten_append]
      exact .holds htag (ih hholds) ih'
    | other htag _ ih' => exact .other htag ih'

end Reading

theorem Endpoint.LaidOut.ofElement? {e : Element} {endpoint : Endpoint}
    (h : endpoint.LaidOut e) (location : Location) :
    Endpoint.ofElement? location e = .ok endpoint := by
  obtain ⟨htopic, names, hnames, hpartition⟩ := h
  have topic : textAt? topicTags e = some endpoint.topic := textAt?_of_along htopic
  have partition : textAt? partitionTags e = endpoint.partition :=
    (textAt?_of_along hnames).trans hpartition
  rw [Endpoint.ofElement?, topic, partition]

theorem Participant.LaidOut.ofElement? {e : Element} {p : Participant} (h : p.LaidOut e)
    (location : Location) : Participant.ofElement? location e = .ok p := by
  obtain ⟨hnamed, hname, hpublications, hsubscriptions⟩ := h
  have name : textAt? participantNameTags e = some p.name := textAt?_of_along hname
  have publications : readAt location publicationTags Endpoint.ofElement? e =
      .ok p.publications := readAt_of_along hpublications (fun _ _ h => h.ofElement?) location
  have subscriptions : readAt location subscriptionTags Endpoint.ofElement? e =
      .ok p.subscriptions := readAt_of_along hsubscriptions (fun _ _ h => h.ofElement?) location
  have hne : p.name.isEmpty = false := by
    rw [← Bool.not_eq_true, String.isEmpty_iff]
    exact hnamed
  rw [Participant.ofElement?, name]
  simp only [hne, publications, subscriptions]
  rfl

theorem Snapshot.LaidOut.ofElement? {root : Element} {processes : List (List Participant)}
    (h : Snapshot.LaidOut root processes) :
    Snapshot.ofElement? root = .ok ⟨processes.flatten⟩ := by
  have participants : Along Participant.LaidOut participantTags root processes.flatten :=
    Along.flatten h
  rw [Snapshot.ofElement?, readAt_of_along participants (fun _ _ h => h.ofElement?)]
  rfl

/-! ## Further elements -/

/-- The ways through a snapshot. -/
def documentedWays : List (List String) :=
  [participantTags, participantNameTags, publicationTags, subscriptionTags, topicTags,
    partitionTags]

/-- The tags on the ways through a snapshot. -/
def documentedTags : List String := documentedWays.flatten

/-- Each way is what its text is read as when it is used as a path. -/
theorem findAll_wayText {way : List String} (h : way ∈ documentedWays) (e : Element) :
    e.findAll (wayText way) = .ok (elementsAt way e) := by
  have writable : ∀ way ∈ documentedWays, way ≠ [] ∧
      ∀ tag ∈ way, Path.NodeTest.IsWritable (.tag tag) := by decide
  obtain ⟨hne, htags⟩ := writable way h
  rw [findAll, wayText, Path.read?_intercalate hne htags]
  rfl

/-- Between the elements of a row further ones were put, with tags that no way goes
through. -/
inductive Spread (Same : Element → Element → Prop) : List Element → List Element → Prop
  | nil : Spread Same [] []
  | keep {e e' : Element} {es es' : List Element} :
      Same e e' → Spread Same es es' → Spread Same (e :: es) (e' :: es')
  | further {e : Element} {es es' : List Element} :
      e.tag ∉ documentedTags → Spread Same es es' → Spread Same es (e :: es')

/-- The second element is the first with further elements put anywhere in it. -/
inductive Interspersed : Element → Element → Prop
  | node {e e' : Element} : e'.tag = e.tag → e'.text = e.text →
      Spread Interspersed e.children e'.children → Interspersed e e'

/-- Nothing has to be put in. -/
theorem Interspersed.refl (e : Element) : Interspersed e e := by
  have spread : ∀ es : List Element, (∀ child ∈ es, Interspersed child child) →
      Spread Interspersed es es := by
    intro es
    induction es with
    | nil => exact fun _ => .nil
    | cons child es ih =>
      intro h
      exact .keep (h child List.mem_cons_self) (ih fun other hother =>
        h other (List.mem_cons_of_mem _ hother))
  induction e using inductionOn with
  | step e ih => exact .node rfl rfl (spread _ ih)

section Interspersing

variable {α : Type} {Is : Element → α → Prop} {tags : List String} {e e' : Element} {as : List α}

theorem Along.interspersed (h : Along Is tags e as) (hspread : Interspersed e e')
    (htags : ∀ tag ∈ tags, tag ∈ documentedTags)
    (hIs : ∀ e e' a, Is e a → Interspersed e e' → Is e' a) : Along Is tags e' as := by
  induction tags generalizing e e' as with
  | nil =>
    obtain ⟨a, ha, rfl⟩ := h
    exact ⟨a, hIs e e' a ha hspread, rfl⟩
  | cons tag tags ih =>
    obtain ⟨htag, htags⟩ := List.forall_mem_cons.1 htags
    obtain ⟨_, _, hchildren⟩ := hspread
    have row : Row tag (Along Is tags) e.children as := h
    show Row tag (Along Is tags) e'.children as
    clear h
    -- what was put in has no tag of the way, so the row passes over it
    generalize e.children = es at row hchildren
    generalize e'.children = es' at hchildren ⊢
    induction hchildren generalizing as with
    | nil => exact row
    | keep hsame _ ih' =>
      obtain ⟨hsameTag, _, _⟩ := id hsame
      cases row with
      | holds heq hholds hrest =>
        exact .holds (hsameTag.trans heq) (ih hholds hsame htags) (ih' hrest)
      | other hne hrest => exact .other (fun same => hne (hsameTag.symm.trans same)) (ih' hrest)
    | further hfurther _ ih' => exact .other (fun same => hfurther (same ▸ htag)) (ih' row)

theorem IsText.interspersed {text : String} (h : IsText e text) (hspread : Interspersed e e') :
    IsText e' text := by
  obtain ⟨_, htext, _⟩ := hspread
  exact htext.trans h

theorem Endpoint.LaidOut.interspersed {endpoint : Endpoint} (h : endpoint.LaidOut e)
    (hspread : Interspersed e e') : endpoint.LaidOut e' := by
  obtain ⟨htopic, names, hnames, hpartition⟩ := h
  refine ⟨htopic.interspersed hspread (by decide) fun _ _ _ => IsText.interspersed,
    names, ?_, hpartition⟩
  exact hnames.interspersed hspread (by decide) fun _ _ _ => IsText.interspersed

theorem Participant.LaidOut.interspersed {p : Participant} (h : p.LaidOut e)
    (hspread : Interspersed e e') : p.LaidOut e' where
  named := h.named
  name := h.name.interspersed hspread (by decide) fun _ _ _ => IsText.interspersed
  publications := h.publications.interspersed hspread (by decide)
    fun _ _ _ => Endpoint.LaidOut.interspersed
  subscriptions := h.subscriptions.interspersed hspread (by decide)
    fun _ _ _ => Endpoint.LaidOut.interspersed

theorem Snapshot.LaidOut.interspersed {processes : List (List Participant)}
    (h : Snapshot.LaidOut e processes) (hspread : Interspersed e e') :
    Snapshot.LaidOut e' processes := by
  refine Along.interspersed h hspread (by decide) fun f f' participants hprocess hspread' => ?_
  exact Along.interspersed hprocess hspread' (by decide)
    fun _ _ _ => Participant.LaidOut.interspersed

end Interspersing

/-! ## A plain layout -/

/-- Elements below containers, one for each tag. -/
def within (tags : List String) (es : List Element) : List Element :=
  tags.foldr (fun tag inner => [(ofTag tag).withChildren inner]) es

/-- An element with a text. -/
def textElement (tag text : String) : Element := (ofTag tag).withText text

/-- The record of an endpoint, with the tag of its direction. -/
def Endpoint.toElement (tag : String) (endpoint : Endpoint) : Element :=
  (ofTag tag).withChildren (textElement "topic_name" endpoint.topic ::
    within ["partition", "name"] (endpoint.partition.toList.map (textElement "element")))

/-- The list of the endpoints of a direction, each in a container of its own. -/
def endpointElements (tag data : String) (endpoints : List Endpoint) : List Element :=
  within [tag, "value"]
    (endpoints.map fun endpoint => (ofTag "element").withChild (endpoint.toElement data))

/-- The name of a participant, in its containers. -/
def nameElements (name : String) : List Element :=
  within ["participant_data", "participant_name"] [textElement "name" name]

/-- The record of a participant. -/
def Participant.toElement (p : Participant) : Element :=
  (ofTag "element").withChildren (nameElements p.name ++
    endpointElements "publications" "publication_data" p.publications ++
    endpointElements "subscriptions" "subscription_data" p.subscriptions)

/-- The list of processes, each with the list of its participants. -/
def Snapshot.toElement (processes : List (List Participant)) : Element :=
  (ofTag "discovery").withChildren (within ["processes", "value"]
    (processes.map fun participants => (ofTag "element").withChildren
      (within ["domain_participants", "value"] (participants.map Participant.toElement))))

section Rows

variable {α : Type} {tag : String} {Holds : Element → List α → Prop}

/-- Elements with other tags may stand in front of a row. -/
theorem Row.behind {front row : List Element} {as : List α} (h : Row tag Holds row as)
    (hfront : ∀ e ∈ front, e.tag ≠ tag) : Row tag Holds (front ++ row) as := by
  induction front with
  | nil => exact h
  | cons e front ih =>
    obtain ⟨he, hfront⟩ := List.forall_mem_cons.1 hfront
    exact .other he (ih hfront)

/-- Elements with other tags may stand behind a row. -/
theorem Row.before {row back : List Element} {as : List α} (h : Row tag Holds row as)
    (hback : ∀ e ∈ back, e.tag ≠ tag) : Row tag Holds (row ++ back) as := by
  induction h with
  | nil =>
    have others : Row tag Holds (back ++ []) [] := Row.behind .nil hback
    rwa [List.append_nil] at others
  | holds htag hholds _ ih => exact .holds htag hholds ih
  | other htag _ ih => exact .other htag ih

theorem row_single {e : Element} {as : List α} (htag : e.tag = tag) (h : Holds e as) :
    Row tag Holds [e] as := by
  have alone := Row.holds htag h .nil
  rwa [List.append_nil] at alone

theorem row_map {write : α → Element} {as : List α}
    (h : ∀ a ∈ as, (write a).tag = tag ∧ Holds (write a) [a]) :
    Row tag Holds (as.map write) as := by
  induction as with
  | nil => exact .nil
  | cons a as ih =>
    obtain ⟨⟨htag, hholds⟩, has⟩ := List.forall_mem_cons.1 h
    exact .holds htag hholds (ih has)

theorem tag_ne_of_mem_within {other : String} (h : other ≠ tag) (tags : List String)
    (es : List Element) : ∀ e ∈ within (other :: tags) es, e.tag ≠ tag := by
  intro e he
  rw [List.mem_singleton.1 he]
  exact h

/-- What is laid out among some elements is laid out along the way through the containers
around them. -/
theorem row_within {Is : Element → α → Prop} (tag : String) (tags : List String)
    {back : List String} {es : List Element} {as : List α}
    (h : ∀ e, e.children = es → Along Is back e as) :
    Row tag (Along Is (tags ++ back)) (within (tag :: tags) es) as := by
  induction tags generalizing tag with
  | nil => exact row_single rfl (h _ rfl)
  | cons next tags ih => exact row_single rfl (ih next)

/-- Items that are written side by side are laid out so. -/
theorem along_map {Is : Element → α → Prop} {write : α → Element} {as : List α} {e : Element}
    (he : e.children = as.map write) (h : ∀ a ∈ as, (write a).tag = tag ∧ Is (write a) a) :
    Along Is [tag] e as := by
  show Row tag (Along Is []) e.children as
  rw [he]
  exact row_map fun a ha => ⟨(h a ha).1, a, (h a ha).2, rfl⟩

end Rows

theorem Endpoint.laidOut_toElement (tag : String) (endpoint : Endpoint) :
    endpoint.LaidOut (endpoint.toElement tag) where
  topic := by
    have apart : "partition" ≠ "topic_name" := by decide
    have topic : Row "topic_name" (Along IsText []) [textElement "topic_name" endpoint.topic]
        [endpoint.topic] := row_single rfl ⟨_, rfl, rfl⟩
    exact topic.before (tag_ne_of_mem_within apart ["name"] _)
  partition := by
    have apart : "topic_name" ≠ "partition" := by decide
    have names : Row "partition" (Along IsText ["name", "element"]) (within ["partition", "name"]
        (endpoint.partition.toList.map (textElement "element"))) endpoint.partition.toList :=
      row_within "partition" ["name"] fun e he => along_map he fun text _ => ⟨rfl, rfl⟩
    exact ⟨endpoint.partition.toList, .other apart names, Option.head?_toList⟩

/-- Endpoints with a container each are laid out along the way through their containers. -/
theorem row_endpointElements (tag data : String) (endpoints : List Endpoint) :
    Row tag (Along Endpoint.LaidOut ["value", "element", data])
      (endpointElements tag data endpoints) endpoints := by
  refine row_within tag ["value"] fun e he => ?_
  show Row "element" (Along Endpoint.LaidOut [data]) e.children endpoints
  rw [he]
  exact row_map fun endpoint _ =>
    ⟨rfl, row_single rfl ⟨endpoint, endpoint.laidOut_toElement data, rfl⟩⟩

theorem row_nameElements (name : String) :
    Row "participant_data" (Along IsText ["participant_name", "name"]) (nameElements name)
      [name] := by
  refine row_within "participant_data" ["participant_name"] fun e he => ?_
  have written : e.children = [name].map (textElement "name") := he
  exact along_map written fun text _ => ⟨rfl, rfl⟩

theorem Participant.laidOut_toElement {p : Participant} (h : p.name ≠ "") :
    p.LaidOut p.toElement := by
  let publications := endpointElements "publications" "publication_data" p.publications
  let subscriptions := endpointElements "subscriptions" "subscription_data" p.subscriptions
  have apartName : ∀ tag, "participant_data" ≠ tag → ∀ e ∈ nameElements p.name, e.tag ≠ tag :=
    fun _ hne => tag_ne_of_mem_within hne _ _
  have apartPublications : ∀ tag, "publications" ≠ tag → ∀ e ∈ publications, e.tag ≠ tag :=
    fun _ hne => tag_ne_of_mem_within hne _ _
  have apartSubscriptions : ∀ tag, "subscriptions" ≠ tag → ∀ e ∈ subscriptions, e.tag ≠ tag :=
    fun _ hne => tag_ne_of_mem_within hne _ _
  refine ⟨h, ?name, ?publications, ?subscriptions⟩
  case name =>
    exact ((row_nameElements p.name).before (apartPublications _ (by decide))).before
      (apartSubscriptions _ (by decide))
  case publications =>
    exact ((row_endpointElements "publications" "publication_data" p.publications).behind
      (apartName _ (by decide))).before (apartSubscriptions _ (by decide))
  case subscriptions =>
    exact (row_endpointElements "subscriptions" "subscription_data" p.subscriptions).behind
      (List.forall_mem_append.2 ⟨apartName _ (by decide), apartPublications _ (by decide)⟩)

theorem Snapshot.laidOut_toElement {processes : List (List Participant)}
    (h : ∀ participants ∈ processes, ∀ p ∈ participants, p.name ≠ "") :
    Snapshot.LaidOut (Snapshot.toElement processes) processes := by
  refine row_within "processes" ["value"] fun e he => ?_
  refine along_map he fun participants hprocess => ⟨rfl, ?_⟩
  refine row_within "domain_participants" ["value"] fun e he => ?_
  exact along_map he fun p hp => ⟨rfl, Participant.laidOut_toElement (h _ hprocess p hp)⟩

/-- A process with two participants, one without any and one with a single participant. -/
def threeProcesses : List (List Participant) :=
  [[⟨"talker", [⟨"chatter", some "rt"⟩, ⟨"rt/rosout", none⟩], []⟩, ⟨"idle", [], []⟩], [],
    [⟨"listener", [⟨"rt/rosout", none⟩], [⟨"chatter", some "rt"⟩]⟩]]

/-- The processes laid out behind a record that no way leads to. -/
def timedElement : Element :=
  (ofTag "discovery").withChildren
    (textElement "time" "12:30" :: (Snapshot.toElement threeProcesses).children)

/-- Participants with names have a layout, whatever processes they belong to. It may have
further elements anywhere. From every layout the participants are read as they are, process
by process in the order of the document. -/
theorem Snapshot.ofElement?_laidOut {processes : List (List Participant)}
    (h : ∀ participants ∈ processes, ∀ p ∈ participants, p.name ≠ "") :
    Snapshot.LaidOut (Snapshot.toElement processes) processes ∧
      (∀ root root', Snapshot.LaidOut root processes → Interspersed root root' →
        Snapshot.LaidOut root' processes) ∧
      ∀ root, Snapshot.LaidOut root processes →
        Snapshot.ofElement? root = .ok ⟨processes.flatten⟩ :=
  ⟨laidOut_toElement h, fun _ _ hlaid => hlaid.interspersed, fun _ hlaid => hlaid.ofElement?⟩

/-- Two processes with participants and one without, read from a plain layout and from one
with a record of the time in front. -/
theorem Snapshot.ofElement?_laidOut_threeProcesses :
    (∀ participants ∈ threeProcesses, ∀ p ∈ participants, p.name ≠ "") ∧
      Snapshot.ofElement? (Snapshot.toElement threeProcesses) =
        .ok ⟨threeProcesses.flatten⟩ ∧
      Snapshot.ofElement? timedElement = .ok ⟨threeProcesses.flatten⟩ := by
  have named : ∀ participants ∈ threeProcesses, ∀ p ∈ participants, p.name ≠ "" := by decide
  obtain ⟨plain, spread, read⟩ := ofElement?_laidOut named
  refine ⟨named, read _ plain, read _ (spread _ _ plain ?_)⟩
  exact .node rfl rfl (.further (by decide) (.keep (.refl _) .nil))

end Discovery

end AccessPolicy
