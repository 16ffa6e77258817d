import AccessPolicy.Proofs.Path.Chains

/-!
# The order of the nodes that a path selects

A step keeps the order of the document, with one exception: where it goes to
children and starts from two nodes of which one lies below the other, the children
of the upper one come first, also those that stand behind the lower one in the
document. So the nodes that a path selects stand in the order of the document
whenever no step goes to children from such nodes (`Path.Unnested`), and in
particular when all steps to children come before the steps with two slashes
(`Path.ChildrenFirst`). In every case they stand in the order in which their first
chains are met (`Path.findAll_inOrder`).
-/

namespace AccessPolicy

namespace Path

/-- The step goes from a node to its children. -/
def Step.GoesToChildren (step : Step) : Prop := step.axis = .child ∧ step.test ≠ .current

/-- Where the path goes to children, none of the nodes that it goes from is below
another. -/
def Unnested (root : Element) (path : Path) : Prop :=
  ∀ front step back, path.steps = front ++ step :: back → step.GoesToChildren →
    ∀ p q, Reaches root front [] p → Reaches root front [] q → p <+: q → p = q

/-- The path does not go to children any more once it has gone to all nodes below. -/
def ChildrenFirst (path : Path) : Prop :=
  path.steps.Pairwise fun earlier later => earlier.axis = .descendant → ¬ later.GoesToChildren

instance (step : Step) : Decidable step.GoesToChildren :=
  inferInstanceAs (Decidable (_ ∧ _))

instance (path : Path) : Decidable path.ChildrenFirst :=
  inferInstanceAs (Decidable (path.steps.Pairwise _))

variable {root : Element}

/-! ## One step -/

/-- What a step goes to is the node itself or below it. -/
theorem Step.Goes.prefix {step : Step} {p q : List Nat} (h : step.Goes p q) : p <+: q := by
  obtain ⟨axis, test, predicates⟩ := step
  cases axis <;> cases test <;> simp only [Step.Goes] at h
  case child.current => exact h ▸ List.prefix_rfl
  case descendant.current => exact h
  case child.tag | child.any =>
    obtain ⟨i, rfl⟩ := h
    exact List.prefix_append p [i]
  case descendant.tag | descendant.any => exact h.1

/-- A step that does not go to children stays where it is, or goes from a node to all
that it goes to from a node below. -/
theorem Step.stays_or_spreads {step : Step} (h : ¬ step.GoesToChildren) :
    (∀ p q, step.Goes p q ↔ q = p) ∨
      ∀ p p' q, p <+: p' → p ≠ p' → step.Goes p' q → step.Goes p q := by
  obtain ⟨axis, test, predicates⟩ := step
  have below : ∀ p p' q : List Nat, p <+: p' → p ≠ p' → p' <+: q → p <+: q ∧ q ≠ p := by
    intro p p' q hp hne hq
    refine ⟨hp.trans hq, fun same => hne ?_⟩
    rw [same] at hq
    exact hp.eq_of_length (Nat.le_antisymm hp.length_le hq.length_le)
  cases axis <;> cases test
  case child.current => exact .inl fun _ _ => Iff.rfl
  case child.tag | child.any => simp [GoesToChildren] at h
  case descendant.current => exact .inr fun p p' q hp hne hq => (below p p' q hp hne hq).1
  case descendant.tag | descendant.any =>
    exact .inr fun p p' q hp hne hq => below p p' q hp hne hq.1

/-- A step chooses in document order from one node. -/
theorem choices_pairwise (step : Step) (node : Node) :
    (step.choices node).Pairwise Node.Before := by
  refine List.Pairwise.filter _ ?_
  have self : (node :: node.descendants).Pairwise Node.Before := by
    refine List.pairwise_cons.2 ⟨fun inner hinner => ?_, descendants_pairwise node⟩
    obtain ⟨i, is, _, _, hposition, _⟩ := mem_nodesBelow.1 hinner
    rw [Node.Before, hposition]
    exact lt_append node.position _ is
  obtain ⟨axis, test, predicates⟩ := step
  cases axis <;> cases test
  case child.current => exact List.pairwise_singleton _ node
  case child.tag | child.any => exact children_pairwise node
  case descendant.current => exact self
  case descendant.tag | descendant.any => exact descendants_pairwise node

/-- Of two nodes in document order, the second adds nothing to what the step chooses
from the first, or something further behind. -/
theorem choices_apart {step : Step} {a b x y : Node} (ha : a.IsOf root) (hb : b.IsOf root)
    (hbefore : a.Before b)
    (hchildren : step.GoesToChildren → ¬ a.position <+: b.position)
    (hx : x ∈ step.choices a) (hy : y ∈ step.choices b) :
    y ∈ step.choices a ∨ x.Before y := by
  obtain ⟨_, hxgoes, _⟩ := (mem_choices ha).1 hx
  obtain ⟨hyof, hygoes, hyadmits⟩ := (mem_choices hb).1 hy
  by_cases hpart : a.position <+: b.position
  · rcases Step.stays_or_spreads fun hgoes => hchildren hgoes hpart with stays | spreads
    · right
      rw [Node.Before, (stays _ _).1 hxgoes, (stays _ _).1 hygoes]
      exact hbefore
    · left
      exact (mem_choices ha).2 ⟨hyof, spreads _ _ _ hpart hbefore.ne hygoes, hyadmits⟩
  · right
    obtain ⟨is, his⟩ := hxgoes.prefix
    obtain ⟨js, hjs⟩ := hygoes.prefix
    rw [Node.Before, ← his, ← hjs]
    exact append_lt_append hbefore hpart is js

/-- Lists in document order, of which each adds to those before it only what is
further behind, are in document order when put one behind the other. -/
theorem distinctBy_flatMap_pairwise {f : Node → List Node} {nodes : List Node}
    (each : ∀ node ∈ nodes, (f node).Pairwise Node.Before)
    (apart : nodes.Pairwise fun a b => ∀ x ∈ f a, ∀ y ∈ f b, y ∈ f a ∨ x.Before y) :
    (distinctBy (·.position) (nodes.flatMap f)).Pairwise Node.Before := by
  induction nodes with
  | nil => exact List.Pairwise.nil
  | cons a nodes ih =>
    obtain ⟨hfirst, heach⟩ := List.forall_mem_cons.1 each
    obtain ⟨hapart, hrest⟩ := List.pairwise_cons.1 apart
    rw [List.flatMap_cons, distinctBy_append, List.pairwise_append]
    refine ⟨hfirst.sublist (distinctBy_sublist _ _), (ih heach hrest).filter _, ?_⟩
    intro x hx y hy
    obtain ⟨hy, hfresh⟩ := List.mem_filter.1 hy
    obtain ⟨b, hb, hy⟩ := List.mem_flatMap.1 (mem_of_mem_distinctBy hy)
    rcases hapart b hb x (mem_of_mem_distinctBy hx) y hy with hmet | hbefore
    · exact absurd rfl (of_decide_eq_true hfresh y hmet)
    · exact hbefore

/-- A step keeps document order, unless it goes to children from nodes of which one is
below another. -/
theorem select_pairwise {step : Step} {context : List Node}
    (hof : ∀ node ∈ context, node.IsOf root) (hcontext : context.Pairwise Node.Before)
    (hchildren : step.GoesToChildren → ∀ a ∈ context, ∀ b ∈ context,
      a.position <+: b.position → a.position = b.position) :
    (step.select context).Pairwise Node.Before := by
  rw [select_eq]
  refine distinctBy_flatMap_pairwise (fun node _ => choices_pairwise step node) ?_
  refine hcontext.imp_of_mem fun ha hb hbefore x hx y hy => ?_
  refine choices_apart (hof _ ha) (hof _ hb) hbefore (fun hgoes hpart => ?_) hx hy
  exact hbefore.ne (hchildren hgoes _ ha _ hb hpart)

/-! ## All steps -/

theorem nodes_concat (steps : List Step) (step : Step) (root : Element) :
    (⟨steps ++ [step]⟩ : Path).nodes root = step.select ((⟨steps⟩ : Path).nodes root) :=
  List.foldl_concat ..

/-- Without steps to the children of nested nodes a path selects in document order. -/
theorem nodes_pairwise {path : Path} (h : path.Unnested root) :
    (path.nodes root).Pairwise Node.Before := by
  obtain ⟨steps⟩ := path
  -- the last step finds the nodes that the others have selected in document order
  induction steps using List.reverseRecOn with
  | nil => exact List.pairwise_singleton _ _
  | append_singleton steps step ih =>
    have unnested : (⟨steps⟩ : Path).Unnested root := by
      intro front other back hsteps
      have whole : steps ++ [step] = front ++ other :: (back ++ [step]) := by
        rw [show steps = front ++ other :: back from hsteps]
        simp
      exact h front other (back ++ [step]) whole
    rw [nodes_concat]
    refine select_pairwise (fun node hnode => (mem_nodes.1 hnode).1) (ih unnested) ?_
    intro hgoes a ha b hb
    exact h steps step [] rfl hgoes _ _ (mem_nodes.1 ha).2 (mem_nodes.1 hb).2

/-- Steps without two slashes go down the same number of levels by every chain. -/
theorem length_of_reaches {steps : List Step} {p q : List Nat} (h : Reaches root steps p q)
    (hchild : ∀ step ∈ steps, step.axis = .child) :
    q.length = p.length + steps.countP fun step => step.test ≠ .current := by
  induction h with
  | stop => rfl
  | @go step steps p q r e hgoes _ _ _ ih =>
    obtain ⟨hstep, hsteps⟩ := List.forall_mem_cons.1 hchild
    rw [ih hsteps, List.countP_cons]
    obtain ⟨axis, test, predicates⟩ := step
    cases hstep
    cases test <;> simp only [Step.Goes] at hgoes
    case current => simp [hgoes]
    case tag | any =>
      obtain ⟨i, rfl⟩ := hgoes
      simp
      omega

/-- A path that goes to children first never goes to the children of nested nodes. -/
theorem ChildrenFirst.unnested {path : Path} (h : path.ChildrenFirst) (root : Element) :
    path.Unnested root := by
  intro front step back hsteps hgoes p q hp hq hpq
  have child : ∀ other ∈ front, other.axis = .child := by
    intro other hother
    rw [ChildrenFirst, hsteps] at h
    have apart := (List.pairwise_append.1 h).2.2 other hother step List.mem_cons_self
    cases haxis : other.axis with
    | child => rfl
    | descendant => exact absurd hgoes (apart haxis)
  exact hpq.eq_of_length ((length_of_reaches hp child).trans (length_of_reaches hq child).symm)

/-! ## Document order -/

/-- The path selects the node. -/
def Denotes (path : Path) (root : Element) (node : Node) : Prop :=
  Reaches root path.steps [] node.position

open Classical in
/-- Without steps to the children of nested nodes a path selects of the nodes in
document order those that it denotes. -/
theorem nodes_eq_filter {path : Path} (h : path.Unnested root) :
    path.nodes root = (nodesFrom [] root).filter fun node => path.Denotes root node := by
  have antisymm : ∀ a b : Node, a ∈ path.nodes root →
      b ∈ (nodesFrom [] root).filter (fun node => path.Denotes root node) →
        a.Before b → b.Before a → a = b :=
    fun a b _ _ hab hba => absurd (List.lt_trans hab hba) (List.lt_irrefl _)
  have ordered := nodes_pairwise h
  have documented := (nodesFrom_pairwise [] root).filter fun node => decide (path.Denotes root node)
  have irrefl : ∀ {a b : Node}, a.Before b → a ≠ b := fun hab same => hab.ne (by rw [same])
  refine List.Perm.eq_of_pairwise antisymm ordered documented ?_
  refine (List.perm_ext_iff_of_nodup (ordered.imp irrefl) (documented.imp irrefl)).2 fun node => ?_
  rw [mem_nodes, List.mem_filter, mem_nodesFrom_root, decide_eq_true_iff]
  exact Iff.rfl

open Classical in
/-- A written path selects the ends of its chains, each where the first chain that
leads to it is met. Without steps to the children of nested nodes this is document
order: the path selects, and a query copies, the nodes that it denotes as they come
in the document, and finds the first of them. -/
theorem findAll_inOrder (root : Element) {text : String} {path : Path}
    (h : read? text = .ok path) :
    root.findAll text =
        .ok ((distinctBy (·.position) (chainEnds path.steps ⟨[], root⟩)).map (·.element)) ∧
      (path.ChildrenFirst → path.Unnested root) ∧
      (path.Unnested root →
        let denoted := (nodesFrom [] root).filter fun node => path.Denotes root node
        root.findAll text = .ok (denoted.map (·.element)) ∧
          root.query text =
            .ok ((Element.ofTag resultsTag).withChildren (denoted.map (·.element))) ∧
          root.find? text =
            .ok (((nodesFrom [] root).find? fun node => path.Denotes root node).map
              (·.element))) := by
  have found := findAll_of_read? root h
  refine ⟨by rw [found, nodes_eq], fun hfirst => hfirst.unnested root, fun hunnested => ?_⟩
  intro denoted
  rw [nodes_eq_filter hunnested] at found
  refine ⟨found, by rw [Element.query, found]; rfl, ?_⟩
  rw [Element.find?, found]
  show Except.ok (denoted.map (·.element)).head? = _
  rw [List.head?_map, List.head?_filter]

/-- All rules on topics in profiles. -/
def rulesInside : Path :=
  ⟨[⟨.child, .current, []⟩, ⟨.descendant, .tag "profile", []⟩, ⟨.descendant, .tag "topic", []⟩]⟩

open Classical in
/-- The rule of the inner profile comes first in the document. -/
theorem findAll_inOrder_descending :
    read? ".//profile//topic" = .ok rulesInside ∧ rulesInside.Unnested nestedPolicy ∧
      (rulesInside.nodes nestedPolicy).map (·.position) = [[0, 0, 0], [0, 1]] ∧
      nestedPolicy.findAll ".//profile//topic" =
        .ok (((nodesFrom [] nestedPolicy).filter fun node =>
          rulesInside.Denotes nestedPolicy node).map (·.element)) := by
  have written : read? ".//profile//topic" = .ok rulesInside := by cbv
  obtain ⟨_, unnested, inOrder⟩ := findAll_inOrder nestedPolicy written
  have flat : rulesInside.Unnested nestedPolicy := unnested (by decide)
  exact ⟨written, flat, by decide, (inOrder flat).1⟩

/-- The rules on topics that profiles hold themselves. -/
def rulesOfProfiles : Path :=
  ⟨[⟨.child, .current, []⟩, ⟨.descendant, .tag "profile", []⟩, ⟨.child, .tag "topic", []⟩]⟩

/-- Behind two slashes a step to children can leave document order: the rule of the
outer profile stands last in the document and is found first. -/
theorem findAll_notInOrder :
    read? ".//profile/topic" = .ok rulesOfProfiles ∧
      nestedPolicy.findAll ".//profile/topic" =
        .ok ((rulesOfProfiles.nodes nestedPolicy).map (·.element)) ∧
      (rulesOfProfiles.nodes nestedPolicy).map (·.position) = [[0, 1], [0, 0, 0]] ∧
      ¬ (rulesOfProfiles.nodes nestedPolicy).Pairwise Node.Before ∧
      (nestedPolicy.find? ".//profile/topic").map
        (fun found => found.bind fun rule => rule.attribute? "qualifier") = .ok (some "ALLOW") := by
  have written : read? ".//profile/topic" = .ok rulesOfProfiles := by cbv
  have found := findAll_of_read? nestedPolicy written
  have positions : (rulesOfProfiles.nodes nestedPolicy).map (·.position) = [[0, 1], [0, 0, 0]] := by
    decide
  refine ⟨written, found, positions, fun ordered => ?_, ?_⟩
  · have before : ((rulesOfProfiles.nodes nestedPolicy).map (·.position)).Pairwise (· < ·) :=
      List.pairwise_map.2 ordered
    rw [positions] at before
    exact absurd before (by decide)
  · rw [Element.find?, found]
    decide

end Path

end AccessPolicy
