import AccessPolicy.Proofs.Path.Accepted
import AccessPolicy.Proofs.Text.Trimmed

/-!
# Comparisons in paths

A predicate that begins with `@` and holds an equals sign compares an attribute with a
value. Of the value the reader looks at both ends: it must begin and end with the same
quote, and what stands between is taken as it is (`Path.Compares`). That is a name and
one quoted text (`Path.IsComparison`) unless the name is blank or the quote comes again
inside. In these two forms, and no others, a body that is no comparison is taken for one
(`Path.comparison_of_mem_bodies`).
-/

namespace AccessPolicy

namespace Path

open Text

/-! ## The bodies of a text -/

/-- The texts between brackets. A bracket closes at the first closing bracket that is not
quoted. -/
def bodies : List Char → List (List Char)
  | [] => []
  | c :: cs =>
    if c = '[' then
      match _h : cutBody none cs with
      | none => []
      | some (body, rest) => body :: bodies rest
    else bodies cs
termination_by cs => cs.length
decreasing_by
  · exact Nat.lt_succ_of_lt (cutBody_length _h)
  · exact Nat.lt_succ_self _

theorem bodies_append {front : List Char} (h : '[' ∉ front) (rest : List Char) :
    bodies (front ++ rest) = bodies rest := by
  induction front with
  | nil => rfl
  | cons c front ih =>
    obtain ⟨hc, hfront⟩ := not_or.1 fun hmem => h (List.mem_cons.2 hmem)
    rw [List.cons_append, bodies, if_neg (Ne.symm hc), ih hfront]

theorem bodies_bracketed {body : List Char} (h : IsBody body) (rest : List Char) :
    bodies (bracketed body ++ rest) = body :: bodies rest := by
  have opened : bracketed body ++ rest = '[' :: (body ++ ']' :: rest) := by
    simp [bracketed]
  rw [opened, bodies, if_pos rfl]
  split
  · rename_i hcut
    cases hcut.symm.trans (cutBody_of_isBody h rest)
  · rename_i hcut
    cases hcut.symm.trans (cutBody_of_isBody h rest)
    rfl

theorem bodies_flatMap_bracketed {bs : List (List Char)} (h : ∀ body ∈ bs, IsBody body)
    (rest : List Char) : bodies (bs.flatMap bracketed ++ rest) = bs ++ bodies rest := by
  induction bs with
  | nil => rfl
  | cons body bs ih =>
    obtain ⟨hbody, hbs⟩ := List.forall_mem_cons.1 h
    rw [List.flatMap_cons, List.append_assoc, bodies_bracketed hbody, ih hbs, List.cons_append]

theorem bodies_of_spellsStep {step : Step} {cs : List Char} (h : accepted.SpellsStep step cs)
    (rest : List Char) : ∃ bs, bodies (cs ++ rest) = bs ++ bodies rest ∧
      List.Forall₂ accepted.body step.predicates bs := by
  obtain ⟨head, bs, htest, hbs, rfl⟩ := h
  refine ⟨bs, ?_, hbs⟩
  rw [List.append_assoc, bodies_append fun hmem => (htest.undivided _ hmem).2.1 rfl,
    bodies_flatMap_bracketed (isBody_of_forall₂ hbs)]

/-- The predicates of some steps are read from bodies that stand in their text. -/
theorem bodies_of_spellsSteps {steps : List Step} {cs : List Char}
    (h : accepted.SpellsSteps steps cs) (rest : List Char) :
    ∃ bs, bodies (cs ++ rest) = bs ++ bodies rest ∧
      List.Forall₂ accepted.body (steps.flatMap (·.predicates)) bs := by
  induction h with
  | last hstep =>
    rw [List.flatMap_singleton]
    exact bodies_of_spellsStep hstep rest
  | @more step next steps cs ds hstep _ ih =>
    obtain ⟨bs, hbs, hread⟩ := ih
    obtain ⟨first, hfirst, hstep⟩ :=
      bodies_of_spellsStep hstep (next.axis.slashes ++ (ds ++ rest))
    have slashes : '[' ∉ next.axis.slashes := by cases next.axis <;> decide
    refine ⟨first ++ bs, ?_, List.rel_append hstep hread⟩
    rw [List.append_assoc, List.append_assoc, hfirst, bodies_append slashes, hbs,
      List.append_assoc]

/-- The bodies of a text that is read give the predicates of the path, in order. -/
theorem bodies_of_read? {text : String} {path : Path} (h : read? text = .ok path) :
    List.Forall₂ accepted.body (path.steps.flatMap (·.predicates)) (bodies text.toList) := by
  have blank : ∀ {cs : List Char}, (∀ c ∈ cs, isBlank c = true) → '[' ∉ cs := fun hcs hmem =>
    absurd (hcs _ hmem) (by decide)
  obtain ⟨back, hback, htext⟩ := exists_trimmed text.toList
  obtain ⟨bs, hbs, hread⟩ := bodies_of_spellsSteps (read?_eq_ok_iff.1 h).steps back
  -- blanks are cut off before the text is split, and hold no bracket
  have behind : bodies back = [] := by
    have none := bodies_append (blank hback) []
    rwa [List.append_nil, bodies] at none
  rw [behind, List.append_nil] at hbs
  rwa [htext, bodies_append (blank fun c hc => List.mem_takeWhile_imp hc), hbs]

theorem exists_of_mem_bodies {text : String} {path : Path} (h : read? text = .ok path)
    {body : List Char} (hmem : body ∈ bodies text.toList) :
    ∃ p ∈ path.steps.flatMap (·.predicates), accepted.body p body := by
  have read := bodies_of_read? h
  generalize path.steps.flatMap (·.predicates) = ps at read ⊢
  generalize bodies text.toList = bs at read hmem
  induction read with
  | nil => exact absurd hmem List.not_mem_nil
  | @cons p first ps bs hfirst _ ih =>
    rcases List.mem_cons.1 hmem with rfl | hmem
    · exact ⟨p, List.mem_cons_self, hfirst⟩
    · obtain ⟨q, hq, hbody⟩ := ih hmem
      exact ⟨q, List.mem_cons_of_mem p hq, hbody⟩

/-! ## Comparisons -/

/-- The body compares the attribute that a text names with what stands between two quotes,
as far as the reader looks: the name ends at the first equals sign, and the quotes are the
first and the last character behind it. Blanks around the parts do not count. -/
structure Compares (body name content : List Char) (q : Char) : Prop where
  cut : ∃ value, trimChars body = '@' :: (name ++ '=' :: value) ∧
    trimChars value = q :: (content ++ [q])
  name : '=' ∉ name
  quote : isQuote q = true

/-- The body is a name that is not blank, an equals sign and one quoted text. -/
def IsComparison (body : List Char) : Prop :=
  ∃ name content q, Compares body name content q ∧ trimChars name ≠ [] ∧ q ∉ content

/-- The body begins like the condition on an attribute, and holds an equals sign. -/
structure IsAboutValue (body : List Char) : Prop where
  begins : (trimChars body).head? = some '@'
  equals : '=' ∈ body

theorem Compares.unique {body name name' content content' : List Char} {q q' : Char}
    (h : Compares body name content q) (h' : Compares body name' content' q') :
    name = name' ∧ content = content' ∧ q = q' := by
  obtain ⟨⟨value, hbody, hvalue⟩, hname, _⟩ := h
  obtain ⟨⟨value', hbody', hvalue'⟩, hname', _⟩ := h'
  have condition := (List.cons.inj (hbody.symm.trans hbody')).2
  have names : name = name' := by
    rw [← takeWhile_ne_append hname, condition, takeWhile_ne_append hname']
  subst names
  have values := (List.cons.inj (List.append_cancel_left condition)).2
  rw [values] at hvalue
  obtain ⟨rfl, contents⟩ := List.cons.inj (hvalue.symm.trans hvalue')
  exact ⟨rfl, List.append_cancel_right contents, rfl⟩

theorem isComparison_iff {body name content : List Char} {q : Char}
    (h : Compares body name content q) :
    IsComparison body ↔ trimChars name ≠ [] ∧ q ∉ content := by
  refine ⟨fun ⟨_, _, _, h', hname, hcontent⟩ => ?_, fun ⟨hname, hcontent⟩ =>
    ⟨name, content, q, h, hname, hcontent⟩⟩
  obtain ⟨rfl, rfl, rfl⟩ := h.unique h'
  exact ⟨hname, hcontent⟩

/-- A body about a value is read as a comparison or not at all. -/
theorem isReadFrom_iff {body : List Char} (h : IsAboutValue body) {p : Predicate} :
    p.IsReadFrom (trimChars body) ↔ ∃ name content q, Compares body name content q ∧
      p = .attributeEquals (String.ofList (trimChars name)) (String.ofList content) := by
  obtain ⟨condition, hbody⟩ := List.head?_eq_some_iff.1 h.begins
  constructor
  · intro hread
    have hequals : '=' ∈ trimChars body := mem_trimChars h.equals (by decide)
    generalize hcs : trimChars body = cs at hread
    cases hread with
    | hasAttribute _ hmem =>
      rw [hcs] at hequals
      rcases List.mem_cons.1 hequals with hequals | hequals
      · exact absurd hequals (by decide)
      · exact absurd hequals hmem
    | @attributeEquals name value content q hname hquote hvalue =>
      exact ⟨name, content, q, ⟨⟨value, hcs, hvalue⟩, hname, hquote⟩, rfl⟩
    | hasChild _ hat =>
      rw [← hcs, h.begins] at hat
      exact absurd rfl hat
  · rintro ⟨name, content, q, ⟨⟨value, hcut, hvalue⟩, hname, hquote⟩, rfl⟩
    rw [hcut]
    exact .attributeEquals hname hquote hvalue

/-- The path that asks one condition of the current node, as text. -/
def conditionText (body : List Char) : String := String.ofList ('.' :: bracketed body)

theorem bodies_conditionText {body : List Char} (h : IsBody body) :
    bodies (conditionText body).toList = [body] := by
  have apart : '.' :: bracketed body = ['.'] ++ (bracketed body ++ []) := by
    rw [List.append_nil]
    rfl
  rw [conditionText, String.toList_ofList, apart, bodies_append (by decide), bodies_bracketed h,
    bodies]

theorem read?_conditionText {body : List Char} {p : Predicate} (hbody : IsBody body)
    (hp : p.IsReadFrom (trimChars body)) :
    read? (conditionText body) = .ok ⟨[⟨.child, .current, [p]⟩]⟩ := by
  have trimmed : IsTrimmed ('.' :: bracketed body) := by
    have ends := isTrimmed_append (isTrimmed_singleton (c := '.') (by decide))
      (isTrimmed_singleton (c := ']') (by decide)) (List.cons_ne_nil _ _) (List.cons_ne_nil _ _)
      ('[' :: body)
    simpa [bracketed] using ends
  refine read?_eq_ok_iff.2 ⟨?_, ?_⟩
  · rintro step ⟨⟩
    rfl
  · rw [conditionText, String.toList_ofList, trimChars_eq_self trimmed]
    exact .last ⟨['.'], [body], .current, .cons ⟨hbody, hp⟩ .nil, by simp⟩

/-- A body that begins with `@` and holds an equals sign makes a query fail unless it reads
as a comparison. Where it does, the path has this comparison; the body is then a name and
one quoted text exactly when the name is not blank and the quote does not come again inside.
A closed body is taken, standing alone, exactly when it reads as a comparison. -/
theorem comparison_of_mem_bodies {text : String} {body : List Char}
    (hmem : body ∈ bodies text.toList) (hvalue : IsAboutValue body) :
    ((∃ fault, ∀ e : Element, e.findAll text = .error ⟨text, fault⟩) ∨
      ∃ path name content q, read? text = .ok path ∧ Compares body name content q ∧
        (∃ step ∈ path.steps,
          .attributeEquals (String.ofList (trimChars name)) (String.ofList content) ∈
            step.predicates) ∧
        (IsComparison body ↔ trimChars name ≠ [] ∧ q ∉ content)) ∧
    (IsBody body → ((∃ path, read? (conditionText body) = .ok path) ↔
      ∃ name content q, Compares body name content q)) := by
  constructor
  · cases hread : read? text with
    | error fault =>
      refine .inl ⟨fault, fun e => ?_⟩
      rw [Element.findAll, hread]
    | ok path =>
      obtain ⟨p, hp, _, hread'⟩ := exists_of_mem_bodies hread hmem
      obtain ⟨name, content, q, hcompares, rfl⟩ := (isReadFrom_iff hvalue).1 hread'
      obtain ⟨step, hstep, hp⟩ := List.mem_flatMap.1 hp
      exact .inr ⟨path, name, content, q, rfl, hcompares, ⟨step, hstep, hp⟩,
        isComparison_iff hcompares⟩
  · intro hclosed
    constructor
    · rintro ⟨path, hread⟩
      have alone : body ∈ bodies (conditionText body).toList := by
        rw [bodies_conditionText hclosed]
        exact List.mem_singleton_self body
      obtain ⟨p, _, _, hp⟩ := exists_of_mem_bodies hread alone
      obtain ⟨name, content, q, hcompares, _⟩ := (isReadFrom_iff hvalue).1 hp
      exact ⟨name, content, q, hcompares⟩
    · rintro ⟨name, content, q, hcompares⟩
      exact ⟨_, read?_conditionText hclosed
        ((isReadFrom_iff hvalue).2 ⟨name, content, q, hcompares, rfl⟩)⟩

/-- Blanks around the parts, and brackets, equals signs and other quotes in the value. -/
theorem comparison_of_mem_bodies_spaced :
    let body := " @name = \"/a[1]='x'\" ".toList
    body ∈ bodies (conditionText body).toList ∧ IsAboutValue body ∧ IsBody body ∧
      (∃ path, read? (conditionText body) = .ok path) ∧ IsComparison body := by
  intro body
  have compares : Compares body "name ".toList "/a[1]='x'".toList '"' :=
    ⟨⟨" \"/a[1]='x'\"".toList, by decide, by decide⟩, by decide, rfl⟩
  have closed : IsBody body := by
    have value : IsBody ('"' :: ("/a[1]='x'".toList ++ '"' :: [' '])) :=
      .quoted rfl (by decide) (.plain rfl (by decide) (by decide) .nil)
    have name : " @name = ".toList.all
        (fun c => isQuote c = false ∧ c ≠ '[' ∧ c ≠ ']') = true := by decide
    exact isBody_append (fun c hc => of_decide_eq_true (List.all_eq_true.1 name c hc)) value
  have about : IsAboutValue body := ⟨by decide, by decide⟩
  have mem : body ∈ bodies (conditionText body).toList := by
    rw [bodies_conditionText closed]
    exact List.mem_singleton_self body
  obtain ⟨outcome, alone⟩ := comparison_of_mem_bodies mem about
  obtain ⟨path, read⟩ := (alone closed).2 ⟨_, _, _, compares⟩
  refine ⟨mem, about, closed, ⟨path, read⟩, ?_⟩
  rcases outcome with ⟨fault, fails⟩ | ⟨_, name, content, q, _, found, _, exactly⟩
  · have error := fails (.ofTag "")
    rw [Element.findAll, read] at error
    cases error
  · obtain ⟨rfl, rfl, rfl⟩ := found.unique compares
    exact exactly.2 ⟨by decide, by decide⟩

/-- Two comparisons that are joined are read as one, of the first attribute with all that is
behind its equals sign. -/
theorem read?_joined_comparisons :
    let text := ".[@a='x' or @b='y']"
    let body := "@a='x' or @b='y'".toList
    read? text = .ok ⟨[⟨.child, .current, [.attributeEquals "a" "x' or @b='y"]⟩]⟩ ∧
      body ∈ bodies text.toList ∧ IsAboutValue body ∧ ¬ IsComparison body := by
  intro text body
  have compares : Compares body "a".toList "x' or @b='y".toList '\'' :=
    ⟨⟨"'x' or @b='y'".toList, by decide, by decide⟩, by decide, rfl⟩
  have read : read? ".[@a='x' or @b='y']" =
      .ok ⟨[⟨.child, .current, [.attributeEquals "a" "x' or @b='y"]⟩]⟩ := by cbv
  have standing : bodies ".[@a='x' or @b='y']".toList = ["@a='x' or @b='y'".toList] := by cbv
  refine ⟨read, standing ▸ List.mem_singleton_self body, ⟨by decide, by decide⟩, ?_⟩
  rw [isComparison_iff compares]
  exact fun quoted => quoted.2 (by decide)

/-- A comparison without a name is read as one of an attribute with an empty name. -/
theorem read?_nameless_comparison :
    let text := ".[@='x']"
    let body := "@='x'".toList
    read? text = .ok ⟨[⟨.child, .current, [.attributeEquals "" "x"]⟩]⟩ ∧
      body ∈ bodies text.toList ∧ IsAboutValue body ∧ ¬ IsComparison body := by
  intro text body
  have compares : Compares body [] ['x'] '\'' :=
    ⟨⟨"'x'".toList, by decide, by decide⟩, by decide, rfl⟩
  have read : read? ".[@='x']" =
      .ok ⟨[⟨.child, .current, [.attributeEquals "" "x"]⟩]⟩ := by cbv
  have standing : bodies ".[@='x']".toList = ["@='x'".toList] := by cbv
  refine ⟨read, standing ▸ List.mem_singleton_self body, ⟨by decide, by decide⟩, ?_⟩
  rw [isComparison_iff compares]
  exact fun named => named.1 rfl

end Path

end AccessPolicy
