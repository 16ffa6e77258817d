import AccessPolicy.Element.Path.Reader
import Mathlib.Data.List.Forall2
import Mathlib.Data.List.TakeWhile

/-!
# How paths are spelled

A path is spelled step by step with one slash or two between them, a step by its test
and the bodies of its predicates in brackets (`Path.Spelling`). How tests and bodies
are spelled is left open there. `Path.accepted` is the widest spelling that the reader
takes: between its brackets a body holds brackets only inside quotes (`Path.IsBody`), so
that both scanners, the one that looks for slashes and the one that looks for the end of
a body, see the same quotes and the same brackets. What is spelled so is read
(`Path.read?_of_spells`).
-/

namespace AccessPolicy

namespace Path

open Text

/-! ## Parts of a path -/

/-- What may stand between the brackets of a predicate: every quote is closed, and
brackets stand inside quotes only. -/
inductive IsBody : List Char → Prop
  | nil : IsBody []
  | plain {c : Char} {cs : List Char} :
      isQuote c = false → c ≠ '[' → c ≠ ']' → IsBody cs → IsBody (c :: cs)
  | quoted {q : Char} {content cs : List Char} :
      isQuote q = true → q ∉ content → IsBody cs → IsBody (q :: (content ++ q :: cs))

theorem isBody_append {front back : List Char}
    (h : ∀ c ∈ front, isQuote c = false ∧ c ≠ '[' ∧ c ≠ ']') (hback : IsBody back) :
    IsBody (front ++ back) := by
  induction front with
  | nil => exact hback
  | cons c front ih =>
    obtain ⟨⟨hquote, hopen, hclose⟩, hfront⟩ := List.forall_mem_cons.1 h
    exact .plain hquote hopen hclose (ih hfront)

/-- A body between its brackets. -/
def bracketed (body : List Char) : List Char := '[' :: (body ++ [']'])

/-- The slashes in front of a step. -/
def Axis.slashes : Axis → List Char
  | child => ['/']
  | descendant => ['/', '/']

/-- How tests and the bodies of predicates are spelled. -/
structure Spelling where
  test : NodeTest → List Char → Prop
  body : Predicate → List Char → Prop

namespace Spelling

/-- A step is spelled by its test and the bodies of its predicates. -/
def SpellsStep (s : Spelling) (step : Step) (cs : List Char) : Prop :=
  ∃ head bodies, s.test step.test head ∧ List.Forall₂ s.body step.predicates bodies ∧
    cs = head ++ bodies.flatMap bracketed

/-- Steps are spelled in their order, each but the first with its slashes in front. -/
inductive SpellsSteps (s : Spelling) : List Step → List Char → Prop
  | last {step : Step} {cs : List Char} : s.SpellsStep step cs → SpellsSteps s [step] cs
  | more {step next : Step} {steps : List Step} {cs ds : List Char} :
      s.SpellsStep step cs → SpellsSteps s (next :: steps) ds →
        SpellsSteps s (step :: next :: steps) (cs ++ (next.axis.slashes ++ ds))

/-- A path is spelled by its steps, of which the first has no slashes in front. -/
structure Spells (s : Spelling) (path : Path) (cs : List Char) : Prop where
  relative : ∀ step ∈ path.steps.head?, step.axis = .child
  steps : s.SpellsSteps path.steps cs

/-- What is spelled in one way is spelled in another that allows the parts. -/
theorem SpellsSteps.mono {s t : Spelling} {steps : List Step} {cs : List Char}
    (h : s.SpellsSteps steps cs)
    (hparts : ∀ step ∈ steps, ∀ ds, s.SpellsStep step ds → t.SpellsStep step ds) :
    t.SpellsSteps steps cs := by
  induction h with
  | last hstep => exact .last (hparts _ List.mem_cons_self _ hstep)
  | more hstep _ ih =>
    obtain ⟨hfirst, hrest⟩ := List.forall_mem_cons.1 hparts
    exact .more (hfirst _ hstep) (ih hrest)

end Spelling

/-! ## What the reader takes -/

/-- The texts from which a test is read. -/
inductive NodeTest.IsReadFrom : NodeTest → List Char → Prop
  | current : IsReadFrom .current ['.']
  | any : IsReadFrom .any ['*']
  | tag {name : List Char} : name ≠ [] → name ≠ ['.'] → name ≠ ['*'] → name ≠ ['.', '.'] →
      (∀ c ∈ name, c ≠ '/' ∧ c ≠ '[' ∧ c ≠ ']') → IsReadFrom (.tag (String.ofList name)) name

/-- The texts from which a predicate is read when the blanks at their ends are dropped. Of
a quoted value only the two ends are looked at. -/
inductive Predicate.IsReadFrom : Predicate → List Char → Prop
  | hasAttribute {key : List Char} :
      key ≠ [] → '=' ∉ key → IsReadFrom (.hasAttribute (String.ofList key)) ('@' :: key)
  | attributeEquals {key value content : List Char} {q : Char} :
      '=' ∉ key → isQuote q = true → trimChars value = q :: (content ++ [q]) →
        IsReadFrom (.attributeEquals (String.ofList (trimChars key)) (String.ofList content))
          ('@' :: (key ++ '=' :: value))
  | hasChild {tag : List Char} :
      tag ≠ [] → tag.head? ≠ some '@' → (∀ c ∈ tag, c ≠ '=' ∧ isQuote c = false) →
        IsReadFrom (.hasChild (String.ofList tag)) tag

/-- The widest spelling that the reader takes. -/
def accepted : Spelling where
  test := NodeTest.IsReadFrom
  body p body := IsBody body ∧ p.IsReadFrom (trimChars body)

theorem NodeTest.IsReadFrom.ne_nil {test : NodeTest} {cs : List Char} (h : test.IsReadFrom cs) :
    cs ≠ [] := by
  cases h with
  | current | any => exact List.cons_ne_nil _ _
  | tag hne => exact hne

/-- A test is spelled without the characters that divide a path. -/
theorem NodeTest.IsReadFrom.undivided {test : NodeTest} {cs : List Char}
    (h : test.IsReadFrom cs) : ∀ c ∈ cs, c ≠ '/' ∧ c ≠ '[' ∧ c ≠ ']' := by
  cases h with
  | current | any => exact List.forall_mem_singleton.2 (by decide)
  | tag _ _ _ _ hchars => exact hchars

/-! ## Looking for slashes -/

/-- Over the text the scanner for slashes goes from one state, the number of open brackets
and the quote that is open, to another and finds no slash that divides. -/
def Crosses (depth : Nat) (quote : Option Char) (cs : List Char) (depth' : Nat)
    (quote' : Option Char) : Prop :=
  ∀ rest, splitSegments depth quote (cs ++ rest) =
    (splitSegments depth' quote' rest).map fun segments => cs.foldr pushFront segments

theorem foldr_pushFront (cs segment : List Char) (segments : List (List Char)) :
    cs.foldr pushFront (segment :: segments) = (cs ++ segment) :: segments := by
  induction cs with
  | nil => rfl
  | cons c cs ih => rw [List.foldr_cons, ih, pushFront, List.cons_append]

section Crossing

variable {depth depth' depth'' : Nat} {quote quote' quote'' : Option Char} {c : Char}
  {cs ds : List Char}

theorem crosses_nil : Crosses depth quote [] depth quote := by
  intro rest
  rw [List.nil_append]
  exact (Option.map_id_apply).symm

theorem Crosses.append (h : Crosses depth quote cs depth' quote')
    (h' : Crosses depth' quote' ds depth'' quote'') :
    Crosses depth quote (cs ++ ds) depth'' quote'' := by
  intro rest
  rw [List.append_assoc, h, h', Option.map_map]
  congr 1
  funext segments
  exact List.foldr_append.symm

/-- The scanner goes on behind a character that it takes into a segment. -/
theorem Crosses.cons (h : Crosses depth' quote' cs depth'' quote'')
    (hc : ∀ rest, splitSegments depth quote (c :: rest) =
      (splitSegments depth' quote' rest).map (pushFront c)) :
    Crosses depth quote (c :: cs) depth'' quote'' := by
  have one : Crosses depth quote [c] depth' quote' := hc
  exact one.append h

/-- Outside brackets quotes are characters as any other. -/
theorem crosses_undivided (h : ∀ c ∈ cs, c ≠ '/' ∧ c ≠ '[' ∧ c ≠ ']') :
    Crosses 0 none cs 0 none := by
  induction cs with
  | nil => exact crosses_nil
  | cons c cs ih =>
    obtain ⟨⟨hslash, hopen, hclose⟩, hcs⟩ := List.forall_mem_cons.1 h
    refine (ih hcs).cons fun rest => ?_
    simp [splitSegments, hslash, hopen, hclose]

theorem crosses_quoted {q : Char} (h : q ∉ cs) (depth : Nat) :
    Crosses depth (some q) (cs ++ [q]) depth none := by
  induction cs with
  | nil => exact crosses_nil.cons fun rest => by simp [splitSegments]
  | cons c cs ih =>
    obtain ⟨hc, hcs⟩ := not_or.1 fun hmem => h (List.mem_cons.2 hmem)
    exact (ih hcs).cons fun rest => by simp [splitSegments, Ne.symm hc]

theorem crosses_body (h : IsBody cs) (depth : Nat) :
    Crosses (depth + 1) none cs (depth + 1) none := by
  induction h with
  | nil => exact crosses_nil
  | plain hquote hopen hclose _ ih =>
    exact ih.cons fun rest => by simp [splitSegments, hquote, hopen, hclose]
  | @quoted q content cs hquote hcontent _ ih =>
    have closed := (crosses_quoted hcontent (depth + 1)).append ih
    rw [List.append_assoc] at closed
    exact closed.cons fun rest => by simp [splitSegments, hquote]

theorem crosses_bracketed {body : List Char} (h : IsBody body) :
    Crosses 0 none (bracketed body) 0 none := by
  have close : Crosses 1 none [']'] 0 none :=
    crosses_nil.cons fun rest => by simp [splitSegments, isQuote]
  exact ((crosses_body h 0).append close).cons fun rest => by simp [splitSegments, isQuote]

theorem crosses_flatMap_bracketed {bodies : List (List Char)} (h : ∀ body ∈ bodies, IsBody body) :
    Crosses 0 none (bodies.flatMap bracketed) 0 none := by
  induction bodies with
  | nil => exact crosses_nil
  | cons body bodies ih =>
    obtain ⟨hbody, hbodies⟩ := List.forall_mem_cons.1 h
    exact (crosses_bracketed hbody).append (ih hbodies)

end Crossing

/-! ## Looking for the end of a body -/

theorem cutBody_quoted {q : Char} {content : List Char} (h : q ∉ content) (rest : List Char) :
    cutBody (some q) (content ++ q :: rest) =
      (cutBody none rest).map fun (body, back) => (content ++ q :: body, back) := by
  induction content with
  | nil => simp [cutBody]
  | cons c content ih =>
    obtain ⟨hc, hcontent⟩ := not_or.1 fun hmem => h (List.mem_cons.2 hmem)
    rw [List.cons_append, cutBody]
    simp only [if_neg (Ne.symm hc), ih hcontent, Option.map_map]
    rfl

/-- A body ends at its bracket, whatever is behind it. -/
theorem cutBody_of_isBody {body : List Char} (h : IsBody body) (rest : List Char) :
    cutBody none (body ++ ']' :: rest) = some (body, rest) := by
  induction h with
  | nil => simp [cutBody]
  | plain hquote _ hclose _ ih =>
    rw [List.cons_append, cutBody]
    simp [hquote, hclose, ih]
  | @quoted q content cs hquote hcontent _ ih =>
    -- a quote is no bracket, so the cutter takes it and goes on inside it
    have hclose : q ≠ ']' := by
      rintro rfl
      exact absurd hquote (by decide)
    rw [List.cons_append, List.append_assoc, List.cons_append, cutBody]
    simp [hquote, hclose, cutBody_quoted hcontent, ih]

/-! ## Reading the parts of a step -/

section Cut

variable {c : Char} {front back : List Char}

theorem takeWhile_ne_append (h : c ∉ front) :
    (front ++ c :: back).takeWhile (· ≠ c) = front := by
  have pass : ∀ d ∈ front, decide (d ≠ c) = true := fun d hd =>
    decide_eq_true fun same => h (same ▸ hd)
  rw [List.takeWhile_append_of_pos pass]
  simp

theorem dropWhile_ne_append (h : c ∉ front) :
    (front ++ c :: back).dropWhile (· ≠ c) = c :: back := by
  have pass : ∀ d ∈ front, decide (d ≠ c) = true := fun d hd =>
    decide_eq_true fun same => h (same ▸ hd)
  rw [List.dropWhile_append_of_pos pass]
  simp

end Cut

theorem unquote?_eq_some_iff {value content : List Char} :
    unquote? value = some content ↔
      ∃ q, isQuote q = true ∧ value = q :: (content ++ [q]) := by
  cases value with
  | nil => simp [unquote?]
  | cons q rest =>
    constructor
    · intro h
      rw [unquote?] at h
      split at h
      · rename_i hends
        refine ⟨q, hends.1, ?_⟩
        rw [← Option.some.inj h, List.dropLast_append_getLast? q hends.2]
      · cases h
    · rintro ⟨q', hquote, h⟩
      cases h
      rw [unquote?, if_pos ⟨hquote, List.getLast?_concat⟩, List.dropLast_concat]

/-- What stands behind the `@` of a comparison is cut at its first equals sign. -/
theorem readAttributePredicate_append {key : List Char} (value : List Char) (h : '=' ∉ key) :
    readAttributePredicate (key ++ '=' :: value) =
      match unquote? (trimChars value) with
      | none => .error (.unquotedValue (String.ofList value))
      | some content =>
        .ok (.attributeEquals (String.ofList (trimChars key)) (String.ofList content)) := by
  cases hvalue : unquote? (trimChars value) with
  | none => simp only [readAttributePredicate, dropWhile_ne_append h, hvalue]
  | some content =>
    simp only [readAttributePredicate, dropWhile_ne_append h, takeWhile_ne_append h, hvalue]

theorem readAttributePredicate_of_not_mem {condition : List Char} (h : '=' ∉ condition) :
    readAttributePredicate condition =
      if condition.isEmpty then .error .emptyAttribute
      else .ok (.hasAttribute (String.ofList condition)) := by
  have none : condition.dropWhile (· ≠ '=') = [] :=
    List.dropWhile_eq_nil_iff.2 fun c hc => decide_eq_true fun same => h (same ▸ hc)
  rw [readAttributePredicate, none]

theorem readAttributePredicate_eq_ok_iff {condition : List Char} {p : Predicate} :
    readAttributePredicate condition = .ok p ↔ p.IsReadFrom ('@' :: condition) := by
  constructor
  · intro h
    by_cases hmem : '=' ∈ condition
    · obtain ⟨key, value, rfl, hkey⟩ := List.eq_append_cons_of_mem hmem
      rw [readAttributePredicate_append value hkey] at h
      split at h
      · cases h
      · rename_i content hcontent
        obtain ⟨q, hquote, hvalue⟩ := unquote?_eq_some_iff.1 hcontent
        injection h with h
        rw [← h]
        exact .attributeEquals hkey hquote hvalue
    · rw [readAttributePredicate_of_not_mem hmem] at h
      split at h
      · cases h
      · rename_i hne
        injection h with h
        rw [← h]
        exact .hasAttribute (fun hnil => hne (List.isEmpty_iff.2 hnil)) hmem
  · intro h
    generalize hcs : '@' :: condition = cs at h
    cases h with
    | hasAttribute hne hmem =>
      cases hcs
      rw [readAttributePredicate_of_not_mem hmem, if_neg (mt List.isEmpty_iff.1 hne)]
    | @attributeEquals key value content q hkey hquote hvalue =>
      cases hcs
      rw [readAttributePredicate_append value hkey,
        unquote?_eq_some_iff.2 ⟨q, hquote, hvalue⟩]
    | hasChild _ hat _ =>
      rw [← hcs] at hat
      exact absurd rfl hat

theorem readPredicate_eq_ok_iff {body : List Char} {p : Predicate} :
    readPredicate body = .ok p ↔ p.IsReadFrom (trimChars body) := by
  unfold readPredicate
  split
  · rename_i condition htrim
    rw [htrim, readAttributePredicate_eq_ok_iff]
  · rename_i hat
    generalize trimChars body = cs at hat ⊢
    have marked : (cs.isEmpty || cs.any fun c => c == '=' || isQuote c) = false ↔
        cs ≠ [] ∧ ∀ c ∈ cs, c ≠ '=' ∧ isQuote c = false := by
      simp
    constructor
    · intro h
      split at h
      · cases h
      · rename_i hplain
        obtain ⟨hne, hchars⟩ := marked.1 (Bool.eq_false_iff.2 hplain)
        injection h with h
        rw [← h]
        refine .hasChild hne (fun hhead => ?_) hchars
        obtain ⟨condition, rfl⟩ := List.head?_eq_some_iff.1 hhead
        exact hat condition rfl
    · intro h
      cases h with
      | hasAttribute | attributeEquals => exact absurd rfl (hat _)
      | hasChild hne _ hchars => rw [marked.2 ⟨hne, hchars⟩, if_neg Bool.false_ne_true]

theorem readTest_eq_ok_iff {segment : List Char} {test : NodeTest}
    (h : ∀ c ∈ segment.takeWhile (· ≠ '['), c ≠ '/' ∧ c ≠ '[' ∧ c ≠ ']') :
    readTest segment = .ok test ↔ test.IsReadFrom (segment.takeWhile (· ≠ '[')) := by
  unfold readTest
  generalize segment.takeWhile (· ≠ '[') = head at h ⊢
  constructor
  · intro hread
    split at hread
    · injection hread with hread
      exact hread ▸ .current
    · injection hread with hread
      exact hread ▸ .any
    · cases hread
    · cases hread
    · rename_i hcurrent hany hparent hempty
      injection hread with hread
      exact hread ▸ .tag (fun h => hempty h) (fun h => hcurrent h) hany hparent h
  · intro hread
    cases hread with
    | current | any => rfl
    | tag hne hcurrent hany hparent =>
      split
      · exact absurd rfl hcurrent
      · exact absurd rfl hany
      · exact absurd rfl hparent
      · exact absurd rfl hne
      · rfl

theorem readPredicates_cons {segment cs body rest : List Char}
    (h : cutBody none cs = some (body, rest)) : readPredicates segment ('[' :: cs) =
      (readPredicate body).bind fun first =>
        (readPredicates segment rest).map fun others => first :: others := by
  rw [readPredicates]
  split
  · rename_i hcut
    cases hcut.symm.trans h
  · rename_i hcut
    cases hcut.symm.trans h
    cases readPredicate body with
    | error fault => rfl
    | ok first => cases readPredicates segment rest <;> rfl

theorem readPredicates_flatMap_bracketed {predicates : List Predicate}
    {bodies : List (List Char)} (h : List.Forall₂ accepted.body predicates bodies)
    (segment : List Char) :
    readPredicates segment (bodies.flatMap bracketed) = .ok predicates := by
  induction h with
  | nil => rw [List.flatMap_nil, readPredicates]
  | @cons p body predicates bodies hbody _ ih =>
    obtain ⟨hclosed, hread⟩ := hbody
    have opened : (body :: bodies).flatMap bracketed =
        '[' :: (body ++ ']' :: bodies.flatMap bracketed) := by
      simp [bracketed]
    rw [opened, readPredicates_cons (cutBody_of_isBody hclosed _),
      readPredicate_eq_ok_iff.2 hread, ih]
    rfl

theorem isBody_of_forall₂ {predicates : List Predicate} {bodies : List (List Char)}
    (h : List.Forall₂ accepted.body predicates bodies) : ∀ body ∈ bodies, IsBody body := by
  induction h with
  | nil => exact fun _ hmem => absurd hmem List.not_mem_nil
  | cons hbody _ ih => exact List.forall_mem_cons.2 ⟨hbody.1, ih⟩

/-! ## Reading steps -/

/-- The bodies in brackets behind a test begin at the first bracket. -/
theorem cut_head {head : List Char} (h : '[' ∉ head) (bodies : List (List Char)) :
    (head ++ bodies.flatMap bracketed).takeWhile (· ≠ '[') = head ∧
      (head ++ bodies.flatMap bracketed).dropWhile (· ≠ '[') = bodies.flatMap bracketed := by
  cases bodies with
  | nil =>
    have pass : ∀ d ∈ head, decide (d ≠ '[') = true := fun d hd =>
      decide_eq_true fun same => h (same ▸ hd)
    rw [List.flatMap_nil, List.append_nil]
    exact ⟨List.takeWhile_eq_self_iff.2 pass, List.dropWhile_eq_nil_iff.2 pass⟩
  | cons body bodies => exact ⟨takeWhile_ne_append h, dropWhile_ne_append h⟩

section Steps

variable {step : Step} {steps : List Step} {cs : List Char}

theorem readStep_of_spellsStep (h : accepted.SpellsStep step cs) :
    readStep step.axis cs = .ok step := by
  obtain ⟨head, bodies, htest, hbodies, rfl⟩ := h
  obtain ⟨hhead, htail⟩ := cut_head (fun hmem => (htest.undivided _ hmem).2.1 rfl) bodies
  have test : readTest (head ++ bodies.flatMap bracketed) = .ok step.test := by
    refine (readTest_eq_ok_iff ?_).2 ?_ <;> rw [hhead]
    · exact htest.undivided
    · exact htest
  rw [readStep, test, htail, readPredicates_flatMap_bracketed hbodies]
  rfl

theorem crosses_of_spellsStep (h : accepted.SpellsStep step cs) : Crosses 0 none cs 0 none := by
  obtain ⟨head, bodies, htest, hbodies, rfl⟩ := h
  exact (crosses_undivided htest.undivided).append
    (crosses_flatMap_bracketed (isBody_of_forall₂ hbodies))

theorem begins_of_spellsStep (h : accepted.SpellsStep step cs) :
    ∃ c ds, cs = c :: ds ∧ c ≠ '/' := by
  obtain ⟨head, bodies, htest, _, rfl⟩ := h
  obtain ⟨c, ds, rfl⟩ := List.exists_cons_of_ne_nil htest.ne_nil
  exact ⟨c, ds ++ bodies.flatMap bracketed, rfl, (htest.undivided c List.mem_cons_self).1⟩

/-- A step that is alone is one segment. -/
theorem splitSegments_of_crosses (h : Crosses 0 none cs 0 none) :
    splitSegments 0 none cs = some [cs] := by
  have alone := h []
  rw [List.append_nil] at alone
  rw [alone]
  show some (cs.foldr pushFront [[]]) = _
  rw [foldr_pushFront, List.append_nil]

/-- A step ends at a slash. -/
theorem splitSegments_slash (h : Crosses 0 none cs 0 none) (rest : List Char) :
    splitSegments 0 none (cs ++ '/' :: rest) = (splitSegments 0 none rest).map (cs :: ·) := by
  have slash : splitSegments 0 none ('/' :: rest) =
      (splitSegments 0 none rest).map ([] :: ·) := by
    simp [splitSegments, isQuote]
  rw [h, slash, Option.map_map]
  congr 1
  funext segments
  show cs.foldr pushFront ([] :: segments) = _
  rw [foldr_pushFront, List.append_nil]

theorem readSteps_cons {segment : List Char} (h : segment ≠ []) (axis : Axis)
    (segments : List (List Char)) : readSteps axis (segment :: segments) =
      (readStep axis segment).bind fun step =>
        (readSteps .child segments).map fun others => step :: others := by
  rw [readSteps, if_neg (mt List.isEmpty_iff.1 h)]
  cases readStep axis segment with
  | error fault => rfl
  | ok step => cases readSteps .child segments <;> rfl

/-- An empty segment stands for two slashes. -/
theorem readSteps_nil_cons {segments : List (List Char)} (h : segments ≠ []) :
    readSteps .child ([] :: segments) = readSteps .descendant segments := by
  have hempty : segments.isEmpty = false := by
    rw [← Bool.not_eq_true, List.isEmpty_iff]
    exact h
  rw [readSteps, hempty]
  rfl

/-- Steps that are spelled are split at their slashes and read one by one, where the first
goes as the slashes in front of it say. -/
theorem readSteps_of_spellsSteps (h : accepted.SpellsSteps steps cs) :
    ∃ segments, splitSegments 0 none cs = some segments ∧
      ∀ first ∈ steps.head?, readSteps first.axis segments = .ok steps := by
  induction h with
  | @last step cs hstep =>
    refine ⟨[cs], splitSegments_of_crosses (crosses_of_spellsStep hstep), ?_⟩
    rintro first ⟨⟩
    obtain ⟨c, ds, hcs, _⟩ := begins_of_spellsStep hstep
    rw [readSteps_cons (hcs ▸ List.cons_ne_nil c ds), readStep_of_spellsStep hstep]
    rfl
  | @more step next steps cs ds hstep _ ih =>
    obtain ⟨segments, hsplit, hread⟩ := ih
    have read := hread next rfl
    have hne : segments ≠ [] := by
      rintro rfl
      rw [readSteps] at read
      cases read
    have crosses := crosses_of_spellsStep hstep
    obtain ⟨c, front, hcs, _⟩ := begins_of_spellsStep hstep
    -- one slash ends the step, and a second one is an empty segment
    obtain ⟨behind, hbehind, hnext⟩ : ∃ behind,
        splitSegments 0 none (cs ++ (next.axis.slashes ++ ds)) = some (cs :: behind) ∧
          readSteps .child behind = .ok (next :: steps) := by
      cases haxis : next.axis with
      | child =>
        refine ⟨segments, ?_, haxis ▸ read⟩
        show splitSegments 0 none (cs ++ '/' :: ds) = _
        rw [splitSegments_slash crosses, hsplit]
        rfl
      | descendant =>
        refine ⟨[] :: segments, ?_, ?_⟩
        · show splitSegments 0 none (cs ++ '/' :: ([] ++ '/' :: ds)) = _
          rw [splitSegments_slash crosses, splitSegments_slash crosses_nil, hsplit]
          rfl
        · rw [readSteps_nil_cons hne, ← haxis, read]
    refine ⟨cs :: behind, hbehind, ?_⟩
    rintro first ⟨⟩
    rw [readSteps_cons (hcs ▸ List.cons_ne_nil c front), readStep_of_spellsStep hstep, hnext]
    rfl

theorem begins_of_spellsSteps (h : accepted.SpellsSteps steps cs) :
    steps ≠ [] ∧ ∃ c ds, cs = c :: ds ∧ c ≠ '/' := by
  cases h with
  | last hstep => exact ⟨List.cons_ne_nil _ _, begins_of_spellsStep hstep⟩
  | more hstep _ =>
    obtain ⟨c, ds, rfl, hc⟩ := begins_of_spellsStep hstep
    exact ⟨List.cons_ne_nil _ _, c, _, rfl, hc⟩

end Steps

/-- A text that begins with a character other than a slash is split and read. -/
theorem read?_of_begins {text : String} {c : Char} {cs : List Char}
    (htrim : trimChars text.toList = c :: cs) (hc : c ≠ '/') : read? text =
      match splitSegments 0 none (c :: cs) with
      | none => .error .unterminatedPredicate
      | some segments => (readSteps .child segments).map (⟨·⟩) := by
  rw [read?, htrim]
  split
  · rename_i h
    cases h
  · rename_i h
    exact absurd (List.cons.inj h).1 hc
  · rfl

/-- What is spelled is read. -/
theorem read?_of_spells {path : Path} {text : String}
    (h : accepted.Spells path (trimChars text.toList)) : read? text = .ok path := by
  obtain ⟨hrelative, hsteps⟩ := h
  obtain ⟨hne, c, cs, hcs, hc⟩ := begins_of_spellsSteps hsteps
  obtain ⟨segments, hsplit, hread⟩ := readSteps_of_spellsSteps hsteps
  obtain ⟨first, rest, hpath⟩ := List.exists_cons_of_ne_nil hne
  have hfirst : first ∈ path.steps.head? := by rw [hpath]; rfl
  have read := hread first hfirst
  rw [hrelative first hfirst] at read
  rw [read?_of_begins hcs hc, ← hcs, hsplit]
  simp only [read]
  rfl

end Path

end AccessPolicy
