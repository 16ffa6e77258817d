import AccessPolicy.Proofs.Path.Spelled
import AccessPolicy.Proofs.Text.Trimmed

/-!
# Paths are read as they are written

A path can be written when its names hold none of the characters that divide a path and
no blanks at their ends, and each value lacks one of the two quotes (`Path.IsWritable`).
A value stands between quotes of a sort that it does not hold; slashes, brackets, equals
signs and quotes of the other sort in it need no care. Every way of writing such a path
is read as this path (`Path.read?_written`).
-/

namespace AccessPolicy

namespace Path

open Text

/-! ## Names -/

/-- A name that can stand in a path: no blank at its ends, and none of the characters that
divide a path or quote. -/
structure IsName (name : List Char) : Prop where
  nonempty : name ≠ []
  trimmed : IsTrimmed name
  undivided : ∀ c ∈ name, c ≠ '/' ∧ c ≠ '[' ∧ c ≠ ']' ∧ isQuote c = false

theorem isName_iff {name : List Char} : IsName name ↔ name ≠ [] ∧ trimChars name = name ∧
    name.all (fun c => c ≠ '/' ∧ c ≠ '[' ∧ c ≠ ']' ∧ isQuote c = false) = true := by
  simp only [List.all_eq_true, decide_eq_true_eq]
  refine ⟨fun h => ⟨h.nonempty, trimChars_eq_self h.trimmed, h.undivided⟩, ?_⟩
  rintro ⟨hne, htrim, hchars⟩
  exact ⟨hne, htrim ▸ isTrimmed_trimChars name, hchars⟩

instance (name : List Char) : Decidable (IsName name) :=
  decidable_of_iff _ isName_iff.symm

/-! ## Writing -/

/-- How a test is written. -/
def NodeTest.write : NodeTest → List Char
  | tag name => name.toList
  | any => ['*']
  | current => ['.']

/-- How the body of a predicate is written: a value stands between quotes that it does not
hold. -/
inductive Predicate.IsWritten : Predicate → List Char → Prop
  | hasAttribute (key : String) : IsWritten (.hasAttribute key) ('@' :: key.toList)
  | attributeEquals (key value : String) (q : Char) : isQuote q = true → q ∉ value.toList →
      IsWritten (.attributeEquals key value)
        ('@' :: (key.toList ++ '=' :: q :: (value.toList ++ [q])))
  | hasChild (tag : String) : IsWritten (.hasChild tag) tag.toList

/-- The written form of paths. -/
def written : Spelling where
  test test cs := cs = test.write
  body := Predicate.IsWritten

/-- A test that is told from all others by how it is written. -/
def NodeTest.IsWritable : NodeTest → Prop
  | tag name => IsName name.toList ∧ name ≠ "." ∧ name ≠ ".." ∧ name ≠ "*"
  | any => True
  | current => True

/-- A predicate that is told from all others by how it is written. -/
def Predicate.IsWritable : Predicate → Prop
  | hasAttribute key => IsName key.toList ∧ '=' ∉ key.toList
  | attributeEquals key value =>
    IsName key.toList ∧ '=' ∉ key.toList ∧ ('\'' ∉ value.toList ∨ '"' ∉ value.toList)
  | hasChild tag => IsName tag.toList ∧ '=' ∉ tag.toList ∧ tag.toList.head? ≠ some '@'

instance : (test : NodeTest) → Decidable test.IsWritable
  | .tag _ => inferInstanceAs (Decidable (_ ∧ _))
  | .any => isTrue trivial
  | .current => isTrue trivial

instance : (p : Predicate) → Decidable p.IsWritable
  | .hasAttribute _ => inferInstanceAs (Decidable (_ ∧ _))
  | .attributeEquals _ _ => inferInstanceAs (Decidable (_ ∧ _))
  | .hasChild _ => inferInstanceAs (Decidable (_ ∧ _))

/-- The parts of a step can be written. -/
structure Step.IsWritable (step : Step) : Prop where
  test : step.test.IsWritable
  predicates : ∀ p ∈ step.predicates, p.IsWritable

/-- A path that can be written: it begins at the children, and its parts can be written. -/
structure IsWritable (path : Path) : Prop where
  nonempty : path.steps ≠ []
  relative : ∀ step ∈ path.steps.head?, step.axis = .child
  steps : ∀ step ∈ path.steps, step.IsWritable

/-! ## A written form for every path -/

/-- The quote for a value: a single one where the value allows it. -/
def quoteFor (value : List Char) : Char := if '\'' ∈ value then '"' else '\''

/-- The body of a predicate in its preferred form. -/
def Predicate.write : Predicate → List Char
  | hasAttribute key => '@' :: key.toList
  | attributeEquals key value =>
    '@' :: (key.toList ++ '=' :: quoteFor value.toList ::
      (value.toList ++ [quoteFor value.toList]))
  | hasChild tag => tag.toList

/-- A step without the slashes in front of it. -/
def Step.write (step : Step) : List Char :=
  step.test.write ++ (step.predicates.map Predicate.write).flatMap bracketed

/-- Steps, each but the first with its slashes in front. -/
def writeSteps : List Step → List Char
  | [] => []
  | [step] => step.write
  | step :: next :: steps => step.write ++ (next.axis.slashes ++ writeSteps (next :: steps))

/-- The path in its preferred form. -/
def toText (path : Path) : String := String.ofList (writeSteps path.steps)

theorem Predicate.isWritten_write {p : Predicate} (h : p.IsWritable) : p.IsWritten p.write := by
  cases p with
  | hasAttribute key => exact .hasAttribute key
  | attributeEquals key value =>
    obtain ⟨_, _, hvalue⟩ := h
    refine .attributeEquals key value _ ?_ ?_ <;> rw [quoteFor] <;> split
    · decide
    · decide
    · rename_i hsingle
      exact hvalue.resolve_left (not_not_intro hsingle)
    · assumption
  | hasChild tag => exact .hasChild tag

theorem spellsStep_write {step : Step} (h : step.IsWritable) :
    written.SpellsStep step step.write := by
  refine ⟨step.test.write, step.predicates.map Predicate.write, rfl, ?_, rfl⟩
  refine List.forall₂_map_right_iff.2 (List.forall₂_same.2 fun p hp => ?_)
  exact p.isWritten_write (h.predicates p hp)

theorem spellsSteps_writeSteps {steps : List Step} (hne : steps ≠ [])
    (h : ∀ step ∈ steps, step.IsWritable) : written.SpellsSteps steps (writeSteps steps) := by
  induction steps with
  | nil => exact absurd rfl hne
  | cons step steps ih =>
    obtain ⟨hstep, hsteps⟩ := List.forall_mem_cons.1 h
    cases steps with
    | nil => exact .last (spellsStep_write hstep)
    | cons next steps => exact .more (spellsStep_write hstep) (ih (List.cons_ne_nil _ _) hsteps)

theorem spells_toText {path : Path} (h : path.IsWritable) :
    written.Spells path path.toText.toList := by
  refine ⟨h.relative, ?_⟩
  rw [toText, String.toList_ofList]
  exact spellsSteps_writeSteps h.nonempty h.steps

/-! ## What is written is accepted -/

theorem isBlank_of_isQuote {q : Char} (h : isQuote q = true) : isBlank q = false := by
  rw [isQuote, Bool.or_eq_true, beq_iff_eq, beq_iff_eq] at h
  rcases h with rfl | rfl <;> decide

theorem isTrimmed_quoted {q : Char} (h : isQuote q = true) (value : List Char) :
    IsTrimmed (q :: (value ++ [q])) := by
  have quote := isTrimmed_singleton (isBlank_of_isQuote h)
  exact isTrimmed_append quote quote (List.cons_ne_nil _ _) (List.cons_ne_nil _ _) value

section Name

variable {name : List Char}

theorem IsName.plain (h : IsName name) : ∀ c ∈ name, isQuote c = false ∧ c ≠ '[' ∧ c ≠ ']' := by
  intro c hc
  obtain ⟨_, hopen, hclose, hquote⟩ := h.undivided c hc
  exact ⟨hquote, hopen, hclose⟩

theorem IsName.isBody (h : IsName name) : IsBody name := by
  have alone := isBody_append h.plain .nil
  rwa [List.append_nil] at alone

theorem IsName.isBody_attribute (h : IsName name) : IsBody ('@' :: name) :=
  .plain (by decide) (by decide) (by decide) h.isBody

theorem IsName.isTrimmed_attribute (h : IsName name) : IsTrimmed ('@' :: name) :=
  isTrimmed_append (isTrimmed_singleton (by decide)) h.trimmed (List.cons_ne_nil _ _) h.nonempty []

/-- A comparison of a name with a quoted value has one closed quote. -/
theorem IsName.isBody_comparison (h : IsName name) {q : Char} {value : List Char}
    (hquote : isQuote q = true) (hvalue : q ∉ value) :
    IsBody ('@' :: (name ++ '=' :: q :: (value ++ [q]))) := by
  have value : IsBody ('=' :: q :: (value ++ [q])) :=
    .plain (by decide) (by decide) (by decide) (.quoted hquote hvalue .nil)
  exact .plain (by decide) (by decide) (by decide) (isBody_append h.plain value)

theorem isTrimmed_comparison {q : Char} (hquote : isQuote q = true) (value : List Char) :
    IsTrimmed ('@' :: (name ++ '=' :: q :: (value ++ [q]))) := by
  have ends := isTrimmed_append (isTrimmed_singleton (c := '@') (by decide))
    (isTrimmed_singleton (isBlank_of_isQuote hquote)) (List.cons_ne_nil _ _)
    (List.cons_ne_nil _ _) (name ++ '=' :: q :: value)
  simpa using ends

end Name

theorem NodeTest.isReadFrom_write {test : NodeTest} (h : test.IsWritable) :
    test.IsReadFrom test.write := by
  cases test with
  | any => exact .any
  | current => exact .current
  | tag name =>
    obtain ⟨hname, hcurrent, hparent, hany⟩ := h
    have other : ∀ {cs : List Char}, name ≠ String.ofList cs → name.toList ≠ cs := by
      rintro cs hne rfl
      exact hne String.ofList_toList.symm
    have read := IsReadFrom.tag hname.nonempty (other hcurrent) (other hany) (other hparent)
      fun c hc => ⟨(hname.undivided c hc).1, (hname.plain c hc).2⟩
    rwa [String.ofList_toList] at read

/-- A written body is closed and read as it is. -/
theorem Predicate.IsWritten.accepted {p : Predicate} {body : List Char} (h : p.IsWritten body)
    (hp : p.IsWritable) : Path.accepted.body p body := by
  cases h with
  | hasAttribute key =>
    obtain ⟨hkey, hequals⟩ := hp
    refine ⟨hkey.isBody_attribute, ?_⟩
    rw [trimChars_eq_self hkey.isTrimmed_attribute]
    have read := IsReadFrom.hasAttribute hkey.nonempty hequals
    rwa [String.ofList_toList] at read
  | attributeEquals key value q hquote hvalue =>
    obtain ⟨hkey, hequals, _⟩ := hp
    refine ⟨hkey.isBody_comparison hquote hvalue, ?_⟩
    rw [trimChars_eq_self (isTrimmed_comparison hquote value.toList)]
    have read := IsReadFrom.attributeEquals hequals hquote
      (trimChars_eq_self (isTrimmed_quoted hquote value.toList))
    rwa [trimChars_eq_self hkey.trimmed, String.ofList_toList, String.ofList_toList] at read
  | hasChild tag =>
    obtain ⟨htag, hequals, hat⟩ := hp
    refine ⟨htag.isBody, ?_⟩
    rw [trimChars_eq_self htag.trimmed]
    have read := IsReadFrom.hasChild htag.nonempty hat fun c hc =>
      ⟨fun same => hequals (same ▸ hc), (htag.plain c hc).1⟩
    rwa [String.ofList_toList] at read

theorem spellsStep_of_written {step : Step} {cs : List Char} (h : step.IsWritable)
    (hcs : written.SpellsStep step cs) : accepted.SpellsStep step cs := by
  obtain ⟨head, bodies, rfl, hbodies, rfl⟩ := hcs
  refine ⟨_, bodies, NodeTest.isReadFrom_write h.test, ?_, rfl⟩
  have predicates := h.predicates
  generalize step.predicates = ps at hbodies predicates
  induction hbodies with
  | nil => exact .nil
  | cons hbody _ ih =>
    obtain ⟨hp, hps⟩ := List.forall_mem_cons.1 predicates
    exact .cons (hbody.accepted hp) (ih hps)

theorem NodeTest.isTrimmed_write {test : NodeTest} (h : test.IsWritable) :
    test.write ≠ [] ∧ IsTrimmed test.write := by
  cases test with
  | any => exact ⟨List.cons_ne_nil _ _, isTrimmed_singleton (by decide)⟩
  | current => exact ⟨List.cons_ne_nil _ _, isTrimmed_singleton (by decide)⟩
  | tag name => exact ⟨h.1.nonempty, h.1.trimmed⟩

theorem isTrimmed_of_spellsStep {step : Step} {cs : List Char} (h : step.IsWritable)
    (hcs : written.SpellsStep step cs) : cs ≠ [] ∧ IsTrimmed cs := by
  obtain ⟨head, bodies, rfl, _, rfl⟩ := hcs
  obtain ⟨hne, htrimmed⟩ := NodeTest.isTrimmed_write h.test
  refine ⟨fun hnil => hne (List.append_eq_nil_iff.1 hnil).1, ?_⟩
  rcases List.eq_nil_or_concat' bodies with rfl | ⟨front, last, rfl⟩
  · rwa [List.flatMap_nil, List.append_nil]
  · have ends := isTrimmed_append htrimmed (isTrimmed_singleton (c := ']') (by decide)) hne
      (List.cons_ne_nil _ _) (front.flatMap bracketed ++ '[' :: last)
    simpa [bracketed] using ends

theorem isTrimmed_of_spellsSteps {steps : List Step} {cs : List Char}
    (h : ∀ step ∈ steps, step.IsWritable) (hcs : written.SpellsSteps steps cs) :
    cs ≠ [] ∧ IsTrimmed cs := by
  induction hcs with
  | last hstep => exact isTrimmed_of_spellsStep (h _ List.mem_cons_self) hstep
  | @more step next steps cs ds hstep _ ih =>
    obtain ⟨hwritable, hothers⟩ := List.forall_mem_cons.1 h
    obtain ⟨hne, htrimmed⟩ := isTrimmed_of_spellsStep hwritable hstep
    obtain ⟨hbehind, htrimmed'⟩ := ih hothers
    refine ⟨fun hnil => hne (List.append_eq_nil_iff.1 hnil).1, ?_⟩
    exact isTrimmed_append htrimmed htrimmed' hne hbehind next.axis.slashes

/-- What is written is read. -/
theorem read?_of_written {path : Path} {text : String} (h : path.IsWritable)
    (hspells : written.Spells path text.toList) : read? text = .ok path := by
  obtain ⟨hrelative, hsteps⟩ := hspells
  refine read?_of_spells ?_
  rw [trimChars_eq_self (isTrimmed_of_spellsSteps h.steps hsteps).2]
  exact ⟨hrelative, hsteps.mono fun step hstep _ => spellsStep_of_written (h.steps step hstep)⟩

/-- Every path that can be written has a written form, and from each of its written forms
this path is read. -/
theorem read?_written {path : Path} (h : path.IsWritable) :
    written.Spells path path.toText.toList ∧
      ∀ text : String, written.Spells path text.toList → read? text = .ok path :=
  ⟨spells_toText h, fun _ hspells => read?_of_written h hspells⟩

/-- A path whose values hold all that divides a path, and quotes of either sort. -/
def crowdedPath : Path :=
  ⟨[⟨.child, .current, []⟩,
    ⟨.descendant, .tag "topic", [.attributeEquals "name" "/a[1]='x'", .hasAttribute "note"]⟩,
    ⟨.child, .any, [.hasChild "attachment", .attributeEquals "note" "=]\"//["]⟩]⟩

/-- A value with single quotes stands between double ones, and one with a double quote
between single ones. -/
theorem read?_written_crowded :
    let text := ".//topic[@name=\"/a[1]='x'\"][@note]/*[attachment][@note='=]\"//[']"
    crowdedPath.IsWritable ∧ written.Spells crowdedPath text.toList ∧
      read? text = .ok crowdedPath := by
  intro text
  have writable : crowdedPath.IsWritable := by
    refine ⟨List.cons_ne_nil _ _, ?_, ?_⟩
    · rintro step ⟨⟩
      rfl
    · have parts : ∀ step ∈ crowdedPath.steps,
          step.test.IsWritable ∧ ∀ p ∈ step.predicates, p.IsWritable := by
        decide
      exact fun step hstep => ⟨(parts step hstep).1, (parts step hstep).2⟩
  have preferred : crowdedPath.toText = text := by decide
  obtain ⟨spells, reads⟩ := read?_written writable
  rw [preferred] at spells
  exact ⟨writable, spells, reads text spells⟩

end Path

end AccessPolicy
