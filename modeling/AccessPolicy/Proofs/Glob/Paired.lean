import AccessPolicy.Proofs.Glob.Composed
import AccessPolicy.Proofs.Glob.Translation
import AccessPolicy.Proofs.Regex.Meet
import AccessPolicy.Proofs.Regex.Paired

/-!
# Parentheses in the expression of a glob

A glob passes sets and assertions on as they are written. Where each of them is read on its
own as what the glob takes it for (`Part.IsPaired`), the parentheses in the expression are
those of the glob's groups and of the wildcards, and they pair, even if an escape takes
letters and digits of the characters behind it. The only bars outside of groups are those of
the glob itself (`sequence_paired`).
-/

namespace AccessPolicy.Glob

open AccessPolicy.Regex (Paired Writes butSeparator)

/-- The sets and the assertions that the part passes on are read on their own, each as one set
or as one assertion, in its groups too. A set that does not close is passed on verbatim. -/
inductive Part.IsPaired : Part → Prop where
  | char {c : Char} : IsPaired (.char c)
  | escape {c : Char} : IsPaired (.escape c)
  | set {text : List Char} {s : Regex.CharSet} : text.head? = some '[' ∨ text.head? = some '\\' →
      Regex.read? text = some (.set s) → IsPaired (.set text)
  | assertion {text : List Char} {a : Regex.Assertion} :
      Regex.read? text = some (.assert a) → IsPaired (.assertion text)
  | single : IsPaired .single
  | star : IsPaired .star
  | globstar : IsPaired .globstar
  | group {alternatives : List (List Part)} :
      (∀ parts ∈ alternatives, ∀ part ∈ parts, IsPaired part) → IsPaired (.group alternatives)

theorem composes_paired (bars : Bool) : Composes (Paired bars) :=
  ⟨.nil, .append, fun _ hopen h => .choice hopen fun w hw => (h w hw).mono⟩

variable {bars : Bool}

/-! ## The texts of parts -/

theorem charText_paired {c : Char} (h : isLiteral c = true) : Paired bars (charText c) := by
  refine .of_writes (writes_charText h) ?_
  unfold charText
  split
  · exact .inl rfl
  · exact .inr (Nat.le_refl 1)

/-- A set, and its halves. -/
theorem setFragment_paired {text : List Char} {s : Regex.CharSet}
    (hsign : text.head? = some '[' ∨ text.head? = some '\\')
    (hread : Regex.read? text = some (.set s)) : (setFragment text).All (Paired bars) := by
  have whole : Paired bars text := by
    refine .of_writes (Regex.writes_of_read? hread rfl) (.inl ?_)
    rcases hsign with hsign | hsign <;> rw [hsign] <;> rfl
  obtain ⟨m, hm, _⟩ := Regex.exists_writes_meet hread hsign
  unfold setFragment
  split
  · refine ⟨whole, fun e written hw => ?_⟩
    cases e with
    | separator =>
      cases hw
      exact .of_writes writes_separator (.inl rfl)
    | other =>
      obtain ⟨_, hw⟩ := Option.ite_none_right_eq_some.1 hw
      cases hw
      exact .of_writes hm (.inl rfl)
  · exact Fragment.all_ending whole .other

theorem pathAny_paired : Paired bars pathAny := .of_writes writes_pathAny (.inl rfl)

theorem globstar_paired (e : Ending) : (Part.globstar.writing.after e).All (Paired bars) := by
  have separator : Paired bars (pathAny ++ ['/']) :=
    pathAny_paired.append (.of_writes writes_separator (.inl rfl))
  have segment : Paired bars (pathAny ++ segmentOne) :=
    pathAny_paired.append (.of_writes writes_segmentOne (.inl rfl))
  have optional : Paired bars ("(?:".toList ++ pathAny ++ segmentOne ++ ")?".toList) := by
    have writes := Writes.optional (Regex.opens_uncaptured (pathAny ++ segmentOne))
      (.single (writes_pathAny.append writes_segmentOne))
    exact .of_writes writes (.inl rfl)
  cases e with
  | separator =>
    refine ⟨.of_writes writes_pathSome (.inl rfl), fun d written hw => ?_⟩
    cases d <;> cases hw
    · exact separator
    · exact segment
  | other =>
    refine ⟨pathAny_paired, fun d written hw => ?_⟩
    cases d <;> cases hw
    · exact separator
    · exact optional

/-- Everything that is written for the part is paired, without bars outside of groups. -/
theorem Part.IsPaired.writing {part : Part} (h : part.IsPaired) (hf : part.isFormed = true)
    (bars : Bool) (e : Ending) : (part.writing.after e).All (Paired bars) := by
  induction h generalizing bars e with
  | char =>
    have text : Paired bars (charText _) := charText_paired hf
    exact Writing.all_ending text text _ _ e
  | @escape c =>
    have text : Paired bars ['\\', c] := .escape .nil
    exact Writing.all_ending text text _ _ e
  | set hsign hread => cases e <;> exact setFragment_paired hsign hread
  | assertion hread =>
    have text : Paired bars _ :=
      .of_writes (Regex.writes_of_read? hread rfl) (.inl (Regex.head_of_read?_assert hread))
    exact Writing.all_ending text text _ _ e
  | single =>
    have text : Paired bars segmentOne := .of_writes writes_segmentOne (.inl rfl)
    exact Writing.all_ending text text _ _ e
  | star =>
    exact Writing.all_ending (.of_writes writes_segmentSome (.inl rfl))
      (.of_writes writes_segmentAny (.inl rfl)) _ _ e
  | globstar => exact globstar_paired e
  | @group alternatives _ ih =>
    simp only [Part.isFormed, Bool.and_eq_true, Bool.not_eq_true', List.isEmpty_eq_false_iff,
      alternativesFormed_iff, partsFormed_iff] at hf
    rw [group_after]
    refine (composes_paired bars).all_choice (by simpa using hf.1) fun f hfragment => ?_
    obtain ⟨parts, hparts, rfl⟩ := List.mem_map.1 hfragment
    refine (composes_paired bars).all_sequence (fun w hw d => ?_) e
    rw [writings_eq_map] at hw
    obtain ⟨part, hpart, rfl⟩ := List.mem_map.1 hw
    exact ih parts hparts part hpart (hf.2 parts hparts part hpart) bars d

/-- The expression of a sequence is paired. The glob's own bars stand outside of its groups. -/
theorem sequence_paired {parts : List Part} (hf : partsFormed parts = true)
    (h : ∀ part ∈ parts, part = .assertion ['|'] ∨ part.IsPaired)
    (hbars : bars = false → .assertion ['|'] ∉ parts) (prior : Ending) :
    Paired bars (sequence prior (writings parts)).whole := by
  refine ((composes_paired bars).all_sequence (fun w hw e => ?_) prior).whole
  rw [writings_eq_map] at hw
  obtain ⟨part, hpart, rfl⟩ := List.mem_map.1 hw
  rcases h part hpart with rfl | hpaired
  · cases bars with
    | false => exact absurd hpart (hbars rfl)
    | true => exact Writing.all_ending (.bar .nil) (.bar .nil) _ _ e
  · exact hpaired.writing (partsFormed_iff.1 hf part hpart) bars e

/-- A text at the end of a glob stands at the end of its expression. -/
theorem sequence_verbatim (prior : Ending) (parts : List Part) (text : List Char) :
    (sequence prior (writings (parts ++ [.verbatim text]))).whole =
      (sequence prior (writings parts)).whole ++ text := by
  have extended : ∀ run : Run, (run.extend (.always (.ending text .other))).toFragment.whole =
      run.toFragment.whole ++ text := by
    intro run
    have appended : run.extend (.always (.ending text .other)) =
        ⟨run.head ++ run.last.whole, .ending text .other⟩ := by
      unfold Run.extend
      split
      · rfl
      · exact if_pos rfl
      · rfl
    rw [appended]
    rfl
  rw [writings_append, sequence, List.foldl_append]
  exact extended _

end AccessPolicy.Glob
