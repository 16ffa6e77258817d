import AccessPolicy.Proofs.Collection.Answers
import AccessPolicy.Proofs.Path.Spelled

/-!
# Which paths are accepted

A text is read as a path exactly when it spells it (`Path.read?_eq_ok_iff`). The scanner
for slashes counts all brackets outside quotes, and the one that cuts bodies stops at the
first closing one. They agree only where a body holds no bracket outside its quotes: one
more opened bracket would still be open at the end.
-/

namespace AccessPolicy

namespace Path

open Text

/-! ## Segments -/

/-- At each character the scanner for slashes takes it into a segment, or divides two, or
finds a bracket closed that was not opened. -/
theorem splitSegments_cons (depth : Nat) (quote : Option Char) (c : Char) :
    (∃ depth' quote', ∀ cs, splitSegments depth quote (c :: cs) =
      (splitSegments depth' quote' cs).map (pushFront c)) ∨
    (depth = 0 ∧ quote = none ∧ c = '/' ∧
      ∀ cs, splitSegments depth quote (c :: cs) = (splitSegments 0 none cs).map ([] :: ·)) ∨
    ∀ cs, splitSegments depth quote (c :: cs) = none := by
  cases quote with
  | some q => exact .inl ⟨depth, if c = q then none else some q, fun cs => rfl⟩
  | none =>
    by_cases hquote : (isQuote c && decide (0 < depth)) = true
    · exact .inl ⟨depth, some c, fun cs => by rw [splitSegments, if_pos hquote]⟩
    by_cases hopen : c = '['
    · exact .inl ⟨depth + 1, none, fun cs => by rw [splitSegments, if_neg hquote, if_pos hopen]⟩
    by_cases hclose : c = ']'
    · by_cases hdepth : depth = 0
      · exact .inr (.inr fun cs => by
          rw [splitSegments, if_neg hquote, if_neg hopen, if_pos hclose, if_pos hdepth])
      · exact .inl ⟨depth - 1, none, fun cs => by
          rw [splitSegments, if_neg hquote, if_neg hopen, if_pos hclose, if_neg hdepth]⟩
    by_cases hslash : c = '/' ∧ depth = 0
    · refine .inr (.inl ⟨hslash.2, rfl, hslash.1, fun cs => ?_⟩)
      rw [splitSegments, if_neg hquote, if_neg hopen, if_neg hclose, if_pos hslash, hslash.2]
    · exact .inl ⟨depth, none, fun cs => by
        rw [splitSegments, if_neg hquote, if_neg hopen, if_neg hclose, if_neg hslash]⟩

theorem splitSegments_ne_nil {depth : Nat} {quote : Option Char} {cs : List Char} :
    splitSegments depth quote cs ≠ some [] := by
  intro h
  cases cs with
  | nil => simp [splitSegments] at h
  | cons c cs =>
    rcases splitSegments_cons depth quote c with ⟨_, _, hstep⟩ | ⟨_, _, _, hstep⟩ | hstep
    · rw [hstep, Option.map_eq_some_iff] at h
      obtain ⟨segments, _, hpush⟩ := h
      cases segments <;> cases hpush
    · simp [hstep] at h
    · simp [hstep] at h

/-- What is split off at slashes is split no further, and the slashes are all that is
lost. -/
theorem segments_of_splitSegments {depth : Nat} {quote : Option Char} {cs segment : List Char}
    {segments : List (List Char)}
    (h : splitSegments depth quote cs = some (segment :: segments)) :
    splitSegments depth quote segment = some [segment] ∧
      (∀ other ∈ segments, splitSegments 0 none other = some [other]) ∧
      cs = ['/'].intercalate (segment :: segments) := by
  induction cs generalizing depth quote segment segments with
  | nil =>
    rw [splitSegments] at h
    split at h
    · rename_i hclosed
      cases h
      exact ⟨by rw [splitSegments, if_pos hclosed], by simp, by simp⟩
    · cases h
  | cons c cs ih =>
    rcases splitSegments_cons depth quote c with ⟨_, _, hstep⟩ | ⟨rfl, rfl, rfl, hstep⟩ | hstep
    · rw [hstep, Option.map_eq_some_iff] at h
      obtain ⟨taken, hrest, hpush⟩ := h
      cases taken with
      | nil => exact absurd hrest splitSegments_ne_nil
      | cons front behind =>
        cases hpush
        obtain ⟨hfront, hbehind, hcs⟩ := ih hrest
        refine ⟨by rw [hstep, hfront]; rfl, hbehind, ?_⟩
        rw [hcs]
        cases segments <;> simp [List.intercalate]
    · rw [hstep, Option.map_eq_some_iff] at h
      obtain ⟨behind, hrest, hcons⟩ := h
      cases hcons
      cases segments with
      | nil => exact absurd hrest splitSegments_ne_nil
      | cons next others =>
        obtain ⟨hnext, hothers, hcs⟩ := ih hrest
        refine ⟨rfl, List.forall_mem_cons.2 ⟨hnext, hothers⟩, ?_⟩
        rw [hcs]
        simp [List.intercalate]
    · rw [hstep] at h
      cases h

/-- In front of the first bracket a segment holds no character that divides a path. -/
theorem head_of_splitSegments {head rest : List Char} (hhead : '[' ∉ head)
    (h : splitSegments 0 none (head ++ rest) = some [head ++ rest]) :
    (∀ c ∈ head, c ≠ '/' ∧ c ≠ '[' ∧ c ≠ ']') ∧ splitSegments 0 none rest = some [rest] := by
  induction head with
  | nil => exact ⟨fun _ hmem => absurd hmem List.not_mem_nil, h⟩
  | cons c head ih =>
    obtain ⟨hopen, hhead⟩ := not_or.1 fun hmem => hhead (List.mem_cons.2 hmem)
    have hopen : c ≠ '[' := Ne.symm hopen
    rw [List.cons_append, splitSegments] at h
    simp only [Nat.lt_irrefl, decide_false, Bool.and_false, Bool.false_eq_true, if_false, hopen,
      if_true, and_true] at h
    split at h
    · cases h
    · rename_i hclose
      split at h
      · -- a slash would have divided the segment
        obtain ⟨segments, _, hcons⟩ := Option.map_eq_some_iff.1 h
        simp at hcons
      · rename_i hslash
        obtain ⟨segments, hrest, hpush⟩ := Option.map_eq_some_iff.1 h
        have alone : segments = [head ++ rest] := by
          cases segments with
          | nil => exact absurd hrest splitSegments_ne_nil
          | cons front behind => simpa [pushFront] using hpush
        obtain ⟨hchars, hrest⟩ := ih hhead (alone ▸ hrest)
        exact ⟨List.forall_mem_cons.2 ⟨⟨hslash, hopen, hclose⟩, hchars⟩, hrest⟩

/-! ## Bodies -/

/-- The rest of a body, from inside a quote or from outside. -/
def EndsBody : Option Char → List Char → Prop
  | none, cs => IsBody cs
  | some q, cs => ∃ content rest, q ∉ content ∧ IsBody rest ∧ cs = content ++ q :: rest

theorem endsBody_cons {q c : Char} {cs : List Char}
    (h : EndsBody (if c = q then none else some q) cs) : EndsBody (some q) (c :: cs) := by
  by_cases hc : c = q
  · rw [if_pos hc] at h
    exact ⟨[], cs, List.not_mem_nil, h, by rw [hc, List.nil_append]⟩
  · rw [if_neg hc] at h
    obtain ⟨content, rest, hcontent, hrest, rfl⟩ := h
    refine ⟨c :: content, rest, fun hmem => ?_, hrest, rfl⟩
    rcases List.mem_cons.1 hmem with rfl | hmem
    · exact hc rfl
    · exact hcontent hmem

/-- Behind a body that was cut off as many brackets are still open as the body opens outside
its quotes. -/
theorem body_of_cutBody {depth : Nat} {quote : Option Char} {cs body rest : List Char}
    {segments : List (List Char)} (hcut : cutBody quote cs = some (body, rest))
    (hsplit : splitSegments (depth + 1) quote cs = some segments) :
    cs = body ++ ']' :: rest ∧ ∃ opened segments',
      splitSegments (depth + opened) none rest = some segments' ∧
        (opened = 0 → EndsBody quote body) := by
  induction cs generalizing depth quote body segments with
  | nil => cases hcut
  | cons c cs ih =>
    cases quote with
    | some q =>
      rw [cutBody, Option.map_eq_some_iff] at hcut
      obtain ⟨⟨inner, rest'⟩, hcut, heq⟩ := hcut
      cases heq
      rw [splitSegments, Option.map_eq_some_iff] at hsplit
      obtain ⟨segments, hsplit, _⟩ := hsplit
      obtain ⟨rfl, opened, segments', hrest, hends⟩ := ih hcut hsplit
      exact ⟨rfl, opened, segments', hrest, fun hnone => endsBody_cons (hends hnone)⟩
    | none =>
      rw [cutBody] at hcut
      rw [splitSegments] at hsplit
      by_cases hclose : c = ']'
      · rw [if_pos hclose] at hcut
        cases hcut
        rw [hclose] at hsplit ⊢
        obtain ⟨segments', hrest, _⟩ := Option.map_eq_some_iff.1 hsplit
        exact ⟨rfl, 0, segments', hrest, fun _ => .nil⟩
      · rw [if_neg hclose, Option.map_eq_some_iff] at hcut
        obtain ⟨⟨inner, rest'⟩, hcut, heq⟩ := hcut
        cases heq
        by_cases hquote : isQuote c = true
        · rw [if_pos hquote] at hcut
          rw [if_pos (by simp [hquote]), Option.map_eq_some_iff] at hsplit
          obtain ⟨segments, hsplit, _⟩ := hsplit
          obtain ⟨rfl, opened, segments', hrest, hends⟩ := ih hcut hsplit
          refine ⟨rfl, opened, segments', hrest, fun hnone => ?_⟩
          obtain ⟨content, back, hcontent, hback, rfl⟩ := hends hnone
          exact .quoted hquote hcontent hback
        · rw [if_neg hquote] at hcut
          rw [if_neg (by simp [hquote])] at hsplit
          by_cases hopen : c = '['
          · -- the cutter passes over this bracket, the scanner for slashes counts it
            rw [if_pos hopen, Option.map_eq_some_iff] at hsplit
            obtain ⟨segments, hsplit, _⟩ := hsplit
            obtain ⟨rfl, opened, segments', hrest, _⟩ := ih hcut hsplit
            refine ⟨rfl, opened + 1, segments', ?_, fun hnone => absurd hnone (by omega)⟩
            rw [← hrest, Nat.add_assoc, Nat.add_comm 1]
          · rw [if_neg hopen, if_neg hclose, if_neg (by simp), Option.map_eq_some_iff] at hsplit
            obtain ⟨segments, hsplit, _⟩ := hsplit
            obtain ⟨rfl, opened, segments', hrest, hends⟩ := ih hcut hsplit
            refine ⟨rfl, opened, segments', hrest, fun hnone => ?_⟩
            exact .plain (Bool.eq_false_iff.2 hquote) hopen hclose (hends hnone)

/-- Bodies that are read one behind the other leave no bracket open. -/
theorem bodies_of_readPredicates {segment cs : List Char} {predicates : List Predicate}
    {depth : Nat} {segments : List (List Char)}
    (hread : readPredicates segment cs = .ok predicates)
    (hsplit : splitSegments depth none cs = some segments) :
    depth = 0 ∧ ∃ bodies, cs = bodies.flatMap bracketed ∧
      List.Forall₂ accepted.body predicates bodies := by
  fun_induction readPredicates segment cs generalizing predicates depth segments with
  | case1 =>
    rw [splitSegments] at hsplit
    split at hsplit
    · rename_i hclosed
      cases hread
      exact ⟨hclosed.1, [], rfl, .nil⟩
    · cases hsplit
  | case2 => cases hread
  | case3 cs body rest hcut ih =>
    obtain ⟨first, hfirst, hread⟩ := exists_ok_of_bind hread
    obtain ⟨others, hothers, hread⟩ := exists_ok_of_bind hread
    cases hread
    have opens : splitSegments depth none ('[' :: cs) =
        (splitSegments (depth + 1) none cs).map (pushFront '[') := by
      simp [splitSegments, isQuote]
    rw [opens, Option.map_eq_some_iff] at hsplit
    obtain ⟨inner, hsplit, _⟩ := hsplit
    obtain ⟨rfl, opened, behind, hrest, hends⟩ := body_of_cutBody hcut hsplit
    obtain ⟨hnone, bodies, rfl, hbodies⟩ := ih hothers hrest
    obtain ⟨rfl, rfl⟩ := Nat.add_eq_zero_iff.1 hnone
    refine ⟨rfl, body :: bodies, by simp [bracketed], .cons ⟨hends rfl, ?_⟩ hbodies⟩
    exact readPredicate_eq_ok_iff.1 hfirst
  | case4 => cases hread

/-! ## Steps -/

theorem spellsStep_of_readStep {axis : Axis} {segment : List Char} {step : Step}
    (hsplit : splitSegments 0 none segment = some [segment])
    (hread : readStep axis segment = .ok step) :
    step.axis = axis ∧ accepted.SpellsStep step segment := by
  obtain ⟨test, htest, hread⟩ := exists_ok_of_bind hread
  obtain ⟨predicates, hpredicates, hread⟩ := exists_ok_of_bind hread
  cases hread
  have hhead : '[' ∉ segment.takeWhile (· ≠ '[') := fun hmem => by
    simpa using List.mem_takeWhile_imp hmem
  have whole := List.takeWhile_append_dropWhile (p := (· ≠ '[')) (l := segment)
  obtain ⟨hchars, hrest⟩ := head_of_splitSegments hhead (whole.symm ▸ hsplit)
  obtain ⟨_, bodies, hbodies, hread⟩ := bodies_of_readPredicates hpredicates hrest
  refine ⟨rfl, _, bodies, (readTest_eq_ok_iff hchars).1 htest, hread, ?_⟩
  rw [← hbodies, whole]

/-- Segments that are read are the steps in their order. Only the first may have a slash in
front of it that belongs to it. -/
theorem spellsSteps_of_readSteps {axis : Axis} {segments : List (List Char)} {steps : List Step}
    (hsegments : ∀ segment ∈ segments, splitSegments 0 none segment = some [segment])
    (hne : segments ≠ []) (hread : readSteps axis segments = .ok steps) :
    ∃ first ∈ steps.head?, ∃ cs, accepted.SpellsSteps steps cs ∧
      (first.axis = axis ∧ ['/'].intercalate segments = cs ∨
        axis = .child ∧ first.axis = .descendant ∧ ['/'].intercalate segments = '/' :: cs) := by
  induction segments generalizing axis steps with
  | nil => exact absurd rfl hne
  | cons segment segments ih =>
    obtain ⟨hsegment, hothers⟩ := List.forall_mem_cons.1 hsegments
    -- an empty segment stands between the two slashes in front of a step
    by_cases hempty : segment = []
    · obtain ⟨hbehind, haxis, hread⟩ : segments ≠ [] ∧ axis = .child ∧
          readSteps .descendant segments = .ok steps := by
        rw [readSteps, hempty, List.isEmpty_nil, if_pos rfl] at hread
        split at hread
        · cases hread
        · rename_i hnext
          simp only [Bool.or_eq_true, List.isEmpty_iff, beq_iff_eq, not_or] at hnext
          refine ⟨hnext.1, ?_, hread⟩
          cases axis with
          | child => rfl
          | descendant => exact absurd rfl hnext.2
      obtain ⟨first, hfirst, cs, hspells, hcs⟩ := ih hothers hbehind hread
      obtain ⟨next, others, rfl⟩ := List.exists_cons_of_ne_nil hbehind
      rcases hcs with ⟨hdescends, hcs⟩ | ⟨hchild, _⟩
      · refine ⟨first, hfirst, cs, hspells, .inr ⟨haxis, hdescends, ?_⟩⟩
        rw [hempty, ← hcs]
        simp [List.intercalate]
      · cases hchild
    · rw [readSteps_cons hempty] at hread
      obtain ⟨step, hstep, hread⟩ := exists_ok_of_bind hread
      obtain ⟨others, hothersRead, hsteps⟩ := exists_ok_of_map hread
      cases hsteps
      obtain ⟨haxis, hspells⟩ := spellsStep_of_readStep hsegment hstep
      refine ⟨step, rfl, ?_⟩
      cases segments with
      | nil =>
        cases hothersRead
        exact ⟨segment, .last hspells, .inl ⟨haxis, by simp [List.intercalate]⟩⟩
      | cons next segments =>
        obtain ⟨first, hfirst, cs, hrest, hcs⟩ := ih hothers (List.cons_ne_nil _ _) hothersRead
        obtain ⟨rest, rfl⟩ := List.head?_eq_some_iff.1 hfirst
        have joined : ['/'].intercalate (segment :: next :: segments) =
            segment ++ '/' :: ['/'].intercalate (next :: segments) := by
          simp [List.intercalate]
        refine ⟨_, .more hspells hrest, .inl ⟨haxis, ?_⟩⟩
        rcases hcs with ⟨hchild, hcs⟩ | ⟨_, hdescends, hcs⟩
        · rw [joined, hcs, hchild]
          rfl
        · rw [joined, hcs, hdescends]
          rfl

/-- A text is read as a path exactly when it spells it, but for blanks at its ends. -/
theorem read?_eq_ok_iff {text : String} {path : Path} :
    read? text = .ok path ↔ accepted.Spells path (trimChars text.toList) := by
  refine ⟨fun h => ?_, read?_of_spells⟩
  cases htrim : trimChars text.toList with
  | nil =>
    rw [read?, htrim] at h
    cases h
  | cons c cs =>
    have hc : c ≠ '/' := by
      rintro rfl
      rw [read?, htrim] at h
      cases h
    rw [read?_of_begins htrim hc] at h
    split at h
    · cases h
    · rename_i segments hsplit
      obtain ⟨steps, hread, rfl⟩ := exists_ok_of_map h
      cases segments with
      | nil => exact absurd hsplit splitSegments_ne_nil
      | cons segment segments =>
        obtain ⟨hfirst, hothers, hcs⟩ := segments_of_splitSegments hsplit
        obtain ⟨first, hhead, ds, hspells, hds⟩ := spellsSteps_of_readSteps
          (List.forall_mem_cons.2 ⟨hfirst, hothers⟩) (List.cons_ne_nil _ _) hread
        rcases hds with ⟨hchild, hds⟩ | ⟨_, _, hds⟩
        · refine ⟨fun step hstep => ?_, ?_⟩
          · rwa [Option.mem_unique hstep hhead]
          · rw [hcs, hds]
            exact hspells
        · -- an empty first segment comes from a slash at the front
          exact absurd (List.cons.inj (hcs.trans hds)).1 hc

end Path

end AccessPolicy
