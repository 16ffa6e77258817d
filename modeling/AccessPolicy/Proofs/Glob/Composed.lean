import AccessPolicy.Glob.Fragment

/-!
# What holds of every text of a fragment

The texts of a fragment are put together in two ways: in a row, and as a choice in
parentheses. A property of texts that is kept by both (`Composes`) is kept in every way in
which fragments are composed: one behind another for both endings (`Composes.all_branch`), in
a sequence (`Composes.all_sequence`) and as a choice (`Composes.all_choice`).
-/

namespace AccessPolicy.Glob

/-! ## Halves -/

/-- The half of a fragment for one ending. -/
def Fragment.half (f : Fragment) : Ending → Option (List Char)
  | .separator => f.atSeparator
  | .other => f.elsewhere

theorem Fragment.half_branch (f g h : Fragment) (e : Ending) :
    (f.branch g h).half e = alternation? [join? f.atSeparator (g.half e),
      join? f.elsewhere (h.half e)] := by
  cases e <;> rfl

theorem Fragment.half_prepend (head : List Char) (f : Fragment) (e : Ending) :
    (f.prepend head).half e = (f.half e).map (head ++ ·) := by
  cases e <;> rfl

theorem half_choice (pieces : List Fragment) (e : Ending) :
    (choice pieces).half e = alternation? (pieces.map (·.half e)) := by
  cases e <;> rfl

/-! ## Composing -/

/-- The property is kept by texts in a row and by choices between texts. -/
structure Composes (P : List Char → Prop) : Prop where
  nil : P []
  append {v w : List Char} : P v → P w → P (v ++ w)
  choice {opening : List Char} {ws : List (List Char)} : ws ≠ [] →
    opening = ['('] ∨ opening = "(?:".toList → (∀ w ∈ ws, P w) →
    P (opening ++ ['|'].intercalate ws ++ [')'])

/-- The whole text of the fragment has the property, and so has every half that is not
missing. -/
structure Fragment.All (P : List Char → Prop) (f : Fragment) : Prop where
  whole : P f.whole
  half : ∀ e, ∀ written ∈ f.half e, P written

/-- All texts of the run have the property. -/
structure Run.All (P : List Char → Prop) (run : Run) : Prop where
  head : P run.head
  last : run.last.All P

section

variable {P : List Char → Prop}

theorem Fragment.all_ending {written : List Char} (h : P written) (e : Ending) :
    (Fragment.ending written e).All P := by
  refine ⟨by cases e <;> exact h, fun d v hv => ?_⟩
  cases e <;> cases d <;> cases hv <;> exact h

/-- A part that is written by a text of its own for either ending. -/
theorem Writing.all_ending {v w : List Char} (hv : P v) (hw : P w) (c d e : Ending) :
    ((Writing.mk (.ending v c) (.ending w d)).after e).All P := by
  cases e with
  | separator => exact Fragment.all_ending hv c
  | other => exact Fragment.all_ending hw d

namespace Composes

theorem alternation? (hP : Composes P) {branches : List (Option (List Char))}
    (h : ∀ b ∈ branches, ∀ written ∈ b, P written) :
    ∀ written ∈ Glob.alternation? branches, P written := by
  have present : ∀ w ∈ branches.filterMap id, P w := by
    intro w hw
    obtain ⟨b, hb, hbw⟩ := List.mem_filterMap.1 hw
    exact h b hb w hbw
  unfold Glob.alternation?
  generalize branches.filterMap id = ws at present
  intro written hwritten
  match ws with
  | [] => cases hwritten
  | [only] =>
    cases hwritten
    exact List.forall_mem_singleton.1 present
  | first :: second :: others =>
    cases hwritten
    exact hP.choice (List.cons_ne_nil _ _) (.inr rfl) present

theorem join? (hP : Composes P) {head tail : Option (List Char)}
    (hhead : ∀ written ∈ head, P written) (htail : ∀ written ∈ tail, P written) :
    ∀ written ∈ Fragment.join? head tail, P written := by
  intro written hwritten
  cases head with
  | none => cases hwritten
  | some v =>
    cases tail with
    | none => cases hwritten
    | some w =>
      cases hwritten
      exact hP.append (hhead v rfl) (htail w rfl)

theorem all_branch (hP : Composes P) {f : Fragment} (hf : f.All P) {w : Writing}
    (hw : ∀ e, (w.after e).All P) : (f.branch w.afterSeparator w.afterOther).All P := by
  have both : ∀ behind : Ending → Option (List Char),
      (∀ e, ∀ written ∈ behind e, P written) →
      ∀ written ∈ Glob.alternation? [Fragment.join? f.atSeparator (behind .separator),
        Fragment.join? f.elsewhere (behind .other)], P written := by
    intro behind hbehind
    refine hP.alternation? fun b hb => ?_
    simp only [List.mem_cons, List.not_mem_nil, or_false] at hb
    rcases hb with rfl | rfl
    · exact hP.join? (hf.half .separator) (hbehind .separator)
    · exact hP.join? (hf.half .other) (hbehind .other)
  refine ⟨?_, fun e => ?_⟩
  · have wholes := both (fun e => some (w.after e).whole) fun e written hwritten => by
      cases hwritten
      exact (hw e).whole
    simp only [Fragment.branch]
    cases h : Glob.alternation? [Fragment.join? f.atSeparator (some w.afterSeparator.whole),
      Fragment.join? f.elsewhere (some w.afterOther.whole)] with
    | none => exact hP.nil
    | some written => exact wholes written h
  · rw [Fragment.half_branch]
    exact both (fun d => (w.after d).half e) fun d => (hw d).half e

theorem all_extend (hP : Composes P) {run : Run} (h : run.All P) {w : Writing}
    (hw : ∀ e, (w.after e).All P) : (run.extend w).All P := by
  have joined : P (run.head ++ run.last.whole) := hP.append h.head h.last.whole
  unfold Run.extend
  split
  · exact ⟨joined, hw .separator⟩
  · split
    · exact ⟨joined, hw .other⟩
    · exact ⟨h.head, hP.all_branch h.last hw⟩
  · exact ⟨joined, hw .other⟩

theorem all_toFragment (hP : Composes P) {run : Run} (h : run.All P) : run.toFragment.All P := by
  refine ⟨hP.append h.head h.last.whole, fun e written hw => ?_⟩
  rw [Run.toFragment, Fragment.half_prepend] at hw
  obtain ⟨last, hhalf, rfl⟩ := Option.map_eq_some_iff.1 hw
  exact hP.append h.head (h.last.half e last hhalf)

theorem all_sequence (hP : Composes P) {ws : List Writing}
    (hws : ∀ w ∈ ws, ∀ e, (w.after e).All P) (prior : Ending) : (sequence prior ws).All P := by
  have run : ∀ run : Run, run.All P → (ws.foldl Run.extend run).All P := by
    induction ws with
    | nil => exact fun _ h => h
    | cons w ws ih =>
      rw [List.forall_mem_cons] at hws
      exact fun run h => ih hws.2 _ (hP.all_extend h hws.1)
  exact hP.all_toFragment (run _ ⟨hP.nil, Fragment.all_ending hP.nil prior⟩)

theorem all_choice (hP : Composes P) {pieces : List Fragment} (hne : pieces ≠ [])
    (h : ∀ f ∈ pieces, f.All P) : (Glob.choice pieces).All P := by
  refine ⟨hP.choice (by simpa using hne) (.inl rfl) fun w hw => ?_, fun e => ?_⟩
  · obtain ⟨f, hf, rfl⟩ := List.mem_map.1 hw
    exact (h f hf).whole
  · rw [half_choice]
    refine hP.alternation? fun b hb => ?_
    obtain ⟨f, hf, rfl⟩ := List.mem_map.1 hb
    exact (h f hf).half e

end Composes

end

end AccessPolicy.Glob
