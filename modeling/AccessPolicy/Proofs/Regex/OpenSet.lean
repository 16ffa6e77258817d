import AccessPolicy.Proofs.Regex.Bracket

/-!
# Reading the tokens of a set

The tokens that are cut inside brackets are read by the sets that are open and touch
nothing else. So they are read here on the open sets alone (`runSets`), and what is read
that way is read so inside any brackets (`runSets_around`) and by any reader
(`Reader.run_of_runSets`). Whatever is cut up to a closing bracket is read
(`Within.runSets`).
-/

namespace AccessPolicy.Regex

/-- Takes a token of a set, where `sets` are open, the innermost first. The outermost is
not closed. -/
def stepSets (sets : List OpenSet) : Token → Option (List OpenSet)
  | .setOpen negated => some (⟨negated, none, []⟩ :: sets)
  | .setMember member =>
    match sets with
    | [] => none
    | s :: sets => some (s.push member :: sets)
  | .setOp o =>
    match sets with
    | [] => none
    | s :: sets => some (s.operate o :: sets)
  | .setClose =>
    match sets with
    | s :: outer :: sets => some (outer.push s.toCharSet :: sets)
    | _ => none
  | _ => none

/-- Takes tokens of a set from left to right. -/
def runSets (sets : List OpenSet) : List Token → Option (List OpenSet)
  | [] => some sets
  | t :: ts => (stepSets sets t).bind fun next => runSets next ts

theorem runSets_append (sets : List OpenSet) (ts us : List Token) :
    runSets sets (ts ++ us) = (runSets sets ts).bind fun next => runSets next us := by
  induction ts generalizing sets with
  | nil => rfl
  | cons t ts ih => cases h : stepSets sets t <;> simp [runSets, h, ih]

/-- What is read of open sets does not touch the sets around them. -/
theorem stepSets_around {sets next : List OpenSet} {t : Token}
    (h : stepSets sets t = some next) (around : List OpenSet) :
    stepSets (sets ++ around) t = some (next ++ around) := by
  cases t with
  | setOpen negated =>
    cases h
    rfl
  | setMember member | setOp o =>
    cases sets with
    | nil => cases h
    | cons s sets =>
      cases h
      rfl
  | setClose =>
    obtain _ | ⟨s, _ | ⟨outer, sets⟩⟩ := sets
    · cases h
    · cases h
    · cases h
      rfl
  | _ => simp [stepSets] at h

theorem runSets_around {sets next : List OpenSet} {ts : List Token}
    (h : runSets sets ts = some next) (around : List OpenSet) :
    runSets (sets ++ around) ts = some (next ++ around) := by
  induction ts generalizing sets with
  | nil =>
    cases h
    rfl
  | cons t ts ih =>
    rw [runSets, Option.bind_eq_some_iff] at h
    obtain ⟨mid, hstep, hrun⟩ := h
    rw [runSets, stepSets_around hstep around, Option.bind_some, ih hrun]

/-- What is read of open sets does not touch what else is open. -/
theorem Reader.step_of_stepSets {sets next : List OpenSet} {t : Token}
    (h : stepSets sets t = some next) (r : Reader) (around : List OpenSet)
    (hr : r.sets = sets ++ around) : r.step t = some { r with sets := next ++ around } := by
  cases t with
  | setOpen negated =>
    simp only [stepSets, Option.some.injEq] at h
    rw [← h, Reader.step, hr, List.cons_append]
  | setMember member | setOp o =>
    cases sets with
    | nil => cases h
    | cons s sets =>
      simp only [stepSets, Option.some.injEq] at h
      rw [← h, Reader.step, hr]
      rfl
  | setClose =>
    obtain _ | ⟨s, _ | ⟨outer, sets⟩⟩ := sets
    · cases h
    · cases h
    · simp only [stepSets, Option.some.injEq] at h
      rw [← h, Reader.step, Reader.closeSet, hr]
      rfl
  | _ => simp [stepSets] at h

theorem Reader.run_of_runSets {sets next : List OpenSet} {ts : List Token}
    (h : runSets sets ts = some next) (r : Reader) (around : List OpenSet)
    (hr : r.sets = sets ++ around) : r.run ts = some { r with sets := next ++ around } := by
  induction ts generalizing sets r with
  | nil =>
    simp only [runSets, Option.some.injEq] at h
    rw [Reader.run, ← h, ← hr]
  | cons t ts ih =>
    rw [runSets, Option.bind_eq_some_iff] at h
    obtain ⟨mid, hstep, hrun⟩ := h
    rw [Reader.run, Reader.step_of_stepSets hstep r around hr, Option.bind_some,
      ih hrun _ rfl]

theorem runSets_setMembers (members : List CharSet) (s : OpenSet) (sets : List OpenSet) :
    runSets (s :: sets) (members.map .setMember) =
      some ({ s with members := members.reverse ++ s.members } :: sets) := by
  induction members generalizing s with
  | nil => rfl
  | cons member members ih =>
    rw [List.map_cons, runSets, stepSets, Option.bind_some, ih]
    simp [OpenSet.push]

/-- The hyphens and the bracket that an opening bracket takes are members of its set. -/
theorem runSets_setOpen (sets : List OpenSet) (cs : List Char) :
    ∃ s, runSets sets (Token.readSetOpen cs).1 = some (s :: sets) := by
  have hyphens : ∀ (ds : List Char) (negated : Bool),
      ∃ s, runSets sets (.setOpen negated :: ds.map fun c => .setMember (.single c)) =
        some (s :: sets) := by
    intro ds negated
    have members := runSets_setMembers (ds.map .single) ⟨negated, none, []⟩ sets
    rw [List.map_map] at members
    exact ⟨_, members⟩
  unfold Token.readSetOpen
  simp only
  split
  · rename_i hnone _
    rw [hnone]
    exact ⟨_, rfl⟩
  · exact hyphens _ _

/-- A token inside brackets is read by the sets that are open, if it leaves the outermost
open. -/
theorem runSets_inSet {depth next : Nat} {cs rest : List Char} {ts : List Token}
    (h : Token.readInSet (depth + 1) cs = some (ts, next + 1, rest)) {sets : List OpenSet}
    (hsets : sets.length = depth + 1) :
    ∃ after, runSets sets ts = some after ∧ after.length = next + 1 := by
  obtain ⟨s, sets, rfl⟩ := List.exists_cons_of_length_eq_add_one hsets
  unfold Token.readInSet at h
  split at h
  · split at h
    · simp only [Option.some.injEq, Prod.mk.injEq] at h
      obtain ⟨rfl, hnext, _⟩ := h
      exact ⟨_, rfl, hnext ▸ hsets⟩
    · rename_i more _ _
      simp only [Option.some.injEq, Prod.mk.injEq] at h
      obtain ⟨rfl, hnext, _⟩ := h
      obtain ⟨opened, hopened⟩ := runSets_setOpen (s :: sets) more
      exact ⟨_, hopened, by rw [List.length_cons, hsets, ← hnext]⟩
  · simp only [Option.some.injEq, Prod.mk.injEq] at h
    obtain ⟨rfl, hnext, _⟩ := h
    -- a set around the innermost takes it as a member
    cases sets with
    | nil =>
      rw [List.length_singleton] at hsets
      omega
    | cons outer sets =>
      rw [List.length_cons, List.length_cons] at hsets
      exact ⟨_, rfl, by rw [List.length_cons]; omega⟩
  case h_6 =>
    simp only [Option.map_eq_some_iff, Prod.exists, Prod.mk.injEq] at h
    obtain ⟨member, after, _, rfl, hnext, _⟩ := h
    exact ⟨_, rfl, hnext ▸ hsets⟩
  all_goals
    simp only [Option.some.injEq, Prod.mk.injEq] at h
    obtain ⟨rfl, hnext, _⟩ := h
    exact ⟨_, rfl, hnext ▸ hsets⟩

/-- The tokens inside brackets are read by the sets that are open. -/
theorem Within.runSets {depth next : Nat} {cs rest : List Char} {ts : List Token}
    (h : Within depth cs ts next rest) {sets : List OpenSet} (hsets : sets.length = depth + 1) :
    ∃ after, Regex.runSets sets ts = some after ∧ after.length = next + 1 := by
  induction h generalizing sets with
  | refl depth cs => exact ⟨sets, rfl, hsets⟩
  | step hread _ ih =>
    obtain ⟨between, hbetween, hlength⟩ := runSets_inSet hread hsets
    obtain ⟨after, hafter, hnext⟩ := ih hlength
    exact ⟨after, by rw [runSets_append, hbetween, Option.bind_some, hafter], hnext⟩

end AccessPolicy.Regex
