/-!
# Attributes

The attributes of an element are a finite map from names to values, kept in the
order of the names. Two maps are equal when they hold the same entries.
-/

namespace AccessPolicy

/-- Attribute values by name, in strictly ascending order of the names. -/
structure Attributes where
  entries : List (String × String)
  sorted : entries.Pairwise fun a b => a.1 < b.1
deriving DecidableEq

namespace Attributes

/-- No attributes. -/
def empty : Attributes := ⟨[], .nil⟩

instance : Inhabited Attributes := ⟨empty⟩

/-- Puts an entry in its place, and in the place of one with the same name. -/
def insertEntry (key value : String) : List (String × String) → List (String × String)
  | [] => [(key, value)]
  | entry :: entries =>
    if key < entry.1 then (key, value) :: entry :: entries
    else if key = entry.1 then (key, value) :: entries
    else entry :: insertEntry key value entries

theorem mem_insertEntry {key value : String} {entries : List (String × String)}
    {e : String × String} (h : e ∈ insertEntry key value entries) :
    e = (key, value) ∨ e ∈ entries := by
  induction entries with
  | nil => simpa [insertEntry] using h
  | cons entry entries ih =>
    simp only [insertEntry] at h
    split at h
    · simpa using h
    · split at h
      · simp only [List.mem_cons] at h ⊢
        rcases h with h | h
        · exact .inl h
        · exact .inr (.inr h)
      · simp only [List.mem_cons] at h ⊢
        rcases h with h | h
        · exact .inr (.inl h)
        · rcases ih h with h | h
          · exact .inl h
          · exact .inr (.inr h)

theorem sorted_insertEntry {key value : String} {entries : List (String × String)}
    (h : entries.Pairwise fun a b => a.1 < b.1) :
    (insertEntry key value entries).Pairwise fun a b => a.1 < b.1 := by
  induction entries with
  | nil => simp [insertEntry]
  | cons entry entries ih =>
    rw [List.pairwise_cons] at h
    simp only [insertEntry]
    split
    · rename_i hlt
      refine List.pairwise_cons.2 ⟨fun e he => ?_, List.pairwise_cons.2 h⟩
      rcases List.mem_cons.1 he with rfl | he
      · exact hlt
      · exact String.lt_trans hlt (h.1 e he)
    · rename_i hnlt
      split
      · rename_i heq
        exact List.pairwise_cons.2 ⟨fun e he => by simpa [heq] using h.1 e he, h.2⟩
      · rename_i hne
        refine List.pairwise_cons.2 ⟨fun e he => ?_, ih h.2⟩
        rcases mem_insertEntry he with rfl | he
        · exact String.not_le.1 fun hle => hne (String.le_antisymm hle (String.not_lt.1 hnlt))
        · exact h.1 e he

/-- Sets an attribute. -/
def insert (attributes : Attributes) (key value : String) : Attributes :=
  ⟨insertEntry key value attributes.entries, sorted_insertEntry attributes.sorted⟩

/-- The attributes with the given entries. Of entries with one name the last
counts. -/
def ofList (entries : List (String × String)) : Attributes :=
  entries.foldl (fun attributes entry => attributes.insert entry.1 entry.2) empty

/-- The value of an attribute. -/
def get? (attributes : Attributes) (key : String) : Option String :=
  attributes.entries.lookup key

/-- An attribute that was set has its value, and setting it changes no other. -/
theorem get?_insert (attributes : Attributes) (key value other : String) :
    (attributes.insert key value).get? other =
      if other = key then some value else attributes.get? other := by
  simp only [get?, insert]
  generalize attributes.entries = entries
  induction entries with
  | nil =>
    by_cases h : other = key
    · simp [insertEntry, h]
    · simp [insertEntry, List.lookup_cons, beq_eq_false_iff_ne.2 h, h]
  | cons entry entries ih =>
    obtain ⟨name, old⟩ := entry
    simp only [insertEntry]
    by_cases h : other = key
    · subst h
      split
      · simp
      · split
        · simp
        · rename_i hne
          simp only [List.lookup_cons, beq_eq_false_iff_ne.2 hne, ih, if_true]
    · have hb := beq_eq_false_iff_ne.2 h
      split
      · simp only [List.lookup_cons, hb]
      · split
        · rename_i heq
          subst heq
          simp only [List.lookup_cons, hb]
        · simp only [List.lookup_cons, ih, h, if_false]

/-- Attributes with equal entries are equal. -/
theorem ext_entries {a b : Attributes} (h : a.entries = b.entries) : a = b := by
  cases a
  cases b
  simpa using h

end Attributes

end AccessPolicy
