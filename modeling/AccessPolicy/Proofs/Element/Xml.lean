import AccessPolicy.Element.Xml
import AccessPolicy.Text.Blank
import Mathlib.Data.List.Basic

/-!
# The XML of an element tells the element

Escaped characters are read back one by one (`Element.unescape`), so a text is told by what
is written of it. In an element whose tags and attribute names hold no markup
(`Element.IsNamed`), a tag ends at the first blank, slash or bracket, a value at the next
quote, and a text at the next opening bracket; the break and the indentation in front of a
first child belong to the child, because the depth is known. So elements whose lines begin
one text are the same, but for texts that are empty (`Element.xmlLines_unique`).
-/

namespace AccessPolicy

open Text

/-! ## Where a part ends -/

/-- Two parts that end at the first member that is no `p` are the same where they begin one
list. -/
theorem prefix_unique {α : Type} {p : α → Bool} {xs ys r s : List α}
    (hxs : ∀ x ∈ xs, p x = true) (hys : ∀ y ∈ ys, p y = true)
    (hr : ∀ a ∈ r.head?, p a = false) (hs : ∀ a ∈ s.head?, p a = false)
    (h : xs ++ r = ys ++ s) : xs = ys ∧ r = s := by
  have taken : ∀ {part rest : List α}, (∀ x ∈ part, p x = true) →
      (∀ a ∈ rest.head?, p a = false) → (part ++ rest).takeWhile p = part := by
    intro part rest hpart hrest
    rw [List.takeWhile_append_of_pos hpart]
    cases rest with
    | nil => rw [List.takeWhile_nil, List.append_nil]
    | cons a rest =>
      rw [List.takeWhile_cons_of_neg (Bool.eq_false_iff.1 (hrest a rfl)), List.append_nil]
  have same : xs = ys := by rw [← taken hxs hr, h, taken hys hs]
  subst same
  exact ⟨rfl, List.append_cancel_left h⟩

namespace Element

/-! ## Escaped characters -/

/-- Reads a character that may be escaped, and what is behind it. -/
def unescape : List Char → Option (Char × List Char)
  | '&' :: 'a' :: 'm' :: 'p' :: ';' :: rest => some ('&', rest)
  | '&' :: 'l' :: 't' :: ';' :: rest => some ('<', rest)
  | '&' :: 'g' :: 't' :: ';' :: rest => some ('>', rest)
  | '&' :: 'q' :: 'u' :: 'o' :: 't' :: ';' :: rest => some ('"', rest)
  | c :: rest => some (c, rest)
  | [] => none

theorem unescape_cons {c : Char} (h : c ≠ '&') (rest : List Char) :
    unescape (c :: rest) = some (c, rest) := by
  simp [unescape, h]

theorem unescape_escapeText (c : Char) (rest : List Char) :
    unescape (escapeText c ++ rest) = some (c, rest) := by
  unfold escapeText
  split
  · rename_i h
    rw [beq_iff_eq.1 h]
    rfl
  · split
    · rename_i h
      rw [beq_iff_eq.1 h]
      rfl
    · split
      · rename_i h
        rw [beq_iff_eq.1 h]
        rfl
      · rename_i h _ _
        exact unescape_cons (fun hc => h (beq_iff_eq.2 hc)) rest

theorem unescape_escapeValue (c : Char) (rest : List Char) :
    unescape (escapeValue c ++ rest) = some (c, rest) := by
  unfold escapeValue
  split
  · rename_i h
    rw [beq_iff_eq.1 h]
    rfl
  · exact unescape_escapeText c rest

/-- What is written of a text character by character tells the text, if each character can
be read back. -/
theorem eq_of_flatMap_escape {escape : Char → List Char}
    (read : ∀ c rest, unescape (escape c ++ rest) = some (c, rest)) {cs ds : List Char}
    (h : cs.flatMap escape = ds.flatMap escape) : cs = ds := by
  induction cs generalizing ds with
  | nil =>
    cases ds with
    | nil => rfl
    | cons d ds =>
      have read := read d (ds.flatMap escape)
      rw [← List.flatMap_cons, ← h] at read
      nomatch read
  | cons c cs ih =>
    cases ds with
    | nil =>
      have read := read c (cs.flatMap escape)
      rw [← List.flatMap_cons, h] at read
      nomatch read
    | cons d ds =>
      have both := read c (cs.flatMap escape)
      rw [← List.flatMap_cons, h, List.flatMap_cons, read] at both
      injection both with both
      injection both with first rest
      rw [first, ih rest.symm]

theorem ne_lt_of_mem_escapeText {c d : Char} (h : d ∈ escapeText c) : d ≠ '<' := by
  rintro rfl
  unfold escapeText at h
  split at h
  · exact absurd h (by decide)
  · split at h
    · exact absurd h (by decide)
    · split at h
      · exact absurd h (by decide)
      · rename_i hlt _
        exact hlt (beq_iff_eq.2 (List.mem_singleton.1 h).symm)

theorem ne_quote_of_mem_escapeValue {c d : Char} (h : d ∈ escapeValue c) : d ≠ '"' := by
  rintro rfl
  unfold escapeValue at h
  split at h
  · exact absurd h (by decide)
  · rename_i hquote
    unfold escapeText at h
    split at h
    · exact absurd h (by decide)
    · split at h
      · exact absurd h (by decide)
      · split at h
        · exact absurd h (by decide)
        · exact hquote (beq_iff_eq.2 (List.mem_singleton.1 h).symm)

/-! ## Names -/

/-- A character that has no meaning in markup and is no blank. -/
def isNameChar (c : Char) : Bool :=
  !(isBlank c || ['<', '>', '/', '=', '&', '"', '\''].contains c)

/-- A text that can be a tag or the name of an attribute. -/
def IsName (name : String) : Prop := name ≠ "" ∧ ∀ c ∈ name.toList, isNameChar c = true

instance (name : String) : Decidable (IsName name) :=
  decidable_of_iff (name ≠ "" ∧ name.toList.all isNameChar = true)
    (and_congr_right fun _ => List.all_eq_true)

/-- All tags and attribute names, at every level, are names. -/
def IsNamed (e : Element) : Prop :=
  ∀ f ∈ e.preorder, IsName f.tag ∧ ∀ entry ∈ f.attributes.entries, IsName entry.1

instance (e : Element) : Decidable e.IsNamed :=
  inferInstanceAs (Decidable
    (∀ f ∈ e.preorder, IsName f.tag ∧ ∀ entry ∈ f.attributes.entries, IsName entry.1))

theorem isNamed_iff {e : Element} : e.IsNamed ↔ IsName e.tag ∧
    (∀ entry ∈ e.attributes.entries, IsName entry.1) ∧ ∀ child ∈ e.children, child.IsNamed := by
  obtain ⟨tag, attributes, text, children⟩ := e
  rw [IsNamed, preorder, preorderAll_eq_flatMap, List.forall_mem_cons, List.forall_mem_flatMap,
    and_assoc]
  rfl

/-! ## Attributes -/

/-- An attribute behind a tag. -/
def xmlAttribute (entry : String × String) : List Char :=
  ' ' :: (entry.1.toList ++ '=' :: '"' :: (entry.2.toList.flatMap escapeValue ++ ['"']))

theorem xmlAttributes_eq_flatMap (attributes : Attributes) :
    xmlAttributes attributes = attributes.entries.flatMap xmlAttribute := by
  refine List.flatMap_congr fun entry _ => ?_
  simp [xmlAttribute]

/-- An attribute is told by how its writing begins a text. -/
theorem xmlAttribute_unique {a b : String × String} {r s : List Char} (ha : IsName a.1)
    (hb : IsName b.1) (h : xmlAttribute a ++ r = xmlAttribute b ++ s) : a = b ∧ r = s := by
  simp only [xmlAttribute, List.cons_append, List.append_assoc, List.nil_append] at h
  obtain ⟨key, h⟩ := prefix_unique ha.2 hb.2 (by simp [isNameChar]) (by simp [isNameChar])
    (List.cons.inj h).2
  have unquoted : ∀ value : String, ∀ c ∈ value.toList.flatMap escapeValue,
      (c != '"') = true := by
    intro value c hc
    obtain ⟨d, _, hc⟩ := List.mem_flatMap.1 hc
    exact bne_iff_ne.2 (ne_quote_of_mem_escapeValue hc)
  obtain ⟨value, h⟩ := prefix_unique (unquoted a.2) (unquoted b.2) (by simp) (by simp)
    (List.cons.inj (List.cons.inj h).2).2
  have value := eq_of_flatMap_escape unescape_escapeValue value
  exact ⟨Prod.ext (String.toList_inj.1 key) (String.toList_inj.1 value), (List.cons.inj h).2⟩

/-- Attributes are told by how their writing begins a text that goes on with no blank. -/
theorem xmlAttributes_unique {a b : Attributes} {r s : List Char}
    (ha : ∀ entry ∈ a.entries, IsName entry.1) (hb : ∀ entry ∈ b.entries, IsName entry.1)
    (hr : r.head? ≠ some ' ') (hs : s.head? ≠ some ' ')
    (h : xmlAttributes a ++ r = xmlAttributes b ++ s) : a = b ∧ r = s := by
  have entries : ∀ {as bs : List (String × String)}, (∀ entry ∈ as, IsName entry.1) →
      (∀ entry ∈ bs, IsName entry.1) →
      as.flatMap xmlAttribute ++ r = bs.flatMap xmlAttribute ++ s → as = bs ∧ r = s := by
    intro as
    induction as with
    | nil =>
      intro bs _ _ h
      cases bs with
      | nil => exact ⟨rfl, h⟩
      | cons b bs => exact absurd (congrArg List.head? h) hr
    | cons a as ih =>
      intro bs has hbs h
      cases bs with
      | nil => exact absurd (congrArg List.head? h).symm hs
      | cons b bs =>
        rw [List.flatMap_cons, List.flatMap_cons, List.append_assoc, List.append_assoc] at h
        rw [List.forall_mem_cons] at has hbs
        obtain ⟨first, h⟩ := xmlAttribute_unique has.1 hbs.1 h
        obtain ⟨others, h⟩ := ih has.2 hbs.2 h
        exact ⟨by rw [first, others], h⟩
  rw [xmlAttributes_eq_flatMap, xmlAttributes_eq_flatMap] at h
  obtain ⟨same, h⟩ := entries ha hb h
  exact ⟨Attributes.ext_entries same, h⟩

/-! ## Empty texts -/

mutual

/-- The element without the texts that are empty. -/
def withoutEmptyTexts : Element → Element
  | ⟨tag, attributes, text, children⟩ =>
    ⟨tag, attributes, text.filter fun text => text != "", withoutEmptyTextsAll children⟩

/-- The elements of a list without the texts that are empty. -/
def withoutEmptyTextsAll : List Element → List Element
  | [] => []
  | e :: es => withoutEmptyTexts e :: withoutEmptyTextsAll es

end

theorem withoutEmptyTextsAll_eq_map (es : List Element) :
    withoutEmptyTextsAll es = es.map withoutEmptyTexts := by
  induction es with
  | nil => rfl
  | cons e es ih => rw [withoutEmptyTextsAll, ih, List.map_cons]

theorem withoutEmptyTexts_eq (e : Element) : e.withoutEmptyTexts =
    ⟨e.tag, e.attributes, if e.text.getD "" = "" then none else some (e.text.getD ""),
      e.children.map withoutEmptyTexts⟩ := by
  obtain ⟨tag, attributes, text, children⟩ := e
  rw [withoutEmptyTexts, withoutEmptyTextsAll_eq_map]
  cases text with
  | none => rfl
  | some text => by_cases h : text = "" <;> simp [Option.filter, h]

/-- The parts of elements that agree when empty texts are left out. -/
theorem withoutEmptyTexts_eq_iff {a b : Element} :
    a.withoutEmptyTexts = b.withoutEmptyTexts ↔ a.tag = b.tag ∧ a.attributes = b.attributes ∧
      a.text.getD "" = b.text.getD "" ∧
        a.children.map withoutEmptyTexts = b.children.map withoutEmptyTexts := by
  have text : ∀ s t : String, (if s = "" then none else some s) =
      (if t = "" then none else some t) ↔ s = t := by
    intro s t
    by_cases hs : s = "" <;> by_cases ht : t = "" <;> simp [hs, ht, eq_comm]
  rw [withoutEmptyTexts_eq, withoutEmptyTexts_eq, Element.mk.injEq, text]

/-! ## The parts of the lines -/

/-- The text of an element as it is written. -/
def xmlContent (e : Element) : List Char :=
  (e.text.getD "").toList.flatMap escapeText

/-- The lines between the text of an element and its closing tag. -/
def xmlInner (depth : Nat) : List Element → List Char
  | [] => []
  | e :: es => '\n' :: (xmlLinesAll (depth + 1) (e :: es) ++ xmlIndent depth)

/-- What is written of an element behind its attributes. -/
def xmlBody (depth : Nat) (e : Element) : List Char :=
  if e.xmlContent.isEmpty && e.children.isEmpty then "/>\n".toList
  else '>' :: (e.xmlContent ++
    (xmlInner depth e.children ++ '<' :: '/' :: (e.tag.toList ++ ">\n".toList)))

theorem xmlLines_eq (depth : Nat) (e : Element) : xmlLines depth e =
    xmlIndent depth ++ '<' :: (e.tag.toList ++ (xmlAttributes e.attributes ++
      e.xmlBody depth)) := by
  obtain ⟨tag, attributes, text, children⟩ := e
  unfold xmlLines
  dsimp only
  split
  · rename_i empty
    rw [xmlBody, xmlContent, empty]
    simp
  · rename_i present
    have present : ((text.getD "").toList.flatMap escapeText).isEmpty = false :=
      List.isEmpty_eq_false_iff.2 present
    simp only [xmlBody, xmlContent, present]
    simp [xmlInner]
  · rename_i children _ _ nonempty _
    obtain ⟨e, es, rfl⟩ := List.exists_cons_of_ne_nil nonempty
    simp [xmlBody, xmlContent, xmlInner]

theorem xmlLinesAll_eq_flatMap (depth : Nat) (es : List Element) :
    xmlLinesAll depth es = es.flatMap (xmlLines depth) := by
  induction es with
  | nil => rfl
  | cons e es ih => rw [xmlLinesAll, ih, List.flatMap_cons]

theorem xmlIndent_succ (depth : Nat) : xmlIndent (depth + 1) = xmlIndent depth ++ [' ', ' '] := by
  rw [xmlIndent, Nat.mul_add, List.replicate_add]
  rfl

/-- Empty texts are not written. -/
theorem xmlLines_withoutEmptyTexts (e : Element) :
    ∀ depth, xmlLines depth e.withoutEmptyTexts = xmlLines depth e := by
  induction e using Element.inductionOn with
  | step e ih =>
    intro depth
    have content : e.withoutEmptyTexts.xmlContent = e.xmlContent := by
      rw [withoutEmptyTexts_eq, xmlContent]
      by_cases h : e.text.getD "" = "" <;> simp [xmlContent, h]
    have children : e.withoutEmptyTexts.children = e.children.map withoutEmptyTexts := by
      rw [withoutEmptyTexts_eq]
    have inner : xmlInner depth e.withoutEmptyTexts.children = xmlInner depth e.children := by
      have lines : xmlLinesAll (depth + 1) (e.children.map withoutEmptyTexts) =
          xmlLinesAll (depth + 1) e.children := by
        rw [xmlLinesAll_eq_flatMap, xmlLinesAll_eq_flatMap, List.flatMap_map]
        exact List.flatMap_congr fun child hchild => ih child hchild (depth + 1)
      rw [children]
      revert lines
      cases e.children with
      | nil => exact fun _ => rfl
      | cons first others =>
        intro lines
        rw [List.map_cons, xmlInner, ← List.map_cons, lines, xmlInner]
    rw [xmlLines_eq, xmlLines_eq, xmlBody, xmlBody, content, inner, children, List.isEmpty_map,
      withoutEmptyTexts_eq]

theorem head?_xmlBody (depth : Nat) (e : Element) (rest : List Char) :
    (e.xmlBody depth ++ rest).head? = some '/' ∨ (e.xmlBody depth ++ rest).head? = some '>' := by
  unfold xmlBody
  split
  · exact .inl rfl
  · exact .inr rfl

/-! ## Reading the lines -/

/-- The inside of an element, with its closing tag, goes on with blanks to the next bracket. A
slash is behind the bracket when there are no children. -/
theorem exists_xmlInner (depth : Nat) {es : List Element} (hes : ∀ e ∈ es, e.IsNamed)
    (rest : List Char) : ∃ blanks back, (∀ c ∈ blanks, (c != '<') = true) ∧
      xmlInner depth es ++ '<' :: '/' :: rest = blanks ++ '<' :: back ∧
        (es = [] ∧ blanks = [] ∧ back.head? = some '/' ∨
          es ≠ [] ∧ blanks = '\n' :: xmlIndent (depth + 1) ∧ back.head? ≠ some '/') := by
  cases es with
  | nil => exact ⟨[], '/' :: rest, by simp, rfl, .inl ⟨rfl, rfl, rfl⟩⟩
  | cons e es =>
    obtain ⟨⟨nonempty, chars⟩, _⟩ := isNamed_iff.1 (hes e List.mem_cons_self)
    obtain ⟨c, cs, tag⟩ := List.exists_cons_of_ne_nil fun h => nonempty (String.toList_eq_nil_iff.1 h)
    have slash : c ≠ '/' := by
      rintro rfl
      have := chars '/' (by rw [tag]; exact List.mem_cons_self)
      revert this
      decide
    refine ⟨'\n' :: xmlIndent (depth + 1), c :: (cs ++ (xmlAttributes e.attributes ++
      (e.xmlBody (depth + 1) ++ (xmlLinesAll (depth + 1) es ++ (xmlIndent depth ++
        '<' :: '/' :: rest))))), by simp [xmlIndent], ?_, .inr ⟨by simp, rfl, by simpa using slash⟩⟩
    simp [xmlInner, xmlLinesAll, xmlLines_eq, tag]

/-- A text is told by how it begins the lines up to the closing tag, whatever blanks and breaks
are in it. -/
theorem xmlContent_unique {depth : Nat} {a b : Element} (ha : a.IsNamed) (hb : b.IsNamed)
    {r s : List Char}
    (h : a.xmlContent ++ (xmlInner depth a.children ++ '<' :: '/' :: r) =
      b.xmlContent ++ (xmlInner depth b.children ++ '<' :: '/' :: s)) :
    a.text.getD "" = b.text.getD "" ∧
      xmlInner depth a.children ++ '<' :: '/' :: r =
        xmlInner depth b.children ++ '<' :: '/' :: s := by
  obtain ⟨blanks, back, hblanks, split, kind⟩ := exists_xmlInner depth (isNamed_iff.1 ha).2.2 r
  obtain ⟨blanks', back', hblanks', split', kind'⟩ :=
    exists_xmlInner depth (isNamed_iff.1 hb).2.2 s
  have plain : ∀ e : Element, ∀ {blanks : List Char}, (∀ c ∈ blanks, (c != '<') = true) →
      ∀ c ∈ e.xmlContent ++ blanks, (c != '<') = true := by
    intro e blanks hblanks c hc
    rcases List.mem_append.1 hc with hc | hc
    · obtain ⟨d, _, hc⟩ := List.mem_flatMap.1 hc
      exact bne_iff_ne.2 (ne_lt_of_mem_escapeText hc)
    · exact hblanks c hc
  rw [split, split', ← List.append_assoc, ← List.append_assoc] at h
  obtain ⟨front, hback⟩ := prefix_unique (plain a hblanks) (plain b hblanks') (by simp)
    (by simp) h
  have hback := (List.cons.inj hback).2
  -- what follows the bracket tells whether there are children, so the blanks in front are the same
  have same : blanks = blanks' := by
    rcases kind with ⟨_, rfl, head⟩ | ⟨_, rfl, head⟩ <;>
      rcases kind' with ⟨_, rfl, head'⟩ | ⟨_, rfl, head'⟩
    · rfl
    · exact absurd (hback ▸ head) head'
    · exact absurd (hback ▸ head') head
    · rfl
  rw [same] at front
  have text := eq_of_flatMap_escape unescape_escapeText (List.append_cancel_right front)
  exact ⟨String.toList_inj.1 text, by rw [split, split', same, hback]⟩

/-- Children are told by how their lines begin a text, up to the indentation of a closing
tag. -/
theorem xmlLinesAll_unique {depth : Nat} {as bs : List Element} {r s : List Char}
    (unique : ∀ a ∈ as, ∀ b ∈ bs, ∀ r s, xmlLines (depth + 1) a ++ r = xmlLines (depth + 1) b ++ s →
      a.withoutEmptyTexts = b.withoutEmptyTexts ∧ r = s)
    (h : xmlLinesAll (depth + 1) as ++ (xmlIndent depth ++ '<' :: r) =
      xmlLinesAll (depth + 1) bs ++ (xmlIndent depth ++ '<' :: s)) :
    as.map withoutEmptyTexts = bs.map withoutEmptyTexts ∧ r = s := by
  -- the lines of a child are further in than the closing tag
  have further : ∀ (e : Element) (es : List Element) (t u : List Char),
      xmlIndent depth ++ '<' :: t ≠ xmlLinesAll (depth + 1) (e :: es) ++ u := by
    intro e es t u h
    rw [xmlLinesAll, xmlLines_eq, xmlIndent_succ] at h
    simp only [List.append_assoc] at h
    exact absurd (List.append_cancel_left h) (by simp)
  induction as generalizing bs with
  | nil =>
    cases bs with
    | nil => exact ⟨rfl, (List.cons.inj (List.append_cancel_left h)).2⟩
    | cons b bs => exact absurd h (further b bs _ _)
  | cons a as ih =>
    cases bs with
    | nil => exact absurd h.symm (further a as _ _)
    | cons b bs =>
      rw [xmlLinesAll, xmlLinesAll, List.append_assoc, List.append_assoc] at h
      obtain ⟨first, h⟩ := unique a List.mem_cons_self b List.mem_cons_self _ _ h
      obtain ⟨others, h⟩ := ih (fun a ha b hb =>
        unique a (List.mem_cons_of_mem _ ha) b (List.mem_cons_of_mem _ hb)) h
      exact ⟨by rw [List.map_cons, List.map_cons, first, others], h⟩

/-- The inside of an element tells the children. -/
theorem xmlInner_unique {depth : Nat} {as bs : List Element} {r s : List Char}
    (unique : ∀ a ∈ as, ∀ b ∈ bs, ∀ r s, xmlLines (depth + 1) a ++ r = xmlLines (depth + 1) b ++ s →
      a.withoutEmptyTexts = b.withoutEmptyTexts ∧ r = s)
    (h : xmlInner depth as ++ '<' :: r = xmlInner depth bs ++ '<' :: s) :
    as.map withoutEmptyTexts = bs.map withoutEmptyTexts ∧ r = s := by
  cases as with
  | nil =>
    cases bs with
    | nil => exact ⟨rfl, (List.cons.inj h).2⟩
    | cons b bs => exact absurd (List.cons.inj h).1 (by decide)
  | cons a as =>
    cases bs with
    | nil => exact absurd (List.cons.inj h).1 (by decide)
    | cons b bs =>
      simp only [xmlInner, List.cons_append, List.append_assoc] at h
      exact xmlLinesAll_unique unique (List.cons.inj h).2

/-- What is behind the attributes tells the text and the children, where the tags are the
same. -/
theorem xmlBody_unique {depth : Nat} {a b : Element} (ha : a.IsNamed) (hb : b.IsNamed)
    (tag : a.tag = b.tag) {r s : List Char}
    (unique : ∀ c ∈ a.children, ∀ d ∈ b.children, ∀ r s,
      xmlLines (depth + 1) c ++ r = xmlLines (depth + 1) d ++ s →
        c.withoutEmptyTexts = d.withoutEmptyTexts ∧ r = s)
    (h : a.xmlBody depth ++ r = b.xmlBody depth ++ s) :
    a.text.getD "" = b.text.getD "" ∧
      a.children.map withoutEmptyTexts = b.children.map withoutEmptyTexts ∧ r = s := by
  have closed : ∀ {e : Element}, (e.xmlContent.isEmpty && e.children.isEmpty) = true →
      e.text.getD "" = "" ∧ e.children = [] := by
    intro e he
    obtain ⟨content, children⟩ := Bool.and_eq_true_iff.1 he
    have text : (e.text.getD "").toList = [] :=
      eq_of_flatMap_escape unescape_escapeText (List.isEmpty_iff.1 content)
    exact ⟨String.toList_inj.1 text, List.isEmpty_iff.1 children⟩
  unfold xmlBody at h
  split at h
  · rename_i hclosed
    split at h
    · rename_i hclosed'
      rw [(closed hclosed).1, (closed hclosed').1, (closed hclosed).2, (closed hclosed').2]
      exact ⟨rfl, rfl, List.append_cancel_left h⟩
    · exact absurd (List.cons.inj h).1 (by decide)
  · split at h
    · exact absurd (List.cons.inj h).1 (by decide)
    · simp only [List.cons_append, List.append_assoc] at h
      obtain ⟨text, h⟩ := xmlContent_unique ha hb (List.cons.inj h).2
      refine ⟨text, ?_⟩
      obtain ⟨children, h⟩ := xmlInner_unique unique h
      rw [tag] at h
      exact ⟨children, List.append_cancel_left (List.append_cancel_left (List.cons.inj h).2)⟩

/-- A tag ends at a character that is in no name. -/
theorem isNameChar_head? (attributes : Attributes) (depth : Nat) (e : Element) (rest : List Char) :
    ∀ c ∈ (xmlAttributes attributes ++ (e.xmlBody depth ++ rest)).head?, isNameChar c = false := by
  rw [xmlAttributes_eq_flatMap]
  cases attributes.entries with
  | nil =>
    intro c hc
    rw [List.flatMap_nil, List.nil_append] at hc
    rcases e.head?_xmlBody depth rest with head | head <;> rw [head] at hc <;>
      rw [← Option.some.inj hc] <;> decide
  | cons entry entries => simp [xmlAttribute, isNameChar, isBlank]

/-- Elements whose lines begin one text are the same but for empty texts. -/
theorem xmlLines_unique (a : Element) : ∀ (depth : Nat) (b : Element) (r s : List Char),
    a.IsNamed → b.IsNamed → xmlLines depth a ++ r = xmlLines depth b ++ s →
      a.withoutEmptyTexts = b.withoutEmptyTexts ∧ r = s := by
  induction a using Element.inductionOn with
  | step a ih =>
    intro depth b r s ha hb h
    obtain ⟨tagA, entriesA, childrenA⟩ := isNamed_iff.1 ha
    obtain ⟨tagB, entriesB, childrenB⟩ := isNamed_iff.1 hb
    rw [xmlLines_eq, xmlLines_eq] at h
    simp only [List.append_assoc, List.cons_append] at h
    obtain ⟨tag, h⟩ := prefix_unique tagA.2 tagB.2 (isNameChar_head? _ _ _ _)
      (isNameChar_head? _ _ _ _) (List.cons.inj (List.append_cancel_left h)).2
    have tag := String.toList_inj.1 tag
    obtain ⟨attributes, h⟩ := xmlAttributes_unique entriesA entriesB
      (by rcases a.head?_xmlBody depth r with head | head <;> simp [head])
      (by rcases b.head?_xmlBody depth s with head | head <;> simp [head]) h
    obtain ⟨text, children, rest⟩ := xmlBody_unique ha hb tag (fun c hc d hd r s =>
      ih c hc (depth + 1) d r s (childrenA c hc) (childrenB d hd)) h
    exact ⟨withoutEmptyTexts_eq_iff.2 ⟨tag, attributes, text, children⟩, rest⟩

/-- Named elements are written alike exactly when they are the same but for empty texts. -/
theorem toXml_eq_iff {a b : Element} (ha : a.IsNamed) (hb : b.IsNamed) :
    a.toXml = b.toXml ↔ a.withoutEmptyTexts = b.withoutEmptyTexts := by
  rw [toXml, toXml, String.ofList_inj]
  constructor
  · intro h
    exact (xmlLines_unique a 0 b [] [] ha hb (by rw [h])).1
  · intro h
    rw [← xmlLines_withoutEmptyTexts a, h, xmlLines_withoutEmptyTexts]

end Element

end AccessPolicy
