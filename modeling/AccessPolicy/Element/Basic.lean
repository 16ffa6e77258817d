import AccessPolicy.Element.Attributes

/-!
# Elements

An element is a labelled tree: a tag, attributes, an optional text and children
in order. Policies, snapshots of a network and the results of queries all come
in this shape. Two elements are the same when they agree in every part, and
whether they do is decidable.
-/

namespace AccessPolicy

/-- A labelled tree. -/
structure Element where
  tag : String
  attributes : Attributes := Attributes.empty
  text : Option String := none
  children : List Element := []

namespace Element

instance : Inhabited Element := ⟨⟨"", .empty, none, []⟩⟩

/-! ## Equality -/

mutual

/-- Whether two elements agree in every part. -/
def agrees : Element → Element → Bool
  | ⟨tag, attributes, text, children⟩, ⟨tag', attributes', text', children'⟩ =>
    tag == tag' && attributes == attributes' && text == text' && agreeAll children children'

/-- Whether two lists of elements agree. -/
def agreeAll : List Element → List Element → Bool
  | [], [] => true
  | e :: es, e' :: es' => agrees e e' && agreeAll es es'
  | _, _ => false

end

mutual

theorem agrees_iff_eq : ∀ a b : Element, agrees a b = true ↔ a = b
  | ⟨tag, attributes, text, children⟩, ⟨tag', attributes', text', children'⟩ => by
    simp [agrees, agreeAll_iff_eq children children', and_assoc]

theorem agreeAll_iff_eq : ∀ as bs : List Element, agreeAll as bs = true ↔ as = bs
  | [], [] => by simp [agreeAll]
  | [], _ :: _ => by simp [agreeAll]
  | _ :: _, [] => by simp [agreeAll]
  | a :: as, b :: bs => by simp [agreeAll, agrees_iff_eq a b, agreeAll_iff_eq as bs]

end

instance : DecidableEq Element := fun a b =>
  decidable_of_iff (agrees a b = true) (agrees_iff_eq a b)

/-! ## Induction -/

mutual

/-- What passes from the children to the element above them holds of all elements. -/
theorem inductionOn {motive : Element → Prop}
    (step : ∀ e, (∀ child ∈ e.children, motive child) → motive e) : ∀ e, motive e
  | ⟨tag, attributes, text, children⟩ =>
    step ⟨tag, attributes, text, children⟩ (inductionOnAll step children)

theorem inductionOnAll {motive : Element → Prop}
    (step : ∀ e, (∀ child ∈ e.children, motive child) → motive e) :
    ∀ (es : List Element), ∀ e ∈ es, motive e
  | [], _, he => absurd he List.not_mem_nil
  | first :: es, e, he => by
    rcases List.mem_cons.1 he with he | he
    · rw [he]
      exact inductionOn step first
    · exact inductionOnAll step es e he

end

/-! ## Building -/

/-- An element with a tag and nothing else. -/
def ofTag (tag : String) : Element := ⟨tag, .empty, none, []⟩

/-- Sets an attribute. -/
def withAttribute (e : Element) (key value : String) : Element :=
  { e with attributes := e.attributes.insert key value }

/-- Sets an attribute if there is a value for it. -/
def withAttribute? (e : Element) (key : String) : Option String → Element
  | some value => e.withAttribute key value
  | none => e

/-- Sets the text. -/
def withText (e : Element) (text : String) : Element :=
  { e with text := some text }

/-- Appends children. -/
def withChildren (e : Element) (children : List Element) : Element :=
  { e with children := e.children ++ children }

/-- Appends a child. -/
def withChild (e : Element) (child : Element) : Element :=
  e.withChildren [child]

/-! ## Looking up -/

/-- The value of an attribute. -/
def attribute? (e : Element) (key : String) : Option String :=
  e.attributes.get? key

section

variable (e : Element) (tag key value other : String) (value? : Option String)
  (es : List Element)

@[simp] theorem tag_ofTag : (ofTag tag).tag = tag := rfl

@[simp] theorem text_ofTag : (ofTag tag).text = none := rfl

@[simp] theorem children_ofTag : (ofTag tag).children = [] := rfl

@[simp] theorem attribute?_ofTag : (ofTag tag).attribute? key = none := rfl

@[simp] theorem tag_withAttribute : (e.withAttribute key value).tag = e.tag := rfl

@[simp] theorem text_withAttribute : (e.withAttribute key value).text = e.text := rfl

@[simp] theorem children_withAttribute :
    (e.withAttribute key value).children = e.children := rfl

@[simp] theorem attribute?_withAttribute : (e.withAttribute key value).attribute? other =
    if other = key then some value else e.attribute? other :=
  e.attributes.get?_insert key value other

@[simp] theorem tag_withAttribute? : (e.withAttribute? key value?).tag = e.tag := by
  cases value? <;> rfl

@[simp] theorem text_withAttribute? : (e.withAttribute? key value?).text = e.text := by
  cases value? <;> rfl

@[simp] theorem children_withAttribute? :
    (e.withAttribute? key value?).children = e.children := by
  cases value? <;> rfl

@[simp] theorem attribute?_withAttribute? : (e.withAttribute? key value?).attribute? other =
    if other = key then value?.or (e.attribute? other) else e.attribute? other := by
  cases value? with
  | none => exact (ite_self _).symm
  | some value => exact attribute?_withAttribute e key value other

@[simp] theorem tag_withChildren : (e.withChildren es).tag = e.tag := rfl

@[simp] theorem text_withChildren : (e.withChildren es).text = e.text := rfl

@[simp] theorem attribute?_withChildren :
    (e.withChildren es).attribute? key = e.attribute? key := rfl

@[simp] theorem children_withChildren :
    (e.withChildren es).children = e.children ++ es := rfl

theorem withChildren_withChildren (fs : List Element) :
    (e.withChildren es).withChildren fs = e.withChildren (es ++ fs) := by
  rw [withChildren, withChildren, withChildren, List.append_assoc]

end

/-- The first child with a tag. -/
def child? (e : Element) (tag : String) : Option Element :=
  e.children.find? fun child => child.tag == tag

/-- The children with a tag. -/
def childrenNamed (e : Element) (tag : String) : List Element :=
  e.children.filter fun child => child.tag == tag

mutual

/-- The element and all below it, each before its children. -/
def preorder : Element → List Element
  | ⟨tag, attributes, text, children⟩ =>
    ⟨tag, attributes, text, children⟩ :: preorderAll children

/-- All elements of a list of trees, each before its children. -/
def preorderAll : List Element → List Element
  | [] => []
  | e :: es => preorder e ++ preorderAll es

end

theorem preorderAll_eq_flatMap (es : List Element) : preorderAll es = es.flatMap preorder := by
  induction es with
  | nil => rfl
  | cons e es ih => rw [preorderAll, ih, List.flatMap_cons]

/-- The nodes of a tree are its root and those of the trees below it. -/
theorem mem_preorder {e f : Element} :
    f ∈ e.preorder ↔ f = e ∨ ∃ child ∈ e.children, f ∈ child.preorder := by
  cases e
  rw [preorder, List.mem_cons, preorderAll_eq_flatMap, List.mem_flatMap]

end Element

end AccessPolicy
