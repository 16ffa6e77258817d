import AccessPolicy.Element.Order
import AccessPolicy.Proofs.Profile.Ordered

/-!
# Elements in order

The order of siblings is transitive, and of any two elements one may stand ahead of
the other. Putting an element in order puts each child in order by itself and then
sorts the children; its tag, its attributes and its text stay.
-/

namespace AccessPolicy

namespace Element

/-! ## The order of siblings -/

instance : Std.TransCmp compareSiblings := by
  have texts : Std.TransCmp fun a b : Element => comparePresent a.text b.text :=
    transCmp_on Element.text
  have names : Std.TransCmp fun a b : Element =>
      comparePresent (a.attribute? nameAttribute) (b.attribute? nameAttribute) :=
    transCmp_on fun e : Element => e.attribute? nameAttribute
  have attachments : Std.TransCmp fun a b : Element =>
      comparePresent a.firstAttachment? b.firstAttachment? := transCmp_on firstAttachment?
  exact inferInstanceAs (Std.TransCmp (compareLex
    (fun a b : Element => comparePresent a.text b.text) (compareLex (compareOn tag) (compareLex
      (fun a b => comparePresent (a.attribute? nameAttribute) (b.attribute? nameAttribute))
      fun a b => comparePresent a.firstAttachment? b.firstAttachment?))))

theorem siblingLE_trans (a b c : Element) (hab : (compareSiblings a b).isLE = true)
    (hbc : (compareSiblings b c).isLE = true) : (compareSiblings a c).isLE = true :=
  Std.TransCmp.isLE_trans hab hbc

theorem siblingLE_total (a b : Element) :
    ((compareSiblings a b).isLE || (compareSiblings b a).isLE) = true := by
  have swap : compareSiblings b a = (compareSiblings a b).swap := Std.OrientedCmp.eq_swap
  rw [swap]
  cases compareSiblings a b <;> rfl

/-- An element with a text comes before one without. -/
theorem compareSiblings_of_text {a b : Element} {text : String} (ha : a.text = some text)
    (hb : b.text = none) : compareSiblings a b = .lt := by
  rw [compareSiblings, ha, hb]
  rfl

/-- Of elements without text the one with the lesser tag comes first. -/
theorem compareSiblings_of_tags {a b : Element} (ha : a.text = none) (hb : b.text = none)
    (h : compare a.tag b.tag = .lt) : compareSiblings a b = .lt := by
  rw [compareSiblings, ha, hb, h]
  rfl

/-! ## Children in order -/

variable {e : Element}

/-- The elements, each put in order by itself, in the order of siblings. -/
def sortSiblings (es : List Element) : List Element :=
  (sortAll es).mergeSort fun a b => (compareSiblings a b).isLE

theorem sortAll_eq_map (es : List Element) : sortAll es = es.map sort := by
  induction es with
  | nil => rfl
  | cons e es ih => rw [sortAll, ih, List.map_cons]

theorem sort_withChildren (h : e.children = []) (es : List Element) :
    (e.withChildren es).sort = e.withChildren (sortSiblings es) := by
  obtain ⟨tag, attributes, text, children⟩ := e
  cases h
  show sort ⟨tag, attributes, text, es⟩ = ⟨tag, attributes, text, sortSiblings es⟩
  rw [sort, sortSiblings]

/-- An element without children is in order. -/
theorem sort_leaf (h : e.children = []) : e.sort = e := by
  obtain ⟨tag, attributes, text, children⟩ := e
  cases h
  rw [sort, sortAll, List.mergeSort_nil]

theorem sortSiblings_singleton (e : Element) : sortSiblings [e] = [e.sort] := by
  rw [sortSiblings, sortAll, sortAll, List.mergeSort_singleton]

/-- Elements that may all stand ahead of others are put in order by themselves. -/
theorem sortSiblings_append {xs ys : List Element}
    (h : ∀ x ∈ xs, ∀ y ∈ ys, (compareSiblings x.sort y.sort).isLE = true) :
    sortSiblings (xs ++ ys) = sortSiblings xs ++ sortSiblings ys := by
  simp only [sortSiblings, sortAll_eq_map, List.map_append]
  refine mergeSort_append siblingLE_trans siblingLE_total fun a ha b hb => ?_
  obtain ⟨x, hx, rfl⟩ := List.mem_map.1 ha
  obtain ⟨y, hy, rfl⟩ := List.mem_map.1 hb
  exact h x hx y hy

/-- What is written as elements that are in order is sorted as its elements are, if it
compares as they do. -/
theorem sortSiblings_map {α : Type} {write : α → Element} {le : α → α → Bool}
    (hsort : ∀ a, (write a).sort = write a)
    (hle : ∀ a b, le a b = (compareSiblings (write a) (write b)).isLE) (as : List α) :
    sortSiblings (as.map write) = (as.mergeSort le).map write := by
  have same : (as.map write).map sort = as.map write := by
    rw [List.map_map]
    exact List.map_congr_left fun a _ => hsort a
  rw [sortSiblings, sortAll_eq_map, same]
  exact (List.map_mergeSort fun a _ b _ => hle a b).symm

end Element

end AccessPolicy
