import Groundwork.Proofs.Tree.Copy
import Groundwork.Proofs.Xml.AttributeChange

/-!
# `Proofs.Tree.Attributes` — the attributes of an element

A tree changes the attributes of an element just as a list of attributes is changed, as long as the
change is asked for under a name and of an element; every other call is refused and leaves the tree
as it was. Since the names in each element of a tree that can be reached are names, and distinct, a
run of such changes treats the element as a map that keeps the order of insertion. What is written
for it at the end is read back to the same attributes, in the same order.

## Contents

* `Edit.ofChange`, `changeAttributes` — changes of attributes as changes of the tree.
* `get?_apply_ofChange`, `get?_changeAttributes` — **a step and a run, seen on the nodes.**
* `named_of_formed`, `refused_of_not_isElement` — which nodes have attributes.
* `AttributesOf` — **what holds of an element's attributes after a history of changes.**
* `attributesOf_of_reached` — it holds after every run, in every tree that is reached.
-/

namespace Groundwork

open Text Xml

namespace Tree

/-! ## Changes of attributes in a tree -/

/-- The change of a tree that changes the attributes of a node. -/
def Edit.ofChange (id : NodeId) : Attribute.Change → Edit
  | .put name value => .setAttribute id name value
  | .remove name => .removeAttribute id name

/-- A tree after some changes to the attributes of one node. -/
def changeAttributes (tree : Tree) (id : NodeId) (changes : List Attribute.Change) : Tree :=
  (changes.map (Edit.ofChange id)).foldl Edit.apply tree

theorem attribute?_eq {tree : Tree} {id : NodeId} {node : Node} (hnode : tree.get? id = some node)
    (name : String) : tree.attribute? id name = Attribute.get? name node.attributes := by
  rw [attribute?, hnode]
  rfl

theorem attributes_eq {tree : Tree} {id : NodeId} {node : Node} (hnode : tree.get? id = some node) :
    tree.attributes id = node.attributes := by
  rw [attributes, hnode]

theorem setAttribute?_eq {tree : Tree} {id : NodeId} {node : Node}
    (hnode : tree.get? id = some node) (helement : node.isElement = true) (name value : String) :
    tree.setAttribute? id name value =
      if isName name.toList then some (tree.modify id (·.setAttribute name value)) else none := by
  rw [setAttribute?, hnode, Option.any_some, helement, Bool.and_true]

theorem removeAttribute?_eq {tree : Tree} {id : NodeId} {node : Node}
    (hnode : tree.get? id = some node) (name : String) :
    tree.removeAttribute? id name = (Attribute.get? name node.attributes).map fun value =>
      (value, tree.modify id (·.removeAttribute name)) := by
  rw [removeAttribute?, attribute?_eq hnode]

theorem get?_modify_of_get? {tree : Tree} {id : NodeId} {node : Node}
    (hnode : tree.get? id = some node) (change : Node → Node) (other : NodeId) :
    (tree.modify id change).get? other =
      if id = other then some (change node) else tree.get? other := by
  rw [get?_modify]
  split
  · next hid => rw [← hid, hnode, Option.map_some]
  · rfl

/-- **A change of attributes shows in them alone**, and there as a change of the list. -/
theorem get?_apply_ofChange {tree : Tree} {id : NodeId} {node : Node}
    (hnode : tree.get? id = some node) (helement : node.isElement = true)
    (change : Attribute.Change) (other : NodeId) :
    ((Edit.ofChange id change).apply tree).get? other =
      if id = other then some { node with attributes := change.apply node.attributes }
      else tree.get? other := by
  have hsame : tree.get? other = if id = other then some node else tree.get? other := by
    split
    · next hid => rw [← hid, hnode]
    · rfl
  cases change with
  | put name value =>
    show ((tree.setAttribute? id name value).getD tree).get? other = _
    rw [setAttribute?_eq hnode helement, Attribute.Change.apply]
    split
    · exact get?_modify_of_get? hnode _ other
    · exact hsame
  | remove name =>
    show (((tree.removeAttribute? id name).map (·.2)).getD tree).get? other = _
    rw [removeAttribute?_eq hnode, Attribute.Change.apply]
    cases hfound : Attribute.get? name node.attributes with
    | some value => exact get?_modify_of_get? hnode _ other
    | none =>
      rw [Attribute.remove_of_get?_eq_none hfound]
      exact hsame

/-- **A run of changes** shows in the attributes alone. -/
theorem get?_changeAttributes {tree : Tree} {id : NodeId} {node : Node}
    (hnode : tree.get? id = some node) (helement : node.isElement = true)
    (changes : List Attribute.Change) (other : NodeId) :
    (tree.changeAttributes id changes).get? other =
      if id = other then some { node with attributes := Attribute.run node.attributes changes }
      else tree.get? other := by
  induction changes generalizing tree node with
  | nil =>
    show tree.get? other = _
    split
    · next hid => rw [← hid, hnode]; rfl
    · rfl
  | cons change changes ih =>
    have hstep := get?_apply_ofChange hnode helement change
    have hnext : ((Edit.ofChange id change).apply tree).get? id =
        some { node with attributes := change.apply node.attributes } := by
      rw [hstep, if_pos rfl]
    show (((Edit.ofChange id change).apply tree).changeAttributes id changes).get? other = _
    rw [ih hnext helement, hstep]
    split <;> rfl

/-! ## Which nodes have attributes -/

/-- Only elements are made with attributes, or given any. -/
theorem attributes_eq_nil_of_formed {label : Label} (h : label.Formed)
    (hkind : label.kind ≠ .element) : label.attributes = [] := by
  obtain ⟨value, hvalid⟩ := h
  unfold Label.Valid at hvalid
  cases hlabel : label.kind with
  | document =>
    rw [hlabel] at hvalid
    exact congrArg Label.attributes hvalid
  | element => exact absurd hlabel hkind
  | comment =>
    rw [hlabel] at hvalid
    exact hvalid.2.1
  | instruction =>
    rw [hlabel] at hvalid
    exact hvalid.1

theorem named_of_formed {label : Label} (h : label.Formed) : Attribute.Named label.attributes := by
  by_cases hkind : label.kind = .element
  · obtain ⟨value, hvalid⟩ := h
    rw [Label.Valid, hkind] at hvalid
    exact hvalid.2
  · rw [attributes_eq_nil_of_formed h hkind]
    exact Attribute.named_nil

/-- A node that is no element is given no attribute and has none to remove, and neither is one that
is not there. -/
theorem refused_of_not_isElement {tree : Tree} (h : tree.All Label.Formed) {id : NodeId}
    (helement : ∀ node, tree.get? id = some node → node.isElement = false) (name value : String) :
    tree.setAttribute? id name value = none ∧ tree.removeAttribute? id name = none := by
  cases hnode : tree.get? id with
  | none => simp [setAttribute?, removeAttribute?, attribute?, hnode]
  | some node =>
    have hno : node.isElement = false := helement node hnode
    have hkind : node.label.kind ≠ .element := by simpa [Node.isElement, Node.label] using hno
    have hnone : node.attributes = [] := attributes_eq_nil_of_formed (h id node hnode) hkind
    constructor
    · rw [setAttribute?, hnode, Option.any_some, hno, Bool.and_false]
      rfl
    · rw [removeAttribute?_eq hnode, hnone]
      rfl

/-- Changes that are all refused leave the tree as it was. -/
theorem changeAttributes_of_refused {tree : Tree} {id : NodeId}
    (h : ∀ name value, tree.setAttribute? id name value = none ∧
      tree.removeAttribute? id name = none) (changes : List Attribute.Change) :
    tree.changeAttributes id changes = tree := by
  induction changes with
  | nil => rfl
  | cons change changes ih =>
    have hstep : (Edit.ofChange id change).apply tree = tree := by
      cases change with
      | put name value => rw [Edit.ofChange, Edit.apply, (h name value).1]; rfl
      | remove name => rw [Edit.ofChange, Edit.apply, (h name "").2]; rfl
    show changeAttributes ((Edit.ofChange id change).apply tree) id changes = tree
    rw [hstep, ih]

/-! ## The attributes of an element -/

/-- What holds of the attributes of an element that stands in a tree as `node`, if they have come
about through this history of changes. -/
structure AttributesOf (tree : Tree) (id : NodeId) (node : Node)
    (history : List Attribute.Change) : Prop where
  /-- The names are names and pairwise distinct. -/
  named : Attribute.Named node.attributes
  /-- Under a name stands the last value that was put there and not removed. -/
  attribute?_iff : ∀ name value,
    tree.attribute? id name = some value ↔ Attribute.LastPut name value history
  /-- Names stand in the order in which they came in. -/
  order : ∀ first second, [first, second].Sublist (Attribute.names node.attributes) ↔
    Attribute.CameBefore first second history
  /-- A value goes to the place of the one before it, or to the end. -/
  set : ∀ name value, isName name.toList = true →
    ∃ next, tree.setAttribute? id name value = some next ∧
      Attribute.PutsIn name value node.attributes (next.attributes id)
  /-- What is no name is refused. -/
  refused : ∀ name value, isName name.toList = false → tree.setAttribute? id name value = none
  /-- A name that is removed gives its value and leaves the others in their order. -/
  remove : ∀ name value, tree.attribute? id name = some value →
    ∃ next, tree.removeAttribute? id name = some (value, next) ∧
      Attribute.TakesOut name value node.attributes (next.attributes id)
  /-- What is not there is not removed. -/
  absent : ∀ name, tree.attribute? id name = none → tree.removeAttribute? id name = none
  /-- What is written for the attributes is read back. -/
  written : ∃ inside, (printTagStart node).toList = '<' :: (node.name.toList ++ inside) ∧
    Attribute.readAll inside = .ok node.attributes

theorem attributesOf_of_get? {tree : Tree} {id : NodeId} {node : Node}
    (hnode : tree.get? id = some node) (helement : node.isElement = true)
    {history : List Attribute.Change} (hattributes : node.attributes = Attribute.run [] history) :
    tree.AttributesOf id node history where
  named := hattributes ▸ Attribute.named_nil.run history
  attribute?_iff name value := by
    rw [attribute?_eq hnode, hattributes, Attribute.get?_run_iff]
  order first second := by
    rw [hattributes, Attribute.sublist_names_run_iff]
  set name value hname := by
    refine ⟨tree.modify id (·.setAttribute name value), ?_, ?_⟩
    · rw [setAttribute?_eq hnode helement, if_pos hname]
    · rw [attributes_eq (by rw [get?_modify_of_get? hnode, if_pos rfl])]
      exact Attribute.putsIn_put name value node.attributes
  refused name value hname := by
    rw [setAttribute?_eq hnode helement, hname]
    rfl
  remove name value hvalue := by
    rw [attribute?_eq hnode] at hvalue
    refine ⟨tree.modify id (·.removeAttribute name), ?_, ?_⟩
    · rw [removeAttribute?_eq hnode, hvalue, Option.map_some]
    · rw [attributes_eq (by rw [get?_modify_of_get? hnode, if_pos rfl])]
      exact Attribute.takesOut_remove hvalue
  absent name hnone := by
    rw [attribute?_eq hnode] at hnone
    rw [removeAttribute?_eq hnode, hnone, Option.map_none]
  written := by
    refine ⟨_, toList_printTagStart node, Attribute.readAll_spellAll ?_⟩
    exact hattributes ▸ Attribute.named_nil.run history

/-- **The attributes of an element act as a map that keeps the order of insertion.** After any run
of changes to the attributes of an element of a tree that is reached, nothing but these attributes
has changed, and they are those of the history of changes, which starts with the values that the
element had at first. Where no element is, every such change is refused, and the tree stays as it
was. -/
theorem attributesOf_of_reached {allowed : Tree → Edit → Prop} {tree : Tree}
    (h : Reached allowed tree) (id : NodeId) (changes : List Attribute.Change) :
    (∀ node, tree.get? id = some node → node.isElement = true →
      let after := tree.changeAttributes id changes
      let last := { node with attributes := Attribute.run node.attributes changes }
      (∀ other, after.get? other = if id = other then some last else tree.get? other) ∧
        after.AttributesOf id last (Attribute.madeOf node.attributes ++ changes)) ∧
    ((∀ node, tree.get? id = some node → node.isElement = false) →
      tree.changeAttributes id changes = tree ∧ ∀ name value,
        tree.setAttribute? id name value = none ∧ tree.removeAttribute? id name = none) := by
  have hformed : tree.All Label.Formed := h.all_formed
  constructor
  · intro node hnode helement after last
    have hnamed : Attribute.Named node.attributes := named_of_formed (hformed id node hnode)
    have hafter : ∀ other, after.get? other = if id = other then some last else tree.get? other :=
      get?_changeAttributes hnode helement changes
    have hlast : after.get? id = some last := by rw [hafter, if_pos rfl]
    exact ⟨hafter, attributesOf_of_get? hlast helement (Attribute.run_eq hnamed changes)⟩
  · intro helement
    have hrefused := refused_of_not_isElement hformed helement
    exact ⟨changeAttributes_of_refused hrefused changes, hrefused⟩

/-- Two attributes that were parsed, one of them given a new value and the other removed and put
again; a third; and a value for what is no name. -/
theorem attributesOf_of_reached_parsed :
    let changes : List Attribute.Change :=
      [.put "c" "<", .remove "a", .put "b" "3", .put "1" "x", .put "a" "\n"]
    let history : List Attribute.Change := [.put "a" "1", .put "b" "2"] ++ changes
    ∃ (tree : Tree) (node : Node), parse "<r a='1' b='2'/>" = .ok tree ∧
      tree.get? 1 = some node ∧ node.isElement = true ∧
      (tree.changeAttributes 1 changes).attributes 1 = [⟨"b", "3"⟩, ⟨"c", "<"⟩, ⟨"a", "\n"⟩] ∧
      Attribute.LastPut "a" "\n" history ∧ Attribute.CameBefore "c" "a" history ∧
      (tree.changeAttributes 1 changes).get? 0 = tree.get? 0 ∧
      (tree.changeAttributes 0 changes) = tree := by
  intro changes history
  let node : Node :=
    { Node.element "r" (some 0) 1 with attributes := [⟨"a", "1"⟩, ⟨"b", "2"⟩] }
  have hparse : parse "<r a='1' b='2'/>" =
      .ok (Forest.tree (.cons ⟨.element, "r", "", [⟨"a", "1"⟩, ⟨"b", "2"⟩]⟩ .nil .nil)) := by
    decide +kernel
  generalize htree : Forest.tree (.cons ⟨.element, "r", "", [⟨"a", "1"⟩, ⟨"b", "2"⟩]⟩ .nil .nil)
    = tree at hparse
  have hnode : tree.get? 1 = some node := by rw [← htree]; decide +kernel
  have hdocument : ∀ found, tree.get? 0 = some found → found.isElement = false := by
    rw [← htree]
    rintro found hfound
    obtain rfl := Option.some.inj hfound
    rfl
  have hreached : Reached (fun _ _ => True) tree := .parsed hparse
  obtain ⟨hafter, hlaws⟩ := (attributesOf_of_reached hreached 1 changes).1 node hnode rfl
  have hlast := (hlaws.attribute?_iff "a" "\n").1 (by rw [attribute?_eq (hafter 1)]; decide +kernel)
  have horder := (hlaws.order "c" "a").1 (by decide +kernel)
  refine ⟨tree, node, hparse, hnode, rfl, ?_, hlast, horder, hafter 0, ?_⟩
  · rw [attributes_eq (hafter 1)]
    decide +kernel
  · exact ((attributesOf_of_reached hreached 0 changes).2 hdocument).1

end Tree

end Groundwork
