import Groundwork.Proofs.Tree.Rooted
import Groundwork.Proofs.Xml.Lexeme
import Groundwork.Tree.Edit

/-!
# `Proofs.Tree.Change` — all that a change can do

Each kind of change has checks of its own, and a change that does not pass them is refused. What the
others do to a tree is only one of a few things, and how the checks are made is of no interest for
what follows from them. So whatever changes keep has to be shown for each of these things, and not
for each kind of change.

## Contents

* `Edit`, `Edit.apply` — the changes, and what is left of a tree after one.
* `Addition`, `Addition.append?_eq_some_iff` — the nodes that can be added, and when they are.
* `Edit.Effect`, `Edit.effect` — **all that a change can do.**
-/

namespace Groundwork

open Text Xml

theorem Node.isElement_iff {node : Node} :
    node.isElement = true ↔ node.label.kind = .element := decide_eq_true_iff

namespace Tree

/-! ## Changes -/

/-- A change to a tree. -/
inductive Edit where
  | appendElement (parent : NodeId) (name : String)
  | appendTextElement (parent : NodeId) (name value : String)
  | appendComment (parent : NodeId) (text : String)
  | appendInstruction (parent : NodeId) (target data : String)
  | setValue (id : NodeId) (value : String)
  | setAttribute (id : NodeId) (name value : String)
  | removeAttribute (id : NodeId) (name : String)
  /-- One value for all selected elements. -/
  | setValues (selector : Selector) (value : String)
  /-- Starts anew. -/
  | clear
  deriving DecidableEq, Repr

/-- The tree after a change; a change that is refused leaves it as it was. -/
def Edit.apply (tree : Tree) : Edit → Tree
  | .appendElement parent name => ((tree.appendElement? parent name).map (·.2)).getD tree
  | .appendTextElement parent name value =>
    ((tree.appendTextElement? parent name value).map (·.2)).getD tree
  | .appendComment parent text => ((tree.appendComment? parent text).map (·.2)).getD tree
  | .appendInstruction parent target data =>
    ((tree.appendInstruction? parent target data).map (·.2)).getD tree
  | .setValue id value => (tree.setValue? id value).getD tree
  | .setAttribute id name value => (tree.setAttribute? id name value).getD tree
  | .removeAttribute id name => ((tree.removeAttribute? id name).map (·.2)).getD tree
  | .setValues selector value => tree.setValues (tree.select selector) value
  | .clear => empty

/-! ## What can be added -/

/-- A node to be added to a tree. -/
inductive Addition where
  | element (name : String)
  | textElement (name value : String)
  | comment (text : String)
  | instruction (target data : String)
  deriving DecidableEq, Repr

namespace Addition

/-- Adds the node as the last child of `parent`, unless it is refused. -/
def append? (tree : Tree) (parent : NodeId) : Addition → Option (NodeId × Tree)
  | element name => tree.appendElement? parent name
  | textElement name value => tree.appendTextElement? parent name value
  | comment text => tree.appendComment? parent text
  | instruction target data => tree.appendInstruction? parent target data

/-- The change that adds the node. -/
def edit (parent : NodeId) : Addition → Edit
  | element name => .appendElement parent name
  | textElement name value => .appendTextElement parent name value
  | comment text => .appendComment parent text
  | instruction target data => .appendInstruction parent target data

/-- The label that the node gets. -/
def label : Addition → Label
  | element name => ⟨.element, name, "", []⟩
  | textElement name value => ⟨.element, name, value, []⟩
  | comment text => ⟨.comment, "", text, []⟩
  | instruction target data => ⟨.instruction, target, data, []⟩

/-- The texts of the node are such as its kind may have. -/
def Allowed : Addition → Prop
  | element name | textElement name _ => isName name.toList = true
  | comment text => ¬ ['-', '-'] <:+: text.toList ∧ text.toList.getLast? ≠ some '-'
  | instruction target data =>
    isName target.toList = true ∧ isReserved target.toList = false ∧
      ¬ instructionEnd <:+: data.toList

/-- All additions are made in the same way: the texts are checked, and then the parent is. -/
theorem append?_eq_some_iff {tree after : Tree} {parent id : NodeId} {addition : Addition} :
    addition.append? tree parent = some (id, after) ↔ addition.Allowed ∧
      (tree.appendNode? parent fun parent depth => Entry.unlinked ⟨parent, depth, addition.label⟩) =
        some (id, after) := by
  cases addition with
  | element name =>
    rw [append?, appendElement?, Option.ite_none_right_eq_some]
    rfl
  | textElement name value =>
    rw [append?, appendTextElement?, Option.ite_none_right_eq_some]
    rfl
  | comment text =>
    rw [append?, appendComment?, Option.ite_none_right_eq_some, Lexeme.isCommentBody_iff]
    rfl
  | instruction target data =>
    rw [append?, appendInstruction?, Option.ite_none_right_eq_some]
    simp only [Bool.and_eq_true, Bool.not_eq_true', contains_eq_false_iff]
    exact and_congr_left fun _ => and_assoc

theorem apply_edit (tree : Tree) (parent : NodeId) (addition : Addition) :
    (addition.edit parent).apply tree = ((addition.append? tree parent).map (·.2)).getD tree := by
  cases addition <;> rfl

theorem kind_label_ne (addition : Addition) : addition.label.kind ≠ .document := by
  cases addition <;> exact fun h => nomatch h

/-- **What is allowed can be written.** -/
theorem Allowed.valid {addition : Addition} (h : addition.Allowed) : addition.label.Valid := by
  cases addition with
  | element name => exact ⟨h, Attribute.named_nil⟩
  | textElement name value => exact ⟨h, Attribute.named_nil⟩
  | comment text => exact ⟨rfl, rfl, Lexeme.isCommentBody_iff.2 h⟩
  | instruction target data => exact ⟨rfl, h⟩

end Addition

/-! ## What a change does -/

/-- What one change can make of a tree. -/
inductive Edit.Effect (tree : Tree) : Edit → Tree → Prop where
  /-- Nothing, if it is refused. -/
  | refused (edit : Edit) : Effect tree edit tree
  /-- A new last child for a node that has room for one. -/
  | added {parent : NodeId} {addition : Addition} {depth : Nat} (hallowed : addition.Allowed)
      (hdepth : tree.childDepth? parent = some depth) :
      Effect tree (addition.edit parent)
        (tree.appendChild parent (Entry.unlinked ⟨some parent, depth, addition.label⟩))
  /-- A value for one node. -/
  | valued {id : NodeId} {node : Node} (hnode : tree.get? id = some node) (value : String) :
      Effect tree (.setValue id value) (tree.modify id fun node => { node with value })
  /-- A value for each of the selected nodes. -/
  | selected (selector : Selector) (value : String) :
      Effect tree (.setValues selector value) (tree.setValues (tree.select selector) value)
  /-- An attribute for an element. -/
  | put {id : NodeId} {node : Node} {name : String} (hnode : tree.get? id = some node)
      (helement : node.isElement = true) (hname : isName name.toList = true) (value : String) :
      Effect tree (.setAttribute id name value) (tree.modify id (·.setAttribute name value))
  /-- One attribute less. -/
  | removed {id : NodeId} {name value : String} (hvalue : tree.attribute? id name = some value) :
      Effect tree (.removeAttribute id name) (tree.modify id (·.removeAttribute name))
  /-- Nothing is left but the document. -/
  | cleared : Effect tree .clear empty

variable {tree : Tree}

theorem Addition.effect (tree : Tree) (parent : NodeId) (addition : Addition) :
    (addition.edit parent).Effect tree ((addition.edit parent).apply tree) := by
  rw [apply_edit]
  cases happend : addition.append? tree parent with
  | none => exact .refused _
  | some pair =>
    obtain ⟨id, after⟩ := pair
    obtain ⟨hallowed, hadded⟩ := append?_eq_some_iff.1 happend
    obtain ⟨depth, hdepth, hpair⟩ := Option.map_eq_some_iff.1 hadded
    obtain ⟨rfl, rfl⟩ := Prod.mk.inj hpair
    exact .added hallowed hdepth

/-- **All that a change can do**, and which checks it has passed then. -/
theorem Edit.effect (tree : Tree) (edit : Edit) : edit.Effect tree (edit.apply tree) := by
  cases edit with
  | appendElement parent name => exact Addition.effect tree parent (.element name)
  | appendTextElement parent name value =>
    exact Addition.effect tree parent (.textElement name value)
  | appendComment parent text => exact Addition.effect tree parent (.comment text)
  | appendInstruction parent target data =>
    exact Addition.effect tree parent (.instruction target data)
  | setValue id value =>
    rw [apply, setValue?]
    cases hnode : tree.get? id with
    | none => exact .refused _
    | some node => exact .valued hnode value
  | setAttribute id name value =>
    rw [apply, setAttribute?]
    split
    · next hset =>
      rw [Bool.and_eq_true, Option.any_eq_true] at hset
      obtain ⟨hname, node, hnode, helement⟩ := hset
      exact .put hnode helement hname value
    · exact .refused _
  | removeAttribute id name =>
    rw [apply, removeAttribute?]
    cases hvalue : tree.attribute? id name with
    | none => exact .refused _
    | some value => exact .removed hvalue
  | setValues selector value => exact .selected selector value
  | clear => exact .cleared

/-- Only elements are selected. -/
theorem isElement_of_mem_select {selector : Selector} {id : NodeId} {node : Node}
    (hid : id ∈ tree.select selector) (hnode : tree.get? id = some node) :
    node.isElement = true := by
  have hfound := (List.mem_filter.1 (List.mem_filter.1 hid).1).2
  rw [hnode, Option.any_some, Bool.and_eq_true] at hfound
  exact hfound.1

end Tree

end Groundwork
