import Groundwork.Tree.Node

/-!
# `Tree.Basic` — document trees

A tree keeps its nodes in one array, in order of creation; a node's number is its place there. Node
0 stands for the document and is always present. Nodes are only added, one at a time, as last child
of a node already there; so the number of a node is above that of its parent.

## Contents

* `Tree`, `Tree.empty`, `Tree.get?` — trees and their nodes.
* `Tree.modify`, `Tree.appendChild` — the two changes that all others are made of.
* `Tree.childDepth?` — whether a node may have another child, and how deep that would lie.
* `Tree.get?_modify`, `Tree.get?_push` — which node a change shows in.
-/

namespace Groundwork

open Xml

/-- The nodes of a document, the document's own in front. -/
structure Tree where
  nodes : Array Node
  size_pos : 0 < nodes.size
  deriving DecidableEq, Repr

namespace Tree

/-- The node of the document as a whole. -/
def root : NodeId := 0

/-- The greatest depth of a node; the document lies at depth 0. -/
def maxDepth : Nat := 65535

/-- The tree of a document without content. -/
def empty : Tree := ⟨#[Node.document], by simp⟩

instance : Inhabited Tree := ⟨empty⟩

/-! ## Looking at nodes -/

/-- The number of nodes. -/
def size (tree : Tree) : Nat := tree.nodes.size

/-- A node by its number. -/
def get? (tree : Tree) (id : NodeId) : Option Node := tree.nodes[id]?

/-- The node of the document. -/
def documentNode (tree : Tree) : Node :=
  have := tree.size_pos
  tree.nodes[root]

/-- The document has neither children nor attributes. -/
def isEmpty (tree : Tree) : Bool :=
  !tree.documentNode.hasChildren && !tree.documentNode.hasAttributes

/-- The name of a node. -/
def name? (tree : Tree) (id : NodeId) : Option String := (tree.get? id).map (·.name)

/-- The value of a node. -/
def value? (tree : Tree) (id : NodeId) : Option String := (tree.get? id).map (·.value)

/-- The attributes of a node; none, if there is no such node. -/
def attributes (tree : Tree) (id : NodeId) : List Attribute :=
  match tree.get? id with
  | some node => node.attributes
  | none => []

/-- The value of a node's attribute. -/
def attribute? (tree : Tree) (id : NodeId) (name : String) : Option String :=
  (tree.get? id).bind (·.attribute? name)

/-! ## Changing nodes -/

/-- Changes one node, if it is there. -/
def modify (tree : Tree) (id : NodeId) (change : Node → Node) : Tree :=
  ⟨tree.nodes.modify id change, by simpa using tree.size_pos⟩

/-- Adds a node behind all others, linked to nothing. -/
def push (tree : Tree) (node : Node) : Tree := ⟨tree.nodes.push node, by simp⟩

/-- Adds a node as the last child of `parent`. Its number is the number of nodes before. -/
def appendChild (tree : Tree) (parent : NodeId) (node : Node) : Tree :=
  let id := tree.size
  match (tree.get? parent).bind (·.lastChild) with
  | some last =>
    ((tree.push { node with previous := some last }).modify last fun sibling =>
      { sibling with next := some id }).modify parent fun parent =>
        { parent with lastChild := some id }
  | none =>
    (tree.push node).modify parent fun parent =>
      { parent with firstChild := some id, lastChild := some id }

/-- The depth that a new child of a node would have, if the node may have one. -/
def childDepth? (tree : Tree) (parent : NodeId) : Option Nat :=
  match tree.get? parent with
  | some node => if node.isContainer && node.depth < maxDepth then some (node.depth + 1) else none
  | none => none

/-! ## What a change shows -/

@[simp] theorem size_empty : empty.size = 1 := rfl

theorem get?_empty (id : NodeId) :
    empty.get? id = if id = root then some Node.document else none := by
  cases id <;> rfl

/-- The nodes of a tree are those with a number below its size. -/
theorem get?_eq_none_iff {tree : Tree} {id : NodeId} : tree.get? id = none ↔ tree.size ≤ id :=
  Array.getElem?_eq_none_iff

@[simp] theorem size_modify (tree : Tree) (id : NodeId) (change : Node → Node) :
    (tree.modify id change).size = tree.size :=
  Array.size_modify

/-- A change to a node shows in that node alone. -/
theorem get?_modify (tree : Tree) (id other : NodeId) (change : Node → Node) :
    (tree.modify id change).get? other =
      if id = other then (tree.get? other).map change else tree.get? other :=
  Array.getElem?_modify

@[simp] theorem size_push (tree : Tree) (node : Node) : (tree.push node).size = tree.size + 1 :=
  Array.size_push node

/-- A new node lies behind all others and changes none of them. -/
theorem get?_push (tree : Tree) (node : Node) (id : NodeId) :
    (tree.push node).get? id = if id = tree.size then some node else tree.get? id :=
  Array.getElem?_push

@[simp] theorem size_appendChild (tree : Tree) (parent : NodeId) (node : Node) :
    (tree.appendChild parent node).size = tree.size + 1 := by
  unfold appendChild
  split <;> simp

end Tree

end Groundwork
