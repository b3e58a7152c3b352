import Groundwork.Xml.Attribute

/-!
# `Tree.Node` — the nodes of a document tree

Nodes refer to each other by number. A node knows its parent, its two neighbours and the two ends of
the chain of its children, so that children can be walked from either side; which of these links
agree with each other is a matter of the tree that the node is in.

## Contents

* `NodeId`, `NodeKind`, `Node` — the node and its parts.
* `Node.document`, `Node.element`, `Node.comment`, `Node.instruction` — nodes without neighbours.
* `Node.setAttribute`, `Node.removeAttribute`, `Node.attribute?` — its attributes, by name.
-/

namespace Groundwork

open Xml

/-- The number of a node in its tree. Numbers have no bound here; where they are kept in 32 bits,
they are the same as long as there are fewer than `2 ^ 32` nodes. -/
abbrev NodeId := Nat

/-- What a node stands for. -/
inductive NodeKind where
  /-- The document as a whole. -/
  | document
  /-- An element. -/
  | element
  /-- A comment. -/
  | comment
  /-- A processing instruction. -/
  | instruction
  deriving DecidableEq, Repr

/-- A node of a tree. An element's value is the text directly inside it, a comment's is the comment,
and an instruction's is the data behind its target, which is its name. -/
structure Node where
  kind : NodeKind
  parent : Option NodeId := none
  firstChild : Option NodeId := none
  lastChild : Option NodeId := none
  previous : Option NodeId := none
  next : Option NodeId := none
  name : String := ""
  value : String := ""
  attributes : List Attribute := []
  depth : Nat := 0
  deriving DecidableEq, Repr

namespace Node

/-! ## New nodes -/

/-- The node of a document as a whole. -/
def document : Node := { kind := .document }

/-- An element without attributes and text. -/
def element (name : String) (parent : Option NodeId) (depth : Nat) : Node :=
  { kind := .element, name, parent, depth }

/-- A comment. -/
def comment (text : String) (parent : Option NodeId) (depth : Nat) : Node :=
  { kind := .comment, value := text, parent, depth }

/-- A processing instruction. -/
def instruction (target data : String) (parent : Option NodeId) (depth : Nat) : Node :=
  { kind := .instruction, name := target, value := data, parent, depth }

/-! ## Questions -/

/-- The node is an element. -/
def isElement (node : Node) : Bool := node.kind = .element

/-- The node may have children. -/
def isContainer (node : Node) : Bool := node.kind = .document || node.kind = .element

/-- The node has a child. -/
def hasChildren (node : Node) : Bool := node.firstChild.isSome

/-- The node has an attribute. -/
def hasAttributes (node : Node) : Bool := !node.attributes.isEmpty

/-! ## Attributes -/

/-- The value of an attribute. -/
def attribute? (node : Node) (name : String) : Option String := Attribute.get? name node.attributes

/-- Gives an attribute a value; a new one goes to the end. -/
def setAttribute (node : Node) (name value : String) : Node :=
  { node with attributes := Attribute.put name value node.attributes }

/-- Takes an attribute away. -/
def removeAttribute (node : Node) (name : String) : Node :=
  { node with attributes := Attribute.remove name node.attributes }

end Node

end Groundwork
