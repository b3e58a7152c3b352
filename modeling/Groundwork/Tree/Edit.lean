import Groundwork.Tree.Traversal
import Groundwork.Xml.Token

/-!
# `Tree.Edit` — checked changes to a tree

Every change here first makes sure that the tree can still be written as a document: elements and
attributes have names, a comment and an instruction cannot end early, only the document and elements
have children, and no node lies too deep. A change that is refused gives nothing. The value of a
node is free, since only text needs no check.

## Contents

* `appendElement?`, `appendTextElement?`, `appendComment?`, `appendInstruction?` — a new last child.
* `setValue?`, `setAttribute?`, `removeAttribute?` — changes to a node.
* `Selector`, `select`, `setValues` — one value for all elements of a kind.
-/

namespace Groundwork

open Text Xml

namespace Tree

/-! ## New nodes -/

/-- Adds the node that `node` gives for a parent and a depth, and gives its number as well. -/
def appendNode? (tree : Tree) (parent : NodeId) (node : Option NodeId → Nat → Node) :
    Option (NodeId × Tree) :=
  (tree.childDepth? parent).map fun depth =>
    (tree.size, tree.appendChild parent (node (some parent) depth))

/-- Adds an element without text. -/
def appendElement? (tree : Tree) (parent : NodeId) (name : String) : Option (NodeId × Tree) :=
  if isName name.toList then tree.appendNode? parent (Node.element name) else none

/-- Adds an element with text. -/
def appendTextElement? (tree : Tree) (parent : NodeId) (name value : String) :
    Option (NodeId × Tree) :=
  if isName name.toList then
    tree.appendNode? parent fun parent depth => { Node.element name parent depth with value }
  else none

/-- Adds a comment. -/
def appendComment? (tree : Tree) (parent : NodeId) (text : String) : Option (NodeId × Tree) :=
  if isCommentBody text.toList then tree.appendNode? parent (Node.comment text) else none

/-- Adds an instruction. -/
def appendInstruction? (tree : Tree) (parent : NodeId) (target data : String) :
    Option (NodeId × Tree) :=
  if isName target.toList && !isReserved target.toList && !contains instructionEnd data.toList then
    tree.appendNode? parent (Node.instruction target data)
  else none

/-! ## Changes to a node -/

/-- Gives a node another value. -/
def setValue? (tree : Tree) (id : NodeId) (value : String) : Option Tree :=
  (tree.get? id).map fun _ => tree.modify id fun node => { node with value }

/-- Gives an element's attribute a value. -/
def setAttribute? (tree : Tree) (id : NodeId) (name value : String) : Option Tree :=
  if isName name.toList && (tree.get? id).any (·.isElement) then
    some (tree.modify id (·.setAttribute name value))
  else none

/-- Takes an attribute off a node and gives its last value. -/
def removeAttribute? (tree : Tree) (id : NodeId) (name : String) : Option (String × Tree) :=
  (tree.attribute? id name).map fun value => (value, tree.modify id (·.removeAttribute name))

end Tree

/-! ## Changes to many nodes -/

/-- Elements of a name; with a nonempty name of an attribute, only those that have the attribute
with exactly this value. -/
structure Selector where
  elementName : String
  attributeName : String
  attributeValue : String
  deriving DecidableEq, Repr

namespace Tree

/-- The selected elements of a tree, in document order. -/
def select (tree : Tree) (selector : Selector) : List NodeId :=
  (tree.findElements root selector.elementName).filter fun id =>
    selector.attributeName.isEmpty ||
      tree.attribute? id selector.attributeName = some selector.attributeValue

/-- Gives some nodes a value. -/
def setValues (tree : Tree) (ids : List NodeId) (value : String) : Tree :=
  ids.foldl (fun tree id => tree.modify id fun node => { node with value }) tree

end Tree

end Groundwork
