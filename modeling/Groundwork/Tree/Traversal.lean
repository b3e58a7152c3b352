import Groundwork.Tree.Basic

/-!
# `Tree.Traversal` — walking a tree

Children are listed from the first to the last along the links from each to the next. Descendants
come in document order, each before what is inside it and after what stands before it; they are
walked with a stack of nodes still to be visited, on which the children of a node are put from the
last to the first along the links back. No walk is longer than the tree has nodes, and that number
bounds the recursion.

## Contents

* `children`, `descendants` — the nodes below a node, one level or all.
* `findElements` — the elements of a name at or below a node.
* `rootElement?` — the first element of the document.
-/

namespace Groundwork.Tree

/-! ## Children -/

/-- The chain of nodes from `id?` on, each leading to the next, behind `passed`, newest first. -/
def chainFrom (tree : Tree) :
    (fuel : Nat) → (passed : List NodeId) → (id? : Option NodeId) → List NodeId
  | 0, passed, _ => passed.reverse
  | _ + 1, passed, none => passed.reverse
  | fuel + 1, passed, some id => chainFrom tree fuel (id :: passed) ((tree.get? id).bind (·.next))

/-- The children of a node in their order. -/
def children (tree : Tree) (id : NodeId) : List NodeId :=
  tree.chainFrom tree.size [] ((tree.get? id).bind (·.firstChild))

/-- The first element among the children of the document. -/
def rootElement? (tree : Tree) : Option NodeId :=
  (tree.children root).find? fun id => (tree.get? id).any (·.isElement)

/-! ## Descendants -/

/-- Puts the chain of nodes that leads back from `id?` on a stack, so that the first of them ends on
top. -/
def stackFrom (tree : Tree) :
    (fuel : Nat) → (stack : List NodeId) → (id? : Option NodeId) → List NodeId
  | 0, stack, _ => stack
  | _ + 1, stack, none => stack
  | fuel + 1, stack, some id => stackFrom tree fuel (id :: stack) ((tree.get? id).bind (·.previous))

/-- Puts the children of a node on a stack, the first on top. -/
def pushChildren (tree : Tree) (id : NodeId) (stack : List NodeId) : List NodeId :=
  tree.stackFrom tree.size stack ((tree.get? id).bind (·.lastChild))

/-- Visits the nodes on the stack and all below them, behind those of `passed`, newest first. -/
def walkFrom (tree : Tree) :
    (fuel : Nat) → (passed : List NodeId) → (stack : List NodeId) → List NodeId
  | 0, passed, _ => passed.reverse
  | _ + 1, passed, [] => passed.reverse
  | fuel + 1, passed, id :: stack => walkFrom tree fuel (id :: passed) (tree.pushChildren id stack)

/-- The nodes below a node in document order. -/
def descendants (tree : Tree) (id : NodeId) : List NodeId :=
  tree.walkFrom tree.size [] (tree.pushChildren id [])

/-- The elements with this name at or below a node, in document order. -/
def findElements (tree : Tree) (id : NodeId) (name : String) : List NodeId :=
  (id :: tree.descendants id).filter fun id =>
    (tree.get? id).any fun node => node.isElement && node.name = name

end Groundwork.Tree
