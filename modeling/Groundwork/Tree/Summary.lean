import Groundwork.Tree.Print

/-!
# `Tree.Summary` — the size of a tree in figures

## Contents

* `Summary`, `Tree.summary` — counts over everything below the document's node.
-/

namespace Groundwork

/-- The figures of a tree. -/
structure Summary where
  /-- The number of nodes, the document's own included. -/
  nodes : Nat
  /-- The depth of the deepest node. -/
  maxDepth : Nat
  /-- The bytes that all values take in UTF-8. -/
  valueBytes : Nat
  /-- The number of attributes. -/
  attributes : Nat
  /-- The bytes that the document takes when it is printed on one line. -/
  compactBytes : Nat
  deriving DecidableEq, Repr

namespace Tree

/-- The figures of a tree. -/
def summary (tree : Tree) : Summary :=
  let nodes := (tree.descendants root).filterMap tree.get?
  { nodes := tree.size
    maxDepth := nodes.foldl (fun depth node => max depth node.depth) 0
    valueBytes := nodes.foldl (fun bytes node => bytes + node.value.utf8ByteSize) 0
    attributes := nodes.foldl (fun count node => count + node.attributes.length) 0
    compactBytes := (tree.print .compact).utf8ByteSize }

end Tree

end Groundwork
