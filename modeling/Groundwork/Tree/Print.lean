import Groundwork.Encoding
import Groundwork.Tree.Traversal
import Groundwork.Xml.Reference

/-!
# `Tree.Print` — from a tree to its text

A tree is printed with a stack of tasks, so that depth costs no more than breadth: to enter a node,
and to close an element whose children have been printed. When indentation is asked for, each node
starts a line of its own, and lines are indented by depth, counted from the node that the printing
starts at.

## Contents

* `PrintOptions` — declaration, encoding named in it, indentation.
* `Tree.printNode` — a node and what is below it; `Tree.print` — a whole document.
-/

namespace Groundwork

open Xml

/-- How a tree is printed. -/
structure PrintOptions where
  /-- Start with an XML declaration. -/
  declaration : Bool
  /-- The encoding that the declaration names. -/
  encoding : Option Encoding
  /-- The number of spaces by which a level is indented; none puts everything on one line. -/
  indent : Option Nat
  deriving DecidableEq, Repr

namespace PrintOptions

/-- A declaration, and two spaces a level. -/
def standard : PrintOptions := ⟨true, none, some 2⟩

/-- One line without a declaration. -/
def compact : PrintOptions := ⟨false, none, none⟩

instance : Inhabited PrintOptions := ⟨standard⟩

end PrintOptions

namespace Tree

/-! ## The pieces of a line -/

/-- What stands before a node that lies at `depth`, when printing starts from one at depth `base`.
The root element and the document count as the same level. -/
def padding (options : PrintOptions) (base depth : Nat) : String :=
  match options.indent with
  | some width => "".pushn ' ' ((depth - max base 1) * width)
  | none => ""

/-- What stands behind a node. -/
def lineEnd (options : PrintOptions) : String :=
  match options.indent with
  | some _ => "\n"
  | none => ""

/-- Text as it stands between tags. -/
def printText (text : String) : String := String.ofList (Reference.escapeText text.toList)

/-- An attribute behind the space that separates it. -/
def printAttribute (a : Attribute) : String :=
  " " ++ a.name ++ "=\"" ++ String.ofList (Reference.escapeAttribute a.value.toList) ++ "\""

/-- The start of a tag, up to its last attribute. -/
def printTagStart (node : Node) : String :=
  node.attributes.foldl (fun out a => out ++ printAttribute a) ("<" ++ node.name)

/-- An end tag. -/
def printEndTag (node : Node) : String := "</" ++ node.name ++ ">"

/-- An element without children. -/
def printLeaf (node : Node) : String :=
  if node.value.isEmpty then printTagStart node ++ "/>"
  else printTagStart node ++ ">" ++ printText node.value ++ printEndTag node

/-- A comment. -/
def printComment (node : Node) : String := "<!--" ++ node.value ++ "-->"

/-- An instruction. -/
def printInstruction (node : Node) : String :=
  if node.value.isEmpty then "<?" ++ node.name ++ "?>"
  else "<?" ++ node.name ++ " " ++ node.value ++ "?>"

/-! ## The walk -/

/-- A step of the printing. -/
inductive Task where
  /-- Print a node and what is below it. -/
  | enter (id : NodeId)
  /-- Print the end tag of an element. -/
  | close (id : NodeId)
  deriving DecidableEq, Repr

/-- What a task prints at once, and the tasks that it leaves to be done before all others. -/
def perform (tree : Tree) (options : PrintOptions) (base : Nat) : Task → String × List Task
  | .close id =>
    match tree.get? id with
    | some node => (padding options base node.depth ++ printEndTag node ++ lineEnd options, [])
    | none => ("", [])
  | .enter id =>
    match tree.get? id with
    | some node =>
      let line (content : String) : String :=
        padding options base node.depth ++ content ++ lineEnd options
      match node.kind with
      | .document => ("", (tree.children id).map .enter)
      | .element =>
        if node.hasChildren then
          (line (printTagStart node ++ ">" ++ printText node.value),
            (tree.children id).map .enter ++ [.close id])
        else (line (printLeaf node), [])
      | .comment => (line (printComment node), [])
      | .instruction => (line (printInstruction node), [])
    | none => ("", [])

/-- Does the tasks in order and appends what they print. -/
def performAll (tree : Tree) (options : PrintOptions) (base : Nat) :
    (fuel : Nat) → (tasks : List Task) → (out : String) → String
  | 0, _, out => out
  | _ + 1, [], out => out
  | fuel + 1, task :: tasks, out =>
    let (printed, first) := tree.perform options base task
    performAll tree options base fuel (first ++ tasks) (out ++ printed)

/-- Appends a node and what is below it. Each node is entered once and closed at most once, which
bounds the number of tasks. -/
def printNode (tree : Tree) (options : PrintOptions) (id : NodeId) (out : String) : String :=
  let base := match tree.get? id with
    | some node => node.depth
    | none => 0
  tree.performAll options base (2 * tree.size) [.enter id] out

/-- The XML declaration, on a line of its own. -/
def printDeclaration (options : PrintOptions) : String :=
  if options.declaration then
    match options.encoding with
    | some encoding => "<?xml version=\"1.0\" encoding=\"" ++ encoding.label ++ "\"?>\n"
    | none => "<?xml version=\"1.0\"?>\n"
  else ""

/-- The text of a document. -/
def print (tree : Tree) (options : PrintOptions) : String :=
  tree.printNode options root (printDeclaration options)

end Tree

end Groundwork
