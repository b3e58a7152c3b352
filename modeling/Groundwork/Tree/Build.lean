import Groundwork.Text.Blank
import Groundwork.Tree.Basic
import Groundwork.Xml.Event

/-!
# `Tree.Build` — from a text to a tree

The events of a text build a tree from the root down. Open elements lie on a stack, each with the
text found directly inside it so far; what is inside an element becomes its value when it ends. A
document has one root element at most, and at most one document type, before it; outside the root
element only white space, comments and instructions may stand.

## Contents

* `OpenElement`, `Builder` — a tree under construction, and the elements still open in it.
* `Builder.step`, `Builder.run` — what one event does to it, and what a sequence of events does.
* `Tree.parse` — the tree of a text, or the first fault in it.
-/

namespace Groundwork

open Text Xml

/-- An element that has not ended, and the text directly inside it so far. -/
structure OpenElement where
  id : NodeId
  name : String
  /-- The number of open elements from the root element to this one. -/
  level : Nat
  text : String
  deriving DecidableEq, Repr

namespace OpenElement

/-- The node that new nodes come into: the innermost open element, or the document. -/
def innermost : List OpenElement → NodeId
  | [] => Tree.root
  | element :: _ => element.id

/-- The number of open elements. -/
def nesting : List OpenElement → Nat
  | [] => 0
  | element :: _ => element.level

end OpenElement

/-- A tree under construction. -/
structure Builder where
  tree : Tree
  /-- The open elements, the innermost first. -/
  opened : List OpenElement
  /-- An element has stood at the top. -/
  hasRoot : Bool
  /-- A document type has stood at the top. -/
  hasDoctype : Bool
  deriving DecidableEq, Repr

namespace Builder

/-- Nothing is built yet. -/
def start : Builder := ⟨Tree.empty, [], false, false⟩

/-- Adds a node inside the innermost open element, or at the top. How deep it lies is known from the
number of open elements. -/
def addNode (builder : Builder) (node : Option NodeId → Nat → Node) : Except Fault Builder :=
  match builder with
  | ⟨tree, opened, hasRoot, hasDoctype⟩ =>
    let parent := OpenElement.innermost opened
    let depth := OpenElement.nesting opened + 1
    if depth ≤ Tree.maxDepth then
      .ok ⟨tree.appendChild parent (node (some parent) depth), opened, hasRoot, hasDoctype⟩
    else .error .tooDeep

/-- Adds an element; at the top it is the root element, of which there is one. -/
def addElement (builder : Builder) (name : String) (attributes : List Attribute) :
    Except Fault Builder :=
  let atTop := builder.opened.isEmpty
  if atTop && builder.hasRoot then .error .multipleRoots
  else
    match builder.addNode fun parent depth =>
      { Node.element name parent depth with attributes } with
    | .ok builder => .ok { builder with hasRoot := builder.hasRoot || atTop }
    | .error fault => .error fault

/-- Adds an element and leaves it open. Its node is the last one. -/
def openElement (builder : Builder) (name : String) (attributes : List Attribute) :
    Except Fault Builder :=
  match builder.addElement name attributes with
  | .ok ⟨tree, opened, hasRoot, hasDoctype⟩ =>
    let level := OpenElement.nesting opened + 1
    .ok ⟨tree, ⟨tree.size - 1, name, level, ""⟩ :: opened, hasRoot, hasDoctype⟩
  | .error fault => .error fault

/-- Ends the innermost open element. Between child nodes, the blanks at the ends of its text are
only layout. -/
def closeElement (builder : Builder) (name : String) : Except Fault Builder :=
  match builder with
  | ⟨_, [], _, _⟩ => .error (.unexpectedEndTag name)
  | ⟨tree, element :: opened, hasRoot, hasDoctype⟩ =>
    if element.name = name then
      let tree := tree.modify element.id fun node =>
        { node with value := if node.hasChildren then trim element.text else element.text }
      .ok ⟨tree, opened, hasRoot, hasDoctype⟩
    else .error (.tagMismatch element.name name)

/-- Adds text to the innermost open element; `fault` is what is wrong with it at the top. -/
def addText (builder : Builder) (content : String) (fault : Option Fault) : Except Fault Builder :=
  match builder with
  | ⟨tree, ⟨id, name, level, text⟩ :: opened, hasRoot, hasDoctype⟩ =>
    .ok ⟨tree, ⟨id, name, level, text ++ content⟩ :: opened, hasRoot, hasDoctype⟩
  | ⟨tree, [], hasRoot, hasDoctype⟩ =>
    match fault with
    | some fault => .error fault
    | none => .ok ⟨tree, [], hasRoot, hasDoctype⟩

/-- Takes note of a document type. -/
def addDoctype (builder : Builder) : Except Fault Builder :=
  if builder.hasDoctype then .error .multipleDoctypes
  else if builder.hasRoot || !builder.opened.isEmpty then .error .lateDoctype
  else .ok { builder with hasDoctype := true }

/-- What one event does to a tree under construction. -/
def step (builder : Builder) : Event → Except Fault Builder
  | .startElement name attributes => builder.openElement name attributes
  | .emptyElement name attributes => builder.addElement name attributes
  | .endElement name => builder.closeElement name
  | .text content =>
    builder.addText content (if allBlank content then none else some .textOutsideRoot)
  | .cdata content => builder.addText content (some .cdataOutsideRoot)
  | .comment content => builder.addNode (Node.comment content)
  | .instruction target data => builder.addNode (Node.instruction target (data.getD ""))
  | .declaration => .ok builder
  | .doctype _ => builder.addDoctype

/-- What a sequence of events does, up to the first that is refused. -/
def run (builder : Builder) : List (Placed Event) → Except ParseError Builder
  | [] => .ok builder
  | event :: events =>
    match builder.step event.item with
    | .ok builder => run builder events
    | .error fault => .error ⟨fault, event.start⟩

end Builder

namespace Tree

/-- The tree of a document. A text need not have a root element; the comments and instructions at
its top are in the tree with or without one. -/
def parse (text : String) : Except ParseError Tree :=
  let sequence := Event.readAll text
  match Builder.start.run sequence.events with
  | .error e => .error e
  | .ok builder =>
    match sequence.failure with
    | some e => .error e
    | none =>
      -- of several open elements the outermost is reported
      match builder.opened.getLast? with
      | some element => .error ⟨.unclosedTag element.name, text.utf8ByteSize⟩
      | none => .ok builder.tree

end Tree

end Groundwork
