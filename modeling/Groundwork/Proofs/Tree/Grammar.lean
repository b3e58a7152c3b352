import Groundwork.Proofs.Tree.Growth
import Groundwork.Proofs.Xml.Event

/-!
# `Proofs.Tree.Grammar` — parsing is a recursive grammar

A tree is built with a stack of open elements, one event at a time. The same can be said without a
stack: a list of events is a document when it derives from a grammar in which an element holds
everything between its two tags, and the tree of a document is the forest that recursion on the
derivation gives. The stack accepts the lists of events that derive from the grammar and no others,
as long as no node lies too deep.

## Contents

* `Grammar.Element`, `Grammar.Content`, `Grammar.Misc`, `Grammar.Document` — derivations.
* `events`, `forest`, `directText` of each — what is derived, and the nodes and the text that it
  stands for.
* `Content.fills`, `Document.builds` — **events that derive from the grammar build their forest.**
-/

namespace Groundwork

open Text Xml Groundwork.Tree

namespace Grammar

/-! ## Derivations -/

mutual

/-- An element. -/
inductive Element where
  | empty (name : String) (attributes : List Attribute)
  /-- The two tags have the same name. -/
  | tagged (name : String) (attributes : List Attribute) (content : Content)

/-- What stands between the tags of an element. -/
inductive Content where
  | nil
  | text (content : String) (rest : Content)
  | cdata (content : String) (rest : Content)
  | comment (content : String) (rest : Content)
  | instruction (target : String) (data : Option String) (rest : Content)
  | element (element : Element) (rest : Content)

end

/-- What may stand outside the root element. -/
inductive Misc where
  | comment (content : String)
  | instruction (target : String) (data : Option String)
  | declaration
  | blank (content : String) (h : allBlank content = true)

/-- A document: its root element, if it has one, and its document type, if it has one, with other
things in front of and behind them. -/
structure Document where
  prolog : List Misc
  doctype : Option (String × List Misc)
  root : Option (Element × List Misc)

/-! ## What is derived -/

mutual

def Element.events : Element → List Event
  | .empty name attributes => [.emptyElement name attributes]
  | .tagged name attributes content =>
    .startElement name attributes :: (content.events ++ [.endElement name])

def Content.events : Content → List Event
  | .nil => []
  | .text content rest => .text content :: rest.events
  | .cdata content rest => .cdata content :: rest.events
  | .comment content rest => .comment content :: rest.events
  | .instruction target data rest => .instruction target data :: rest.events
  | .element element rest => element.events ++ rest.events

end

def Misc.event : Misc → Event
  | .comment content => .comment content
  | .instruction target data => .instruction target data
  | .declaration => .declaration
  | .blank content _ => .text content

namespace Document

/-- The events of the document type and of what follows it. -/
def doctypeEvents : Option (String × List Misc) → List Event
  | none => []
  | some (body, behind) => .doctype body :: behind.map Misc.event

/-- The events of the root element and of what follows it. -/
def rootEvents : Option (Element × List Misc) → List Event
  | none => []
  | some (element, behind) => element.events ++ behind.map Misc.event

def events (d : Document) : List Event :=
  d.prolog.map Misc.event ++ (doctypeEvents d.doctype ++ rootEvents d.root)

end Document

/-! ## What it stands for -/

/-- The text directly inside an element, in order. -/
def Content.directText : Content → String
  | .nil => ""
  | .text content rest | .cdata content rest => content ++ rest.directText
  | .comment _ rest | .instruction _ _ rest | .element _ rest => rest.directText

mutual

/-- The node of an element, over the nodes inside it. Its value is the text directly inside it,
trimmed if it has child nodes. -/
def Element.forest : Element → Forest Label
  | .empty name attributes => .cons ⟨.element, name, "", attributes⟩ .nil .nil
  | .tagged name attributes content =>
    .cons ⟨.element, name, elementValue content.forest content.directText, attributes⟩
      content.forest .nil

def Content.forest : Content → Forest Label
  | .nil => .nil
  | .text _ rest => rest.forest
  | .cdata _ rest => rest.forest
  | .comment content rest => .cons ⟨.comment, "", content, []⟩ .nil rest.forest
  | .instruction target data rest =>
    .cons ⟨.instruction, target, data.getD "", []⟩ .nil rest.forest
  | .element element rest => element.forest.append rest.forest

end

def Misc.forest : Misc → Forest Label
  | .comment content => .cons ⟨.comment, "", content, []⟩ .nil .nil
  | .instruction target data => .cons ⟨.instruction, target, data.getD "", []⟩ .nil .nil
  | .declaration | .blank _ _ => .nil

def miscForest : List Misc → Forest Label
  | [] => .nil
  | misc :: miscs => misc.forest.append (miscForest miscs)

namespace Document

def doctypeForest : Option (String × List Misc) → Forest Label
  | none => .nil
  | some (_, behind) => miscForest behind

def rootForest : Option (Element × List Misc) → Forest Label
  | none => .nil
  | some (element, behind) => element.forest.append (miscForest behind)

/-- The nodes of a document. -/
def forest (d : Document) : Forest Label :=
  (miscForest d.prolog).append ((doctypeForest d.doctype).append (rootForest d.root))

end Document

/-! ## What derives from the grammar is accepted -/

mutual

/-- **An element builds its node over those inside it.** -/
theorem Element.builds (element : Element) {progress : Progress} (hadmits : progress.Admits) :
    Builds element.events progress progress.afterElement element.forest :=
  match element with
  | .empty name attributes => builds_emptyElement hadmits name attributes
  | .tagged name attributes content => content.fills.element hadmits name attributes

theorem Content.fills (content : Content) :
    Fills content.events content.forest content.directText :=
  match content with
  | .nil => fills_nil
  | .text content rest => (fills_text content).append rest.fills
  | .cdata content rest => (fills_cdata content).append rest.fills
  | .comment content rest => by
    rw [Content.events, Content.forest, Content.directText]
    exact rest.fills.behind fun progress _ => builds_comment progress content
  | .instruction target data rest => by
    rw [Content.events, Content.forest, Content.directText]
    exact rest.fills.behind fun progress _ => builds_instruction progress target data
  | .element element rest => by
    rw [Content.events, Content.forest, Content.directText]
    apply rest.fills.behind
    intro progress hopened
    have hadmits : progress.Admits := by
      intro htop
      exact absurd htop hopened
    have helement := element.builds hadmits
    rwa [Progress.afterElement_of_ne hopened] at helement

end

theorem Misc.builds (misc : Misc) (hasRoot hasDoctype : Bool) :
    Builds [misc.event] ⟨[], hasRoot, hasDoctype⟩ ⟨[], hasRoot, hasDoctype⟩ misc.forest := by
  cases misc with
  | comment content => exact builds_comment _ content
  | instruction target data => exact builds_instruction _ target data
  | declaration => exact builds_of_step fun _ => rfl
  | blank content h => exact builds_blank h hasRoot hasDoctype

theorem builds_miscs (miscs : List Misc) (hasRoot hasDoctype : Bool) :
    Builds (miscs.map Misc.event) ⟨[], hasRoot, hasDoctype⟩ ⟨[], hasRoot, hasDoctype⟩
      (miscForest miscs) := by
  induction miscs with
  | nil => exact builds_nil _
  | cons misc miscs ih => exact (misc.builds hasRoot hasDoctype).append ih rfl rfl

namespace Document

theorem builds_doctype (doctype : Option (String × List Misc)) :
    Builds (doctypeEvents doctype) ⟨[], false, false⟩ ⟨[], false, doctype.isSome⟩
      (doctypeForest doctype) := by
  cases doctype with
  | none => exact builds_nil _
  | some found =>
    obtain ⟨body, behind⟩ := found
    have hdoctype : Builds [.doctype body] ⟨[], false, false⟩ ⟨[], false, true⟩ .nil :=
      builds_of_step fun _ => rfl
    exact hdoctype.append (builds_miscs behind false true) rfl rfl

theorem builds_root (root : Option (Element × List Misc)) (hasDoctype : Bool) :
    Builds (rootEvents root) ⟨[], false, hasDoctype⟩ ⟨[], root.isSome, hasDoctype⟩
      (rootForest root) := by
  cases root with
  | none => exact builds_nil _
  | some found =>
    obtain ⟨element, behind⟩ := found
    have hadmits : (Progress.mk [] false hasDoctype).Admits := fun _ => rfl
    exact (element.builds hadmits).append (builds_miscs behind true hasDoctype) rfl rfl

/-- **A document builds its nodes.** -/
theorem builds (d : Document) :
    Builds d.events ⟨[], false, false⟩ ⟨[], d.root.isSome, d.doctype.isSome⟩ d.forest := by
  have hrest := (builds_doctype d.doctype).append (builds_root d.root d.doctype.isSome) rfl rfl
  exact (builds_miscs d.prolog false false).append hrest rfl rfl

end Document

end Grammar

end Groundwork
