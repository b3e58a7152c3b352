import Groundwork.Document.Basic
import Groundwork.Proofs.Tree.Copy
import Groundwork.Proofs.Tree.Descendants

/-!
# `Proofs.Document.Substitution` — one value for many elements

The elements that are to get a value are looked for on a walk from the document, and an attribute is
looked up by its name. Both find all there is, since no node of a tree lies outside the walk and no
name stands twice in an element; so what a substitution does can be told from the nodes alone, one
by one. As it looks at no value and changes nothing else, no substitution can hide a node from a
later one, or show it another.

## Contents

* `Selector.Selects`, `Selector.give` — the nodes that are selected, and what becomes of a node.
* `Reached.mem_select`, `Reached.length_select` — **what is found, and how much.**
* `Reached.setValues_select` — **a substitution goes through all nodes.**
* `give_give`, `give_comm` — **two values for one node.**
* `Document.substitute_of_reached` — **what a substitution does, and several of them.**
-/

namespace Groundwork

open Xml Groundwork.Tree

/-! ## Selected nodes -/

namespace Selector

/-- The node is an element of the name, and if an attribute is asked for, it has this one. -/
def Selects (selector : Selector) (node : Node) : Prop :=
  node.kind = .element ∧ node.name = selector.elementName ∧
    (selector.attributeName ≠ "" →
      ⟨selector.attributeName, selector.attributeValue⟩ ∈ node.attributes)

instance (selector : Selector) (node : Node) : Decidable (selector.Selects node) :=
  inferInstanceAs (Decidable (_ ∧ _ ∧ (_ → _)))

/-- The node with this value, if it is selected. -/
def give (selector : Selector) (value : String) (node : Node) : Node :=
  if selector.Selects node then { node with value } else node

variable {selector second : Selector} {node : Node}

theorem give_of_selects (h : selector.Selects node) (value : String) :
    selector.give value node = { node with value } := if_pos h

theorem give_of_not_selects (h : ¬ selector.Selects node) (value : String) :
    selector.give value node = node := if_neg h

/-- Whether a node is selected does not depend on values. -/
theorem selects_give_iff (value : String) :
    second.Selects (selector.give value node) ↔ second.Selects node := by
  unfold give
  split <;> exact Iff.rfl

/-- **The last value counts.** -/
theorem give_give (selector : Selector) (value other : String) (node : Node) :
    selector.give other (selector.give value node) = selector.give other node := by
  by_cases h : selector.Selects node
  · rw [give_of_selects ((selects_give_iff value).2 h), give_of_selects h, give_of_selects h]
  · rw [give_of_not_selects h]

/-- **Values for different nodes do not meet.** -/
theorem give_comm (h : ¬ (selector.Selects node ∧ second.Selects node)) (value other : String) :
    second.give other (selector.give value node) =
      selector.give value (second.give other node) := by
  by_cases hfirst : selector.Selects node
  · have hsecond : ¬ second.Selects node := fun hsecond => h ⟨hfirst, hsecond⟩
    rw [give_of_not_selects hsecond, give_of_not_selects (mt (selects_give_iff value).1 hsecond)]
  · rw [give_of_not_selects hfirst, give_of_not_selects (mt (selects_give_iff other).1 hfirst)]

end Selector

namespace Tree

/-! ## What is found -/

/-- An element has no name of an attribute twice. -/
theorem Reached.nodup_attributes {allowed : Tree → Edit → Prop} {tree : Tree}
    (h : Reached allowed tree) {id : NodeId} {node : Node} (hnode : tree.get? id = some node)
    (hkind : node.kind = .element) : (node.attributes.map (·.name)).Nodup := by
  obtain ⟨value, hvalid⟩ := h.all_formed id node hnode
  have hlabel : node.label.kind = .element := hkind
  rw [Label.Valid, hlabel] at hvalid
  exact hvalid.2.nodup

namespace Reached

variable {allowed : Tree → Edit → Prop} {tree : Tree} (selector : Selector)

/-- **All selected nodes are found, and no others.** -/
theorem mem_select (h : Reached allowed tree) {id : NodeId} :
    id ∈ tree.select selector ↔ ∃ node, tree.get? id = some node ∧ selector.Selects node := by
  obtain ⟨entries, hlinked, hentries⟩ := h.exists_entries
  have hwalk : (id = root ∨ id ∈ tree.descendants root) ↔ id < entries.length := by
    rw [← List.mem_cons]
    exact hlinked.mem_documentOrder hentries
  rw [select, List.mem_filter, mem_findElements, hwalk, hlinked.length_eq]
  constructor
  · rintro ⟨⟨-, node, hnode, hkind, hname⟩, hattribute⟩
    refine ⟨node, hnode, hkind, hname, fun hasked => ?_⟩
    rw [← Attribute.get?_eq_some_iff (h.nodup_attributes hnode hkind)]
    simpa [hasked, attribute?, hnode, Node.attribute?] using hattribute
  · rintro ⟨node, hnode, hkind, hname, hattribute⟩
    have hlt : id < tree.size := by
      rw [← Nat.not_le, ← get?_eq_none_iff, hnode]
      exact Option.some_ne_none node
    refine ⟨⟨hlt, node, hnode, hkind, hname⟩, ?_⟩
    rw [Bool.or_eq_true, String.isEmpty_iff, decide_eq_true_eq]
    by_cases hasked : selector.attributeName = ""
    · exact .inl hasked
    · have hfound := (Attribute.get?_eq_some_iff (h.nodup_attributes hnode hkind)).2
        (hattribute hasked)
      exact .inr (by simpa [attribute?, hnode, Node.attribute?] using hfound)

theorem nodup_select (h : Reached allowed tree) : (tree.select selector).Nodup := by
  obtain ⟨entries, hlinked, hentries⟩ := h.exists_entries
  exact ((hlinked.nodup_documentOrder hentries).filter _).filter _

/-- **Each selected node is found once.** -/
theorem length_select (h : Reached allowed tree) :
    (tree.select selector).length = tree.nodes.countP fun node => selector.Selects node := by
  have hperm : (tree.select selector).Perm
      (tree.nodes.toList.findIdxs fun node => selector.Selects node) := by
    rw [List.perm_ext_iff_of_nodup (h.nodup_select selector) List.nodup_findIdxs]
    intro id
    rw [h.mem_select, List.mem_findIdxs_iff_exists_getElem_pos]
    simp [get?, Array.getElem?_eq_some_iff]
  rw [hperm.length_eq, List.length_findIdxs, Array.countP_toList]

/-! ## What they are given -/

end Reached

theorem get?_setValues (tree : Tree) (ids : List NodeId) (value : String) (id : NodeId) :
    (tree.setValues ids value).get? id =
      (tree.get? id).map fun node => if id ∈ ids then { node with value } else node := by
  induction ids generalizing tree with
  | nil => simp [setValues]
  | cons first ids ih =>
    have hrest : tree.setValues (first :: ids) value =
        (tree.modify first fun node => { node with value }).setValues ids value := rfl
    rw [hrest, ih, get?_modify]
    by_cases hfirst : first = id
    · rw [if_pos hfirst, Option.map_map]
      congr 1
      funext node
      simp [hfirst]
    · simp [hfirst, Ne.symm hfirst]

namespace Reached

variable {allowed : Tree → Edit → Prop} {tree : Tree}

/-- **A substitution goes through all nodes**, one by one. -/
theorem setValues_select (h : Reached allowed tree) (selector : Selector) (value : String) :
    (tree.setValues (tree.select selector) value).nodes = tree.nodes.map (selector.give value) := by
  refine Array.ext_getElem? fun id => ?_
  rw [Array.getElem?_map]
  refine (get?_setValues tree _ value id).trans ?_
  show (tree.get? id).map _ = (tree.get? id).map _
  cases hnode : tree.get? id with
  | none => rfl
  | some node =>
    have hfound : id ∈ tree.select selector ↔ selector.Selects node := by
      rw [h.mem_select, hnode]
      simp
    simp only [Option.map_some, hfound]
    rfl

theorem setValues (h : Reached allowed tree) (selector : Selector) (value : String) :
    Reached (fun _ _ => True) (tree.setValues (tree.select selector) value) := by
  have hany : Reached (fun _ _ => True) tree := h.mono fun _ _ _ => trivial
  have hedited : Reached (fun _ _ => True) (Edit.apply tree (.setValues selector value)) :=
    .edited hany trivial
  exact hedited

end Reached

/-- The tree with a change made to each node. -/
def map (change : Node → Node) (tree : Tree) : Tree :=
  ⟨tree.nodes.map change, by simpa using tree.size_pos⟩

theorem get?_map (change : Node → Node) (tree : Tree) (id : NodeId) :
    (tree.map change).get? id = (tree.get? id).map change := Array.getElem?_map

theorem map_map (first second : Node → Node) (tree : Tree) :
    (tree.map first).map second = tree.map fun node => second (first node) := by
  simp only [map, Array.map_map]
  rfl

theorem map_congr {first second : Node → Node} {tree : Tree}
    (h : ∀ node ∈ tree.nodes, first node = second node) : tree.map first = tree.map second := by
  simp only [map, Array.map_congr_left h]

end Tree

namespace Document

/-! ## Substitutions -/

variable {allowed : Tree → Tree.Edit → Prop} {document : Document}

/-- **A substitution by the nodes alone.** -/
theorem substitute_eq (h : Reached allowed document.tree) (selector : Selector) (value : String) :
    document.substitute selector value =
      (document.tree.nodes.countP fun node => selector.Selects node,
        { document with tree := document.tree.map (selector.give value) }) := by
  have htree : document.tree.setValues (document.tree.select selector) value =
      document.tree.map (selector.give value) :=
    Tree.ext fun id => congrArg (·[id]?) (h.setValues_select selector value)
  rw [substitute, h.length_select, htree]

/-- **Two substitutions, one after the other.** The second finds what it would find without the
first. -/
theorem substitute_substitute (h : Reached allowed document.tree) (selector second : Selector)
    (value other : String) :
    (document.substitute selector value).2.substitute second other =
      (document.tree.nodes.countP fun node => second.Selects node,
        { document with
          tree := document.tree.map
            fun node => second.give other (selector.give value node) }) := by
  have hafter : Reached (fun _ _ => True) (document.substitute selector value).2.tree :=
    h.setValues selector value
  have hcount : (document.tree.map (selector.give value)).nodes.countP
      (fun node => second.Selects node) =
        document.tree.nodes.countP fun node => second.Selects node := by
    rw [Tree.map, Array.countP_map]
    refine Array.countP_congr fun node _ => ?_
    simp [Selector.selects_give_iff]
  rw [substitute_eq hafter, substitute_eq h, hcount, Tree.map_map]

/-- The document has got this value for all selected elements, of which there are `count`, and is
otherwise as it was. -/
structure Substituted (document : Document) (selector : Selector) (value : String) (count : Nat)
    (after : Document) : Prop where
  /-- So many nodes are selected. -/
  count_eq : count = document.tree.nodes.countP fun node => selector.Selects node
  /-- Each of them has the value, and is otherwise as it was. -/
  selected : ∀ id node, document.tree.get? id = some node → selector.Selects node →
    after.tree.get? id = some { node with value }
  /-- All other nodes are as they were. -/
  others : ∀ id node, document.tree.get? id = some node → ¬ selector.Selects node →
    after.tree.get? id = some node
  /-- There are no more nodes, and no fewer. -/
  size_eq : after.tree.size = document.tree.size
  /-- The encoding of the file and the way to print are as they were. -/
  encoding_eq : after.encoding = document.encoding
  options_eq : after.options = document.options

/-- **What a substitution does**, to every document whose tree is reached by parsing and by changes;
and **several of them**: the same one again does nothing more, a second value for the same elements
is the one that counts, what a substitution finds does not depend on those before it, and two that
select no element in common can change places. -/
theorem substitute_of_reached (h : Reached allowed document.tree) (selector : Selector)
    (value : String) :
    document.Substituted selector value (document.substitute selector value).1
      (document.substitute selector value).2 ∧
    (document.substitute selector value).2.substitute selector value =
      document.substitute selector value ∧
    (∀ other, (document.substitute selector value).2.substitute selector other =
      document.substitute selector other) ∧
    ∀ second other,
      ((document.substitute selector value).2.substitute second other).1 =
        (document.substitute second other).1 ∧
      ((∀ id node, document.tree.get? id = some node →
          ¬ (selector.Selects node ∧ second.Selects node)) →
        ((document.substitute selector value).2.substitute second other).2 =
          ((document.substitute second other).2.substitute selector value).2) := by
  have htwice (other : String) : (document.substitute selector value).2.substitute selector other =
      document.substitute selector other := by
    -- the first value is replaced wherever it has been given
    rw [substitute_substitute h, substitute_eq h]
    simp only [Selector.give_give]
  refine ⟨?_, htwice value, htwice, fun second other => ⟨?_, fun hapart => ?_⟩⟩
  · rw [substitute_eq h]
    refine ⟨rfl, fun id node hnode hselects => ?_, fun id node hnode hselects => ?_, ?_, rfl, rfl⟩
    · rw [Tree.get?_map, hnode, Option.map_some, Selector.give_of_selects hselects]
    · rw [Tree.get?_map, hnode, Option.map_some, Selector.give_of_not_selects hselects]
    · exact Array.size_map
  · rw [substitute_substitute h, substitute_eq h]
  · rw [substitute_substitute h, substitute_substitute h]
    -- one of the two leaves the node as it is, whichever node it is
    have hcomm : ∀ node ∈ document.tree.nodes,
        second.give other (selector.give value node) =
          selector.give value (second.give other node) := by
      intro node hnode
      obtain ⟨id, hid⟩ := Array.getElem?_of_mem hnode
      exact Selector.give_comm (hapart id node hid) value other
    rw [Tree.map_congr hcomm]

/-- Two elements of one name, of which one has an attribute with an empty value and one has another
attribute, and a third element that has neither. -/
theorem substitute_of_reached_empty :
    let tree := Forest.tree (.cons ⟨.element, "r", "", []⟩
      (.cons ⟨.element, "i", "a", [⟨"k", ""⟩]⟩ .nil (.cons ⟨.element, "i", "b", [⟨"j", "1"⟩]⟩ .nil
        (.cons ⟨.element, "i", "c", []⟩ .nil .nil))) .nil)
    let document : Document := ⟨tree, .utf8, .compact⟩
    let first := document.substitute ⟨"i", "k", ""⟩ "x"
    let second := document.substitute ⟨"i", "j", "1"⟩ "y"
    parse "<r><i k=''>a</i><i j='1'>b</i><i>c</i></r>" = .ok tree ∧ first.1 = 1 ∧
      document.Substituted ⟨"i", "k", ""⟩ "x" 1 first.2 ∧
      first.2.substitute ⟨"i", "k", ""⟩ "x" = first ∧
      (first.2.substitute ⟨"i", "j", "1"⟩ "y").2 = (second.2.substitute ⟨"i", "k", ""⟩ "x").2 ∧
      (first.2.substitute ⟨"i", "", ""⟩ "z").1 = 3 := by
  intro tree document first second
  have hparse : parse "<r><i k=''>a</i><i j='1'>b</i><i>c</i></r>" = .ok tree := by decide +kernel
  have hreached : Reached (fun _ _ => True) document.tree := .parsed hparse
  obtain ⟨hdone, hagain, -, hsecond⟩ := substitute_of_reached hreached ⟨"i", "k", ""⟩ "x"
  have hone : first.1 = 1 := by decide +kernel
  have hapart : ∀ id node, document.tree.get? id = some node →
      ¬ (Selector.Selects ⟨"i", "k", ""⟩ node ∧ Selector.Selects ⟨"i", "j", "1"⟩ node) := by
    have hall : ∀ node ∈ document.tree.nodes,
        ¬ (Selector.Selects ⟨"i", "k", ""⟩ node ∧ Selector.Selects ⟨"i", "j", "1"⟩ node) := by
      decide +kernel
    intro id node hnode
    exact hall node (Array.mem_of_getElem? hnode)
  refine ⟨hparse, hone, hone ▸ hdone, hagain, (hsecond ⟨"i", "j", "1"⟩ "y").2 hapart, ?_⟩
  rw [(hsecond ⟨"i", "", ""⟩ "z").1]
  decide +kernel

end Document

end Groundwork
