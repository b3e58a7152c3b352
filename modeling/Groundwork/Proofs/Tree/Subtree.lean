import Groundwork.Proofs.Tree.Copy
import Groundwork.Proofs.Tree.Descendants

/-!
# `Proofs.Tree.Subtree` — a part of a tree is printed by itself

What is printed of a node is said by recursion on what is below it, from the level of the margin on.
So it depends on nothing else in the tree: not on the depth of the node, nor on what the node lies
in or stands beside. It is what would be printed of a new document with a copy of the node in it and
nothing else; and there is such a document for every node of every tree.

## Contents

* `Tree.labelOf`, `Tree.Holds`, `Tree.shown` — what a tree holds, and what shows a node.
* `Linked.print_of_holds` — a tree without a declaration is printed as what it holds.
* `printNode_of_reached` — **every node is printed by itself.**
-/

namespace Groundwork

open Xml

namespace Tree

/-! ## What a tree holds -/

/-- The label of a node, or the document's, if there is no such node. -/
def labelOf (tree : Tree) (id : NodeId) : Label :=
  match tree.get? id with
  | some node => node.label
  | none => Label.document

/-- Below the document of the tree there is this forest, and nothing else. -/
def Holds (tree : Tree) (f : Forest Label) : Prop :=
  ∃ ids : Forest NodeId, ids.roots = tree.children root ∧ ids.Follows tree.children ∧
    ids.map tree.labelOf = f

/-- A node with what is below it. -/
def subtree (tree : Tree) (id : NodeId) (below : Forest NodeId) : Forest Label :=
  (Forest.cons id below .nil).map tree.labelOf

/-- What a new document has to hold to show a node: the node with what is below it or, for the node
of the document, only that. -/
def shown (tree : Tree) (id : NodeId) (below : Forest NodeId) : Forest Label :=
  if id = root then below.map tree.labelOf else tree.subtree id below

theorem All.formed_labelOf {tree : Tree} (h : tree.All Label.Formed) (id : NodeId) :
    (tree.labelOf id).Formed := by
  unfold labelOf
  split
  · next node hnode => exact h id node hnode
  · exact ⟨"", rfl⟩

namespace Linked

variable {tree : Tree} {entries : List Entry}

theorem labelOf_eq (h : tree.Linked entries) : tree.labelOf = labelAt entries := by
  funext id
  rw [labelOf, labelAt, h.get?_eq]
  cases entries[id]? <;> rfl

/-- **What shows a node is a forest that a document may hold.** -/
theorem nested_shown (h : tree.Linked entries) (hentries : Rooted entries) {id : NodeId}
    {node : Node} (hnode : tree.get? id = some node) {below : Forest NodeId}
    (hroots : below.roots = tree.children id) (hf : below.Follows tree.children) :
    (tree.shown id below).Nested ∧ (tree.shown id below).height ≤ maxDepth := by
  obtain ⟨e, he, -⟩ := h.exists_of_get? hnode
  rw [h.children_eq] at hroots
  rw [h.children_eq_childIds] at hf
  rw [shown, subtree, h.labelOf_eq]
  split
  · next hid =>
    subst hid
    have hspans : below.Spans entries := ⟨hroots, hf⟩
    have hlies := hspans.liesBelow hentries
    have hheight := hlies.height_le (Nat.zero_le maxDepth)
    rw [Forest.height_map]
    exact ⟨hlies.nested, by omega⟩
  · next hid =>
    obtain ⟨parent, depth, -, hless, hlies⟩ :=
      Forest.Follows.exists_liesBelow hentries hid he hroots hf
    have hheight := hlies.height_le (Nat.le_of_lt hless)
    rw [Forest.height_map]
    exact ⟨hlies.nested, by omega⟩

/-- **For every node there is a new document that shows it.** -/
theorem exists_holds (h : tree.Linked entries) (hentries : Rooted entries)
    (hformed : tree.All Label.Formed) {id : NodeId} {node : Node} (hnode : tree.get? id = some node)
    {below : Forest NodeId} (hroots : below.roots = tree.children id)
    (hf : below.Follows tree.children) :
    ∃ copy, Reached (fun _ _ => True) copy ∧ copy.Holds (tree.shown id below) := by
  obtain ⟨hnested, hheight⟩ := h.nested_shown hentries hnode hroots hf
  have hlabels : ∀ label ∈ (tree.shown id below).toList, label.Formed := by
    intro label hlabel
    rw [shown, subtree] at hlabel
    split at hlabel
    all_goals
      rw [Forest.toList_map] at hlabel
      obtain ⟨other, -, rfl⟩ := List.mem_map.1 hlabel
      exact hformed.formed_labelOf other
  obtain ⟨copy, hcopy, hlinked⟩ := Forest.exists_copy hnested hheight hlabels
  have hspans := (tree.shown id below).spans_numbered
  refine ⟨copy, hcopy, (tree.shown id below).numbered 1, ?_, ?_, ?_⟩
  · rw [hlinked.children_eq]
    exact hspans.roots
  · rw [hlinked.children_eq_childIds]
    exact hspans.follows
  · rw [hlinked.labelOf_eq]
    exact Forest.map_labelAt_numbered _

end Linked

/-! ## What it is printed as -/

theorem printed_withoutDeclaration (options : PrintOptions) (level : Nat) (f : Forest Label) :
    f.printed { options with declaration := false } level = f.printed options level := by
  induction f generalizing level with
  | nil => rfl
  | cons label below rest ihb ihr =>
    rw [Forest.printed, Forest.printed, ihr, funext ihb]
    rfl

/-- **Without a declaration, a tree is printed as what it holds.** -/
theorem Linked.print_of_holds {tree : Tree} {entries : List Entry} (h : tree.Linked entries)
    (hentries : Rooted entries) (options : PrintOptions) {f : Forest Label} (hf : tree.Holds f) :
    tree.print { options with declaration := false } = f.printed options 0 := by
  obtain ⟨ids, hroots, hfollows, rfl⟩ := hf
  rw [h.children_eq] at hroots
  rw [h.children_eq_childIds] at hfollows
  rw [h.print_eq_printed hentries ⟨hroots, hfollows⟩, h.labelOf_eq, printed_withoutDeclaration]
  exact String.empty_append

/-- What shows a node is printed as the node is. -/
theorem Linked.printed_shown {tree : Tree} {entries : List Entry} (h : tree.Linked entries)
    (hentries : Rooted entries) (options : PrintOptions) (id : NodeId) (below : Forest NodeId) :
    (tree.shown id below).printed options 0 = (tree.subtree id below).printed options 0 := by
  rw [shown]
  split
  · next hid =>
    subst hid
    obtain ⟨label, hfirst, hkind⟩ := hentries.first
    have hlabel : tree.labelOf root = label := by rw [h.labelOf_eq, labelAt, hfirst]
    rw [subtree, Forest.map, Forest.printed, hlabel, Label.printed, hkind]
    exact String.append_empty.symm
  · rfl

/-! ## All trees that there are -/

/-- **Every node is printed by itself**, in every tree that is reached by parsing and by changes:
the tasks come to an end, and what they append is what the node and the forest below it are printed
as by recursion, and what a new document is printed as that shows the node. Nothing is printed of a
node that is not there. -/
theorem printNode_of_reached {allowed : Tree → Edit → Prop} {tree : Tree}
    (h : Reached allowed tree) (options : PrintOptions) (id : NodeId) :
    (tree.get? id = none → tree.Performs options 0 1 [.enter id] "" ∧
      ∀ out, tree.printNode options id out = out) ∧
    ∀ node, tree.get? id = some node → ∃ below : Forest NodeId,
      below.roots = tree.children id ∧ below.Follows tree.children ∧
      (∃ steps, tree.Performs options node.depth steps [.enter id]
        ((tree.subtree id below).printed options 0)) ∧
      (∀ out, tree.printNode options id out =
        out ++ (tree.subtree id below).printed options 0) ∧
      (∃ copy, Reached (fun _ _ => True) copy ∧ copy.Holds (tree.shown id below)) ∧
      ∀ (anything : Tree → Edit → Prop) (copy : Tree), Reached anything copy →
        copy.Holds (tree.shown id below) → ∀ out, tree.printNode options id out =
          out ++ copy.print { options with declaration := false } := by
  obtain ⟨entries, hlinked, hentries⟩ := h.exists_entries
  constructor
  · intro hnone
    have henter : tree.perform options 0 (.enter id) = ("", []) := by rw [perform, hnone]
    have hperforms : tree.Performs options 0 1 [.enter id] "" := .cons henter .nil
    refine ⟨hperforms, fun out => ?_⟩
    have hpos : 1 ≤ 2 * tree.size := Nat.mul_pos Nat.two_pos tree.size_pos
    rw [printNode, hnone]
    exact (hperforms.performAll_eq hpos out).trans String.append_empty
  · intro node hnode
    obtain ⟨below, hroots, hfollows, -, hsize⟩ := hlinked.exists_forest hentries id
    obtain ⟨steps, hsteps, hperforms⟩ := hlinked.performs_enter hentries options hnode
      (hroots.trans (hlinked.children_eq id)) (hlinked.children_eq_childIds ▸ hfollows)
    rw [← hlinked.labelOf_eq] at hperforms
    have hprint := hperforms.printNode_eq hnode (by omega)
    refine ⟨below, hroots, hfollows, ⟨steps, hperforms⟩, hprint,
      hlinked.exists_holds hentries h.all_formed hnode hroots hfollows, ?_⟩
    intro anything copy hcopy hholds out
    obtain ⟨others, hlinkedCopy, hothers⟩ := hcopy.exists_entries
    rw [hprint, hlinkedCopy.print_of_holds hothers options hholds,
      hlinked.printed_shown hentries options]
    rfl

/-- An element inside another one, with an element inside it: it is printed at the margin, and so is
a copy of it. -/
theorem printNode_of_reached_inner :
    let lines := "<b>\n  <c/>\n</b>\n"
    ∃ tree : Tree, parse "<a><b><c/></b><d/></a>" = .ok tree ∧
      tree.printNode .standard 2 "" = lines ∧
      (∃ copy, Reached (fun _ _ => True) copy ∧
        copy.print { PrintOptions.standard with declaration := false } = lines) ∧
      ∀ out, tree.printNode .standard 9 out = out := by
  intro lines
  let tree := Forest.tree (.cons ⟨.element, "a", "", []⟩ (.cons ⟨.element, "b", "", []⟩
    (.cons ⟨.element, "c", "", []⟩ .nil .nil) (.cons ⟨.element, "d", "", []⟩ .nil .nil)) .nil)
  have hparse : parse "<a><b><c/></b><d/></a>" = .ok tree := by decide +kernel
  have hreached : Reached (fun _ _ => True) tree := .parsed hparse
  have hlines : tree.printNode .standard 2 "" = lines := by decide +kernel
  obtain ⟨-, hnode⟩ := printNode_of_reached hreached .standard 2
  obtain ⟨below, -, -, -, -, ⟨copy, hcopy, hholds⟩, hprint⟩ := hnode _ rfl
  have hsame := hprint _ copy hcopy hholds ""
  rw [hlines, String.empty_append] at hsame
  exact ⟨tree, hparse, hlines, ⟨copy, hcopy, hsame.symm⟩,
    ((printNode_of_reached hreached .standard 9).1 rfl).2⟩

end Tree

end Groundwork
