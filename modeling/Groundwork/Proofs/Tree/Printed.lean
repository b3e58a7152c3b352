import Groundwork.Proofs.Tree.Walk
import Groundwork.Tree.Print

/-!
# `Proofs.Tree.Printed` — the printer by recursion

The printer does one task after the other and finds the level of a line by taking depths away from
each other. What it prints can be said without tasks and without depths: a forest is printed by
recursion, the children of a node one level further in than the node, so that a node is printed in
the same way wherever it lies. The tasks come to an end, and their bound is never what ends them.

## Contents

* `Forest.printed` — **what a forest is printed as**, by recursion.
* `Performs`, `Performs.performAll_eq` — the tasks without a bound.
* `Linked.performs_forest` — **entering the nodes of a forest prints the forest.**
* `Linked.performs_enter`, `Linked.print_eq_printed` — **the node that the printing starts at**, and
  a whole tree.
-/

namespace Groundwork

open Groundwork.Tree

/-! ## Printing by recursion -/

/-- A node with this label that lies nowhere. -/
def Label.node (label : Label) : Node := Entry.unlinked ⟨none, 0, label⟩

/-- What stands in front of a node at this level. -/
def margin (options : PrintOptions) (level : Nat) : String :=
  match options.indent with
  | some width => "".pushn ' ' (level * width)
  | none => ""

/-- A line at this level; without indentation, only what stands on it. -/
def printLine (options : PrintOptions) (level : Nat) (content : String) : String :=
  margin options level ++ content ++ lineEnd options

/-- What is printed of a node at this level, with `below` for its children. -/
def Label.printed (label : Label) (options : PrintOptions) (level : Nat) (isLeaf : Bool)
    (below : Nat → String) : String :=
  match label.kind with
  | .document => below level
  | .element =>
    if isLeaf then printLine options level (printLeaf label.node)
    else
      printLine options level (printTagStart label.node ++ ">" ++ printText label.value) ++
        below (level + 1) ++ printLine options level (printEndTag label.node)
  | .comment => printLine options level (printComment label.node)
  | .instruction => printLine options level (printInstruction label.node)

/-- An element with children: its start tag, the children one level further in, and its end tag. -/
theorem Label.printed_element {label : Label} (h : label.kind = .element) (options : PrintOptions)
    (level : Nat) (below : Nat → String) (back : String) :
    label.printed options level false below ++ back =
      printLine options level (printTagStart label.node ++ ">" ++ printText label.value) ++
        (below (level + 1) ++ (printLine options level (printEndTag label.node) ++ back)) := by
  rw [printed, h, ← String.append_assoc, ← String.append_assoc]
  rfl

/-- **What a forest is printed as**, one node behind the other, each at this level. -/
def Forest.printed (options : PrintOptions) (level : Nat) : Forest Label → String
  | nil => ""
  | cons label below rest =>
    label.printed options level below.isEmpty (fun level => below.printed options level) ++
      rest.printed options level

/-- The number of tasks that printing a forest takes at most. -/
def Forest.taskCount : Forest NodeId → Nat
  | nil => 0
  | cons _ below rest =>
    1 + (below.taskCount + ((if below.isEmpty then 0 else 1) + rest.taskCount))

theorem Forest.taskCount_le (f : Forest NodeId) : f.taskCount ≤ 2 * f.size := by
  induction f with
  | nil => exact Nat.le_refl _
  | cons id below rest ihb ihr =>
    rw [taskCount, size]
    split <;> omega

namespace Tree

theorem padding_eq (options : PrintOptions) (base depth : Nat) :
    padding options base depth = margin options (depth - max base 1) := rfl

/-! ## The tasks without a bound -/

/-- Doing the tasks prints the text, takes this many steps and then ends. -/
inductive Performs (tree : Tree) (options : PrintOptions) (base : Nat) :
    (steps : Nat) → (tasks : List Task) → (text : String) → Prop where
  | nil : Performs tree options base 0 [] ""
  | cons {steps : Nat} {task : Task} {printed text : String} {first tasks : List Task}
      (htask : tree.perform options base task = (printed, first))
      (h : Performs tree options base steps (first ++ tasks) text) :
      Performs tree options base (steps + 1) (task :: tasks) (printed ++ text)

/-- **A bound that leaves room for the steps makes no difference.** -/
theorem Performs.performAll_eq {tree : Tree} {options : PrintOptions} {base steps fuel : Nat}
    {tasks : List Task} {text : String} (h : tree.Performs options base steps tasks text)
    (hfuel : steps ≤ fuel) (out : String) :
    tree.performAll options base fuel tasks out = out ++ text := by
  induction h generalizing fuel out with
  | nil => cases fuel <;> simp [performAll]
  | cons htask _ ih =>
    obtain ⟨fuel, rfl⟩ := Nat.exists_eq_add_of_le' (Nat.le_trans (Nat.le_add_left 1 _) hfuel)
    rw [performAll, htask, ← String.append_assoc]
    exact ih (Nat.le_of_succ_le_succ hfuel) _

/-! ## Single tasks -/

section Tasks

variable {tree : Tree} (options : PrintOptions) (base : Nat) {id : NodeId} {node : Node}

theorem perform_document (hnode : tree.get? id = some node) (hkind : node.kind = .document) :
    tree.perform options base (.enter id) = ("", (tree.children id).map .enter) := by
  simp [perform, hnode, hkind]

/-- Entering a node without children prints its line, with whatever text for its children. -/
theorem perform_leaf (hnode : tree.get? id = some node) (hkind : node.kind ≠ .document)
    (hleaf : node.hasChildren = false) (below : Nat → String) :
    tree.perform options base (.enter id) =
      (node.label.printed options (node.depth - max base 1) true below, []) := by
  have hsame : node.label.kind = node.kind := rfl
  rw [perform, hnode, Label.printed, hsame]
  cases hcase : node.kind with
  | document => exact absurd hcase hkind
  | element => simp [hcase, hleaf, printLine, padding_eq, Label.node, Node.label]; rfl
  | comment => simp [hcase, printLine, padding_eq, Label.node, Node.label]; rfl
  | instruction => simp [hcase, printLine, padding_eq, Label.node, Node.label]; rfl

/-- Entering an element with children prints the line of its start tag, and leaves the children and
the end tag to be printed. -/
theorem perform_parent (hnode : tree.get? id = some node) (hkind : node.kind = .element)
    (hparent : node.hasChildren = true) :
    tree.perform options base (.enter id) =
      (printLine options (node.depth - max base 1)
        (printTagStart node.label.node ++ ">" ++ printText node.label.value),
        (tree.children id).map .enter ++ [.close id]) := by
  simp only [perform, hnode, hkind, hparent, if_true, printLine, padding_eq]
  rfl

theorem perform_close (hnode : tree.get? id = some node) :
    tree.perform options base (.close id) =
      (printLine options (node.depth - max base 1) (printEndTag node.label.node), []) := by
  simp only [perform, hnode, printLine, padding_eq]
  rfl

end Tasks

/-! ## Forests -/

namespace Linked

variable {tree : Tree} {entries : List Entry}

/-- The node of an entry over a forest of its children. -/
theorem exists_node (h : tree.Linked entries) {id : NodeId} {e : Entry}
    (he : entries[id]? = some e) {below : Forest NodeId}
    (hbelow : below.roots = childIds entries (some id)) :
    ∃ node, tree.get? id = some node ∧ node.label = e.label ∧ node.depth = e.depth ∧
      node.hasChildren = !below.isEmpty := by
  refine ⟨e.linked entries id, h.get?_eq_some he, rfl, rfl, ?_⟩
  rw [Node.hasChildren, Entry.linked, ← hbelow]
  cases below <;> rfl

/-- **Entering the nodes of a forest prints the forest**, each node at the level that its depth is
above that of the start. -/
theorem performs_forest (h : tree.Linked entries) (options : PrintOptions) {base depth : Nat}
    (hbase : max base 1 ≤ depth) {f : Forest NodeId}
    (hf : f.Follows fun id => childIds entries (some id)) {parent : NodeId}
    (hlies : f.LiesBelow entries parent depth) {steps : Nat} {tasks : List Task} {text : String}
    (hrest : tree.Performs options base steps tasks text) :
    tree.Performs options base (f.taskCount + steps) (f.roots.map .enter ++ tasks)
      ((f.map (labelAt entries)).printed options (depth - max base 1) ++ text) := by
  induction f generalizing parent depth steps tasks text with
  | nil =>
    rw [Forest.taskCount, Nat.zero_add, Forest.map, Forest.printed, String.empty_append]
    exact hrest
  | cons id below rest ihb ihr =>
    obtain ⟨⟨label, he, hkind, hcontainer⟩, -, hlb, hlr⟩ := hlies
    obtain ⟨node, hnode, hsame, rfl, hchildren⟩ := h.exists_node he hf.1
    obtain rfl : node.label = label := hsame
    have hlabel : labelAt entries id = node.label := by rw [labelAt, he]
    have hbehind := ihr hbase hf.2.2 hlr hrest
    rw [Forest.taskCount, Nat.add_assoc, Nat.add_comm 1, Forest.roots, List.map_cons,
      List.cons_append, Forest.map, Forest.printed, String.append_assoc, hlabel,
      Forest.isEmpty_map]
    cases hempty : below.isEmpty with
    | true =>
      obtain rfl := Forest.isEmpty_iff.1 hempty
      rw [Forest.taskCount, if_pos rfl, Nat.zero_add, Nat.zero_add]
      exact .cons (perform_leaf options base hnode hkind hchildren _) hbehind
    | false =>
      -- only an element has children; its end tag is a task of its own behind theirs
      have helement : node.kind = .element := by
        have hlabelKind : node.label.kind = .element := by
          rcases hcontainer with hcontainer | rfl
          · simpa [Label.isContainer, hkind] using hcontainer
          · cases hempty
        exact hlabelKind
      have hlabelKind : node.label.kind = .element := helement
      have hbelow : below.roots = childIds entries (some id) := hf.1
      rw [hempty] at hchildren
      have henter := perform_parent options base hnode helement hchildren
      have hclose := hbehind.cons (perform_close options base hnode)
      have hinside := ihb (Nat.le_succ_of_le hbase) hf.2.1 hlb hclose
      have hlevel : node.depth.succ - max base 1 = node.depth - max base 1 + 1 :=
        Nat.succ_sub hbase
      have hsteps : below.taskCount + ((if false = true then 0 else 1) + rest.taskCount) + steps =
          below.taskCount + (rest.taskCount + steps + 1) := by
        rw [if_neg Bool.false_ne_true]
        omega
      rw [h.children_eq, ← hbelow] at henter
      rw [hlevel] at hinside
      rw [hsteps, Label.printed_element hlabelKind]
      refine .cons henter ?_
      rw [List.append_assoc]
      exact hinside

/-! ## The node that the printing starts at -/

/-- Entering a node below the document prints it at the level of the margin. -/
theorem performs_below (h : tree.Linked entries) (options : PrintOptions) {id : NodeId}
    {below : Forest NodeId}
    (hf : (Forest.cons id below .nil).Follows fun id => childIds entries (some id))
    {parent : NodeId} {depth : Nat} (hdepth : 1 ≤ depth)
    (hlies : (Forest.cons id below .nil).LiesBelow entries parent depth) :
    tree.Performs options depth (Forest.cons id below .nil).taskCount [.enter id]
      (((Forest.cons id below .nil).map (labelAt entries)).printed options 0) := by
  have hbase : max depth 1 ≤ depth := Nat.max_le.2 ⟨Nat.le_refl depth, hdepth⟩
  have hperforms := h.performs_forest options hbase hf hlies .nil
  have hlevel : depth - max depth 1 = 0 := Nat.sub_eq_zero_of_le (Nat.le_max_left depth 1)
  rwa [hlevel, String.append_empty, List.append_nil] at hperforms

/-- Entering the document prints the forest below it at the level of the margin. -/
theorem performs_root (h : tree.Linked entries) (hentries : Rooted entries)
    (options : PrintOptions) {f : Forest NodeId} (hf : f.Spans entries) :
    tree.Performs options 0 (f.taskCount + 1) [.enter root]
      ((f.map (labelAt entries)).printed options 0) := by
  obtain ⟨label, hfirst, hkind⟩ := hentries.first
  have henter := perform_document options 0 (h.get?_eq_some hfirst) hkind
  have hbase : max 0 1 ≤ 1 := Nat.le_refl 1
  have hperforms :=
    h.performs_forest options hbase hf.follows (hf.liesBelow hentries) .nil
  rw [h.children_eq, ← hf.roots] at henter
  rw [String.append_empty] at hperforms
  have hall := Performs.cons henter hperforms
  rwa [String.empty_append] at hall

/-- **Entering a node prints it and what is below it**, at the level of the margin. -/
theorem performs_enter (h : tree.Linked entries) (hentries : Rooted entries)
    (options : PrintOptions) {id : NodeId} {node : Node} (hnode : tree.get? id = some node)
    {below : Forest NodeId} (hbelow : below.roots = childIds entries (some id))
    (hf : below.Follows fun id => childIds entries (some id)) :
    ∃ steps, steps ≤ 2 * (below.size + 1) ∧
      tree.Performs options node.depth steps [.enter id]
        (((Forest.cons id below .nil).map (labelAt entries)).printed options 0) := by
  obtain ⟨e, he, rfl⟩ := h.exists_of_get? hnode
  by_cases hid : id = root
  · subst hid
    obtain ⟨label, hfirst, hkind⟩ := hentries.first
    obtain rfl := Option.some.inj (he.symm.trans hfirst)
    have hlabel : labelAt entries root = label := by rw [labelAt, hfirst]
    have hprinted : ((Forest.cons root below .nil).map (labelAt entries)).printed options 0 =
        (below.map (labelAt entries)).printed options 0 := by
      rw [Forest.map, Forest.printed, hlabel, Label.printed, hkind]
      exact String.append_empty
    have hcount := below.taskCount_le
    rw [hprinted]
    exact ⟨below.taskCount + 1, by omega, h.performs_root hentries options ⟨hbelow, hf⟩⟩
  · obtain ⟨parent, depth, hdepth, -, hlies⟩ :=
      Forest.Follows.exists_liesBelow hentries hid he hbelow hf
    have hcount := (Forest.cons id below .nil).taskCount_le
    rw [Forest.size, Forest.size] at hcount
    have hperforms :=
      h.performs_below options ⟨hbelow, hf, trivial⟩ (Nat.le_add_left 1 depth) hlies
    rw [← hdepth] at hperforms
    exact ⟨_, by omega, hperforms⟩

end Linked

/-- What entering a node prints is what the printer appends for it. -/
theorem Performs.printNode_eq {tree : Tree} {options : PrintOptions} {id : NodeId} {node : Node}
    {steps : Nat} {text : String} (hnode : tree.get? id = some node)
    (h : tree.Performs options node.depth steps [.enter id] text) (hsteps : steps ≤ 2 * tree.size)
    (out : String) : tree.printNode options id out = out ++ text := by
  rw [printNode, hnode]
  exact h.performAll_eq hsteps out

/-- **A tree is printed as the forest below its document.** -/
theorem Linked.print_eq_printed {tree : Tree} {entries : List Entry} (h : tree.Linked entries)
    (hentries : Rooted entries) {f : Forest NodeId} (hf : f.Spans entries)
    (options : PrintOptions) :
    tree.print options =
      printDeclaration options ++ (f.map (labelAt entries)).printed options 0 := by
  obtain ⟨label, hfirst, -⟩ := hentries.first
  have hcount := f.taskCount_le
  have hlength := hf.length_eq hentries
  rw [h.length_eq] at hlength
  have hperforms := h.performs_root hentries options hf
  exact hperforms.printNode_eq (h.get?_eq_some hfirst) (by omega) _

end Tree

end Groundwork
