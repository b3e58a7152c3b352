import Groundwork.Proofs.Tree.Descendants

/-!
# `Proofs.Tree.Addition` — one node more

A new node gets the next number, and it becomes the last child of a node that may lie anywhere in
the tree; so it stands at the end of the nodes and in the middle of the document. What it changes is
only where it is: the list of its parent's children, and each walk that comes through its parent,
which visits it right behind all that lay below the parent before. A node that is refused changes
nothing.

## Contents

* `Forest.addBelow`, `Follows.addBelow` — a new leaf, and the children of all nodes after it.
* `Forest.exists_addBelow` — **a new leaf stands behind all that lay below its parent.**
* `HasRoom`, `Addition.exists_append?_iff` — **when a node is added.**
* `Grown`, `Linked.grown` — **one node more, and nothing else.**
* `grown_of_reached` — **that is what every addition to any tree does, if it is not refused.**
-/

namespace Groundwork

open Text Xml

/-! ## A new leaf in a forest -/

namespace Forest

variable {α : Type} [DecidableEq α] {children others : α → List α} {f : Forest α} {parent new : α}

/-- The forest with a new leaf as the last node directly below each `parent`. -/
def addBelow (parent new : α) : Forest α → Forest α
  | nil => nil
  | cons root below rest =>
    cons root
      ((below.addBelow parent new).append (if root = parent then cons new nil nil else nil))
      (rest.addBelow parent new)

theorem roots_addBelow (parent new : α) (f : Forest α) :
    (f.addBelow parent new).roots = f.roots := by
  induction f with
  | nil => rfl
  | cons root below rest _ ihr => rw [addBelow, roots, ihr, roots]

theorem addBelow_of_not_mem (new : α) (h : parent ∉ f.toList) : f.addBelow parent new = f := by
  induction f with
  | nil => rfl
  | cons root below rest ihb ihr =>
    rw [toList, List.mem_cons, List.mem_append, not_or, not_or] at h
    obtain ⟨hroot, hbelow, hrest⟩ := h
    rw [addBelow, ihb hbelow, ihr hrest, if_neg (Ne.symm hroot), append_nil]

/-- **After a new leaf, every node has the children that it had**, and `parent` one more. -/
theorem Follows.addBelow (h : f.Follows children) (hnew : others new = [])
    (hothers : ∀ x ∈ f.toList, others x = children x ++ if x = parent then [new] else []) :
    (f.addBelow parent new).Follows others := by
  induction f with
  | nil => trivial
  | cons root below rest ihb ihr =>
    simp only [toList, List.mem_cons, List.mem_append] at hothers
    have hbelow := ihb h.2.1 fun x hx => hothers x (.inr (.inl hx))
    have hrest := ihr h.2.2 fun x hx => hothers x (.inr (.inr hx))
    have hleaf : (if root = parent then cons new nil nil else nil).Follows others := by
      split
      · exact ⟨hnew.symm, trivial, trivial⟩
      · trivial
    refine ⟨?_, follows_append_iff.2 ⟨hbelow, hleaf⟩, hrest⟩
    rw [roots_append, roots_addBelow, h.1, hothers root (.inl rfl)]
    split <;> rfl

/-- **A new leaf stands right behind all that lay below its parent.** -/
theorem Follows.exists_addBelow (h : f.Follows children) (hnodup : f.toList.Nodup)
    (hparent : parent ∈ f.toList) (new : α) :
    ∃ (front : List α) (below : Forest α) (back : List α),
      below.roots = children parent ∧ below.Follows children ∧
      f.toList = front ++ parent :: (below.toList ++ back) ∧
      (f.addBelow parent new).toList = front ++ parent :: (below.toList ++ new :: back) := by
  induction f with
  | nil => cases hparent
  | cons root below rest ihb ihr =>
    rw [toList, List.nodup_cons, List.mem_append, not_or, List.nodup_append] at hnodup
    obtain ⟨⟨hrootBelow, hrootRest⟩, hnodupBelow, hnodupRest, hapart⟩ := hnodup
    rw [toList, List.mem_cons, List.mem_append] at hparent
    rw [Forest.addBelow, toList, toList, toList_append]
    rcases hparent with rfl | hmem | hmem
    · -- the parent stands here and nowhere else
      refine ⟨[], below, rest.toList, h.1, h.2.1, rfl, ?_⟩
      rw [addBelow_of_not_mem new hrootBelow, addBelow_of_not_mem new hrootRest, if_pos rfl]
      simp [toList]
    · have hroot : root ≠ parent := fun heq => hrootBelow (heq ▸ hmem)
      have hrest : parent ∉ rest.toList := fun hin => hapart parent hmem parent hin rfl
      obtain ⟨front, inner, back, hroots, hfollows, hlist, hadded⟩ := ihb h.2.1 hnodupBelow hmem
      refine ⟨root :: front, inner, back ++ rest.toList, hroots, hfollows, ?_, ?_⟩
      · simp [hlist]
      · rw [hadded, addBelow_of_not_mem new hrest, if_neg hroot]
        simp [toList]
    · have hroot : root ≠ parent := fun heq => hrootRest (heq ▸ hmem)
      have hbelow : parent ∉ below.toList := fun hin => hapart parent hin parent hmem rfl
      obtain ⟨front, inner, back, hroots, hfollows, hlist, hadded⟩ := ihr h.2.2 hnodupRest hmem
      refine ⟨root :: (below.toList ++ front), inner, back, hroots, hfollows, ?_, ?_⟩
      · simp [hlist]
      · rw [hadded, addBelow_of_not_mem new hbelow, if_neg hroot]
        simp [toList]

end Forest

namespace Tree

/-! ## When a node is added -/

/-- There is such a node, it may have children, and one below it would not lie too deep. -/
def HasRoom (tree : Tree) (parent : NodeId) : Prop :=
  ∃ node, tree.get? parent = some node ∧ (node.kind = .document ∨ node.kind = .element) ∧
    node.depth < maxDepth

theorem childDepth?_eq_some_iff {tree : Tree} {parent : NodeId} {depth : Nat} :
    tree.childDepth? parent = some depth ↔
      ∃ node, tree.get? parent = some node ∧ (node.kind = .document ∨ node.kind = .element) ∧
        node.depth < maxDepth ∧ depth = node.depth + 1 := by
  unfold childDepth?
  cases tree.get? parent with
  | none => simp
  | some node =>
    simp only [Node.isContainer, Option.ite_none_right_eq_some, Bool.and_eq_true, Bool.or_eq_true,
      decide_eq_true_eq, Option.some.injEq, exists_eq_left', and_assoc, eq_comm (b := depth)]

theorem hasRoom_iff {tree : Tree} {parent : NodeId} :
    tree.HasRoom parent ↔ ∃ depth, tree.childDepth? parent = some depth := by
  simp only [childDepth?_eq_some_iff, HasRoom]
  constructor
  · rintro ⟨node, hnode, hkind, hdepth⟩
    exact ⟨_, node, hnode, hkind, hdepth, rfl⟩
  · rintro ⟨_, node, hnode, hkind, hdepth, -⟩
    exact ⟨node, hnode, hkind, hdepth⟩

namespace Addition

/-- **When a node is added.** -/
theorem exists_append?_iff {tree : Tree} {parent : NodeId} {addition : Addition} :
    (∃ id after, addition.append? tree parent = some (id, after)) ↔
      addition.Allowed ∧ tree.HasRoom parent := by
  simp only [append?_eq_some_iff, exists_and_left, hasRoom_iff, appendNode?]
  refine and_congr_right fun _ => ?_
  constructor
  · rintro ⟨id, after, hsome⟩
    obtain ⟨depth, hdepth, -⟩ := Option.map_eq_some_iff.1 hsome
    exact ⟨depth, hdepth⟩
  · rintro ⟨depth, hdepth⟩
    exact ⟨_, _, by rw [hdepth, Option.map_some]⟩

end Addition

/-! ## One node more -/

/-- The tree has got a node with this label below `parent`, and is otherwise as it was. -/
structure Grown (tree : Tree) (parent : NodeId) (label : Label) (id : NodeId) (after : Tree) :
    Prop where
  /-- The new node has the next number. -/
  id_eq : id = tree.size
  /-- There is one node more. -/
  size_eq : after.size = tree.size + 1
  /-- The new node lies below its parent, one level deeper. -/
  new : ∃ node above, after.get? id = some node ∧ node.label = label ∧ node.parent = some parent ∧
    tree.get? parent = some above ∧ node.depth = above.depth + 1
  /-- Each other node is what it was, and where it was. -/
  kept : ∀ other node, tree.get? other = some node → ∃ found, after.get? other = some found ∧
    found.label = node.label ∧ found.parent = node.parent ∧ found.depth = node.depth
  /-- The new node is the last child of its parent. -/
  children : after.children parent = tree.children parent ++ [id]
  /-- All others have the children they had. -/
  childrenElsewhere : ∀ other, other ≠ parent → after.children other = tree.children other
  /-- In the document, the new node stands right behind all that lay below its parent. -/
  descendants : ∃ front back,
    root :: tree.descendants root = front ++ parent :: (tree.descendants parent ++ back) ∧
    root :: after.descendants root = front ++ parent :: (tree.descendants parent ++ id :: back)
  /-- So it does in the walk from any node that comes through its parent. -/
  walks : ∀ top, parent ∈ top :: tree.descendants top → ∃ front back,
    top :: tree.descendants top = front ++ parent :: (tree.descendants parent ++ back) ∧
    top :: after.descendants top = front ++ parent :: (tree.descendants parent ++ id :: back)
  /-- No other walk meets it. -/
  walksElsewhere : ∀ top, parent ∉ top :: tree.descendants top →
    after.descendants top = tree.descendants top

namespace Linked

variable {tree : Tree} {entries : List Entry} {e : Entry} {parent : NodeId}

theorem children_appendChild (h : tree.Linked entries) (hparent : e.parent = some parent)
    (hlt : parent < entries.length) (other : NodeId) :
    (tree.appendChild parent e.unlinked).children other =
      tree.children other ++ if other = parent then [tree.size] else [] := by
  rw [(h.appendChild hparent hlt).children_eq, childIds_concat, ← h.children_eq, hparent,
    h.length_eq]
  simp only [Option.some.injEq, eq_comm]

/-- A walk that does not come through the parent does not meet the new node. -/
theorem descendants_appendChild_of_not_mem (h : tree.Linked entries) (hentries : Rooted entries)
    (hparent : e.parent = some parent) (hlt : parent < entries.length) {top : NodeId}
    (htop : parent ∉ top :: tree.descendants top) :
    (tree.appendChild parent e.unlinked).descendants top = tree.descendants top := by
  obtain ⟨f, hroots, hfollows, -, hsize⟩ := h.exists_forest hentries top
  have hbefore := h.descendants_eq hfollows hroots (Nat.le_of_lt hsize)
  rw [List.mem_cons, not_or, hbefore] at htop
  have hkept (other : NodeId) (hne : other ≠ parent) :
      tree.children other = (tree.appendChild parent e.unlinked).children other := by
    rw [h.children_appendChild hparent hlt, if_neg hne, List.append_nil]
  have hafter := hfollows.congr fun other hother => hkept other fun heq => htop.2 (heq ▸ hother)
  rw [hbefore]
  refine (h.appendChild hparent hlt).descendants_eq hafter ?_ ?_
  · rw [hroots, hkept top (Ne.symm htop.1)]
  · rw [size_appendChild]
    omega

/-- **A walk that comes through the parent** visits the new node right behind all that lay below
it. -/
theorem descendants_appendChild (h : tree.Linked entries) (hentries : Rooted entries)
    (hparent : e.parent = some parent) (hlt : parent < entries.length) {top : NodeId}
    (htop : parent ∈ top :: tree.descendants top) :
    ∃ front back,
      top :: tree.descendants top = front ++ parent :: (tree.descendants parent ++ back) ∧
      top :: (tree.appendChild parent e.unlinked).descendants top =
        front ++ parent :: (tree.descendants parent ++ tree.size :: back) := by
  obtain ⟨f, hroots, hfollows, hnodup, hsize⟩ := h.exists_forest hentries top
  have hbefore := h.descendants_eq hfollows hroots (Nat.le_of_lt hsize)
  have hself : top ∉ f.toList := fun hmem => ((h.mem_toList_iff hfollows hroots).1 hmem).1 rfl
  -- the node together with its forest is a forest of one root
  have hlist : (Forest.cons top f .nil).toList = top :: tree.descendants top := by
    rw [Forest.toList, Forest.toList, List.append_nil, hbefore]
  have hwhole : (Forest.cons top f .nil).Follows tree.children := ⟨hroots, hfollows, trivial⟩
  have honce : (Forest.cons top f .nil).toList.Nodup := by
    rw [hlist, hbefore]
    exact List.nodup_cons.2 ⟨hself, hnodup⟩
  obtain ⟨front, below, back, hinner, hbelow, hold, hnew⟩ :=
    hwhole.exists_addBelow honce (hlist ▸ htop) tree.size
  have hlength := congrArg List.length hold
  have hlength' := congrArg List.length hnew
  simp only [Forest.length_toList, List.length_append, List.length_cons, Forest.addBelow,
    Forest.size] at hlength hlength'
  rw [h.descendants_eq hbelow hinner (by omega), ← hlist]
  refine ⟨front, back, hold, ?_⟩
  rw [← hnew]
  have hchildren := h.children_appendChild hparent hlt
  -- no node has the next number for its parent yet, and the new one is not its own parent
  have hleaf : (tree.appendChild parent e.unlinked).children tree.size = [] := by
    have hnone := h.ordered.childIds_eq_nil (Nat.le_succ_of_le (Nat.le_of_eq h.length_eq))
    rw [hchildren, h.children_eq, hnone, if_neg (Nat.ne_of_gt (h.length_eq ▸ hlt)), List.append_nil]
  obtain ⟨hafterRoots, hafter, -⟩ := hwhole.addBelow hleaf fun other _ => hchildren other
  have hafterLinked := h.appendChild hparent hlt
  rw [hafterLinked.descendants_eq hafter hafterRoots (by rw [size_appendChild]; omega),
    Forest.addBelow, Forest.toList]
  simp [Forest.addBelow, Forest.toList]

/-- **One node more, and nothing else.** -/
theorem grown (h : tree.Linked entries) (hentries : Rooted entries) {label : Label} {id : NodeId}
    {after : Tree}
    (hadded : (tree.appendNode? parent fun parent depth => Entry.unlinked ⟨parent, depth, label⟩) =
      some (id, after)) : tree.Grown parent label id after := by
  obtain ⟨depth, hdepth, hpair⟩ := Option.map_eq_some_iff.1 hadded
  obtain ⟨rfl, rfl⟩ := Prod.mk.inj hpair
  obtain ⟨above, habove, -, -, rfl⟩ := h.exists_of_childDepth? hdepth
  have hlt : parent < entries.length := (List.getElem?_eq_some_iff.1 habove).1
  have hafter := h.appendChild (e := ⟨some parent, above.depth + 1, label⟩) rfl hlt
  have hchildren := h.children_appendChild (e := ⟨some parent, above.depth + 1, label⟩) rfl hlt
  have hlast : (entries ++ [⟨some parent, above.depth + 1, label⟩])[tree.size]? =
      some ⟨some parent, above.depth + 1, label⟩ := h.length_eq ▸ List.getElem?_concat_length
  have hwalks (top : NodeId) (htop : parent ∈ top :: tree.descendants top) :=
    h.descendants_appendChild (e := ⟨some parent, above.depth + 1, label⟩) hentries rfl hlt htop
  refine
    { id_eq := rfl
      size_eq := size_appendChild ..
      new := ⟨_, _, hafter.get?_eq_some hlast, rfl, rfl, h.get?_eq_some habove, rfl⟩
      kept := fun other node hnode => ?_
      children := by rw [hchildren, if_pos rfl]
      childrenElsewhere := fun other hother => by rw [hchildren, if_neg hother, List.append_nil]
      descendants := hwalks root ((h.mem_documentOrder hentries).2 hlt)
      walks := hwalks
      walksElsewhere := fun top htop =>
        h.descendants_appendChild_of_not_mem hentries rfl hlt htop }
  obtain ⟨e, he, rfl⟩ := h.exists_of_get? hnode
  have hkept : (entries ++ [⟨some parent, above.depth + 1, label⟩])[other]? = entries[other]? :=
    List.getElem?_append_left (List.getElem?_eq_some_iff.1 he).1
  exact ⟨_, hafter.get?_eq_some (hkept.trans he), rfl, rfl, rfl⟩

end Linked

/-! ## All trees that there are -/

/-- **An addition adds one node and changes nothing else**, in every tree that is reached by parsing
and by changes. It is made exactly if its texts are allowed and its parent has room, and otherwise
leaves the tree as it was. -/
theorem grown_of_reached {allowed : Tree → Edit → Prop} {tree : Tree} (h : Reached allowed tree)
    (parent : NodeId) (addition : Addition) :
    ((∃ id after, addition.append? tree parent = some (id, after)) ↔
      addition.Allowed ∧ tree.HasRoom parent) ∧
    (∀ id after, addition.append? tree parent = some (id, after) →
      tree.Grown parent addition.label id after ∧ (addition.edit parent).apply tree = after) ∧
    (addition.append? tree parent = none → (addition.edit parent).apply tree = tree) := by
  obtain ⟨entries, hlinked, hentries⟩ := h.exists_entries
  refine ⟨Addition.exists_append?_iff, fun id after hadded => ⟨?_, ?_⟩, fun hrefused => ?_⟩
  · exact hlinked.grown hentries (Addition.append?_eq_some_iff.1 hadded).2
  · rw [Addition.apply_edit, hadded]
    rfl
  · rw [Addition.apply_edit, hrefused]
    rfl

/-- An element that is added below one in front of the last node, so that the document has it
between two nodes; and two comments that are refused, one for its text and one for its parent. -/
theorem grown_of_reached_between :
    let tree := Forest.tree (.cons ⟨.element, "a", "", []⟩ (.cons ⟨.element, "b", "", []⟩ .nil .nil)
      (.cons ⟨.comment, "", "c", []⟩ .nil .nil))
    ∃ after : Tree, parse "<a><b/></a><!--c-->" = .ok tree ∧
      (Addition.textElement "d" " x ").append? tree 1 = some (4, after) ∧
      tree.Grown 1 ⟨.element, "d", " x ", []⟩ 4 after ∧ after.descendants root = [1, 2, 4, 3] ∧
      (Edit.appendComment 1 "-").apply tree = tree ∧
      (Edit.appendComment 3 "e").apply tree = tree := by
  intro tree
  have hparse : parse "<a><b/></a><!--c-->" = .ok tree := by decide +kernel
  have hreached : Reached (fun _ _ => True) tree := .parsed hparse
  have hadded : (Addition.textElement "d" " x ").append? tree 1 =
      some (4, (Edit.appendTextElement 1 "d" " x ").apply tree) := by
    decide +kernel
  obtain ⟨-, hgrown, -⟩ := grown_of_reached hreached 1 (.textElement "d" " x ")
  obtain ⟨-, -, htext⟩ := grown_of_reached hreached 1 (.comment "-")
  obtain ⟨-, -, hparent⟩ := grown_of_reached hreached 3 (.comment "e")
  exact ⟨_, hparse, hadded, (hgrown _ _ hadded).1, by decide +kernel, htext (by decide +kernel),
    hparent (by decide +kernel)⟩

end Tree

end Groundwork
