import Groundwork.Proofs.Tree.Links
import Mathlib.Logic.Relation

/-!
# `Proofs.Tree.Descendants` — what the walks visit

The walk over all nodes below a node takes one after the other off a stack and puts its children
there, which it finds from the last one back; the children themselves are listed from the first one
on. Where the links agree, both tell of the same forest. Then the walk ends by itself, its bound is
never what stops it, and it visits exactly what lies below the node, each node once and in front of
what lies below that one.

## Contents

* `Follows.exists_below` — **what is below a node of a forest stands in one piece in its list.**
* `Visits`, `Linked.visits` — the walk without a bound, and that it ends.
* `Linked.mem_descendants_iff` — **the descendants are the nodes whose parents lead to the node.**
* `Traversed`, `Linked.traversed` — what all walks from a node give.
* `traversed_of_reached` — **the walks are complete in every tree that there is.**
-/

namespace Groundwork

/-! ## Nodes of a forest -/

namespace Forest

variable {α : Type} {children : α → List α} {f : Forest α}

theorem Follows.mem_of_mem_roots (h : f.Follows children) {x : α} (hx : x ∈ f.roots) :
    x ∈ f.toList := h.toList_perm.mem_iff.2 (List.mem_append_left _ hx)

/-- The children of a node of a forest are nodes of it. -/
theorem Follows.mem_of_mem_children (h : f.Follows children) {x y : α} (hx : x ∈ f.toList)
    (hy : y ∈ children x) : y ∈ f.toList := by
  have hmem := List.mem_flatMap.2 ⟨x, hx, hy⟩
  exact h.toList_perm.mem_iff.2 (List.mem_append_right _ hmem)

/-- **What is below a node of a forest stands in one piece in its list**, right behind the node. -/
theorem Follows.exists_below (h : f.Follows children) {x : α} (hx : x ∈ f.toList) :
    ∃ below : Forest α, below.roots = children x ∧ below.Follows children ∧
      x :: below.toList <:+: f.toList := by
  induction f with
  | nil => cases hx
  | cons root below rest ihb ihr =>
    have hbelow : below.toList <:+: root :: (below.toList ++ rest.toList) :=
      ⟨[root], rest.toList, by simp⟩
    have hrest : rest.toList <:+: root :: (below.toList ++ rest.toList) :=
      ⟨root :: below.toList, [], by simp⟩
    rw [toList, List.mem_cons, List.mem_append] at hx
    rw [toList]
    rcases hx with rfl | hx | hx
    · exact ⟨below, h.1, h.2.1, [], rest.toList, by simp⟩
    · obtain ⟨found, hroots, hfollows, hpiece⟩ := ihb h.2.1 hx
      exact ⟨found, hroots, hfollows, hpiece.trans hbelow⟩
    · obtain ⟨found, hroots, hfollows, hpiece⟩ := ihr h.2.2 hx
      exact ⟨found, hroots, hfollows, hpiece.trans hrest⟩

end Forest

namespace Tree

/-! ## The walk without a bound -/

/-- Visiting what is on the stack and all that lies below visits these nodes, one after the other,
and then ends. A node is taken off the top of the stack, and its children come there, found from the
last one back, so that the first of them ends on top. -/
inductive Visits (tree : Tree) : (stack visited : List NodeId) → Prop where
  | nil : Visits tree [] []
  | cons {id : NodeId} {found stack visited : List NodeId}
      (hfound : tree.Leads (·.previous) ((tree.get? id).bind (·.lastChild)) found)
      (h : Visits tree (found.reverse ++ stack) visited) : Visits tree (id :: stack) (id :: visited)

theorem Leads.eq_nil {tree : Tree} {link : Node → Option NodeId} {ids : List NodeId}
    (h : tree.Leads link none ids) : ids = [] := by
  cases h
  rfl

/-- The first node lies directly in the second. -/
def LiesIn (tree : Tree) (child parent : NodeId) : Prop :=
  ∃ node, tree.get? child = some node ∧ node.parent = some parent

namespace Linked

variable {tree : Tree} {entries : List Entry} {f : Forest NodeId}

theorem leads_firstChild (h : tree.Linked entries) (id : NodeId) :
    tree.Leads (·.next) ((tree.get? id).bind (·.firstChild)) (tree.children id) := by
  rw [h.children_eq, (h.bind_ends id).1]
  exact h.leads_next (List.nil_append _).symm

theorem leads_lastChild (h : tree.Linked entries) (id : NodeId) :
    tree.Leads (·.previous) ((tree.get? id).bind (·.lastChild)) (tree.children id).reverse := by
  rw [h.children_eq, (h.bind_ends id).2]
  exact h.leads_previous (List.append_nil _).symm

theorem children_eq_childIds (h : tree.Linked entries) :
    tree.children = fun id => childIds entries (some id) := funext h.children_eq

/-- **The walk over a forest visits it and goes on with the rest of the stack.** -/
theorem visits (h : tree.Linked entries) (hf : f.Follows tree.children)
    {stack visited : List NodeId} (hstack : tree.Visits stack visited) :
    tree.Visits (f.roots ++ stack) (f.toList ++ visited) := by
  induction f generalizing stack visited with
  | nil => exact hstack
  | cons id below rest ihb ihr =>
    have hbehind := ihb hf.2.1 (ihr hf.2.2 hstack)
    rw [hf.1] at hbehind
    rw [Forest.roots, Forest.toList, List.cons_append, List.cons_append, List.append_assoc]
    refine .cons (h.leads_lastChild id) ?_
    rwa [List.reverse_reverse]

/-- The bound of the walk leaves room for any forest in the tree. -/
theorem descendants_eq (h : tree.Linked entries) {id : NodeId} (hf : f.Follows tree.children)
    (hroots : f.roots = tree.children id) (hsize : f.size ≤ tree.size) :
    tree.descendants id = f.toList := by
  rw [h.children_eq] at hroots
  rw [h.children_eq_childIds] at hf
  obtain ⟨more, hmore⟩ := Nat.exists_eq_add_of_le hsize
  rw [descendants, h.pushChildren_eq, ← hroots, hmore, h.walkFrom_eq hf]
  cases more <;> simp [walkFrom]

/-! ## What lies below a node -/

theorem mem_children_iff (h : tree.Linked entries) {child parent : NodeId} :
    child ∈ tree.children parent ↔ tree.LiesIn child parent := by
  rw [h.children_eq, h.mem_childIds_iff, LiesIn]

theorem lt_of_liesIn (h : tree.Linked entries) {child parent : NodeId}
    (hlies : tree.LiesIn child parent) : parent < child := by
  rw [← h.mem_children_iff, h.children_eq] at hlies
  exact h.ordered.lt_of_mem hlies

/-- From the nodes of a forest, the parents lead to the roots. -/
theorem exists_root_of_mem (h : tree.Linked entries) (hf : f.Follows tree.children)
    {id : NodeId} (hid : id ∈ f.toList) :
    ∃ top ∈ f.roots, Relation.ReflTransGen tree.LiesIn id top := by
  induction f with
  | nil => cases hid
  | cons top below rest ihb ihr =>
    rw [Forest.toList, List.mem_cons, List.mem_append] at hid
    rw [Forest.roots]
    rcases hid with rfl | hid | hid
    · exact ⟨id, List.mem_cons_self, .refl⟩
    · obtain ⟨child, hchild, hchain⟩ := ihb hf.2.1 hid
      rw [hf.1] at hchild
      exact ⟨top, List.mem_cons_self, hchain.tail (h.mem_children_iff.1 hchild)⟩
    · obtain ⟨other, hother, hchain⟩ := ihr hf.2.2 hid
      exact ⟨other, List.mem_cons_of_mem top hother, hchain⟩

/-- **The forest below a node holds the nodes whose parents lead to it**, and not the node. -/
theorem mem_toList_iff (h : tree.Linked entries) (hf : f.Follows tree.children) {id : NodeId}
    (hroots : f.roots = tree.children id) {other : NodeId} :
    other ∈ f.toList ↔ other ≠ id ∧ Relation.ReflTransGen tree.LiesIn other id := by
  constructor
  · intro hother
    obtain ⟨top, htop, hchain⟩ := h.exists_root_of_mem hf hother
    rw [hroots, h.mem_children_iff] at htop
    refine ⟨?_, hchain.tail htop⟩
    -- the numbers fall on the way up, so the way does not end where it starts
    have hle : top ≤ other := by
      clear htop
      induction hchain with
      | refl => exact Nat.le_refl _
      | tail _ hstep ih => exact Nat.le_trans (Nat.le_of_lt (h.lt_of_liesIn hstep)) ih
    exact Nat.ne_of_gt (Nat.lt_of_lt_of_le (h.lt_of_liesIn htop) hle)
  · rintro ⟨hne, hchain⟩
    induction hchain using Relation.ReflTransGen.head_induction_on with
    | refl => exact absurd rfl hne
    | @head child parent hstep _ ih =>
      have hchild := h.mem_children_iff.2 hstep
      by_cases hparent : parent = id
      · rw [hparent, ← hroots] at hchild
        exact hf.mem_of_mem_roots hchild
      · exact hf.mem_of_mem_children (ih hparent) hchild

/-- **Below every node there is a forest** that holds no node twice and leaves room in the tree. -/
theorem exists_forest (h : tree.Linked entries) (hentries : Rooted entries) (id : NodeId) :
    ∃ f : Forest NodeId, f.roots = tree.children id ∧ f.Follows tree.children ∧
      f.toList.Nodup ∧ f.size < tree.size := by
  obtain ⟨all, hall⟩ := exists_spans h.ordered
  have hrange := hall.perm_range hentries
  have hnodup := (List.nodup_cons.1 (hrange.nodup_iff.2 List.nodup_range)).2
  have hsize := hall.length_eq hentries
  have hlength := h.length_eq
  rw [h.children_eq_childIds]
  by_cases hlt : id < entries.length
  · rcases List.mem_cons.1 (hrange.mem_iff.2 (List.mem_range.2 hlt)) with rfl | hid
    · exact ⟨all, hall.roots, hall.follows, hnodup, by omega⟩
    · obtain ⟨below, hroots, hfollows, hpiece⟩ := hall.follows.exists_below hid
      have hbelow := (List.nodup_cons.1 (hpiece.sublist.nodup hnodup)).2
      have hle := hpiece.length_le
      rw [List.length_cons, Forest.length_toList, Forest.length_toList] at hle
      exact ⟨below, hroots, hfollows, hbelow, by omega⟩
  · -- a number without a node has nothing below it
    have hnil := h.ordered.childIds_eq_nil (Nat.le_succ_of_le (Nat.le_of_not_lt hlt))
    exact ⟨.nil, hnil.symm, trivial, List.nodup_nil, tree.size_pos⟩

/-- The list of a forest by recursion along its roots. -/
theorem toList_eq_flatMap (h : tree.Linked entries) (hf : f.Follows tree.children)
    (hsize : f.size ≤ tree.size) :
    f.toList = f.roots.flatMap fun id => id :: tree.descendants id := by
  induction f with
  | nil => rfl
  | cons id below rest _ ihr =>
    rw [Forest.size] at hsize
    have hbelow := h.descendants_eq hf.2.1 hf.1 (by omega)
    rw [Forest.toList, Forest.roots, List.flatMap_cons, hbelow, ihr hf.2.2 (by omega),
      List.cons_append]

end Linked

/-! ## All walks from a node -/

theorem mem_findElements {tree : Tree} {id other : NodeId} {name : String} :
    other ∈ tree.findElements id name ↔ (other = id ∨ other ∈ tree.descendants id) ∧
      ∃ node, tree.get? other = some node ∧ node.kind = .element ∧ node.name = name := by
  rw [findElements, List.mem_filter, List.mem_cons, Option.any_eq_true]
  simp [Node.isElement]

/-- What the walks from a node give. -/
structure Traversed (tree : Tree) (id : NodeId) : Prop where
  /-- From the first child forward, the links lead through all children and end. -/
  forward : tree.Leads (·.next) ((tree.get? id).bind (·.firstChild)) (tree.children id)
  /-- From the last child back, they lead through the same nodes in the opposite order. -/
  back : tree.Leads (·.previous) ((tree.get? id).bind (·.lastChild)) (tree.children id).reverse
  /-- The walk over all nodes below ends by itself. -/
  ends : tree.Visits (tree.children id) (tree.descendants id)
  /-- It visits the forest of the children in order. -/
  forest : ∃ f : Forest NodeId, f.roots = tree.children id ∧ f.Follows tree.children ∧
    tree.descendants id = f.toList
  /-- That is, every child in front of what lies below it. -/
  recursion : tree.descendants id =
    (tree.children id).flatMap fun child => child :: tree.descendants child
  /-- No node is visited twice. -/
  nodup : (tree.descendants id).Nodup
  /-- A node is visited exactly if its parents lead to this one, which is not visited itself. -/
  mem : ∀ other, other ∈ tree.descendants id ↔
    other ≠ id ∧ Relation.ReflTransGen tree.LiesIn other id
  /-- The elements with a name are found in the same order, with the node itself in front. -/
  elements : ∀ name, (tree.findElements id name).Sublist (id :: tree.descendants id)
  /-- They are those with this name whose parents lead to the node, or that are the node. -/
  named : ∀ name other, other ∈ tree.findElements id name ↔
    Relation.ReflTransGen tree.LiesIn other id ∧
      ∃ node, tree.get? other = some node ∧ node.kind = .element ∧ node.name = name
  /-- None is found twice. -/
  once : ∀ name, (tree.findElements id name).Nodup
  /-- Nothing is found without a node to start from. -/
  unknown : tree.get? id = none → tree.descendants id = [] ∧ ∀ name, tree.findElements id name = []

/-- **All walks of a linked and rooted tree are complete.** -/
theorem Linked.traversed {tree : Tree} {entries : List Entry} (h : tree.Linked entries)
    (hentries : Rooted entries) (id : NodeId) : tree.Traversed id := by
  obtain ⟨f, hroots, hfollows, hnodup, hsize⟩ := h.exists_forest hentries id
  have heq := h.descendants_eq hfollows hroots (Nat.le_of_lt hsize)
  have hmem (other : NodeId) : other ∈ tree.descendants id ↔
      other ≠ id ∧ Relation.ReflTransGen tree.LiesIn other id := by
    rw [heq]
    exact h.mem_toList_iff hfollows hroots
  have hself (other : NodeId) : other = id ∨ other ∈ tree.descendants id ↔
      Relation.ReflTransGen tree.LiesIn other id := by
    rw [hmem]
    by_cases hother : other = id
    · subst hother
      simp [Relation.ReflTransGen.refl]
    · simp [hother]
  have hnotMem : id ∉ tree.descendants id := fun hid => ((hmem id).1 hid).1 rfl
  have hdescendants : (tree.descendants id).Nodup := by rwa [heq]
  refine
    { forward := h.leads_firstChild id
      back := h.leads_lastChild id
      ends := ?_
      forest := ⟨f, hroots, hfollows, heq⟩
      recursion := ?_
      nodup := hdescendants
      mem := hmem
      elements := fun name => List.filter_sublist
      named := fun name other => ?_
      once := fun name => (List.nodup_cons.2 ⟨hnotMem, hdescendants⟩).filter _
      unknown := fun hnone => ?_ }
  · have hvisits := h.visits hfollows .nil
    rwa [List.append_nil, List.append_nil, hroots, ← heq] at hvisits
  · rw [heq, h.toList_eq_flatMap hfollows (Nat.le_of_lt hsize), hroots]
  · rw [mem_findElements, hself]
  · -- without a node there is no first child, and the number itself is no element
    have hchildren : tree.children id = [] := by
      have hleads := h.leads_firstChild id
      rw [hnone] at hleads
      exact hleads.eq_nil
    have hnil : tree.descendants id = [] := by
      rw [heq, h.toList_eq_flatMap hfollows (Nat.le_of_lt hsize), hroots, hchildren]
      rfl
    refine ⟨hnil, fun name => ?_⟩
    rw [findElements, hnil, List.filter_singleton, hnone]
    rfl

/-! ## All trees that there are -/

/-- **The walks are complete in every tree** that is reached by parsing and by changes; below the
document they visit all nodes but its own, and after a parse in the order of their numbers. -/
theorem traversed_of_reached {allowed : Tree → Edit → Prop} :
    (∀ tree, Reached allowed tree → (∀ id, tree.Traversed id) ∧
      ∀ other, other ∈ tree.descendants root ↔ other ≠ root ∧ other < tree.size) ∧
    ∀ text tree, parse text = .ok tree →
      tree.descendants root = List.range' 1 (tree.size - 1) := by
  constructor
  · intro tree h
    obtain ⟨entries, hlinked, hentries⟩ := h.exists_entries
    obtain ⟨f, hf⟩ := exists_spans hlinked.ordered
    refine ⟨hlinked.traversed hentries, fun other => ?_⟩
    have hrange := hf.perm_range hentries
    have hroot := (List.nodup_cons.1 (hrange.nodup_iff.2 List.nodup_range)).1
    have hmem : other ∈ root :: f.toList ↔ other < tree.size := by
      rw [hrange.mem_iff, List.mem_range, hlinked.length_eq]
    rw [hlinked.descendants_root hentries hf, ← hmem, List.mem_cons]
    constructor
    · intro hother
      exact ⟨fun heq => hroot (heq ▸ hother), .inr hother⟩
    · rintro ⟨hne, heq | hother⟩
      · exact absurd heq hne
      · exact hother
  · intro text tree hparse
    obtain ⟨f, rfl, hsound, -, -, hheight⟩ := exists_forest_of_parse hparse
    have hentries := Forest.rooted_documentEntries hsound hheight
    have hsize : f.tree.size = f.size + 1 := by
      rw [← f.linked_tree.length_eq, Forest.documentEntries, List.length_cons,
        Forest.length_entries]
    rw [f.linked_tree.descendants_root hentries f.spans_numbered, Forest.toList_numbered, hsize,
      Nat.add_sub_cancel]

/-- A parsed tree that gets a child of an element in front of its last node, so that the walk no
longer goes by the numbers. -/
theorem traversed_of_reached_between :
    ∃ tree : Tree, parse "<a><b/></a><!--c-->" = .ok tree ∧ tree.descendants root = [1, 2, 3] ∧
      tree.descendants root = List.range' 1 (tree.size - 1) ∧
      ((Edit.appendElement 1 "b").apply tree).descendants root = [1, 2, 4, 3] ∧
      ((Edit.appendElement 1 "b").apply tree).findElements 1 "b" = [2, 4] ∧
      ∀ id, ((Edit.appendElement 1 "b").apply tree).Traversed id := by
  have hparse : parse "<a><b/></a><!--c-->" =
      .ok (Forest.tree (.cons ⟨.element, "a", "", []⟩ (.cons ⟨.element, "b", "", []⟩ .nil .nil)
        (.cons ⟨.comment, "", "c", []⟩ .nil .nil))) := by
    decide +kernel
  obtain ⟨hreached, hparsed⟩ := @traversed_of_reached fun _ _ => True
  exact ⟨_, hparse, by decide +kernel, hparsed _ _ hparse, by decide +kernel, by decide +kernel,
    (hreached _ (.edited (.parsed hparse) trivial)).1⟩

end Tree

end Groundwork
