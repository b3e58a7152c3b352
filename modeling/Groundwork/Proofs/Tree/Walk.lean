import Groundwork.Proofs.Tree.Rooted
import Groundwork.Tree.Traversal
import Mathlib.Data.List.Induction

/-!
# `Proofs.Tree.Walk` — walks along the links

Every walk follows links from node to node, and its recursion is bounded by the number of nodes. In
a linked tree the chain of a node's children is what the entries say, walked from either end; so the
walk over all descendants is the forest below the document, written down in order.

## Contents

* `Linked.children_eq`, `Linked.pushChildren_eq` — the children, from the front and from the back.
* `Linked.walkFrom_eq`, `descendants_root` — **the descendants of the document are its forest.**
-/

namespace Groundwork.Tree

/-! ## Along the children of a node -/

theorem before?_append_cons {id : NodeId} {back : List NodeId} (h : id ∉ back)
    (front : List NodeId) : before? id (front ++ id :: back) = front.getLast? := by
  have hreverse : id ∉ back.reverse := by rwa [List.mem_reverse]
  rw [before?, List.reverse_append, List.reverse_cons, List.append_assoc, List.singleton_append,
    after?_append_cons hreverse, List.head?_reverse]

namespace Linked

variable {tree : Tree} {entries : List Entry}

/-- The links of a child lead to its neighbours among the children. -/
theorem neighbours (h : tree.Linked entries) {parent id : NodeId} {front back : List NodeId}
    (hids : childIds entries (some parent) = front ++ id :: back) :
    (tree.get? id).bind (·.previous) = front.getLast? ∧
      (tree.get? id).bind (·.next) = back.head? := by
  have hnodup := nodup_childIds entries (some parent)
  rw [hids, List.nodup_append, List.nodup_cons] at hnodup
  obtain ⟨-, ⟨hback, -⟩, hdisjoint⟩ := hnodup
  have hfront : id ∉ front := by
    intro hmem
    exact hdisjoint id hmem id (by simp) rfl
  obtain ⟨e, he, hparent⟩ := mem_childIds.1 (hids ▸ List.mem_append_right front (by simp) :
    id ∈ childIds entries (some parent))
  rw [h.get?_eq_some he, Option.bind_some, Option.bind_some]
  constructor
  · rw [Entry.linked, hparent, hids]
    exact before?_append_cons hback front
  · rw [Entry.linked, hparent, hids]
    exact after?_append_cons hfront back

theorem chainFrom_eq (h : tree.Linked entries) {parent : NodeId} {front back : List NodeId}
    (hids : childIds entries (some parent) = front ++ back) {fuel : Nat}
    (hfuel : back.length ≤ fuel) (passed : List NodeId) :
    tree.chainFrom fuel passed back.head? = passed.reverse ++ back := by
  induction back generalizing front fuel passed with
  | nil => cases fuel <;> simp [chainFrom]
  | cons id back ih =>
    obtain ⟨fuel, rfl⟩ : ∃ less, fuel = less + 1 :=
      Nat.exists_eq_add_one.2 (by simp at hfuel; omega)
    have hids' : childIds entries (some parent) = (front ++ [id]) ++ back := by rw [hids]; simp
    rw [List.head?_cons, chainFrom, (h.neighbours hids).2,
      ih hids' (by simpa using hfuel)]
    simp

theorem stackFrom_eq (h : tree.Linked entries) {parent : NodeId} {front back : List NodeId}
    (hids : childIds entries (some parent) = front ++ back) {fuel : Nat}
    (hfuel : front.length ≤ fuel) (stack : List NodeId) :
    tree.stackFrom fuel stack front.getLast? = front ++ stack := by
  induction front using List.reverseRecOn generalizing back fuel stack with
  | nil => cases fuel <;> simp [stackFrom]
  | append_singleton front id ih =>
    obtain ⟨fuel, rfl⟩ : ∃ less, fuel = less + 1 :=
      Nat.exists_eq_add_one.2 (by simp at hfuel; omega)
    have hids' : childIds entries (some parent) = front ++ id :: back := by rw [hids]; simp
    rw [List.getLast?_concat, stackFrom, (h.neighbours hids').1,
      ih hids' (by simpa using hfuel)]
    simp

theorem length_childIds_le (h : tree.Linked entries) (parent : Option NodeId) :
    (childIds entries parent).length ≤ tree.size := by
  rw [← h.length_eq, childIds, List.length_findIdxs]
  exact List.countP_le_length

theorem bind_ends (h : tree.Linked entries) (id : NodeId) :
    (tree.get? id).bind (·.firstChild) = (childIds entries (some id)).head? ∧
      (tree.get? id).bind (·.lastChild) = (childIds entries (some id)).getLast? := by
  by_cases hlt : id < entries.length
  · rw [h.get?_eq_some (List.getElem?_eq_getElem hlt)]
    exact ⟨rfl, rfl⟩
  · -- a number without a node has no children either
    have hnil := h.ordered.childIds_eq_nil (Nat.le_succ_of_le (Nat.le_of_not_lt hlt))
    rw [h.get?_eq, List.getElem?_eq_none (Nat.le_of_not_lt hlt), hnil]
    exact ⟨rfl, rfl⟩

/-- **The children of a node.** -/
theorem children_eq (h : tree.Linked entries) (id : NodeId) :
    tree.children id = childIds entries (some id) := by
  rw [children, (h.bind_ends id).1]
  exact h.chainFrom_eq (List.nil_append _).symm (h.length_childIds_le _) []

theorem pushChildren_eq (h : tree.Linked entries) (id : NodeId) (stack : List NodeId) :
    tree.pushChildren id stack = childIds entries (some id) ++ stack := by
  rw [pushChildren, (h.bind_ends id).2]
  exact h.stackFrom_eq (List.append_nil _).symm (h.length_childIds_le _) stack

/-! ## Along all descendants -/

/-- The walk over a forest on the stack visits it and goes on with the rest of the stack. -/
theorem walkFrom_eq (h : tree.Linked entries) {f : Forest NodeId}
    (hf : f.Follows fun id => childIds entries (some id)) (more : Nat)
    (passed stack : List NodeId) :
    tree.walkFrom (f.size + more) passed (f.roots ++ stack) =
      tree.walkFrom more (f.toList.reverse ++ passed) stack := by
  induction f generalizing more passed stack with
  | nil => simp [Forest.size, Forest.roots, Forest.toList]
  | cons id below rest ihb ihr =>
    have hfuel : 1 + below.size + rest.size + more = below.size + (rest.size + more) + 1 := by omega
    -- visiting a node puts its children on the stack, in front of what stands behind it
    have hbelow : below.roots = childIds entries (some id) := hf.1
    rw [Forest.size, Forest.roots, List.cons_append, hfuel, walkFrom, h.pushChildren_eq, ← hbelow,
      ihb hf.2.1, ihr hf.2.2, Forest.toList]
    simp

/-- **The descendants of the document are its forest.** -/
theorem descendants_root (h : tree.Linked entries) (hentries : Rooted entries)
    {f : Forest NodeId} (hf : f.Spans entries) : tree.descendants root = f.toList := by
  rw [descendants, h.pushChildren_eq, ← hf.roots, ← h.length_eq, ← hf.length_eq hentries,
    h.walkFrom_eq hf.follows]
  simp [walkFrom]

end Linked

end Groundwork.Tree
