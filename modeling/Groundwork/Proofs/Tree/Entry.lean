import Groundwork.Tree.Basic
import Mathlib.Data.List.Basic

/-!
# `Proofs.Tree.Entry` — what a tree says, and the links that follow from it

A node holds its label and its parent, which are told when it is made, and links to its neighbours
and its children, which repeat what the parents of all nodes say. An *entry* is a node without these
links. A tree is *linked* when every node has exactly the links that follow from the entries of all
nodes; then its entries fix the tree, and the two changes that all others are made of can be
followed on the entries alone.

## Contents

* `Label`, `Entry`, `childIds`, `Entry.linked` — entries, and the links that follow from them.
* `Tree.Linked`, `Linked.eq` — a tree with these entries; there is one.
* `Linked.appendChild`, `Linked.modify` — **both changes keep a tree linked.**
* `Tree.ofEntries`, `linked_ofEntries` — the tree with given entries.
-/

namespace Groundwork

open Xml

/-! ## Labels and entries -/

/-- What a node is, apart from where it lies. -/
structure Label where
  kind : NodeKind
  name : String
  value : String
  attributes : List Attribute
  deriving DecidableEq, Repr

/-- The label of the document as a whole. -/
def Label.document : Label := ⟨.document, "", "", []⟩

/-- The label of a node. -/
def Node.label (node : Node) : Label := ⟨node.kind, node.name, node.value, node.attributes⟩

namespace Tree

/-- A node without its links to neighbours and children. -/
structure Entry where
  parent : Option NodeId
  depth : Nat
  label : Label
  deriving DecidableEq, Repr

/-- The entry of the document as a whole. -/
def Entry.document : Entry := ⟨none, 0, Label.document⟩

/-- The entry with another label. -/
def Entry.relabel (change : Label → Label) (e : Entry) : Entry :=
  { e with label := change e.label }

/-- The numbers of the entries with this parent, in ascending order. -/
def childIds (entries : List Entry) (parent : Option NodeId) : List NodeId :=
  entries.findIdxs fun e => e.parent = parent

/-- The number that follows `id` in a list. -/
def after? (id : NodeId) : List NodeId → Option NodeId
  | [] => none
  | first :: rest => if first = id then rest.head? else after? id rest

/-- The number in front of `id` in a list. -/
def before? (id : NodeId) (ids : List NodeId) : Option NodeId := after? id ids.reverse

/-- The node that an entry stands for as number `id` among the entries. -/
def Entry.linked (entries : List Entry) (id : NodeId) (e : Entry) : Node where
  kind := e.label.kind
  parent := e.parent
  firstChild := (childIds entries (some id)).head?
  lastChild := (childIds entries (some id)).getLast?
  previous := before? id (childIds entries e.parent)
  next := after? id (childIds entries e.parent)
  name := e.label.name
  value := e.label.value
  attributes := e.label.attributes
  depth := e.depth

/-- The node that an entry stands for before it is linked to anything. -/
def Entry.unlinked (e : Entry) : Node where
  kind := e.label.kind
  parent := e.parent
  name := e.label.name
  value := e.label.value
  attributes := e.label.attributes
  depth := e.depth

/-! ## Neighbours in a list -/

theorem after?_append_cons {id : NodeId} {front : List NodeId} (h : id ∉ front)
    (back : List NodeId) : after? id (front ++ id :: back) = back.head? := by
  induction front with
  | nil => simp [after?]
  | cons first front ih =>
    rw [List.mem_cons, not_or] at h
    rw [List.cons_append, after?, if_neg (Ne.symm h.1), ih h.2]

/-- A number at the end of a list follows the one that was last. -/
theorem after?_concat {id new : NodeId} {ids : List NodeId} (hid : id ∈ ids) (hnodup : ids.Nodup) :
    after? id (ids ++ [new]) = if ids.getLast? = some id then some new else after? id ids := by
  obtain ⟨front, back, rfl⟩ := List.append_of_mem hid
  have hfront : id ∉ front := by
    intro hmem
    exact (List.nodup_append.1 hnodup).2.2 id hmem id (by simp) rfl
  have hback : id ∉ back := (List.nodup_cons.1 (List.nodup_append.1 hnodup).2.1).1
  rw [List.append_assoc, List.cons_append, after?_append_cons hfront, after?_append_cons hfront]
  cases back with
  | nil => simp
  | cons next back =>
    have hlast : (front ++ id :: next :: back).getLast? ≠ some id := by
      intro h
      rw [List.getLast?_append, List.getLast?_cons_cons] at h
      have hmem := List.mem_of_getLast? (l := next :: back) (a := id) (by simpa using h)
      exact hback hmem
    rw [if_neg hlast]
    rfl

theorem before?_concat_of_ne {id new : NodeId} (h : new ≠ id) (ids : List NodeId) :
    before? id (ids ++ [new]) = before? id ids := by
  rw [before?, List.reverse_append, List.reverse_singleton, List.singleton_append, after?, if_neg h,
    before?]

theorem before?_concat_self (id : NodeId) (ids : List NodeId) :
    before? id (ids ++ [id]) = ids.getLast? := by
  rw [before?, List.reverse_append, List.reverse_singleton, List.singleton_append, after?,
    if_pos rfl, List.head?_reverse]

/-! ## Children -/

theorem mem_childIds {entries : List Entry} {parent : Option NodeId} {id : NodeId} :
    id ∈ childIds entries parent ↔ ∃ e, entries[id]? = some e ∧ e.parent = parent := by
  rw [childIds, List.mem_findIdxs_iff_exists_getElem_pos]
  constructor
  · rintro ⟨hlt, h⟩
    exact ⟨entries[id], List.getElem?_eq_getElem hlt, by simpa using h⟩
  · rintro ⟨e, he, h⟩
    obtain ⟨hlt, rfl⟩ := List.getElem?_eq_some_iff.1 he
    exact ⟨hlt, by simpa using h⟩

theorem lt_length_of_mem_childIds {entries : List Entry} {parent : Option NodeId} {id : NodeId}
    (h : id ∈ childIds entries parent) : id < entries.length := by
  obtain ⟨e, he, -⟩ := mem_childIds.1 h
  exact (List.getElem?_eq_some_iff.1 he).1

theorem nodup_childIds (entries : List Entry) (parent : Option NodeId) :
    (childIds entries parent).Nodup := List.nodup_findIdxs

theorem childIds_concat (entries : List Entry) (e : Entry) (parent : Option NodeId) :
    childIds (entries ++ [e]) parent =
      childIds entries parent ++ if e.parent = parent then [entries.length] else [] := by
  rw [childIds, List.findIdxs_append, List.findIdxs_singleton, ← childIds]
  simp

/-- Who the children of a node are depends on the parents alone. -/
theorem childIds_congr {entries others : List Entry}
    (h : entries.map (·.parent) = others.map (·.parent)) (parent : Option NodeId) :
    childIds entries parent = childIds others parent := by
  have hmap (es : List Entry) :
      childIds es parent = (es.map (·.parent)).findIdxs fun found => found = parent := by
    rw [List.findIdxs_map]
    rfl
  rw [hmap, hmap, h]

/-- Every parent comes before its children. -/
def Ordered (entries : List Entry) : Prop :=
  ∀ (id : NodeId) (e : Entry), entries[id]? = some e → ∀ parent ∈ e.parent, parent < id

theorem Ordered.lt_of_mem {entries : List Entry} (h : Ordered entries) {id parent : NodeId}
    (hid : id ∈ childIds entries (some parent)) : parent < id := by
  obtain ⟨e, he, hparent⟩ := mem_childIds.1 hid
  exact h id e he parent hparent

theorem Ordered.of_append {entries more : List Entry} (h : Ordered (entries ++ more)) :
    Ordered entries := by
  intro id e he
  refine h id e ?_
  rw [List.getElem?_append_left (List.getElem?_eq_some_iff.1 he).1, he]

/-- The last node has no children yet, and neither have those to come. -/
theorem Ordered.childIds_eq_nil {entries : List Entry} (h : Ordered entries) {id : NodeId}
    (hid : entries.length ≤ id + 1) : childIds entries (some id) = [] := by
  apply List.eq_nil_iff_forall_not_mem.2
  intro child hchild
  have hlt := lt_length_of_mem_childIds hchild
  exact Nat.not_lt.2 hid (Nat.lt_of_le_of_lt (h.lt_of_mem hchild) hlt)

theorem Ordered.concat {entries : List Entry} (h : Ordered entries) {e : Entry}
    (he : ∀ parent ∈ e.parent, parent < entries.length) : Ordered (entries ++ [e]) := by
  intro id found hfound parent hparent
  rcases Nat.lt_trichotomy id entries.length with hlt | heq | hgt
  · rw [List.getElem?_append_left hlt] at hfound
    exact h id found hfound parent hparent
  · subst heq
    obtain rfl : e = found := by simpa using hfound
    exact he parent hparent
  · have hnone : (entries ++ [e])[id]? = none := by
      rw [List.getElem?_eq_none_iff, List.length_append, List.length_singleton]
      omega
    rw [hnone] at hfound
    cases hfound

/-! ## Linked trees -/

/-- The tree has these entries, and each node has the links that follow from them. -/
structure Linked (tree : Tree) (entries : List Entry) : Prop where
  get?_eq : ∀ id, tree.get? id = (entries[id]?).map fun e => e.linked entries id
  ordered : Ordered entries

theorem ext {tree other : Tree} (h : ∀ id, tree.get? id = other.get? id) : tree = other := by
  obtain ⟨nodes, hpos⟩ := tree
  obtain ⟨others, hpos'⟩ := other
  have hnodes : nodes = others := Array.ext_getElem? h
  subst hnodes
  rfl

namespace Linked

variable {tree : Tree} {entries : List Entry}

/-- **The entries fix the tree.** -/
theorem eq (h : tree.Linked entries) {other : Tree} (hother : other.Linked entries) :
    tree = other :=
  Tree.ext fun id => (h.get?_eq id).trans (hother.get?_eq id).symm

theorem get?_eq_some (h : tree.Linked entries) {id : NodeId} {e : Entry}
    (he : entries[id]? = some e) : tree.get? id = some (e.linked entries id) := by
  rw [h.get?_eq, he, Option.map_some]

theorem exists_of_get? (h : tree.Linked entries) {id : NodeId} {node : Node}
    (hnode : tree.get? id = some node) :
    ∃ e, entries[id]? = some e ∧ node = e.linked entries id := by
  rw [h.get?_eq, Option.map_eq_some_iff] at hnode
  obtain ⟨e, he, hlinked⟩ := hnode
  exact ⟨e, he, hlinked.symm⟩

theorem length_eq (h : tree.Linked entries) : entries.length = tree.size := by
  have hiff (id : NodeId) : tree.size ≤ id ↔ entries.length ≤ id := by
    rw [← get?_eq_none_iff, h.get?_eq, Option.map_eq_none_iff, List.getElem?_eq_none_iff]
  exact Nat.le_antisymm ((hiff _).1 (Nat.le_refl _)) ((hiff _).2 (Nat.le_refl _))

end Linked

theorem linked_empty : empty.Linked [Entry.document] where
  get?_eq id := by
    cases id with
    | zero => decide
    | succ id => rfl
  ordered id e he parent hparent := by
    cases id with
    | zero =>
      obtain rfl : Entry.document = e := by simpa using he
      cases hparent
    | succ id => simp at he

/-! ## A new last child -/

/-- What shows of a new last child: the node itself, and the links of its parent and of the child
that was last. -/
theorem get?_appendChild (tree : Tree) {parent : NodeId} (hparent : parent < tree.size)
    {last? : Option NodeId} (hlast : (tree.get? parent).bind (·.lastChild) = last?)
    (hbound : ∀ last ∈ last?, last < tree.size) (node : Node) (id : NodeId) :
    (tree.appendChild parent node).get? id =
      if id = tree.size then some { node with previous := last?.or node.previous }
      else (tree.get? id).map fun found =>
        { found with
          firstChild := if id = parent ∧ last? = none then some tree.size else found.firstChild
          lastChild := if id = parent then some tree.size else found.lastChild
          next := if last? = some id then some tree.size else found.next } := by
  unfold appendChild
  rw [hlast]
  have hne : tree.size ≠ parent := (Nat.ne_of_lt hparent).symm
  cases last? with
  | some last =>
    have hlast' : tree.size ≠ last := (Nat.ne_of_lt (hbound last rfl)).symm
    simp only [get?_modify, get?_push]
    by_cases hid : id = tree.size
    · subst hid
      simp [Ne.symm hne, Ne.symm hlast']
    · rw [if_neg hid, if_neg hid]
      by_cases hp : parent = id <;> by_cases hl : last = id <;>
        cases hget : tree.get? id <;> simp [hp, hl, eq_comm (a := id), Ne.symm]
  | none =>
    simp only [get?_modify, get?_push]
    by_cases hid : id = tree.size
    · subst hid
      simp [Ne.symm hne]
    · rw [if_neg hid, if_neg hid]
      by_cases hp : parent = id <;> cases hget : tree.get? id <;> simp [hp, eq_comm (a := id)]

namespace Linked

variable {tree : Tree} {entries : List Entry}

theorem bind_lastChild (h : tree.Linked entries) {parent : NodeId}
    (hlt : parent < entries.length) :
    (tree.get? parent).bind (·.lastChild) = (childIds entries (some parent)).getLast? := by
  rw [h.get?_eq_some (List.getElem?_eq_getElem hlt), Option.bind_some]
  rfl

/-- What a new entry changes in the node of an entry that was there. -/
theorem linked_concat {id parent : NodeId} {found e : Entry} (hfound : entries[id]? = some found)
    (hparent : e.parent = some parent) :
    found.linked (entries ++ [e]) id =
      { found.linked entries id with
        firstChild :=
          if id = parent ∧ (childIds entries (some parent)).getLast? = none then
            some entries.length
          else (childIds entries (some id)).head?
        lastChild :=
          if id = parent then some entries.length else (childIds entries (some id)).getLast?
        next :=
          if (childIds entries (some parent)).getLast? = some id then some entries.length
          else after? id (childIds entries found.parent) } := by
  have hne : entries.length ≠ id := by
    have hlt := (List.getElem?_eq_some_iff.1 hfound).1
    exact (Nat.ne_of_lt hlt).symm
  have hmem : id ∈ childIds entries found.parent := mem_childIds.2 ⟨found, hfound, rfl⟩
  simp only [Entry.linked, childIds_concat, hparent, Option.some.injEq, Node.mk.injEq, true_and,
    and_true]
  -- first and last child change for the parent, the node behind for the child that was last
  refine ⟨?_, ?_, ?_, ?_⟩
  · by_cases hp : parent = id
    · subst hp
      rw [if_pos rfl, List.head?_append]
      cases hids : childIds entries (some parent) <;> simp
    · rw [if_neg hp, if_neg fun h => hp h.1.symm, List.append_nil]
  · by_cases hp : parent = id
    · subst hp
      rw [if_pos rfl, if_pos rfl, List.getLast?_concat]
    · rw [if_neg hp, if_neg (Ne.symm hp), List.append_nil]
  · split
    · exact before?_concat_of_ne hne _
    · rw [List.append_nil]
  · by_cases hp : some parent = found.parent
    · rw [if_pos hp, hp, after?_concat hmem (nodup_childIds _ _)]
    · rw [if_neg hp, List.append_nil, if_neg]
      intro hlast
      obtain ⟨other, hother, hsame⟩ := mem_childIds.1 (List.mem_of_getLast? hlast)
      rw [hfound] at hother
      obtain rfl := Option.some.inj hother
      exact hp hsame.symm

/-- **A new last child.** -/
theorem appendChild (h : tree.Linked entries) {parent : NodeId} {e : Entry}
    (hparent : e.parent = some parent) (hlt : parent < entries.length) :
    (tree.appendChild parent e.unlinked).Linked (entries ++ [e]) := by
  have hordered : Ordered (entries ++ [e]) := by
    apply h.ordered.concat
    intro p hp
    rw [hparent] at hp
    obtain rfl := Option.some.inj hp
    exact hlt
  refine ⟨fun id => ?_, hordered⟩
  have hbound : ∀ last ∈ (childIds entries (some parent)).getLast?, last < tree.size := by
    intro last hlast
    rw [← h.length_eq]
    exact lt_length_of_mem_childIds (List.mem_of_getLast? hlast)
  rw [get?_appendChild tree (h.length_eq ▸ hlt) (h.bind_lastChild hlt) hbound]
  by_cases hid : id = tree.size
  · -- the new node has no children, and nothing stands behind it
    rw [← h.length_eq] at hid
    subst hid
    have hnew : entries.length ∉ childIds entries (some parent) := by
      intro hmem
      exact Nat.lt_irrefl _ (lt_length_of_mem_childIds hmem)
    have hne : parent ≠ entries.length := Nat.ne_of_lt hlt
    have hchildren := h.ordered.childIds_eq_nil (Nat.le_succ entries.length)
    rw [if_pos h.length_eq, List.getElem?_concat_length, Option.map_some]
    simp [Entry.linked, Entry.unlinked, childIds_concat, hparent, hne, hchildren,
      before?_concat_self, after?_append_cons hnew]
  · rw [if_neg hid, h.get?_eq, ← h.length_eq]
    rw [← h.length_eq] at hid
    by_cases hold : id < entries.length
    · have hfound := List.getElem?_eq_getElem hold
      rw [List.getElem?_append_left hold, hfound, Option.map_some, Option.map_some,
        Option.map_some, linked_concat hfound hparent]
      rfl
    · have hnone : entries[id]? = none := List.getElem?_eq_none (Nat.le_of_not_lt hold)
      have hnone' : (entries ++ [e])[id]? = none := by
        refine List.getElem?_eq_none ?_
        rw [List.length_append, List.length_singleton]
        grind
      rw [hnone, hnone']
      rfl

/-! ## A new label -/

/-- **A new label.** The change may look at the links of the node, but has to leave them. -/
theorem modify (h : tree.Linked entries) {id : NodeId} {change : Node → Node}
    {relabel : Label → Label}
    (hchange : ∀ e, entries[id]? = some e →
      change (e.linked entries id) = (e.relabel relabel).linked entries id) :
    (tree.modify id change).Linked (entries.modify id (·.relabel relabel)) := by
  have hparents : (entries.modify id (·.relabel relabel)).map (·.parent) =
      entries.map (·.parent) := by
    apply List.ext_getElem?
    intro i
    rw [List.getElem?_map, List.getElem?_map, List.getElem?_modify]
    cases entries[i]? with
    | none => rfl
    | some e => by_cases hid : id = i <;> simp [hid, Entry.relabel]
  have hlinked (e : Entry) (i : NodeId) :
      e.linked (entries.modify id (·.relabel relabel)) i = e.linked entries i := by
    simp only [Entry.linked, childIds_congr hparents]
  refine ⟨fun i => ?_, fun i e he => ?_⟩
  · rw [get?_modify, h.get?_eq, List.getElem?_modify]
    cases hi : entries[i]? with
    | none => simp
    | some e =>
      by_cases hid : id = i
      · subst hid
        simp [hlinked, hchange e hi]
      · simp [hlinked, hid]
  · rw [List.getElem?_modify] at he
    obtain ⟨found, hfound, rfl⟩ := Option.map_eq_some_iff.1 he
    have hparent := h.ordered i found hfound
    split
    · exact hparent
    · exact hparent

end Linked

theorem modify_append_cons {α : Type} (change : α → α) (front : List α) (x : α) (back : List α) :
    (front ++ x :: back).modify front.length change = front ++ change x :: back := by
  induction front with
  | nil => rfl
  | cons y front ih =>
    rw [List.cons_append, List.length_cons, List.modify_succ_cons, ih, List.cons_append]

/-! ## The tree with given entries -/

/-- The tree of a document with these entries below it. -/
def ofEntries (below : List Entry) : Tree where
  nodes := ((Entry.document :: below).mapIdx fun id e =>
    e.linked (Entry.document :: below) id).toArray
  size_pos := by simp

theorem linked_ofEntries {below : List Entry} (h : Ordered (Entry.document :: below)) :
    (ofEntries below).Linked (Entry.document :: below) := by
  refine ⟨fun id => ?_, h⟩
  rw [get?, ofEntries, List.getElem?_toArray, List.getElem?_mapIdx]

end Tree

end Groundwork
