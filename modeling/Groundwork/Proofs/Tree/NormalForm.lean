import Groundwork.Proofs.Tree.Edited
import Groundwork.Proofs.Tree.Reparse

/-!
# `Proofs.Tree.NormalForm` — a tree as it comes back

The nodes of a tree are numbered in the order in which they were made. When the tree is written and
read, they are numbered in document order instead, and their values lose what reading takes off. The
*normal form* of a tree is just that: each node at its place in document order, all links renamed to
the places of the nodes they lead to. It is the tree of the forest below the document in normal
form.

## Contents

* `Tree.documentOrder`, `Tree.place`, `Tree.normalForm` — the normal form, from the links alone.
* `documentOrder_perm` — document order has each node once.
* `childIds_place`, `entries_map` — children and entries of the renumbered forest.
* `Linked.normalForm_eq` — **the normal form is the tree of the forest in normal form.**
-/

namespace Groundwork

open Text Xml

/-! ## The definition -/

/-- The value of a node as it comes back. Between child nodes, the blanks at the ends of an
element's text are only layout; white space in front of an instruction's data only separates them
from the target. -/
def Node.normalValue (node : Node) : String :=
  match node.kind with
  | .element => if node.hasChildren then trim node.value else node.value
  | .instruction => String.ofList (node.value.toList.dropWhile isSpace)
  | .document | .comment => node.value

/-- The node with other numbers in all its links. -/
def Node.rename (number : NodeId → NodeId) (node : Node) : Node :=
  { node with
    parent := node.parent.map number
    firstChild := node.firstChild.map number
    lastChild := node.lastChild.map number
    previous := node.previous.map number
    next := node.next.map number }

namespace Tree

/-- The nodes of a tree, each before those below it. -/
def documentOrder (tree : Tree) : List NodeId := root :: tree.descendants root

/-- The place of a node in document order. -/
def place (tree : Tree) (id : NodeId) : NodeId := tree.documentOrder.idxOf id

/-- A node as it comes back, its links leading to places in document order. -/
def normalNode (tree : Tree) (id : NodeId) : Node :=
  match tree.get? id with
  | some node => { node.rename tree.place with value := node.normalValue }
  | none => Node.document

/-- The tree with its nodes as they come back, numbered in document order. -/
def normalForm (tree : Tree) : Tree where
  nodes := (tree.documentOrder.map tree.normalNode).toArray
  size_pos := by simp [documentOrder]

/-! ## Document order -/

namespace Linked

variable {tree : Tree} {entries : List Entry} {f : Forest NodeId}

theorem documentOrder_eq (h : tree.Linked entries) (hentries : Rooted entries)
    (hf : f.Spans entries) : tree.documentOrder = root :: f.toList := by
  rw [documentOrder, h.descendants_root hentries hf]

/-- **Document order has each node once.** -/
theorem documentOrder_perm (h : tree.Linked entries) (hentries : Rooted entries) :
    tree.documentOrder.Perm (List.range tree.size) := by
  obtain ⟨f, hf⟩ := exists_spans hentries.ordered
  rw [h.documentOrder_eq hentries hf, ← h.length_eq]
  exact hf.perm_range hentries

theorem nodup_documentOrder (h : tree.Linked entries) (hentries : Rooted entries) :
    tree.documentOrder.Nodup :=
  (h.documentOrder_perm hentries).nodup_iff.2 List.nodup_range

theorem mem_documentOrder (h : tree.Linked entries) (hentries : Rooted entries) {id : NodeId} :
    id ∈ tree.documentOrder ↔ id < entries.length := by
  rw [(h.documentOrder_perm hentries).mem_iff, List.mem_range, h.length_eq]

/-- The places of the nodes below the document are their numbers in the forest. -/
theorem map_place (h : tree.Linked entries) (hentries : Rooted entries) (hf : f.Spans entries) :
    f.map tree.place = f.numbered 1 := by
  have hnodup := h.nodup_documentOrder hentries
  have horder := h.documentOrder_eq hentries hf
  have hplaces : tree.documentOrder.map tree.place = List.range' 0 (f.size + 1) := by
    refine List.ext_getElem (by simp [horder]) fun i hi hi' => ?_
    rw [List.getElem_map, List.getElem_range', place, hnodup.idxOf_getElem, Nat.zero_add,
      Nat.one_mul]
  rw [horder, List.map_cons, List.range'_succ, List.cons.injEq] at hplaces
  have hlist : (f.map tree.place).toList = List.range' 1 (f.map tree.place).size := by
    rw [Forest.toList_map, Forest.size_map]
    exact hplaces.2
  rw [Forest.eq_numbered hlist, Forest.numbered_map]

/-- The places of the children of a node are the children of its place. -/
theorem childIds_place (h : tree.Linked entries) (hentries : Rooted entries)
    (hf : f.Spans entries) {others : List Entry} (hothers : (f.numbered 1).Spans others)
    {id : NodeId} (hid : id < entries.length) :
    childIds others (some (tree.place id)) = (childIds entries (some id)).map tree.place := by
  have hmap := h.map_place hentries hf
  rw [← hmap] at hothers
  rw [← h.mem_documentOrder hentries, h.documentOrder_eq hentries hf, List.mem_cons] at hid
  rcases hid with rfl | hid
  · have hroot : tree.place root = root := by
      rw [place, documentOrder]
      exact List.idxOf_cons_self
    rw [hroot, ← hothers.roots, Forest.roots_map, hf.roots]
  · exact hf.follows.map_eq hothers.follows id hid

end Linked

/-! ## The entries of the renumbered forest -/

/-- An entry with its label as it comes back, below the place of its parent. -/
def Entry.normal (number : NodeId → NodeId) (entries : List Entry) (id : NodeId) (e : Entry) :
    Entry :=
  ⟨e.parent.map number, e.depth, e.label.normal (childIds entries (some id)).isEmpty⟩

/-- The entries of a renumbered forest are those of its nodes, one by one. -/
theorem entries_map {entries : List Entry} {number : NodeId → NodeId} {f : Forest NodeId}
    (hf : f.Follows fun id => childIds entries (some id)) {parent depth start : Nat}
    (hlies : f.LiesBelow entries parent depth) (hnumber : f.map number = f.numbered start) :
    ((f.map (labelAt entries)).normal.entries (number parent) depth start).map some =
      f.toList.map fun id => (entries[id]?).map (Entry.normal number entries id) := by
  induction f generalizing parent depth start with
  | nil => rfl
  | cons id below rest ihb ihr =>
    obtain ⟨⟨label, he, -⟩, -, hlb, hlr⟩ := hlies
    rw [Forest.map, Forest.numbered, Forest.cons.injEq] at hnumber
    obtain ⟨rfl, hbelow, hrest⟩ := hnumber
    have hlabel : labelAt entries id = label := by rw [labelAt, he]
    have hempty : below.isEmpty = (childIds entries (some id)).isEmpty := by
      have hroots : below.roots = childIds entries (some id) := hf.1
      rw [← hroots]
      cases below <;> rfl
    rw [Forest.map, Forest.normal, Forest.entries, List.map_cons, List.map_append, hlabel,
      Forest.isEmpty_map, hempty, Forest.toList, List.map_cons, List.map_append, he,
      ihb hf.2.1 hlb hbelow, Forest.size_normal, Forest.size_map, ihr hf.2.2 hlr hrest]
    rfl

/-! ## The links of the normal form -/

/-- Only the document has no parent. -/
theorem Rooted.childIds_none {entries : List Entry} (h : Rooted entries) :
    childIds entries none = [root] := by
  obtain ⟨label, hfirst, -⟩ := h.first
  have hmem (id : NodeId) : id ∈ childIds entries none ↔ id ∈ [root] := by
    rw [mem_childIds, List.mem_singleton]
    constructor
    · rintro ⟨e, he, hnone⟩
      by_contra hid
      obtain ⟨-, parent, above, hparent, -⟩ := h.below id e hid he
      rw [hnone] at hparent
      cases hparent
    · rintro rfl
      exact ⟨_, hfirst, rfl⟩
  have hperm := (List.perm_ext_iff_of_nodup (nodup_childIds entries none) (by simp)).2 hmem
  exact List.perm_singleton.1 hperm

theorem childIds_none_documentEntries (f : Forest Label) :
    childIds f.documentEntries none = [root] := by
  have hbelow : (f.entries root 1 1).findIdxs (fun e => e.parent = none) 1 = [] := by
    rw [List.findIdxs_eq_nil_iff]
    intro e he
    rcases Forest.parent_of_mem_entries he with hparent | ⟨above, hparent, -⟩
    · simp [hparent]
    · simp [hparent]
  rw [childIds, Forest.documentEntries, List.findIdxs_cons, if_pos (by rfl), hbelow]
  rfl

theorem after?_map {number : NodeId → NodeId} {id : NodeId} {ids : List NodeId}
    (h : ∀ other ∈ ids, number other = number id → other = id) :
    after? (number id) (ids.map number) = (after? id ids).map number := by
  induction ids with
  | nil => rfl
  | cons first ids ih =>
    rw [List.forall_mem_cons] at h
    rw [List.map_cons, after?, after?]
    by_cases hid : first = id
    · rw [if_pos (congrArg number hid), if_pos hid, List.head?_map]
    · rw [if_neg fun hsame => hid (h.1 hsame), if_neg hid, ih h.2]

theorem before?_map {number : NodeId → NodeId} {id : NodeId} {ids : List NodeId}
    (h : ∀ other ∈ ids, number other = number id → other = id) :
    before? (number id) (ids.map number) = (before? id ids).map number := by
  rw [before?, ← List.map_reverse]
  exact after?_map fun other hother => h other (List.mem_reverse.1 hother)

theorem normalValue_linked (entries : List Entry) (id : NodeId) (e : Entry) :
    (e.linked entries id).normalValue =
      (e.label.normal (childIds entries (some id)).isEmpty).value := by
  have hchildren : (e.linked entries id).hasChildren =
      !(childIds entries (some id)).isEmpty := by
    rw [Node.hasChildren, Entry.linked]
    cases childIds entries (some id) <;> rfl
  rw [Node.normalValue, hchildren, Label.normal]
  have hkind : (e.linked entries id).kind = e.label.kind := rfl
  rw [hkind]
  cases e.label.kind with
  | element => cases (childIds entries (some id)).isEmpty <;> rfl
  | _ => rfl

namespace Linked

variable {tree : Tree} {entries : List Entry} {f : Forest NodeId}

theorem place_root (tree : Tree) : tree.place root = root := by
  rw [place, documentOrder]
  exact List.idxOf_cons_self

theorem place_inj (h : tree.Linked entries) (hentries : Rooted entries) {id other : NodeId}
    (hid : id < entries.length) (hsame : tree.place other = tree.place id) : other = id := by
  rw [← h.mem_documentOrder hentries] at hid
  exact ((List.idxOf_inj hid).1 hsame.symm).symm

/-- The neighbours of a node, renamed, are those of its place. -/
theorem neighbours_place (h : tree.Linked entries) (hentries : Rooted entries)
    (hf : f.Spans entries) {others : List Entry} (hothers : (f.numbered 1).Spans others)
    (hnone : childIds others none = [root]) {id : NodeId} {e : Entry}
    (he : entries[id]? = some e) :
    before? (tree.place id) (childIds others (e.parent.map tree.place)) =
        (before? id (childIds entries e.parent)).map tree.place ∧
      after? (tree.place id) (childIds others (e.parent.map tree.place)) =
        (after? id (childIds entries e.parent)).map tree.place := by
  have hid : id < entries.length := (List.getElem?_eq_some_iff.1 he).1
  have hids : childIds others (e.parent.map tree.place) =
      (childIds entries e.parent).map tree.place := by
    cases hparent : e.parent with
    | none =>
      rw [Option.map_none, hnone, hentries.childIds_none, List.map_singleton,
        place_root]
    | some parent =>
      have hlt : parent < id := h.ordered id e he parent hparent
      exact h.childIds_place hentries hf hothers (Nat.lt_trans hlt hid)
  rw [hids]
  have hinj : ∀ other ∈ childIds entries e.parent,
      tree.place other = tree.place id → other = id := by
    intro other _ hsame
    exact h.place_inj hentries hid hsame
  exact ⟨before?_map hinj, after?_map hinj⟩

/-- A node as it comes back has the links that follow from the renumbered entries. -/
theorem normalNode_eq (h : tree.Linked entries) (hentries : Rooted entries) (hf : f.Spans entries)
    {others : List Entry} (hothers : (f.numbered 1).Spans others)
    (hnone : childIds others none = [root]) {id : NodeId} {e : Entry}
    (he : entries[id]? = some e) :
    tree.normalNode id =
      (e.normal tree.place entries id).linked others (tree.place id) := by
  obtain ⟨hprevious, hnext⟩ := h.neighbours_place hentries hf hothers hnone he
  have hchildren := h.childIds_place hentries hf hothers (List.getElem?_eq_some_iff.1 he).1
  rw [normalNode, h.get?_eq_some he]
  show { (e.linked entries id).rename tree.place with
    value := (e.linked entries id).normalValue } = _
  rw [normalValue_linked, Entry.linked, Entry.linked, Entry.normal, Node.rename, hprevious, hnext,
    hchildren, List.head?_map, List.getLast?_map, Label.kind_normal, Label.name_normal,
    Label.attributes_normal]

/-- The entries of the renumbered forest. -/
theorem documentEntries_eq (h : tree.Linked entries) (hentries : Rooted entries)
    (hvalid : ∀ e ∈ entries, e.label.Valid) (hf : f.Spans entries) :
    (f.map (labelAt entries)).normal.documentEntries.map some =
      tree.documentOrder.map fun id => (entries[id]?).map (Entry.normal tree.place entries id) := by
  have hentriesMap := entries_map hf.follows (hf.liesBelow hentries) (h.map_place hentries hf)
  rw [place_root] at hentriesMap
  rw [Forest.documentEntries, List.map_cons, hentriesMap, h.documentOrder_eq hentries hf,
    List.map_cons, hentries.first_eq hvalid]
  rfl

/-- **The normal form of a tree is the tree of its forest in normal form.** -/
theorem normalForm_eq (h : tree.Linked entries) (hentries : Rooted entries)
    (hvalid : ∀ e ∈ entries, e.label.Valid) (hf : f.Spans entries) :
    tree.normalForm = (f.map (labelAt entries)).normal.tree := by
  have hothers : (f.numbered 1).Spans (f.map (labelAt entries)).normal.documentEntries := by
    have hspans := Forest.spans_numbered (f.map (labelAt entries)).normal
    rwa [Forest.numbered_normal, Forest.numbered_map] at hspans
  have hnone := childIds_none_documentEntries (f.map (labelAt entries)).normal
  have hforest := (f.map (labelAt entries)).normal.linked_tree
  have hmap := h.documentEntries_eq hentries hvalid hf
  refine Linked.eq ⟨fun k => ?_, hforest.ordered⟩ hforest
  -- the node at place `k` and its entry
  have hentry := congrArg (fun es => es[k]?) hmap
  simp only [List.getElem?_map] at hentry
  rw [get?, normalForm, List.getElem?_toArray, List.getElem?_map]
  cases horder : tree.documentOrder[k]? with
  | none =>
    rw [horder, Option.map_none, Option.map_eq_none_iff] at hentry
    rw [hentry]
    rfl
  | some id =>
    have hid : id < entries.length :=
      (h.mem_documentOrder hentries).1 (List.mem_of_getElem? horder)
    have he := List.getElem?_eq_getElem hid
    have hplace : tree.place id = k := by
      obtain ⟨hk, rfl⟩ := List.getElem?_eq_some_iff.1 horder
      exact (h.nodup_documentOrder hentries).idxOf_getElem k hk
    rw [horder, Option.map_some, he, Option.map_some, Option.map_eq_some_iff] at hentry
    obtain ⟨found, hfound, hsame⟩ := hentry
    rw [hfound, Option.map_some, Option.map_some, h.normalNode_eq hentries hf hothers hnone he,
      hplace, Option.some.inj hsame]

end Linked

end Tree

end Groundwork
