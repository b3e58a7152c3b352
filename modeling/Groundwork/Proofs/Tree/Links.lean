import Groundwork.Proofs.Tree.NormalForm

/-!
# `Proofs.Tree.Links` — the links of all trees that there are

A node holds five links, and all but the first repeat what the parents of the other nodes say. They
agree with each other in every tree that can be reached by parsing and by checked changes, and also
in the trees on the way of a parse, while elements are still open and their values are not known.
What is kept for a tree under construction is that its open elements are nodes of it, each as deep
as the stack of open elements says; so a new node comes to lie where its depth says.

## Contents

* `Leads`, `WellLinked` — **how the links of a tree have to agree.**
* `Linked.wellLinked` — they do, when they follow from the entries of the nodes.
* `Builder.Grounded`, `Grounded.step`, `Grounded.run` — **what an event and what a run of events
  keeps.**
* `wellLinked_of_reached` — **the links agree in all trees that there are.**
-/

namespace Groundwork

open Text Xml

namespace Tree

/-! ## How links have to agree -/

/-- Following `link` from here leads through these nodes, one after the other, and then ends. -/
inductive Leads (tree : Tree) (link : Node → Option NodeId) :
    Option NodeId → List NodeId → Prop where
  | nil : Leads tree link none []
  | cons {id : NodeId} {node : Node} {ids : List NodeId} : tree.get? id = some node →
      Leads tree link (link node) ids → Leads tree link (some id) (id :: ids)

/-- The links of the nodes of a tree agree with each other. -/
structure WellLinked (tree : Tree) : Prop where
  /-- The document comes first and lies in nothing. -/
  document : ∃ node, tree.get? root = some node ∧ node.kind = .document ∧ node.parent = none ∧
    node.depth = 0
  /-- Any other node lies in one that comes before it and may have children, one level deeper. -/
  below : ∀ id node, tree.get? id = some node → id ≠ root → node.kind ≠ .document ∧
    ∃ parent above, node.parent = some parent ∧ parent < id ∧ tree.get? parent = some above ∧
      (above.kind = .document ∨ above.kind = .element) ∧ node.depth = above.depth + 1 ∧
      node.depth ≤ maxDepth
  /-- The nodes that lie in a node are found from its first child on in ascending order, and from
  its last child back in the opposite order. -/
  children : ∀ id node, tree.get? id = some node → ∃ ids : List NodeId,
    ids.Pairwise (· < ·) ∧
    (∀ child, child ∈ ids ↔ ∃ below, tree.get? child = some below ∧ below.parent = some id) ∧
    tree.Leads (·.next) node.firstChild ids ∧ tree.Leads (·.previous) node.lastChild ids.reverse
  /-- Comments and instructions have no children. -/
  childless : ∀ id node, tree.get? id = some node →
    node.kind = .comment ∨ node.kind = .instruction →
      node.firstChild = none ∧ node.lastChild = none
  /-- Every link leads to a node. -/
  bounded : ∀ id node, tree.get? id = some node →
    ∀ link ∈ [node.parent, node.firstChild, node.lastChild, node.previous, node.next],
      ∀ other ∈ link, other < tree.size

/-! ## Links that follow from entries -/

theorem mem_of_after? {id other : NodeId} {ids : List NodeId} (h : after? id ids = some other) :
    other ∈ ids := by
  induction ids with
  | nil => cases h
  | cons first rest ih =>
    rw [after?] at h
    split at h
    · exact List.mem_cons_of_mem first (List.mem_of_head? h)
    · exact List.mem_cons_of_mem first (ih h)

theorem mem_of_before? {id other : NodeId} {ids : List NodeId} (h : before? id ids = some other) :
    other ∈ ids := List.mem_reverse.1 (mem_of_after? h)

namespace Linked

variable {tree : Tree} {entries : List Entry}

/-- From a child on, the links forward lead through it and those behind it. -/
theorem leads_next (h : tree.Linked entries) {parent : NodeId} {front back : List NodeId}
    (hids : childIds entries (some parent) = front ++ back) :
    tree.Leads (·.next) back.head? back := by
  induction back generalizing front with
  | nil => exact .nil
  | cons id back ih =>
    have hid : id ∈ childIds entries (some parent) := by
      rw [hids]
      exact List.mem_append_right front (List.mem_cons_self ..)
    obtain ⟨e, he, -⟩ := mem_childIds.1 hid
    have hnext := (h.neighbours hids).2
    rw [h.get?_eq_some he, Option.bind_some] at hnext
    have hshifted : childIds entries (some parent) = (front ++ [id]) ++ back := by simp [hids]
    have hback := ih hshifted
    rw [← hnext] at hback
    exact .cons (h.get?_eq_some he) hback

/-- From a child back, the links lead through it and those in front of it. -/
theorem leads_previous (h : tree.Linked entries) {parent : NodeId} {front back : List NodeId}
    (hids : childIds entries (some parent) = front ++ back) :
    tree.Leads (·.previous) front.getLast? front.reverse := by
  induction front using List.reverseRecOn generalizing back with
  | nil => exact .nil
  | append_singleton front id ih =>
    rw [List.append_assoc, List.singleton_append] at hids
    have hid : id ∈ childIds entries (some parent) := by
      rw [hids]
      exact List.mem_append_right front (List.mem_cons_self ..)
    obtain ⟨e, he, -⟩ := mem_childIds.1 hid
    have hprevious := (h.neighbours hids).1
    rw [h.get?_eq_some he, Option.bind_some] at hprevious
    have hfront := ih hids
    rw [← hprevious] at hfront
    rw [List.getLast?_concat, List.reverse_append, List.reverse_singleton, List.singleton_append]
    exact .cons (h.get?_eq_some he) hfront

/-- The nodes that lie in a node. -/
theorem mem_childIds_iff (h : tree.Linked entries) {parent child : NodeId} :
    child ∈ childIds entries (some parent) ↔
      ∃ below, tree.get? child = some below ∧ below.parent = some parent := by
  rw [mem_childIds]
  constructor
  · rintro ⟨e, he, hparent⟩
    exact ⟨e.linked entries child, h.get?_eq_some he, hparent⟩
  · rintro ⟨below, hbelow, hparent⟩
    obtain ⟨e, he, rfl⟩ := h.exists_of_get? hbelow
    exact ⟨e, he, hparent⟩

theorem lt_size_of_mem_childIds (h : tree.Linked entries) {parent : Option NodeId} {id : NodeId}
    (hid : id ∈ childIds entries parent) : id < tree.size :=
  h.length_eq ▸ lt_length_of_mem_childIds hid

/-- **The links of a linked and rooted tree agree.** -/
theorem wellLinked (h : tree.Linked entries) (hentries : Rooted entries) : tree.WellLinked where
  document := by
    obtain ⟨label, hfirst, hkind⟩ := hentries.first
    exact ⟨_, h.get?_eq_some hfirst, hkind, rfl, rfl⟩
  below := by
    intro id node hnode hid
    obtain ⟨e, he, rfl⟩ := h.exists_of_get? hnode
    obtain ⟨hkind, parent, above, hparent, hlt, habove, hcontainer, hless, hdepth⟩ :=
      hentries.below id e hid he
    refine ⟨hkind, parent, _, hparent, hlt, h.get?_eq_some habove, ?_, hdepth, ?_⟩
    · show above.label.kind = .document ∨ above.label.kind = .element
      simpa [Label.isContainer] using hcontainer
    · show e.depth ≤ maxDepth
      rw [hdepth]
      exact hless
  children := by
    intro id node hnode
    obtain ⟨e, he, rfl⟩ := h.exists_of_get? hnode
    refine ⟨childIds entries (some id), List.pairwise_findIdxs, fun _ => h.mem_childIds_iff, ?_, ?_⟩
    · exact h.leads_next (List.nil_append _).symm
    · exact h.leads_previous (List.append_nil _).symm
  childless := by
    intro id node hnode hkind
    obtain ⟨e, he, rfl⟩ := h.exists_of_get? hnode
    have hnil : childIds entries (some id) = [] := by
      apply List.eq_nil_iff_forall_not_mem.2
      intro child hchild
      obtain ⟨found, hfound, hparent⟩ := mem_childIds.1 hchild
      have hlt := hentries.ordered.lt_of_mem hchild
      obtain ⟨-, parent, above, habove, -, hget, hcontainer, -⟩ :=
        hentries.below child found (Nat.ne_of_gt (Nat.zero_lt_of_lt hlt)) hfound
      obtain rfl : parent = id := Option.some.inj (habove.symm.trans hparent)
      rw [he] at hget
      obtain rfl := Option.some.inj hget
      have hlabel : e.label.kind = .comment ∨ e.label.kind = .instruction := hkind
      rcases hlabel with hlabel | hlabel <;> simp [Label.isContainer, hlabel] at hcontainer
    show (childIds entries (some id)).head? = none ∧ (childIds entries (some id)).getLast? = none
    rw [hnil]
    exact ⟨rfl, rfl⟩
  bounded := by
    intro id node hnode link hlink other hother
    obtain ⟨e, he, rfl⟩ := h.exists_of_get? hnode
    simp only [List.mem_cons, List.not_mem_nil, or_false] at hlink
    rcases hlink with rfl | rfl | rfl | rfl | rfl
    · have hlt := hentries.ordered id e he other hother
      rw [← h.length_eq]
      exact Nat.lt_trans hlt (List.getElem?_eq_some_iff.1 he).1
    · exact h.lt_size_of_mem_childIds (List.mem_of_head? hother)
    · exact h.lt_size_of_mem_childIds (List.mem_of_getLast? hother)
    · exact h.lt_size_of_mem_childIds (mem_of_before? hother)
    · exact h.lt_size_of_mem_childIds (mem_of_after? hother)

end Linked

end Tree

open Groundwork.Tree

/-! ## Trees under construction -/

namespace Builder

/-- The tree is linked and rooted, and the open elements are elements of it, each as deep as the
stack says. -/
structure Grounded (builder : Builder) (entries : List Tree.Entry) : Prop where
  linked : builder.tree.Linked entries
  rooted : Rooted entries
  opened : ∀ element ∈ builder.opened, ∃ e : Tree.Entry, entries[element.id]? = some e ∧
    e.label.kind = .element ∧ e.depth = element.level

theorem grounded_start : start.Grounded [Tree.Entry.document] :=
  ⟨linked_empty, rooted_empty, by simp [start]⟩

namespace Grounded

variable {builder next : Builder} {entries : List Tree.Entry}

/-- What new nodes come into may have children, and lies as deep as elements are open. -/
theorem exists_innermost (h : builder.Grounded entries) :
    ∃ above : Tree.Entry, entries[builder.progress.innermost]? = some above ∧
      above.label.isContainer = true ∧ above.depth = builder.progress.nesting := by
  obtain ⟨tree, opened, hasRoot, hasDoctype⟩ := builder
  cases opened with
  | nil =>
    obtain ⟨label, hfirst, hkind⟩ := h.rooted.first
    exact ⟨_, hfirst, by simp [Label.isContainer, hkind], rfl⟩
  | cons element opened =>
    obtain ⟨e, he, hkind, hdepth⟩ := h.opened element (List.mem_cons_self ..)
    exact ⟨e, he, by simp [Label.isContainer, hkind], hdepth⟩

/-- More entries behind those that are there. -/
theorem opened_append (h : builder.Grounded entries) (more : List Tree.Entry) :
    ∀ element ∈ builder.opened, ∃ e : Tree.Entry, (entries ++ more)[element.id]? = some e ∧
      e.label.kind = .element ∧ e.depth = element.level := by
  intro element helement
  obtain ⟨e, he, hrest⟩ := h.opened element helement
  refine ⟨e, ?_, hrest⟩
  rw [List.getElem?_append_left (List.getElem?_eq_some_iff.1 he).1, he]

/-- A new node. -/
theorem addNode (h : builder.Grounded entries) (label : Label) (hlabel : label.kind ≠ .document)
    (hadd : (builder.addNode fun parent depth => Tree.Entry.unlinked ⟨parent, depth, label⟩) =
      .ok next) : next.Grounded (entries ++ [builder.progress.entry label]) := by
  obtain ⟨above, habove, hcontainer, hdepth⟩ := h.exists_innermost
  obtain ⟨hroom, -⟩ := progress_of_addNode hadd
  have hopened := h.opened_append [builder.progress.entry label]
  have hentry : builder.progress.entry label =
      ⟨some builder.progress.innermost, above.depth + 1, label⟩ := by
    rw [hdepth]
    rfl
  obtain ⟨tree, opened, hasRoot, hasDoctype⟩ := builder
  simp only [Builder.addNode] at hadd
  split at hadd
  · obtain rfl := Except.ok.inj hadd
    refine ⟨?_, ?_, hopened⟩
    · exact h.linked.appendChild rfl (List.getElem?_eq_some_iff.1 habove).1
    · rw [hentry]
      exact h.rooted.concat habove hcontainer (by rw [hdepth]; exact hroom) hlabel
  · cases hadd

theorem addElement (h : builder.Grounded entries) {name : String} {attributes : List Attribute}
    (hadd : builder.addElement name attributes = .ok next) :
    next.Grounded (entries ++ [builder.progress.entry ⟨.element, name, "", attributes⟩]) := by
  simp only [Builder.addElement] at hadd
  split at hadd
  · cases hadd
  · split at hadd
    · next added hnode =>
      have hadded := h.addNode ⟨.element, name, "", attributes⟩ (by simp) hnode
      obtain rfl := Except.ok.inj hadd
      exact ⟨hadded.linked, hadded.rooted, hadded.opened⟩
    · cases hadd

/-- The element that has been opened is the last node. -/
theorem openElement (h : builder.Grounded entries) {name : String} {attributes : List Attribute}
    (hopen : builder.openElement name attributes = .ok next) :
    next.Grounded (entries ++ [builder.progress.entry ⟨.element, name, "", attributes⟩]) := by
  simp only [Builder.openElement] at hopen
  split at hopen
  · next tree opened hasRoot hasDoctype hadd =>
    have hadded := h.addElement hadd
    have hprogress := (progress_of_addElement hadd).2.2
    obtain rfl := Except.ok.inj hopen
    have hstack : opened = builder.opened := congrArg Progress.opened hprogress
    refine ⟨hadded.linked, hadded.rooted, List.forall_mem_cons.2 ⟨?_, hadded.opened⟩⟩
    have hsize := hadded.linked.length_eq
    rw [List.length_append, List.length_singleton] at hsize
    refine ⟨builder.progress.entry ⟨.element, name, "", attributes⟩, ?_, rfl, ?_⟩
    · show (entries ++ [_])[tree.size - 1]? = some _
      rw [← hsize, Nat.add_sub_cancel]
      exact List.getElem?_concat_length
    · show OpenElement.nesting builder.opened + 1 = OpenElement.nesting opened + 1
      rw [hstack]
  · cases hopen

/-- The end of an element changes its value only. -/
theorem closeElement (h : builder.Grounded entries) {name : String}
    (hclose : builder.closeElement name = .ok next) : ∃ others, next.Grounded others := by
  obtain ⟨tree, opened, hasRoot, hasDoctype⟩ := builder
  cases opened with
  | nil => cases hclose
  | cons element opened =>
    obtain ⟨e, he, -⟩ := h.opened element (List.mem_cons_self ..)
    simp only [Builder.closeElement] at hclose
    split at hclose
    · obtain rfl := Except.ok.inj hclose
      let relabel (label : Label) : Label :=
        { label with value := if (e.linked entries element.id).hasChildren then trim element.text
            else element.text }
      refine ⟨entries.modify element.id (·.relabel relabel), ?_, ?_, ?_⟩
      · apply h.linked.modify
        intro found hfound
        rw [he] at hfound
        obtain rfl := Option.some.inj hfound
        rfl
      · exact h.rooted.modify element.id fun _ => rfl
      · intro other hother
        obtain ⟨found, hfound, hkind, hdepth⟩ := h.opened other (List.mem_cons_of_mem _ hother)
        rw [List.getElem?_modify, hfound]
        by_cases hid : element.id = other.id
        · exact ⟨found.relabel relabel, by simp [hid], hkind, hdepth⟩
        · exact ⟨found, by simp [hid], hkind, hdepth⟩
    · cases hclose

/-- Text is only gathered. -/
theorem addText (h : builder.Grounded entries) {content : String} {fault : Option Fault}
    (hadd : builder.addText content fault = .ok next) : next.Grounded entries := by
  obtain ⟨tree, opened, hasRoot, hasDoctype⟩ := builder
  cases opened with
  | nil =>
    cases fault with
    | some fault => cases hadd
    | none =>
      obtain rfl := Except.ok.inj hadd
      exact h
  | cons element opened =>
    obtain rfl := Except.ok.inj hadd
    have hopened := List.forall_mem_cons.1 h.opened
    exact ⟨h.linked, h.rooted, List.forall_mem_cons.2 hopened⟩

/-- **An event keeps a tree grounded.** -/
theorem step (h : builder.Grounded entries) {event : Event}
    (hstep : builder.step event = .ok next) : ∃ others, next.Grounded others := by
  cases event with
  | startElement name attributes => exact ⟨_, h.openElement hstep⟩
  | emptyElement name attributes => exact ⟨_, h.addElement hstep⟩
  | endElement name => exact h.closeElement hstep
  | text content => exact ⟨_, h.addText hstep⟩
  | cdata content =>
    have hadd : builder.addText content (some .cdataOutsideRoot) = .ok next := hstep
    exact ⟨_, h.addText hadd⟩
  | comment content =>
    exact ⟨_, h.addNode ⟨.comment, "", content, []⟩ (by simp) hstep⟩
  | instruction target data =>
    exact ⟨_, h.addNode ⟨.instruction, target, data.getD "", []⟩ (by simp) hstep⟩
  | declaration =>
    obtain rfl := Except.ok.inj hstep
    exact ⟨_, h⟩
  | doctype body =>
    have hadd : builder.addDoctype = .ok next := hstep
    simp only [addDoctype] at hadd
    split at hadd
    · cases hadd
    split at hadd
    · cases hadd
    · obtain rfl := Except.ok.inj hadd
      exact ⟨entries, h.linked, h.rooted, h.opened⟩

/-- **So does a run of events.** -/
theorem run (h : builder.Grounded entries) {events : List (Placed Event)}
    (hrun : builder.run events = .ok next) : ∃ others, next.Grounded others := by
  induction events generalizing builder entries with
  | nil =>
    obtain rfl : builder = next := Except.ok.inj hrun
    exact ⟨entries, h⟩
  | cons event events ih =>
    rw [Builder.run] at hrun
    split at hrun
    · next between hstep =>
      obtain ⟨others, hothers⟩ := h.step hstep
      exact ih hothers hrun
    · cases hrun

end Grounded

end Builder

namespace Tree

/-! ## All trees that there are -/

/-- **The links agree in every tree** that is reached by parsing and by changes, whatever values
they give to which nodes, and in every tree on the way of a parse. -/
theorem wellLinked_of_reached {allowed : Tree → Edit → Prop} :
    (∀ tree, Reached allowed tree → tree.WellLinked) ∧
    ∀ (events : List (Placed Event)) (builder : Builder),
      Builder.start.run events = .ok builder → builder.tree.WellLinked := by
  constructor
  · intro tree h
    obtain ⟨entries, hlinked, hentries⟩ := h.exists_entries
    exact hlinked.wellLinked hentries
  · intro events builder hrun
    obtain ⟨entries, hgrounded⟩ := Builder.grounded_start.run hrun
    exact hgrounded.linked.wellLinked hgrounded.rooted

/-- A parsed tree that gets a child of an element in front of its last node and a value of a
comment; and a parse that has come as far as the second child of an open element. -/
theorem wellLinked_of_reached_mixed :
    let changes := [Edit.appendElement 1 "d", .setValue 3 "--", .appendComment root "e"]
    let events : List (Placed Event) :=
      [⟨.startElement "a" [], 0⟩, ⟨.emptyElement "b" [], 3⟩, ⟨.comment "c", 7⟩]
    ∃ (tree : Tree) (builder : Builder),
      parse "<a><b/></a><!--c-->" = .ok tree ∧
      (changes.foldl Edit.apply tree).children 1 = [2, 4] ∧
      (changes.foldl Edit.apply tree).WellLinked ∧
      Builder.start.run events = .ok builder ∧ builder.opened ≠ [] ∧
      builder.tree.children 1 = [2, 3] ∧ builder.tree.WellLinked := by
  intro changes events
  have hparse : parse "<a><b/></a><!--c-->" =
      .ok (Forest.tree (.cons ⟨.element, "a", "", []⟩ (.cons ⟨.element, "b", "", []⟩ .nil .nil)
        (.cons ⟨.comment, "", "c", []⟩ .nil .nil))) := by
    decide +kernel
  have hreached (edits : List Edit) {tree : Tree} (h : Reached (fun _ _ => True) tree) :
      Reached (fun _ _ => True) (edits.foldl Edit.apply tree) := by
    induction edits generalizing tree with
    | nil => exact h
    | cons edit edits ih => exact ih (.edited h trivial)
  have hrun : Builder.start.run events = .ok _ := rfl
  obtain ⟨hchanged, hbuilt⟩ := @wellLinked_of_reached fun _ _ => True
  exact ⟨_, _, hparse, by decide +kernel, hchanged _ (hreached changes (.parsed hparse)), hrun,
    by decide +kernel, by decide +kernel, hbuilt events _ hrun⟩

end Tree

end Groundwork
