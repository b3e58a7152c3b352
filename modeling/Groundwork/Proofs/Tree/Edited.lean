import Groundwork.Proofs.Tree.Change
import Groundwork.Proofs.Tree.Replay
import Groundwork.Proofs.Tree.Walk

/-!
# `Proofs.Tree.Edited` — the trees that can be reached

A tree is made by parsing a text or by starting anew, and then changed, any number of times, through
the checked changes; a change that is refused leaves the tree as it was. All trees that are reached
in this way are linked, and their nodes lie below each other as they should. What holds of the
labels of all nodes, changes carry on in many cases. As long as only elements are given values, one
such property is that they can be written: nothing else checks the value of a comment or an
instruction that is there already.

## Contents

* `Reached`, `OnElements` — the trees that are reached by changes of some kind.
* `Intact`, `Intact.apply` — the links and places of the nodes, and that changes keep them.
* `All`, `Carried`, `Carried.apply` — properties of labels, and **which of them changes carry on.**
* `Reached.exists_entries` — **every tree that is reached is linked and rooted.**
* `Reached.exists_valid` — **with values for elements only, it can be written too.**
-/

namespace Groundwork

open Text Xml

namespace Tree

/-! ## Trees that are reached -/

/-- The trees that can be reached by allowed changes from a parsed tree or from the empty one. -/
inductive Reached (allowed : Tree → Edit → Prop) : Tree → Prop where
  | empty : Reached allowed empty
  | parsed {text : String} {tree : Tree} (h : parse text = .ok tree) : Reached allowed tree
  | edited {tree : Tree} {edit : Edit} (h : Reached allowed tree) (hedit : allowed tree edit) :
    Reached allowed (edit.apply tree)

/-- Single values are set on elements only. -/
def OnElements (tree : Tree) : Edit → Prop
  | .setValue id _ => ∃ node, tree.get? id = some node ∧ node.isElement = true
  | _ => True

/-! ## Where the nodes lie -/

/-- The tree is linked and rooted. -/
def Intact (tree : Tree) : Prop := ∃ entries : List Entry, tree.Linked entries ∧ Rooted entries

theorem intact_empty : Intact empty := ⟨[Entry.document], linked_empty, rooted_empty⟩

theorem Linked.exists_of_childDepth? {tree : Tree} {entries : List Entry}
    (h : tree.Linked entries) {parent : NodeId} {depth : Nat}
    (hdepth : tree.childDepth? parent = some depth) :
    ∃ above : Entry, entries[parent]? = some above ∧ above.label.isContainer = true ∧
      above.depth < maxDepth ∧ depth = above.depth + 1 := by
  rw [childDepth?] at hdepth
  split at hdepth
  · next node hnode =>
    obtain ⟨above, habove, rfl⟩ := h.exists_of_get? hnode
    split at hdepth
    · next hfree =>
      rw [Bool.and_eq_true, decide_eq_true_eq] at hfree
      exact ⟨above, habove, hfree.1, hfree.2, (Option.some.inj hdepth).symm⟩
    · cases hdepth
  · cases hdepth

namespace Intact

variable {tree after : Tree}

theorem appendChild (h : Intact tree) {parent : NodeId} {depth : Nat}
    (hdepth : tree.childDepth? parent = some depth) {label : Label}
    (hkind : label.kind ≠ .document) :
    Intact (tree.appendChild parent (Entry.unlinked ⟨some parent, depth, label⟩)) := by
  obtain ⟨entries, hlinked, hrooted⟩ := h
  obtain ⟨above, habove, hcontainer, hless, rfl⟩ := hlinked.exists_of_childDepth? hdepth
  refine ⟨entries ++ [⟨some parent, above.depth + 1, label⟩], ?_, ?_⟩
  · exact hlinked.appendChild rfl (List.getElem?_eq_some_iff.1 habove).1
  · exact hrooted.concat habove hcontainer hless hkind

/-- A new label of the same kind. -/
theorem modify (h : Intact tree) (id : NodeId) {change : Node → Node} (relabel : Label → Label)
    (hchange : ∀ (e : Entry) es, change (e.linked es id) = (e.relabel relabel).linked es id)
    (hkind : ∀ label, (relabel label).kind = label.kind) : Intact (tree.modify id change) := by
  obtain ⟨entries, hlinked, hrooted⟩ := h
  exact ⟨entries.modify id (·.relabel relabel), hlinked.modify fun e _ => hchange e _,
    hrooted.modify id hkind⟩

theorem setValue (h : Intact tree) (id : NodeId) (value : String) :
    Intact (tree.modify id fun node => { node with value }) :=
  h.modify id (fun label => { label with value }) (fun _ _ => rfl) fun _ => rfl

theorem setValues (h : Intact tree) (ids : List NodeId) (value : String) :
    Intact (tree.setValues ids value) := by
  induction ids generalizing tree with
  | nil => exact h
  | cons id ids ih => exact ih (h.setValue id value)

theorem setAttribute (h : Intact tree) (id : NodeId) (name value : String) :
    Intact (tree.modify id (·.setAttribute name value)) :=
  h.modify id (fun label => { label with attributes := Attribute.put name value label.attributes })
    (fun _ _ => rfl) fun _ => rfl

theorem removeAttribute (h : Intact tree) (id : NodeId) (name : String) :
    Intact (tree.modify id (·.removeAttribute name)) :=
  h.modify id (fun label => { label with attributes := Attribute.remove name label.attributes })
    (fun _ _ => rfl) fun _ => rfl

theorem of_effect (h : Intact tree) {edit : Edit} (heffect : edit.Effect tree after) :
    Intact after := by
  cases heffect with
  | refused => exact h
  | @added _ addition _ _ hdepth => exact h.appendChild hdepth addition.kind_label_ne
  | @valued id _ _ value => exact h.setValue id value
  | selected selector value => exact h.setValues _ value
  | @put id _ name _ _ _ value => exact h.setAttribute id name value
  | @removed id name _ _ => exact h.removeAttribute id name
  | cleared => exact intact_empty

/-- **A change keeps a tree intact.** -/
theorem apply (h : Intact tree) (edit : Edit) : Intact (edit.apply tree) :=
  h.of_effect (edit.effect tree)

end Intact

/-! ## The labels of all nodes -/

/-- Every node has a label of this kind. -/
def All (P : Label → Prop) (tree : Tree) : Prop :=
  ∀ id node, tree.get? id = some node → P node.label

/-- Labels of a kind that new labels belong to, elements whatever value they are given, and that a
change to an attribute does not lead out of. -/
structure Carried (P : Label → Prop) : Prop where
  valid : ∀ label : Label, label.Valid → P label
  put : ∀ (label : Label) name value, label.kind = .element → isName name.toList = true →
    P label → P { label with attributes := Attribute.put name value label.attributes }
  remove : ∀ (label : Label) name,
    P label → P { label with attributes := Attribute.remove name label.attributes }
  element : ∀ (label : Label) value, label.kind = .element → P label → P { label with value }

section All

variable {P : Label → Prop} {tree after : Tree}

theorem all_empty (h : P Label.document) : empty.All P := by
  intro id node hnode
  rw [get?_empty] at hnode
  split at hnode
  · obtain rfl := Option.some.inj hnode
    exact h
  · cases hnode

/-- The nodes of a parsed document have labels that can be written. -/
theorem all_of_parse (h : ∀ label : Label, label.Valid → P label) {text : String}
    (hparse : parse text = .ok tree) : tree.All P := by
  obtain ⟨entries, hlinked, -, hvalid⟩ := exists_entries_of_parse hparse
  intro id node hnode
  obtain ⟨e, he, rfl⟩ := hlinked.exists_of_get? hnode
  exact h e.label (hvalid e (List.mem_of_getElem? he))

namespace All

theorem modify (h : tree.All P) {id : NodeId} {change : Node → Node}
    (hchange : ∀ node, tree.get? id = some node → P node.label → P (change node).label) :
    (tree.modify id change).All P := by
  intro other node hnode
  rw [get?_modify] at hnode
  split at hnode
  · next hid =>
    subst hid
    obtain ⟨found, hfound, rfl⟩ := Option.map_eq_some_iff.1 hnode
    exact hchange found hfound (h id found hfound)
  · exact h other node hnode

theorem push (h : tree.All P) {node : Node} (hnode : P node.label) : (tree.push node).All P := by
  intro id found hfound
  rw [get?_push] at hfound
  split at hfound
  · obtain rfl := Option.some.inj hfound
    exact hnode
  · exact h id found hfound

/-- A change of links only. -/
theorem relink (h : tree.All P) (id : NodeId) {change : Node → Node}
    (hchange : ∀ node, (change node).label = node.label) : (tree.modify id change).All P :=
  h.modify fun node _ hold => (hchange node).symm ▸ hold

theorem appendChild (h : tree.All P) {node : Node} (hnode : P node.label) (parent : NodeId) :
    (tree.appendChild parent node).All P := by
  unfold Tree.appendChild
  split
  · next last _ =>
    have hpush : (tree.push { node with previous := some last }).All P := h.push hnode
    refine (hpush.relink last ?next).relink parent ?lastChild
    case next => exact fun _ => rfl
    case lastChild => exact fun _ => rfl
  · refine (h.push hnode).relink parent ?_
    exact fun _ => rfl

theorem setValues (h : tree.All P) {ids : List NodeId} {value : String}
    (hvalue : ∀ label : Label, label.kind = .element → P label → P { label with value })
    (hids : ∀ id ∈ ids, ∀ node, tree.get? id = some node → node.isElement = true) :
    (tree.setValues ids value).All P := by
  induction ids generalizing tree with
  | nil => exact h
  | cons id ids ih =>
    refine ih (h.modify fun node hnode hold => ?_) ?_
    · have helement := hids id List.mem_cons_self node hnode
      exact hvalue node.label (Node.isElement_iff.1 helement) hold
    · intro other hother node hnode
      -- the change before has left every node of the kind that it was
      rw [get?_modify] at hnode
      split at hnode
      · obtain ⟨found, hfound, rfl⟩ := Option.map_eq_some_iff.1 hnode
        exact hids other (by simp [hother]) found hfound
      · exact hids other (by simp [hother]) node hnode

end All

theorem Carried.of_effect (carried : Carried P) (h : tree.All P) {edit : Edit}
    (heffect : edit.Effect tree after)
    (hvalue : ∀ id value, edit = .setValue id value →
      ∀ node, tree.get? id = some node → P { node.label with value }) :
    after.All P := by
  cases heffect with
  | refused => exact h
  | @added parent addition depth hallowed _ =>
    have hlabel : P (Entry.unlinked ⟨some parent, depth, addition.label⟩).label :=
      carried.valid _ hallowed.valid
    exact h.appendChild hlabel parent
  | @valued id _ _ value => exact h.modify fun node hnode _ => hvalue id value rfl node hnode
  | selected selector value =>
    exact h.setValues (carried.element · value) fun _ hid _ => isElement_of_mem_select hid
  | @put id found name hfound helement hname value =>
    refine h.modify fun node hnode hold => carried.put node.label name value ?_ hname hold
    obtain rfl : found = node := Option.some.inj (hfound.symm.trans hnode)
    exact Node.isElement_iff.1 helement
  | @removed id name _ _ => exact h.modify fun node _ hold => carried.remove node.label name hold
  | cleared => exact all_empty (carried.valid _ rfl)

/-- **A change carries such labels on**, if a value that it gives to a node at choice does. -/
theorem Carried.apply (carried : Carried P) (h : tree.All P) (edit : Edit)
    (hvalue : ∀ id value, edit = .setValue id value →
      ∀ node, tree.get? id = some node → P { node.label with value }) :
    (edit.apply tree).All P :=
  carried.of_effect h (edit.effect tree) hvalue

end All

/-- Labels that can be written stay so. -/
theorem carried_valid : Carried Label.Valid where
  valid _ h := h
  put _ _ value hkind hname h := h.put hkind hname value
  remove _ name h := h.remove name
  element label value hkind h := by simpa [Label.Valid, hkind] using h

theorem Linked.forall_label {P : Label → Prop} {tree : Tree} {entries : List Entry}
    (h : tree.Linked entries) (hall : tree.All P) : ∀ e ∈ entries, P e.label := by
  intro e he
  obtain ⟨id, hid⟩ := List.getElem?_of_mem he
  exact hall id _ (h.get?_eq_some hid)

/-! ## All trees that are reached -/

namespace Reached

variable {allowed : Tree → Edit → Prop} {tree : Tree}

theorem mono {more : Tree → Edit → Prop} (h : Reached allowed tree)
    (hmore : ∀ tree edit, allowed tree edit → more tree edit) : Reached more tree := by
  induction h with
  | empty => exact .empty
  | parsed hparse => exact .parsed hparse
  | edited _ hedit ih => exact .edited ih (hmore _ _ hedit)

theorem intact (h : Reached allowed tree) : Intact tree := by
  induction h with
  | empty => exact intact_empty
  | parsed hparse =>
    obtain ⟨entries, hlinked, hrooted, -⟩ := exists_entries_of_parse hparse
    exact ⟨entries, hlinked, hrooted⟩
  | edited _ _ ih => exact ih.apply _

/-- **Every tree that is reached is linked and rooted.** -/
theorem exists_entries (h : Reached allowed tree) :
    ∃ entries : List Entry, tree.Linked entries ∧ Rooted entries := h.intact

theorem all_valid (h : Reached OnElements tree) : tree.All Label.Valid := by
  induction h with
  | empty => exact all_empty rfl
  | parsed hparse => exact all_of_parse carried_valid.valid hparse
  | edited _ hedit ih =>
    refine carried_valid.apply ih _ fun id value hset node hnode => ?_
    subst hset
    obtain ⟨found, hfound, helement⟩ := hedit
    obtain rfl : found = node := Option.some.inj (hfound.symm.trans hnode)
    have hkind : found.label.kind = .element := Node.isElement_iff.1 helement
    exact carried_valid.element found.label value hkind (ih id found hnode)

/-- **With values for elements only, a tree that is reached can be written.** -/
theorem exists_valid (h : Reached OnElements tree) :
    ∃ entries : List Entry, tree.Linked entries ∧ Rooted entries ∧
      ∀ e ∈ entries, e.label.Valid := by
  obtain ⟨entries, hlinked, hrooted⟩ := h.exists_entries
  exact ⟨entries, hlinked, hrooted, hlinked.forall_label h.all_valid⟩

end Reached

end Tree

end Groundwork
