import Groundwork.Proofs.Tree.Parsed
import Groundwork.Tree.Edit

/-!
# `Proofs.Tree.Replay` — a parsed tree can be made by checked changes

Parsing puts nodes into a tree without any of the checks that a change to a tree makes, and takes
their depth from the number of open elements instead of their parent. Still it makes nothing that
could not be made by checked changes: *replaying* a tree makes its nodes again one by one, each with
the checks of its kind, and no check refuses anything that has been parsed.

## Contents

* `Tree.replayNode?`, `Tree.replay?` — the nodes of a tree made again.
* `Linked.appendNode?_eq`, `Linked.setAttributes?_eq`, `Linked.setValue?_eq` — the changes it
  consists of, as changes of the entries.
* `Linked.replayNode?_eq` — one node is made as it was.
* `replay?_of_parse` — **replaying a parsed tree gives the tree.**
-/

namespace Groundwork

open Text Xml

namespace Tree

/-! ## Making nodes again -/

/-- Gives an element some attributes, one after the other. -/
def setAttributes? (tree : Tree) (id : NodeId) (attributes : List Attribute) : Option Tree :=
  attributes.foldlM (fun tree a => tree.setAttribute? id a.name a.value) tree

/-- The tree with a new node, if the node has this number. -/
def expect? (id : NodeId) : Option (NodeId × Tree) → Option Tree
  | some (new, tree) => if new = id then some tree else none
  | none => none

/-- Makes a node again below the parent that it names. It has to get the number `id`. -/
def replayNode? (tree : Tree) (id : NodeId) (node : Node) : Option Tree :=
  node.parent.bind fun parent =>
    match node.kind with
    | .document => none
    | .element =>
      (expect? id (tree.appendElement? parent node.name)).bind fun tree =>
        (tree.setAttributes? id node.attributes).bind fun tree => tree.setValue? id node.value
    | .comment => expect? id (tree.appendComment? parent node.value)
    | .instruction => expect? id (tree.appendInstruction? parent node.name node.value)

/-- Makes the nodes below the document again in the order of their numbers. Gives nothing if a
change is refused or a node gets another number. -/
def replay? (source : Tree) : Option Tree :=
  (List.range' 1 (source.size - 1)).foldlM
    (fun tree id => (source.get? id).bind fun node => tree.replayNode? id node) empty

/-! ## The changes it consists of -/

namespace Linked

variable {tree : Tree} {entries : List Entry}

theorem childDepth?_eq (h : tree.Linked entries) {parent : NodeId} {above : Entry}
    (habove : entries[parent]? = some above) (hcontainer : above.label.isContainer = true)
    (hdepth : above.depth < maxDepth) : tree.childDepth? parent = some (above.depth + 1) := by
  rw [childDepth?, h.get?_eq_some habove]
  refine if_pos ?_
  rw [Bool.and_eq_true, decide_eq_true_eq]
  exact ⟨hcontainer, hdepth⟩

/-- A new node below one that may have children. -/
theorem appendNode?_eq (h : tree.Linked entries) {parent : NodeId} {above : Entry}
    (habove : entries[parent]? = some above) (hcontainer : above.label.isContainer = true)
    (hdepth : above.depth < maxDepth) (label : Label) :
    ∃ tree', (tree.appendNode? parent fun parent depth => Entry.unlinked ⟨parent, depth, label⟩) =
        some (entries.length, tree') ∧
      tree'.Linked (entries ++ [⟨some parent, above.depth + 1, label⟩]) := by
  refine ⟨tree.appendChild parent (Entry.unlinked ⟨some parent, above.depth + 1, label⟩), ?_, ?_⟩
  · rw [appendNode?, h.childDepth?_eq habove hcontainer hdepth, Option.map_some, h.length_eq]
  · exact h.appendChild rfl (List.getElem?_eq_some_iff.1 habove).1

/-- A new label of the last node. -/
theorem modify_last {e : Entry} (h : tree.Linked (entries ++ [e])) {change : Node → Node}
    (relabel : Label → Label)
    (hchange : ∀ es id, change (e.linked es id) = (e.relabel relabel).linked es id) :
    (tree.modify entries.length change).Linked (entries ++ [e.relabel relabel]) := by
  rw [← modify_append_cons (·.relabel relabel) entries e []]
  apply h.modify
  intro found hfound
  rw [List.getElem?_concat_length] at hfound
  obtain rfl := Option.some.inj hfound
  exact hchange _ _

theorem get?_last {e : Entry} (h : tree.Linked (entries ++ [e])) :
    tree.get? entries.length = some (e.linked (entries ++ [e]) entries.length) :=
  h.get?_eq_some List.getElem?_concat_length

theorem setAttributes?_eq {parent : Option NodeId} {depth : Nat} {name value : String}
    {passed attributes : List Attribute}
    (h : tree.Linked (entries ++ [⟨parent, depth, ⟨.element, name, value, passed⟩⟩]))
    (hnamed : Attribute.Named (passed ++ attributes)) :
    ∃ tree', tree.setAttributes? entries.length attributes = some tree' ∧
      tree'.Linked
        (entries ++ [⟨parent, depth, ⟨.element, name, value, passed ++ attributes⟩⟩]) := by
  induction attributes generalizing tree passed with
  | nil => exact ⟨tree, rfl, by rwa [List.append_nil]⟩
  | cons a attributes ih =>
    have hname : isName a.name.toList = true := hnamed.isName a (by simp)
    have hput : Attribute.put a.name a.value passed = passed ++ [a] :=
      Attribute.put_of_not_mem a.value hnamed.ne_of_append_cons
    have hset : tree.setAttribute? entries.length a.name a.value =
        some (tree.modify entries.length (·.setAttribute a.name a.value)) := by
      rw [setAttribute?, h.get?_last]
      exact if_pos (by rw [hname]; rfl)
    have hlinked : (tree.modify entries.length (·.setAttribute a.name a.value)).Linked
        (entries ++ [⟨parent, depth, ⟨.element, name, value, passed ++ [a]⟩⟩]) := by
      rw [← hput]
      exact h.modify_last (fun label =>
        { label with attributes := Attribute.put a.name a.value label.attributes }) fun _ _ => rfl
    obtain ⟨tree', hrest, hlinked'⟩ := ih hlinked (by rwa [List.append_assoc])
    refine ⟨tree', ?_, ?_⟩
    · rw [setAttributes?, List.foldlM_cons, hset]
      exact hrest
    · rwa [List.append_assoc] at hlinked'

theorem setValue?_eq {e : Entry} (h : tree.Linked (entries ++ [e])) (value : String) :
    ∃ tree', tree.setValue? entries.length value = some tree' ∧
      tree'.Linked (entries ++ [e.relabel fun label => { label with value }]) := by
  refine ⟨tree.modify entries.length fun node => { node with value }, ?_, ?_⟩
  · rw [setValue?, h.get?_last, Option.map_some]
  · exact h.modify_last (fun label => { label with value }) fun _ _ => rfl

/-! ## One node -/

/-- **A node that lies below another and can be written is made as it was.** -/
theorem replayNode?_eq (h : tree.Linked entries) {e : Entry}
    (hbelow : e.LiesBelow entries entries.length) (hkind : e.label.kind ≠ .document)
    (hvalid : e.label.Valid) (es : List Entry) :
    ∃ tree', tree.replayNode? entries.length (e.linked es entries.length) = some tree' ∧
      tree'.Linked (entries ++ [e]) := by
  obtain ⟨parent, depth, ⟨kind, name, value, attributes⟩⟩ := e
  obtain ⟨p, above, rfl, -, habove, hcontainer, hless, rfl⟩ := hbelow
  cases kind with
  | document => exact absurd rfl hkind
  | element =>
    obtain ⟨hname, hnamed⟩ : isName name.toList = true ∧ Attribute.Named attributes := hvalid
    obtain ⟨tree₁, hadd, hlinked₁⟩ :=
      h.appendNode?_eq habove hcontainer hless ⟨.element, name, "", []⟩
    obtain ⟨tree₂, hset, hlinked₂⟩ := hlinked₁.setAttributes?_eq (by simpa using hnamed)
    obtain ⟨tree₃, hvalue, hlinked₃⟩ := hlinked₂.setValue?_eq value
    refine ⟨tree₃, ?_, hlinked₃⟩
    have happend : tree.appendElement? p name = some (entries.length, tree₁) :=
      (if_pos hname).trans hadd
    simp only [replayNode?, Entry.linked, Option.bind_some, happend, expect?, if_true, hset, hvalue]
  | comment =>
    obtain ⟨rfl, rfl, hbody⟩ :
      name = "" ∧ attributes = [] ∧ isCommentBody value.toList = true := hvalid
    obtain ⟨tree', hadd, hlinked⟩ :=
      h.appendNode?_eq habove hcontainer hless ⟨.comment, "", value, []⟩
    refine ⟨tree', ?_, hlinked⟩
    have happend : tree.appendComment? p value = some (entries.length, tree') :=
      (if_pos hbody).trans hadd
    simp only [replayNode?, Entry.linked, Option.bind_some, happend, expect?, if_true]
  | instruction =>
    obtain ⟨rfl, hname, hreserved, hend⟩ : attributes = [] ∧ isName name.toList = true ∧
      isReserved name.toList = false ∧ ¬ instructionEnd <:+: value.toList := hvalid
    obtain ⟨tree', hadd, hlinked⟩ :=
      h.appendNode?_eq habove hcontainer hless ⟨.instruction, name, value, []⟩
    refine ⟨tree', ?_, hlinked⟩
    have happend : tree.appendInstruction? p name value = some (entries.length, tree') := by
      refine (if_pos ?_).trans hadd
      rw [hname, hreserved, (contains_eq_false_iff).2 hend]
      rfl
    simp only [replayNode?, Entry.linked, Option.bind_some, happend, expect?, if_true]

end Linked

/-! ## All nodes -/

theorem Entry.LiesBelow.take {entries : List Entry} {e : Entry} {id : NodeId}
    (h : e.LiesBelow entries id) : e.LiesBelow (entries.take id) id := by
  obtain ⟨parent, above, hparent, hlt, habove, hrest⟩ := h
  exact ⟨parent, above, hparent, hlt, (List.getElem?_take_of_lt hlt).trans habove, hrest⟩

/-- The first nodes of a tree, made again. -/
theorem replay_take {source : Tree} {entries : List Entry} (hlinked₀ : source.Linked entries)
    (hentries : Rooted entries) (hvalid : ∀ e ∈ entries, e.label.Valid) (count : Nat)
    (hcount : count + 1 ≤ entries.length) :
    ∃ tree', (List.range' 1 count).foldlM
        (fun tree id => (source.get? id).bind fun node => tree.replayNode? id node) empty =
        some tree' ∧ tree'.Linked (entries.take (count + 1)) := by
  induction count with
  | zero =>
    have htake : entries.take 1 = [Entry.document] := by
      cases entries with
      | nil => exact absurd hcount (Nat.not_succ_le_zero _)
      | cons first rest =>
        obtain rfl : first = Entry.document := Option.some.inj (hentries.first_eq hvalid)
        rfl
    refine ⟨empty, rfl, ?_⟩
    rw [htake]
    exact linked_empty
  | succ count ih =>
    -- the nodes made so far are the first ones, and the parent of the next is one of them
    obtain ⟨tree, hfold, hlinked⟩ := ih (Nat.le_of_succ_le hcount)
    have hlt : count + 1 < entries.length := hcount
    have he := List.getElem?_eq_getElem hlt
    obtain ⟨hkind, hbelow⟩ := hentries.below (count + 1) _ (Nat.succ_ne_zero _) he
    have hlength : (entries.take (count + 1)).length = count + 1 :=
      List.length_take_of_le (Nat.le_of_lt hlt)
    have hnode := hlinked.replayNode?_eq (by rw [hlength]; exact hbelow.take) hkind
      (hvalid _ (List.mem_of_getElem? he)) entries
    rw [hlength] at hnode
    obtain ⟨tree', hreplay, hlinked'⟩ := hnode
    refine ⟨tree', ?_, ?_⟩
    · have hget := hlinked₀.get?_eq_some he
      rw [List.range'_1_concat, List.foldlM_append, hfold, Nat.add_comm 1]
      simp only [Option.bind_eq_bind, Option.bind_some, List.foldlM_cons, hget, hreplay,
        List.foldlM_nil, Option.pure_def]
    · rwa [List.take_succ_eq_append_getElem hlt]

/-- **Replaying a parsed tree gives the tree.** -/
theorem replay?_of_parse {text : String} {tree : Tree} (h : parse text = .ok tree) :
    tree.replay? = some tree := by
  obtain ⟨entries, hlinked, hentries, hvalid⟩ := exists_entries_of_parse h
  have hpos : root < entries.length := hentries.length_pos
  have hcount : tree.size - 1 + 1 = entries.length := by
    rw [hlinked.length_eq]
    exact Nat.sub_add_cancel tree.size_pos
  obtain ⟨tree', hreplay, hlinked'⟩ :=
    replay_take hlinked hentries hvalid (tree.size - 1) (Nat.le_of_eq hcount)
  rw [hcount, List.take_length] at hlinked'
  rw [replay?, hreplay, hlinked'.eq hlinked]

/-- An element with an attribute, text and a comment, made again. -/
theorem replay?_of_parse_mixed :
    ∃ tree, parse "<a b='c'>x<!--y--></a>" = .ok tree ∧ tree.replay? = some tree := by
  have hparse : parse "<a b='c'>x<!--y--></a>" =
      .ok (Forest.tree (.cons ⟨.element, "a", "x", [⟨"b", "c"⟩]⟩
        (.cons ⟨.comment, "", "y", []⟩ .nil .nil) .nil)) := by
    decide +kernel
  exact ⟨_, hparse, replay?_of_parse hparse⟩

end Tree

end Groundwork
