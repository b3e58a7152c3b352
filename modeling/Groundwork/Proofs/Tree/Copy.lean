import Groundwork.Proofs.Tree.Checked

/-!
# `Proofs.Tree.Copy` — a part of a tree made anew

What lies in one tree can be made in another from nothing. Names and attributes can be given again,
since no change leads to others than the checks allow; a value may be one that the checks of a new
node would refuse, so a node is made with another one first and is given its own afterwards.

## Contents

* `Label.Formed`, `Reached.all_formed` — **what the labels of all trees have in common.**
* `Reached.replayNode?`, `Reached.exists_concat` — a node made anew.
* `exists_reached`, `Forest.exists_copy` — **every tree and every forest can be made.**
-/

namespace Groundwork

open Text Xml

/-- A node with this label can be written, if it is given a suitable value. -/
def Label.Formed (label : Label) : Prop := ∃ value, Label.Valid { label with value }

namespace Tree

/-! ## Labels of all trees -/

theorem carried_formed : Carried Label.Formed where
  valid label h := ⟨label.value, h⟩
  put label name value hkind hname := by
    rintro ⟨other, h⟩
    exact ⟨other, h.put hkind hname value⟩
  remove label name := by
    rintro ⟨other, h⟩
    exact ⟨other, h.remove name⟩
  element _ _ _ h := h

/-- **Every node has a label that can be made**, whatever values have been given. -/
theorem Reached.all_formed {allowed : Tree → Edit → Prop} {tree : Tree}
    (h : Reached allowed tree) : tree.All Label.Formed := by
  induction h with
  | empty => exact all_empty ⟨"", rfl⟩
  | parsed hparse => exact all_of_parse carried_formed.valid hparse
  | edited _ _ ih => exact carried_formed.apply ih _ fun _ _ _ node hnode => ih _ node hnode

/-! ## A node made anew -/

/-- A new node is what a change makes. -/
theorem Reached.expect? {tree tree' : Tree} (h : Reached (fun _ _ => True) tree) {id : NodeId}
    {new : Option (NodeId × Tree)} (edit : Edit)
    (hedit : edit.apply tree = (new.map (·.2)).getD tree)
    (hnew : Tree.expect? id new = some tree') : Reached (fun _ _ => True) tree' := by
  unfold Tree.expect? at hnew
  split at hnew
  · next found made =>
    split at hnew
    · obtain rfl := Option.some.inj hnew
      have hmade : edit.apply tree = made := hedit
      exact hmade ▸ .edited h trivial
    · cases hnew
  · cases hnew

theorem Reached.setValue? {tree tree' : Tree} (h : Reached (fun _ _ => True) tree) {id : NodeId}
    {value : String} (hset : tree.setValue? id value = some tree') :
    Reached (fun _ _ => True) tree' := by
  have hedit : (Edit.setValue id value).apply tree = tree' := by rw [Edit.apply, hset]; rfl
  exact hedit ▸ .edited h trivial

theorem Reached.setAttributes? {tree tree' : Tree} (h : Reached (fun _ _ => True) tree)
    {id : NodeId} {attributes : List Attribute}
    (hset : tree.setAttributes? id attributes = some tree') : Reached (fun _ _ => True) tree' := by
  induction attributes generalizing tree with
  | nil =>
    obtain rfl : tree = tree' := Option.some.inj hset
    exact h
  | cons a attributes ih =>
    rw [Tree.setAttributes?, List.foldlM_cons] at hset
    obtain ⟨between, hfirst, hrest⟩ := Option.bind_eq_some_iff.1 hset
    have hedit : (Edit.setAttribute id a.name a.value).apply tree = between := by
      rw [Edit.apply, hfirst]
      rfl
    exact ih (hedit ▸ .edited h trivial) hrest

/-- **What is made again in a tree that can be reached can be reached.** -/
theorem Reached.replayNode? {tree tree' : Tree} (h : Reached (fun _ _ => True) tree) {id : NodeId}
    {node : Node} (hreplay : tree.replayNode? id node = some tree') :
    Reached (fun _ _ => True) tree' := by
  obtain ⟨parent, -, hmade⟩ := Option.bind_eq_some_iff.1 hreplay
  cases hkind : node.kind with
  | document =>
    rw [hkind] at hmade
    cases hmade
  | element =>
    rw [hkind] at hmade
    obtain ⟨added, hadd, hrest⟩ := Option.bind_eq_some_iff.1 hmade
    obtain ⟨attributed, hset, hvalue⟩ := Option.bind_eq_some_iff.1 hrest
    have hadded := h.expect? (.appendElement parent node.name) rfl hadd
    exact (hadded.setAttributes? hset).setValue? hvalue
  | comment =>
    rw [hkind] at hmade
    exact h.expect? (.appendComment parent node.value) rfl hmade
  | instruction =>
    rw [hkind] at hmade
    exact h.expect? (.appendInstruction parent node.name node.value) rfl hmade

/-- A node below another, with any label that can be made. -/
theorem Reached.exists_concat {tree : Tree} {entries : List Entry}
    (h : Reached (fun _ _ => True) tree) (hlinked : tree.Linked entries) {e : Entry}
    (hbelow : e.LiesBelow entries entries.length) (hkind : e.label.kind ≠ .document)
    (hformed : e.label.Formed) :
    ∃ tree', Reached (fun _ _ => True) tree' ∧ tree'.Linked (entries ++ [e]) := by
  obtain ⟨value, hvalid⟩ := hformed
  let first := e.relabel fun label => { label with value }
  obtain ⟨made, hreplay, hmade⟩ :=
    hlinked.replayNode?_eq (show first.LiesBelow entries entries.length from hbelow) hkind hvalid []
  obtain ⟨tree', hset, hlinked'⟩ := hmade.setValue?_eq e.label.value
  exact ⟨tree', (h.replayNode? hreplay).setValue? hset, hlinked'⟩

/-! ## Trees made anew -/

/-- **Every tree can be made**, if its nodes have labels that can. -/
theorem exists_reached {entries : List Entry} (hentries : Rooted entries)
    (hfirst : entries[root]? = some Entry.document) (hformed : ∀ e ∈ entries, e.label.Formed) :
    ∃ tree, Reached (fun _ _ => True) tree ∧ tree.Linked entries := by
  suffices hcount : ∀ count, count + 1 ≤ entries.length →
      ∃ tree, Reached (fun _ _ => True) tree ∧ tree.Linked (entries.take (count + 1)) by
    have hlength : entries.length - 1 + 1 = entries.length :=
      Nat.sub_add_cancel hentries.length_pos
    have hall := hcount (entries.length - 1) (Nat.le_of_eq hlength)
    rwa [hlength, List.take_length] at hall
  intro count hle
  induction count with
  | zero =>
    have htake : entries.take 1 = [Entry.document] := by
      cases entries with
      | nil => cases hfirst
      | cons first rest =>
        obtain rfl : first = Entry.document := Option.some.inj hfirst
        rfl
    rw [htake]
    exact ⟨Tree.empty, .empty, linked_empty⟩
  | succ count ih =>
    -- the nodes made so far are the first ones, and the parent of the next is one of them
    obtain ⟨tree, htree, hlinked⟩ := ih (Nat.le_of_succ_le hle)
    have hlt : count + 1 < entries.length := hle
    have he := List.getElem?_eq_getElem hlt
    obtain ⟨hkind, hbelow⟩ := hentries.below (count + 1) _ (Nat.succ_ne_zero _) he
    have hlength : (entries.take (count + 1)).length = count + 1 :=
      List.length_take_of_le (Nat.le_of_lt hlt)
    rw [List.take_succ_eq_append_getElem hlt]
    refine htree.exists_concat hlinked ?_ hkind (hformed _ (List.mem_of_getElem? he))
    rw [hlength]
    exact hbelow.take

end Tree

open Groundwork.Tree

/-- **Every forest can be made**, if its labels can. -/
theorem Forest.exists_copy {f : Forest Label} (hf : f.Nested) (hheight : f.height ≤ maxDepth)
    (hformed : ∀ label ∈ f.toList, label.Formed) :
    ∃ copy, Reached (fun _ _ => True) copy ∧ copy.Linked f.documentEntries :=
  exists_reached (hf.rooted hheight) rfl (forall_documentEntries ⟨"", rfl⟩ hformed)

end Groundwork
