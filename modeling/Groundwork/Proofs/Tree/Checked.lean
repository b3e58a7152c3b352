import Groundwork.Proofs.Tree.Edited
import Groundwork.Proofs.Tree.Layout

/-!
# `Proofs.Tree.Checked` — how long comments and instructions stay as they were checked

A comment must not hold two hyphens or end in one, and an instruction must not hold the end of an
instruction: then each of them is printed as exactly one token. The parser sees to that, and so do
the changes that append a comment or an instruction. The change that gives a node another value does
not: it takes any value for any node. So the checks hold in a tree that is reached by changes as
long as the values that are given to comments and instructions would have passed them, and not
longer.

## Contents

* `Label.Checked`, `Node.PrintsAsToken`, `printsAsToken_iff` — **what the checks are for.**
* `Kept`, `Kept.apply` — properties of labels that have nothing to do with attributes.
* `Edit.Respects`, `checked_apply_iff` — **the changes that keep the checks.**
* `checked_along_iff` — **the runs in which the checks hold throughout.**
-/

namespace Groundwork

open Text Xml

/-! ## The checks -/

/-- A comment or an instruction with this label cannot end before it should. -/
def Label.Checked (label : Label) : Prop :=
  (label.kind = .comment → isCommentBody label.value.toList = true) ∧
    (label.kind = .instruction → ¬ instructionEnd <:+: label.value.toList)

instance (label : Label) : Decidable label.Checked := inferInstanceAs (Decidable (_ ∧ _))

/-- An instruction with this label has a target that instructions may have. -/
def Label.Targeted (label : Label) : Prop :=
  label.kind = .instruction → isName label.name.toList = true ∧ isReserved label.name.toList = false

/-- Where a comment or an instruction is printed in a document, exactly one token is read, a comment
with the value of the node or an instruction with its name. -/
def Node.PrintsAsToken (node : Node) : Prop :=
  match node.kind with
  | .document | .element => True
  | .comment => ∀ start rest,
    Lexeme.read start ((Tree.printComment node).toList ++ rest)
      = .ok (⟨.comment node.value.toList, (Tree.printComment node).toList⟩, rest)
  | .instruction => ∀ start rest, ∃ data,
    Lexeme.read start ((Tree.printInstruction node).toList ++ rest)
      = .ok (⟨.instruction node.name.toList data, (Tree.printInstruction node).toList⟩, rest)

namespace Tree

theorem toList_printComment (node : Node) :
    (printComment node).toList = (Piece.comment node.value).spelling := by
  rw [← printPieces_comment]
  simp [printPieces, Piece.spellAll]

theorem toList_printInstruction (node : Node) :
    (printInstruction node).toList = (Piece.instruction node.name node.value).spelling := by
  rw [← printPieces_instruction]
  simp [printPieces, Piece.spellAll]

/-- An instruction that is read with its own target does not hold the end of an instruction. -/
theorem not_infix_of_read {start : Nat} {target value : String} {data : Option (List Char)}
    {cs rest : List Char}
    (h : Lexeme.read start cs = .ok (⟨.instruction target.toList data,
      (Piece.instruction target value).spelling⟩, rest)) :
    ¬ instructionEnd <:+: value.toList := by
  rcases Lexeme.markup_or_text_of_read h with ⟨-, hmarkup⟩ | ⟨-, htext⟩
  · generalize hspelling : (Piece.instruction target value).spelling = spelling at hmarkup
    cases hmarkup with
    | @instruction _ inside _ _ _ hinside =>
      have heq : Piece.spellData value = inside := by
        simpa [Piece.spelling] using hspelling
      intro hvalue
      refine hinside (heq ▸ hvalue.trans ?_)
      rw [Piece.spellData]
      split
      · next hempty => simp [String.isEmpty_iff.1 hempty]
      · exact (List.suffix_cons ' ' value.toList).isInfix
  · simp [Lexeme.readText] at htext

end Tree

/-- **A node is printed as one token exactly if it passes the checks.** -/
theorem Node.printsAsToken_iff {node : Node} (htarget : node.label.Targeted) :
    node.PrintsAsToken ↔ node.label.Checked := by
  have hlabel : node.label.kind = node.kind := rfl
  unfold PrintsAsToken Label.Checked
  rw [hlabel]
  cases hkind : node.kind with
  | document => simp
  | element => simp
  | comment =>
    simp only [reduceCtorEq, forall_const, false_implies, and_true]
    constructor
    · intro h
      exact Lexeme.sound_of_read (h 0 [])
    · intro hbody start rest
      have hwritable : (Piece.comment node.value).Writable := hbody
      rw [Tree.toList_printComment]
      exact Piece.read_spelling start hwritable (by simp [Piece.isText])
  | instruction =>
    simp only [reduceCtorEq, forall_const, false_implies, true_and]
    constructor
    · intro h
      obtain ⟨data, hread⟩ := h 0 []
      rw [Tree.toList_printInstruction] at hread
      exact Tree.not_infix_of_read hread
    · intro hvalue start rest
      obtain ⟨hname, hfree⟩ := htarget hkind
      have hwritable : (Piece.instruction node.name node.value).Writable := ⟨hname, hfree, hvalue⟩
      rw [Tree.toList_printInstruction]
      exact ⟨_, Piece.read_spelling start hwritable (by simp [Piece.isText])⟩

namespace Tree

/-! ## What changes keep -/

/-- Labels of a kind that new labels belong to, whatever attributes they are given, and elements
whatever value. -/
structure Kept (P : Label → Prop) : Prop where
  valid : ∀ label : Label, label.Valid → P label
  attributes : ∀ (label : Label) attributes, P label → P { label with attributes }
  element : ∀ (label : Label) value, label.kind = .element → P label → P { label with value }

section Kept

variable {P : Label → Prop}

theorem Kept.carried (kept : Kept P) : Carried P where
  valid := kept.valid
  put label _ _ _ _ h := kept.attributes label _ h
  remove label _ h := kept.attributes label _ h
  element := kept.element

/-- **A change keeps such labels**, if a value that it gives to a node at choice does. -/
theorem Kept.apply (kept : Kept P) {tree : Tree} (h : tree.All P) (edit : Edit)
    (hvalue : ∀ id value, edit = .setValue id value →
      ∀ node, tree.get? id = some node → P { node.label with value }) :
    (edit.apply tree).All P := kept.carried.apply h edit hvalue

end Kept

/-! ## The changes that keep the checks -/

theorem kept_checked : Kept Label.Checked where
  valid label h := by
    constructor
    · intro hkind
      rw [Label.Valid, hkind] at h
      exact h.2.2
    · intro hkind
      rw [Label.Valid, hkind] at h
      exact h.2.2.2
  attributes _ _ h := h
  element label value hkind _ := ⟨by simp [hkind], by simp [hkind]⟩

theorem kept_targeted : Kept Label.Targeted where
  valid label h hkind := by
    rw [Label.Valid, hkind] at h
    exact ⟨h.2.1, h.2.2.1⟩
  attributes _ _ h := h
  element _ _ _ h := h

/-- A value that the change gives to a comment or an instruction would have passed the checks. -/
def Edit.Respects (tree : Tree) : Edit → Prop
  | .setValue id value => ∀ node ∈ tree.get? id, Label.Checked { node.label with value }
  | _ => True

instance (tree : Tree) (edit : Edit) : Decidable (edit.Respects tree) :=
  match edit with
  | .setValue id value =>
    inferInstanceAs (Decidable (∀ node ∈ tree.get? id, Label.Checked { node.label with value }))
  | .appendElement .. | .appendTextElement .. | .appendComment .. | .appendInstruction ..
  | .setAttribute .. | .removeAttribute .. | .setValues .. | .clear =>
    inferInstanceAs (Decidable True)

/-- **A change keeps the checks exactly if it respects them.** -/
theorem checked_apply_iff {tree : Tree} (h : tree.All Label.Checked) (edit : Edit) :
    (edit.apply tree).All Label.Checked ↔ edit.Respects tree := by
  constructor
  · intro hafter
    cases edit with
    | setValue id value =>
      intro node hnode
      have hfound : tree.get? id = some node := hnode
      have hset : (Edit.apply tree (.setValue id value)).get? id = some { node with value } := by
        simp [Edit.apply, setValue?, hfound, get?_modify]
      exact hafter id _ hset
    | _ => trivial
  · intro hrespects
    refine kept_checked.apply h edit fun id value hedit => ?_
    subst hedit
    exact hrespects

/-- Each change of a run respects the checks in the tree that it is made to. -/
def RespectedAlong : Tree → List Edit → Prop
  | _, [] => True
  | tree, edit :: edits => edit.Respects tree ∧ RespectedAlong (edit.apply tree) edits

instance decidableRespectedAlong : ∀ (tree : Tree) (edits : List Edit),
    Decidable (RespectedAlong tree edits)
  | _, [] => inferInstanceAs (Decidable True)
  | tree, edit :: edits =>
    have := decidableRespectedAlong (edit.apply tree) edits
    inferInstanceAs (Decidable (edit.Respects tree ∧ RespectedAlong (edit.apply tree) edits))

theorem forall_prefix_cons {α : Type} {P : List α → Prop} {x : α} {xs : List α} :
    (∀ front, front <+: x :: xs → P front) ↔ P [] ∧ ∀ front, front <+: xs → P (x :: front) := by
  constructor
  · intro h
    exact ⟨h [] List.nil_prefix, fun front hfront => h _ (List.cons_prefix_cons.2 ⟨rfl, hfront⟩)⟩
  · rintro ⟨hnil, hcons⟩ front hfront
    cases front with
    | nil => exact hnil
    | cons y front =>
      obtain ⟨rfl, hrest⟩ := List.cons_prefix_cons.1 hfront
      exact hcons front hrest

/-- The checks hold throughout a run exactly if each change respects them. -/
theorem checked_run_iff {tree : Tree} (h : tree.All Label.Checked) (edits : List Edit) :
    (∀ front, front <+: edits → (front.foldl Edit.apply tree).All Label.Checked)
      ↔ RespectedAlong tree edits := by
  induction edits generalizing tree with
  | nil =>
    refine ⟨fun _ => trivial, fun _ front hfront => ?_⟩
    obtain rfl := List.prefix_nil.1 hfront
    exact h
  | cons edit edits ih =>
    rw [forall_prefix_cons, RespectedAlong, ← checked_apply_iff h]
    constructor
    · rintro ⟨-, hrest⟩
      have hfirst := hrest [] List.nil_prefix
      exact ⟨hfirst, (ih hfirst).1 hrest⟩
    · rintro ⟨hfirst, hrest⟩
      exact ⟨h, (ih hfirst).2 hrest⟩

/-- Instructions have targets whatever values are given. -/
theorem targeted_run {tree : Tree} (h : tree.All Label.Targeted) (edits : List Edit) :
    (edits.foldl Edit.apply tree).All Label.Targeted := by
  induction edits generalizing tree with
  | nil => exact h
  | cons edit edits ih =>
    exact ih (kept_targeted.apply h edit fun _ _ _ node hnode => h _ node hnode)

/-- **The checks hold throughout a run**, from a new or a parsed tree, exactly if every value that
is given to a comment or an instruction would have passed them; and they hold in a tree exactly if
each comment and each instruction in it is printed as one token. -/
theorem checked_along_iff {tree : Tree} (hstart : tree = empty ∨ ∃ text, parse text = .ok tree)
    (edits : List Edit) :
    ((∀ front, front <+: edits → (front.foldl Edit.apply tree).All Label.Checked)
        ↔ RespectedAlong tree edits)
      ∧ ((edits.foldl Edit.apply tree).All Label.Checked
        ↔ ∀ id node, (edits.foldl Edit.apply tree).get? id = some node → node.PrintsAsToken) := by
  have hall {P : Label → Prop} (kept : Kept P) : tree.All P := by
    rcases hstart with rfl | ⟨text, hparse⟩
    · exact all_empty (kept.valid _ rfl)
    · exact all_of_parse kept.valid hparse
  refine ⟨checked_run_iff (hall kept_checked) edits, ?_⟩
  have htargeted := targeted_run (hall kept_targeted) edits
  constructor
  · intro h id node hnode
    exact (Node.printsAsToken_iff (htargeted id node hnode)).2 (h id node hnode)
  · intro h id node hnode
    exact (Node.printsAsToken_iff (htargeted id node hnode)).1 (h id node hnode)

/-- A comment and an instruction that are given other values, and an element that is given one that
neither of them could have. -/
theorem checked_along_iff_values :
    let edits := [Edit.appendElement root "r", .appendComment 1 "a", .appendInstruction 1 "p" "",
      .setValue 2 "b - c", .setValue 3 "d?", .setValue 1 "--?>"]
    RespectedAlong empty edits
      ∧ (∀ front, front <+: edits → (front.foldl Edit.apply empty).All Label.Checked)
      ∧ ∀ id node, (edits.foldl Edit.apply empty).get? id = some node → node.PrintsAsToken := by
  intro edits
  obtain ⟨hrun, htokens⟩ := checked_along_iff (.inl rfl : empty = empty ∨ _) edits
  have hrespected : RespectedAlong empty edits := by decide +kernel
  have hchecked := hrun.2 hrespected
  exact ⟨hrespected, hchecked, htokens.1 (hchecked edits List.prefix_rfl)⟩

theorem reached_run {tree : Tree} (h : Reached (fun _ _ => True) tree) (edits : List Edit) :
    Reached (fun _ _ => True) (edits.foldl Edit.apply tree) := by
  induction edits generalizing tree with
  | nil => exact h
  | cons edit edits ih => exact ih (.edited h trivial)

/-- A comment is given two hyphens. The tree is reached like any other, and what is printed cannot
be read. -/
theorem not_checked_of_setValue :
    let edits := [Edit.appendElement root "r", .appendComment 1 "a", .setValue 2 "a--b"]
    let tree := edits.foldl Edit.apply empty
    Reached (fun _ _ => True) tree ∧ tree.get? 2 = some (Node.comment "a--b" (some 1) 2) ∧
      ¬ tree.All Label.Checked ∧
      parse (tree.print .compact) = .error ⟨.doubleHyphen, 3⟩ := by
  intro edits tree
  have hnode : tree.get? 2 = some (Node.comment "a--b" (some 1) 2) := by decide +kernel
  refine ⟨reached_run .empty edits, hnode, fun h => ?_, by decide +kernel⟩
  exact absurd (h 2 _ hnode) (by decide +kernel)

end Tree

end Groundwork
