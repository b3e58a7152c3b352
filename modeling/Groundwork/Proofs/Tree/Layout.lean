import Groundwork.Proofs.Tree.Parsed
import Groundwork.Proofs.Tree.Printed
import Groundwork.Proofs.Xml.Piece

/-!
# `Proofs.Tree.Layout` — what a printed tree consists of

What is printed of a forest can be taken apart into the pieces that a document consists of: each
node is a few of them, between the margin in front of its line and the end of the line. Margins and
line ends are text like any other, and blank.

## Contents

* `Forest.pieces` — the pieces of a forest, with their layout.
* `allBlank_padding`, `allBlank_lineEnd` — the layout.
* `printPieces_leaf`, `printPieces_parent` — the lines of a node.
* `printPieces_pieces`, `print_eq` — **the printer writes the pieces of the forest.**
-/

namespace Groundwork

open Text Xml Groundwork.Tree

/-! ## The pieces of a forest -/

/-- What is printed of a node between its margin and the end of its line: `inside` is what stands
between the tags of an element behind its value. -/
def Label.pieces (label : Label) (isLeaf : Bool) (inside : List Piece) : List Piece :=
  match label.kind with
  | .document => []
  | .comment => [.comment label.value]
  | .instruction => [.instruction label.name label.value]
  | .element =>
    if isLeaf && label.value.isEmpty then [.emptyTag label.name label.attributes]
    else
      .startTag label.name label.attributes ::
        (.text label.value :: inside ++ [.endTag label.name])

/-- A node on a line of its own. -/
def line (options : PrintOptions) (depth : Nat) (pieces : List Piece) : List Piece :=
  .text (padding options 0 depth) :: (pieces ++ [.text (lineEnd options)])

namespace Forest

/-- What stands inside an element behind its value, if it has children: the end of the line, the
lines of the children, and the margin of the end tag. -/
def insidePieces (options : PrintOptions) (depth : Nat) (isLeaf : Bool) (below : List Piece) :
    List Piece :=
  if isLeaf then []
  else .text (lineEnd options) :: (below ++ [.text (padding options 0 depth)])

/-- The pieces of a forest, each node on a line of its own. -/
def pieces (options : PrintOptions) (depth : Nat) : Forest Label → List Piece
  | nil => []
  | cons label below rest =>
    line options depth (label.pieces below.isEmpty
      (insidePieces options depth below.isEmpty (below.pieces options (depth + 1)))) ++
      rest.pieces options depth

end Forest

/-! ## Layout is blank -/

theorem toList_pushn (c : Char) (n : Nat) : ("".pushn c n).toList = List.replicate n c := by
  induction n with
  | zero => rfl
  | succ n ih =>
    rw [String.pushn_eq_repeat_push, Nat.repeat, ← String.pushn_eq_repeat_push, String.toList_push,
      ih, List.replicate_succ']

theorem mem_padding {options : PrintOptions} {base depth : Nat} {c : Char}
    (h : c ∈ (padding options base depth).toList) : c = ' ' := by
  rw [padding] at h
  split at h
  · rw [toList_pushn] at h
    exact List.eq_of_mem_replicate h
  · cases h

theorem mem_lineEnd {options : PrintOptions} {c : Char} (h : c ∈ (lineEnd options).toList) :
    c = '\n' := by
  rw [lineEnd] at h
  split at h
  · simpa using h
  · cases h

theorem allBlank_padding (options : PrintOptions) (base depth : Nat) :
    allBlank (padding options base depth) = true := by
  rw [allBlank, List.all_eq_true]
  intro c hc
  rw [mem_padding hc]
  decide

theorem allBlank_lineEnd (options : PrintOptions) : allBlank (lineEnd options) = true := by
  rw [allBlank, List.all_eq_true]
  intro c hc
  rw [mem_lineEnd hc]
  decide

/-- Layout is written as it is. -/
theorem escapeText_padding (options : PrintOptions) (base depth : Nat) :
    Reference.escapeText (padding options base depth).toList =
      (padding options base depth).toList := by
  rw [Reference.escapeText_eq_self_iff]
  intro c hc
  rw [mem_padding hc]
  decide

theorem escapeText_lineEnd (options : PrintOptions) :
    Reference.escapeText (lineEnd options).toList = (lineEnd options).toList := by
  rw [Reference.escapeText_eq_self_iff]
  intro c hc
  rw [mem_lineEnd hc]
  decide

/-! ## Lines -/

/-- Pieces as they are printed. -/
def printPieces (pieces : List Piece) : String := String.ofList (Piece.spellAll pieces)

theorem printPieces_append (front back : List Piece) :
    printPieces (front ++ back) = printPieces front ++ printPieces back := by
  rw [printPieces, Piece.spellAll_append, String.ofList_append, printPieces, printPieces]

theorem toList_printAttribute (a : Attribute) : (printAttribute a).toList = Attribute.spell a := by
  simp [printAttribute, Attribute.spell]

theorem toList_printTagStart (node : Node) :
    (printTagStart node).toList =
      '<' :: (node.name.toList ++ Attribute.spellAll node.attributes) := by
  have hfold (attributes : List Attribute) (out : String) :
      (attributes.foldl (fun out a => out ++ printAttribute a) out).toList =
        out.toList ++ Attribute.spellAll attributes := by
    induction attributes generalizing out with
    | nil => simp [Attribute.spellAll]
    | cons a attributes ih =>
      rw [List.foldl_cons, ih, String.toList_append, toList_printAttribute, Attribute.spellAll_cons,
        List.append_assoc]
  rw [printTagStart, hfold]
  simp

theorem printPieces_line (options : PrintOptions) (depth : Nat) (pieces : List Piece) :
    printPieces (line options depth pieces) =
      padding options 0 depth ++ printPieces pieces ++ lineEnd options := by
  rw [String.ext_iff]
  simp [printPieces, line, Piece.spellAll, Piece.spelling, escapeText_padding, escapeText_lineEnd]

theorem printPieces_comment (node : Node) :
    printPieces [.comment node.value] = printComment node := by
  rw [String.ext_iff]
  simp [printPieces, Piece.spellAll, Piece.spelling, printComment, commentOpening, commentEnd]

theorem printPieces_instruction (node : Node) :
    printPieces [.instruction node.name node.value] = printInstruction node := by
  rw [printInstruction, String.ext_iff]
  split
  · next hempty =>
    simp [printPieces, Piece.spellAll, Piece.spelling, Piece.spellData, hempty, instructionOpening,
      instructionEnd]
  · next hempty =>
    simp [printPieces, Piece.spellAll, Piece.spelling, Piece.spellData, hempty, instructionOpening,
      instructionEnd]

/-- An element without children. -/
theorem printPieces_leaf {node : Node} (h : node.kind = .element) :
    printPieces (node.label.pieces true []) = printLeaf node := by
  have hkind : node.label.kind = .element := h
  rw [Label.pieces, hkind, printLeaf, String.ext_iff]
  cases hempty : node.value.isEmpty with
  | true =>
    simp [hempty, printPieces, Piece.spellAll, Piece.spelling, toList_printTagStart, emptyTagEnd,
      Node.label]
  | false =>
    simp [hempty, printPieces, Piece.spellAll, Piece.spelling, toList_printTagStart,
      printText, printEndTag, endTagOpening, Node.label]

/-- An element with children: the lines of its two tags, and those of the children between them. -/
theorem printPieces_parent {node : Node} (h : node.kind = .element) (options : PrintOptions)
    (depth : Nat) (below : List Piece) :
    printPieces (line options depth
        (node.label.pieces false (Forest.insidePieces options depth false below))) =
      padding options 0 depth ++ (printTagStart node ++ ">" ++ printText node.value) ++
        lineEnd options ++ printPieces below ++
          (padding options 0 depth ++ printEndTag node ++ lineEnd options) := by
  have hkind : node.label.kind = .element := h
  rw [printPieces_line, Label.pieces, hkind, Forest.insidePieces, String.ext_iff]
  simp [printPieces, Piece.spellAll, Piece.spelling, toList_printTagStart, escapeText_padding,
    escapeText_lineEnd, printText, printEndTag, endTagOpening, Node.label]

/-! ## Forests -/

theorem padding_succ (options : PrintOptions) (level : Nat) :
    padding options 0 (level + 1) = margin options level := rfl

/-- The line or the lines of a node. -/
theorem printPieces_label {label : Label} (hkind : label.kind ≠ .document) (options : PrintOptions)
    (level : Nat) (isLeaf : Bool) (inside : Nat → String) {below : List Piece}
    (hinside : printPieces below = inside (level + 1)) :
    printPieces (line options (level + 1)
        (label.pieces isLeaf (Forest.insidePieces options (level + 1) isLeaf below))) =
      label.printed options level isLeaf inside := by
  have hlabel : label.node.label = label := rfl
  cases hcase : label.kind with
  | document => exact absurd hcase hkind
  | comment =>
    rw [printPieces_line, padding_succ, Label.pieces, Label.printed, hcase]
    exact congrArg (margin options level ++ · ++ lineEnd options) (printPieces_comment label.node)
  | instruction =>
    rw [printPieces_line, padding_succ, Label.pieces, Label.printed, hcase]
    exact congrArg (margin options level ++ · ++ lineEnd options)
      (printPieces_instruction label.node)
  | element =>
    have hnode : label.node.kind = .element := hcase
    rw [Label.printed, hcase]
    cases isLeaf with
    | true =>
      have hleaf := printPieces_leaf hnode
      rw [hlabel] at hleaf
      rw [printPieces_line, padding_succ]
      exact congrArg (margin options level ++ · ++ lineEnd options) hleaf
    | false =>
      have hparent := printPieces_parent hnode options (level + 1) below
      rw [hlabel, hinside, padding_succ] at hparent
      exact hparent

/-- **The pieces of a forest are what it is printed as.** -/
theorem printPieces_pieces {f : Forest Label} (hf : f.Nested) (options : PrintOptions)
    (level : Nat) : printPieces (f.pieces options (level + 1)) = f.printed options level := by
  induction f generalizing level with
  | nil => rfl
  | cons label below rest ihb ihr =>
    obtain ⟨hkind, -, hbelow, hrest⟩ := hf
    have hlines := printPieces_label hkind options level below.isEmpty
      (fun level => below.printed options level) (ihb hbelow (level + 1))
    rw [Forest.pieces, printPieces_append, ihr hrest, hlines, Forest.printed]

/-! ## Trees -/

namespace Tree

variable {tree : Tree} {entries : List Entry}

/-- A node at the top and what is below it are printed as their pieces. -/
theorem printNode_top (h : tree.Linked entries) (options : PrintOptions) {id : NodeId}
    {below : Forest NodeId}
    (hf : (Forest.cons id below .nil).Follows fun id => childIds entries (some id))
    {parent : NodeId} (hlies : (Forest.cons id below .nil).LiesBelow entries parent 1)
    (hsize : below.size < tree.size) (out : String) :
    tree.printNode options id out =
      out ++
        printPieces (((Forest.cons id below .nil).map (labelAt entries)).pieces options 1) := by
  obtain ⟨label, he, -⟩ := hlies.1
  have hcount := (Forest.cons id below .nil).taskCount_le
  rw [Forest.size, Forest.size] at hcount
  have hperforms := h.performs_below options hf (Nat.le_refl 1) hlies
  rw [printPieces_pieces hlies.nested options 0]
  exact hperforms.printNode_eq (h.get?_eq_some he) (by omega) out

/-- **A tree is printed as the pieces of its forest.** -/
theorem print_eq (h : tree.Linked entries) (hentries : Rooted entries) {f : Forest NodeId}
    (hf : f.Spans entries) (options : PrintOptions) :
    tree.print options =
      printDeclaration options ++
        printPieces ((f.map (labelAt entries)).pieces options 1) := by
  rw [h.print_eq_printed hentries hf, printPieces_pieces (hf.liesBelow hentries).nested options 0]

end Tree

end Groundwork
