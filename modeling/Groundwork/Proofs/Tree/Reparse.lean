import Groundwork.Proofs.Tree.Regrowth

/-!
# `Proofs.Tree.Reparse` — reading what has been printed

A printed document is the XML declaration, if it was asked for, and the pieces of a forest. Read
back, it gives the events of these pieces; so it is parsed as the forest in normal form if there is
one root element at most, and otherwise parsing stops where the second one starts.

## Contents

* `reading_document` — the events of a declaration and pieces behind it.
* `parse_printed` — **a printed forest is parsed as its normal form.**
* `parse_printed_error` — **of several root elements the second is refused, where it starts.**
-/

namespace Groundwork

open Text Xml Groundwork.Tree

/-! ## The declaration -/

/-- What a declaration says. -/
def declarationAttributes (options : PrintOptions) : List Attribute :=
  ⟨"version", "1.0"⟩ ::
    match options.encoding with
    | some encoding => [⟨"encoding", encoding.label⟩]
    | none => []

theorem named_declarationAttributes (options : PrintOptions) :
    Attribute.Named (declarationAttributes options) := by
  rw [declarationAttributes]
  cases options.encoding with
  | none => exact ⟨by decide, by decide⟩
  | some encoding => cases encoding <;> exact ⟨by decide, by decide⟩

theorem toList_printDeclaration {options : PrintOptions} (h : options.declaration = true) :
    (printDeclaration options).toList =
      Piece.spellDeclaration (declarationAttributes options) ++ ['\n'] := by
  rw [printDeclaration, if_pos h, declarationAttributes]
  cases options.encoding with
  | none => decide
  | some encoding => cases encoding <;> decide

/-- The events of the declaration. -/
def headEvents (options : PrintOptions) : List (Placed Event) :=
  if options.declaration then [⟨.declaration, 0⟩] else []

/-- The line end behind the declaration. -/
def headPieces (options : PrintOptions) : List Piece :=
  if options.declaration then [.text "\n"] else []

/-- The number of bytes of the declaration, without its line end. -/
def headSize (options : PrintOptions) : Nat :=
  if options.declaration then
    Utf8.size (Piece.spellDeclaration (declarationAttributes options))
  else 0

theorem size_printDeclaration (options : PrintOptions) :
    headSize options + Utf8.size (Piece.spellAll (headPieces options)) =
      Utf8.size (printDeclaration options).toList := by
  cases h : options.declaration with
  | true =>
    rw [headSize, headPieces, if_pos h, if_pos h, toList_printDeclaration h, Utf8.size_append]
    rfl
  | false => simp [headSize, headPieces, printDeclaration, h, Piece.spellAll]

/-- **A declaration and pieces behind it are read back as such.** -/
theorem reading_document (options : PrintOptions) {pieces : List Piece}
    (hpieces : ∀ p ∈ pieces, p.isText = false → p.Writable) :
    Event.reading 0 ((printDeclaration options).toList ++ Piece.spellAll pieces) =
      (headEvents options ++
        Piece.placeAll (headSize options) (Piece.merge (headPieces options ++ pieces)), none) := by
  cases h : options.declaration with
  | false =>
    have hread := Piece.reading_merge 0 hpieces
    simpa [printDeclaration, headEvents, headSize, headPieces, h] using hread
  | true =>
    have hpieces' : ∀ p ∈ .text "\n" :: pieces, p.isText = false → p.Writable := by
      intro p hp htext
      rcases List.mem_cons.1 hp with rfl | hp
      · cases htext
      · exact hpieces p hp htext
    have hread := Piece.reading_merge
      (Utf8.size (Piece.spellDeclaration (declarationAttributes options))) hpieces'
    have hchars : (printDeclaration options).toList ++ Piece.spellAll pieces =
        Piece.spellDeclaration (declarationAttributes options) ++
          Piece.spellAll (.text "\n" :: pieces) := by
      rw [toList_printDeclaration h, Piece.spellAll_cons, List.append_assoc]
      rfl
    rw [hchars, Piece.reading_declaration (named_declarationAttributes options), hread]
    simp [headEvents, headSize, headPieces, h]

/-! ## Printed forests -/

/-- The text of a document with this forest in it. -/
def printForest (options : PrintOptions) (f : Forest Label) : String :=
  printDeclaration options ++ printPieces (f.pieces options 1)

theorem readAll_printForest (options : PrintOptions) {f : Forest Label} (hf : f.Sound) :
    (Event.readAll (printForest options f)).failure = none ∧
      (Event.readAll (printForest options f)).events = headEvents options ++
        Piece.placeAll (headSize options)
          (Piece.merge (headPieces options ++ f.pieces options 1)) := by
  have hread := reading_document options (writable_pieces hf options 1)
  have hchars : (printForest options f).toList =
      (printDeclaration options).toList ++ Piece.spellAll (f.pieces options 1) := by
    rw [printForest, String.toList_append, printPieces, String.toList_ofList]
  rw [← hchars, ← Event.readAll_eq_reading, Prod.mk.injEq] at hread
  exact ⟨hread.2, hread.1⟩

theorem builds_headEvents (options : PrintOptions) :
    Builds ((headEvents options).map (·.item)) .start .start .nil := by
  rw [headEvents]
  split
  · exact builds_of_step fun _ => rfl
  · exact builds_nil _

theorem builds_headPieces (options : PrintOptions) :
    Builds ((headPieces options).map Piece.event) .start .start .nil := by
  rw [headPieces]
  split
  · exact builds_blank (by decide) false false
  · exact builds_nil _

/-- What the declaration and the pieces behind it build. -/
theorem builds_document (options : PrintOptions) {pieces : List Piece} {after : Progress}
    {f : Forest Label} (h : Builds (pieces.map Piece.event) .start after f) :
    Builds ((headEvents options ++ Piece.placeAll (headSize options)
      (Piece.merge (headPieces options ++ pieces))).map (·.item)) .start after f := by
  have hpieces : Builds ((headPieces options ++ pieces).map Piece.event) .start after f := by
    rw [List.map_append]
    exact (builds_headPieces options).append h rfl rfl
  rw [List.map_append, Piece.map_item_placeAll]
  exact (builds_headEvents options).append (builds_merge hpieces) rfl rfl

/-- **A printed forest is parsed as its normal form**, if it has one root element at most. -/
theorem parse_printed (options : PrintOptions) {f : Forest Label} (hf : f.Sound)
    (hheight : f.height ≤ maxDepth) (hcount : f.elementCount ≤ 1) :
    parse (printForest options f) = .ok f.normal.tree := by
  obtain ⟨hfailure, hevents⟩ := readAll_printForest options hf
  have hcount' : f.elementCount + false.toNat ≤ 1 := hcount
  have hpieces := builds_pieces hf options hcount' false
  have hbuilds := builds_document options hpieces
  rw [← hevents] at hbuilds
  exact parse_of_builds hfailure hbuilds rfl (by rwa [Forest.height_normal])

/-! ## Several root elements -/

theorem utf8ByteSize_eq (s : String) : s.utf8ByteSize = Utf8.size s.toList := by
  have hchars (cs : List Char) : (String.ofList cs).utf8ByteSize = Utf8.size cs := by
    induction cs with
    | nil => rfl
    | cons c cs ih =>
      rw [String.ofList_cons, String.utf8ByteSize_append, String.utf8ByteSize_singleton, ih,
        Utf8.size_cons]
  rw [← hchars, String.ofList_toList]

theorem pieces_append (options : PrintOptions) (depth : Nat) (f g : Forest Label) :
    (f.append g).pieces options depth = f.pieces options depth ++ g.pieces options depth := by
  induction f with
  | nil => rfl
  | cons label below rest _ ihr =>
    rw [Forest.append, Forest.pieces, ihr, Forest.pieces, List.append_assoc]

/-- A text whose events are refused at one of them. -/
theorem parse_error_of_step {text : String} {front back : List (Placed Event)}
    {event : Placed Event} (hevents : (Event.readAll text).events = front ++ event :: back)
    {next : Builder} (hfront : Builder.start.steps (front.map (·.item)) = .ok next) {fault : Fault}
    (hstep : next.step event.item = .error fault) : parse text = .error ⟨fault, event.start⟩ := by
  have hrun : Builder.start.run (Event.readAll text).events = .error ⟨fault, event.start⟩ := by
    rw [hevents, Builder.run_append_of_steps hfront, Builder.run, hstep]
  simp only [parse, hrun]

/-- The piece is the start tag or the empty tag of an element. -/
def IsTagOf (label : Label) (tag : Piece) : Prop :=
  tag = .emptyTag label.name label.attributes ∨ tag = .startTag label.name label.attributes

/-- A tag is refused where no element may come. -/
theorem IsTagOf.step_eq {label : Label} {tag : Piece} (h : IsTagOf label tag) (tree : Tree)
    (hasDoctype : Bool) :
    (Builder.mk tree [] true hasDoctype).step tag.event = .error .multipleRoots := by
  rcases h with rfl | rfl
  · rfl
  · rfl

theorem IsTagOf.isText_eq {label : Label} {tag : Piece} (h : IsTagOf label tag) :
    tag.isText = false := by
  rcases h with rfl | rfl
  · rfl
  · rfl

/-- At the top no margin is printed. -/
theorem padding_top (options : PrintOptions) : padding options 0 1 = "" := by
  rw [padding]
  cases options.indent <;> simp [String.pushn_eq_repeat_push, Nat.repeat]

/-- The pieces of an element at the top start with its tag, behind no margin. -/
theorem exists_tag (options : PrintOptions) {label : Label} (h : label.kind = .element)
    (below rest : Forest Label) :
    ∃ (tag : Piece) (behind : List Piece),
      (Forest.cons label below rest).pieces options 1 = .text "" :: tag :: behind ∧
        IsTagOf label tag := by
  rw [Forest.pieces, line, padding_top, Label.pieces, h]
  cases hempty : below.isEmpty && label.value.isEmpty with
  | true => exact ⟨_, _, rfl, .inl rfl⟩
  | false => exact ⟨_, _, rfl, .inr rfl⟩

/-- What is printed in front of the tag of a second root element is built, and leaves a root
element behind. -/
theorem builds_front (options : PrintOptions) {front : Forest Label} (hf : front.Sound)
    (hfront : front.elementCount = 1) :
    Builds ((front.pieces options 1 ++ [Piece.text ""]).map Piece.event) .start ⟨[], true, false⟩
      front.normal := by
  have hcount : front.elementCount + false.toNat ≤ 1 := Nat.le_of_eq hfront
  have hbuilds := builds_pieces hf options hcount false
  have hroot : (false || decide (0 < front.elementCount)) = true := by simp [hfront]
  have hblank : Builds [.text ""] ⟨[], true, false⟩ ⟨[], true, false⟩ .nil :=
    builds_blank rfl true false
  rw [hroot] at hbuilds
  rw [List.map_append, ← Forest.append_nil front.normal]
  exact hbuilds.append hblank rfl rfl

/-- **Of several root elements the second is refused**, at the place up to which the nodes in front
of it have been printed. -/
theorem parse_printed_error (options : PrintOptions) {front below back : Forest Label}
    {second : Label} (hf : (front.append (.cons second below back)).Sound)
    (hheight : (front.append (.cons second below back)).height ≤ maxDepth)
    (hfront : front.elementCount = 1) (hsecond : second.kind = .element) :
    parse (printForest options (front.append (.cons second below back))) =
      .error ⟨.multipleRoots, (printForest options front).utf8ByteSize⟩ := by
  obtain ⟨tag, behind, hpieces, htag⟩ := exists_tag options hsecond below back
  have hsound := (Forest.sound_append_iff.1 hf).1
  have hevents := (readAll_printForest options hf).2
  have hmerge : Piece.merge (headPieces options ++
      (front.append (.cons second below back)).pieces options 1) =
        Piece.merge (headPieces options ++ (front.pieces options 1 ++ [Piece.text ""])) ++
          tag :: Piece.merge behind := by
    rw [← Piece.merge_append_cons htag.isText_eq, pieces_append, hpieces]
    simp
  rw [hmerge, Piece.placeAll_append, ← List.append_assoc, Piece.placeAll] at hevents
  have hbuilds := builds_document options (builds_front options hsound hfront)
  rw [Forest.height_append] at hheight
  have hroom : Progress.start.nesting + front.normal.height ≤ maxDepth := by
    rw [show Progress.start.nesting = 0 from rfl, Forest.height_normal]
    omega
  obtain ⟨tree, hsteps, -⟩ := hbuilds empty _ linked_empty Nat.zero_lt_one hroom
  have hparse := parse_error_of_step hevents hsteps (htag.step_eq tree false)
  have hplace : headSize options + Utf8.size (Piece.spellAll (Piece.merge
      (headPieces options ++ (front.pieces options 1 ++ [Piece.text ""])))) =
        (printForest options front).utf8ByteSize := by
    rw [Piece.spellAll_merge, Piece.spellAll_append, Utf8.size_append, ← Nat.add_assoc,
      size_printDeclaration, ← Utf8.size_append, utf8ByteSize_eq, printForest, String.toList_append,
      printPieces, String.toList_ofList, Piece.spellAll_append]
    simp [Piece.spellAll, Piece.spelling, Reference.escapeText]
  rw [hparse, hplace]

end Groundwork
