import Groundwork.Proofs.Tree.Layout

/-!
# `Proofs.Tree.Regrowth` — what printed pieces build

The pieces that a printer writes for a forest build the forest again, in normal form. Layout does no
harm: at the top blanks are passed over, and inside an element they stand behind its value, in front
of children, so that they are trimmed off with the blanks at the end of the value. That texts which
follow each other are read back as one makes no difference either.

## Contents

* `Builder.steps_merge`, `builds_merge` — texts that are read as one do the same as on their own.
* `writable_pieces` — the pieces of a sound forest can be read back.
* `builds_core` — a node without the layout around it.
* `fills_pieces`, `builds_pieces` — **the pieces of a forest build it in normal form**, inside an
  element and at the top.
-/

namespace Groundwork

open Text Xml Groundwork.Tree

/-! ## Texts that are read as one -/

namespace Builder

theorem steps_text_empty (builder : Builder) (events : List Event) :
    builder.steps (.text "" :: events) = builder.steps events := by
  obtain ⟨tree, opened, hasRoot, hasDoctype⟩ := builder
  cases opened with
  | nil => rfl
  | cons element opened => simp [steps, step, addText]

theorem steps_text_append (builder : Builder) (content more : String) (events : List Event) :
    builder.steps (.text (content ++ more) :: events) =
      builder.steps (.text content :: .text more :: events) := by
  obtain ⟨tree, opened, hasRoot, hasDoctype⟩ := builder
  cases opened with
  | nil =>
    -- what is not blank is refused with the same fault in either half
    cases hcontent : allBlank content <;> cases hmore : allBlank more <;>
      simp [steps, step, addText, allBlank_append, hcontent, hmore]
  | cons element opened => simp [steps, step, addText, String.append_assoc]

theorem steps_consText (builder : Builder) (content : String) (pieces : List Piece) :
    builder.steps ((Piece.consText content pieces).map Piece.event) =
      builder.steps (.text content :: pieces.map Piece.event) := by
  unfold Piece.consText
  split
  · exact steps_text_append builder content _ _
  · split
    · next hempty => rw [hempty, steps_text_empty]
    · rfl

/-- **Texts that are read as one do the same as on their own.** -/
theorem steps_merge (builder : Builder) (pieces : List Piece) :
    builder.steps ((Piece.merge pieces).map Piece.event) =
      builder.steps (pieces.map Piece.event) := by
  -- the first piece does the same in both lists, so the others have to
  have hcons (piece : Piece) (rest : List Piece)
      (ih : ∀ builder : Builder, builder.steps ((Piece.merge rest).map Piece.event) =
        builder.steps (rest.map Piece.event)) (builder : Builder) :
      builder.steps (piece.event :: (Piece.merge rest).map Piece.event) =
        builder.steps (piece.event :: rest.map Piece.event) := by
    rw [steps, steps]
    split
    · exact ih _
    · rfl
  induction pieces generalizing builder with
  | nil => rfl
  | cons piece pieces ih =>
    cases htext : piece.isText with
    | true =>
      cases piece with
      | text content =>
        rw [Piece.merge, steps_consText]
        exact hcons (.text content) pieces ih builder
      | _ => cases htext
    | false =>
      rw [Piece.merge_cons htext]
      exact hcons piece pieces ih builder

end Builder

theorem builds_merge {pieces : List Piece} {before after : Progress} {f : Forest Label}
    (h : Builds (pieces.map Piece.event) before after f) :
    Builds ((Piece.merge pieces).map Piece.event) before after f := by
  intro tree entries hlinked hlt hheight
  rw [Builder.steps_merge]
  exact h tree entries hlinked hlt hheight

/-! ## Pieces that can be read back -/

theorem writable_label {label : Label} (hvalid : label.Valid) (isLeaf : Bool) {inside : List Piece}
    (hinside : ∀ p ∈ inside, p.isText = false → p.Writable) :
    ∀ p ∈ label.pieces isLeaf inside, p.isText = false → p.Writable := by
  obtain ⟨kind, name, value, attributes⟩ := label
  cases kind with
  | document => simp [Label.pieces]
  | comment =>
    intro p hp _
    obtain rfl := List.mem_singleton.1 hp
    exact hvalid.2.2
  | instruction =>
    intro p hp _
    obtain rfl := List.mem_singleton.1 hp
    exact hvalid.2
  | element =>
    simp only [Label.pieces]
    split
    · intro p hp _
      obtain rfl := List.mem_singleton.1 hp
      exact hvalid
    · intro p hp htext
      simp only [List.cons_append, List.mem_cons, List.mem_append, List.not_mem_nil,
        or_false] at hp
      rcases hp with rfl | rfl | hp | rfl
      · exact hvalid
      · cases htext
      · exact hinside p hp htext
      · exact hvalid.1

/-- The pieces of a sound forest can be read back, wherever texts may stand between them. -/
theorem writable_pieces {f : Forest Label} (hf : f.Sound) (options : PrintOptions) (depth : Nat) :
    ∀ p ∈ f.pieces options depth, p.isText = false → p.Writable := by
  induction f generalizing depth with
  | nil => simp [Forest.pieces]
  | cons label below rest ihb ihr =>
    obtain ⟨hvalid, -, -, hb, hr⟩ := hf
    intro p hp htext
    simp only [Forest.pieces, line, List.cons_append, List.append_assoc, List.mem_cons,
      List.mem_append, List.nil_append] at hp
    rcases hp with rfl | hp | rfl | hp
    · cases htext
    · refine writable_label hvalid _ (fun p hp htext => ?_) p hp htext
      rw [Forest.insidePieces] at hp
      split at hp
      · cases hp
      · simp only [List.mem_cons, List.mem_append, List.not_mem_nil, or_false] at hp
        rcases hp with rfl | hp | rfl
        · cases htext
        · exact ihb hb (depth + 1) p hp htext
        · cases htext
    · cases htext
    · exact ihr hr depth p hp htext

/-! ## A single node -/

/-- The data of an instruction come back without the white space in front of them. -/
theorem getD_instructionData (data : String) :
    ((Lexeme.instructionData (Piece.spellData data)).map String.ofList).getD "" =
      String.ofList (data.toList.dropWhile isSpace) := by
  have hdrop : (Piece.spellData data).dropWhile isSpace = data.toList.dropWhile isSpace := by
    rw [Piece.spellData]
    split
    · next hempty =>
      rw [String.isEmpty_iff] at hempty
      rw [hempty]
      rfl
    · exact List.dropWhile_cons_of_pos (by decide)
  rw [Lexeme.instructionData, ← hdrop]
  split
  · next hnil => rw [hnil]; rfl
  · next c cs hcons => rw [hcons]; rfl

/-- The progress after a node with this label. -/
def Progress.after (progress : Progress) (label : Label) : Progress :=
  if label.kind = .element then progress.afterElement else progress

/-- **A node is built with what is below it**, in normal form. -/
theorem builds_core {label : Label} (hvalid : label.Valid) (hkind : label.kind ≠ .document)
    {below : Forest Label} (hleaf : label.kind = .element ∨ below = .nil) {options : PrintOptions}
    {depth : Nat} {blanks : String} (hblanks : allBlank blanks = true)
    (hbelow : Fills ((below.pieces options (depth + 1)).map Piece.event) below.normal blanks)
    {progress : Progress} (hadmits : label.kind = .element → progress.Admits) :
    Builds ((label.pieces below.isEmpty (Forest.insidePieces options depth below.isEmpty
        (below.pieces options (depth + 1)))).map Piece.event) progress (progress.after label)
      (.cons (label.normal below.isEmpty) below.normal .nil) := by
  obtain ⟨kind, name, value, attributes⟩ := label
  cases kind with
  | document => exact absurd rfl hkind
  | comment =>
    obtain ⟨rfl, rfl, -⟩ : name = "" ∧ attributes = [] ∧ isCommentBody value.toList = true := hvalid
    obtain rfl : below = .nil := by simpa using hleaf
    exact builds_comment progress value
  | instruction =>
    obtain ⟨rfl, -⟩ : attributes = [] ∧ _ := hvalid
    obtain rfl : below = .nil := by simpa using hleaf
    have hbuilds := builds_instruction progress name
      ((Lexeme.instructionData (Piece.spellData value)).map String.ofList)
    rw [getD_instructionData] at hbuilds
    exact hbuilds
  | element =>
    have hfree : progress.Admits := hadmits rfl
    cases hempty : below.isEmpty with
    | true =>
      obtain rfl := Forest.isEmpty_iff.1 hempty
      cases hvalue : value.isEmpty with
      | true =>
        obtain rfl := String.isEmpty_iff.1 hvalue
        exact builds_emptyElement hfree name attributes
      | false =>
        have hbuilds := (fills_text value).element hfree name attributes
        simpa [Label.pieces, hvalue, Forest.insidePieces, Piece.event, Forest.normal, Label.normal,
          elementValue, Forest.isEmpty, Progress.after] using hbuilds
    | false =>
      -- behind its value the element holds blanks only: the end of the line of its tag, what the
      -- lines of its children add, and the margin of its end tag
      have hpad := allBlank_padding options 0 depth
      have hend := allBlank_lineEnd options
      have hfills := (fills_text value).append ((fills_text (lineEnd options)).append
        (hbelow.append (fills_text (padding options 0 depth))))
      have hbuilds := hfills.element hfree name attributes
      have htrim : trim (value ++ (lineEnd options ++ (blanks ++ padding options 0 depth))) =
          trim value := by
        refine trim_append ?_ value
        rw [allBlank_append, allBlank_append, hend, hblanks, hpad]
        rfl
      have hnormal : below.normal.isEmpty = false := by rw [Forest.isEmpty_normal, hempty]
      simpa [Label.pieces, Forest.insidePieces, Piece.event, Label.normal, elementValue, hnormal,
        htrim, Progress.after, Forest.append] using hbuilds

/-! ## Forests -/

/-- **Inside an element, the pieces of a forest build it and add blanks.** -/
theorem fills_pieces {f : Forest Label} (hf : f.Sound) (options : PrintOptions) (depth : Nat) :
    ∃ blanks, allBlank blanks = true ∧
      Fills ((f.pieces options depth).map Piece.event) f.normal blanks := by
  induction f generalizing depth with
  | nil => exact ⟨"", rfl, fills_nil⟩
  | cons label below rest ihb ihr =>
    obtain ⟨hvalid, hkind, hleaf, hb, hr⟩ := hf
    obtain ⟨inner, hinner, hbelow⟩ := ihb hb (depth + 1)
    obtain ⟨outer, houter, hrest⟩ := ihr hr depth
    refine ⟨padding options 0 depth ++ (lineEnd options ++ outer), ?_, ?_⟩
    · rw [allBlank_append, allBlank_append, allBlank_padding, allBlank_lineEnd, houter]
      rfl
    · have hbehind := (fills_text (lineEnd options)).append hrest
      have hnode := hbehind.behind fun progress hopened => by
        have hadmits : progress.Admits := by
          intro htop
          exact absurd htop hopened
        have hcore := builds_core hvalid hkind hleaf hinner hbelow (fun _ => hadmits)
        have hafter : progress.after label = progress := by
          rw [Progress.after, Progress.afterElement_of_ne hopened, ite_self]
        rwa [hafter] at hcore
      have hline := (fills_text (padding options 0 depth)).append hnode
      simpa [Forest.pieces, line, Piece.event, Forest.normal, Forest.append] using hline

theorem elementCount_cons (label : Label) (below rest : Forest Label) :
    (Forest.cons label below rest).elementCount =
      rest.elementCount + if label.kind = .element then 1 else 0 := by
  rw [Forest.elementCount, Forest.roots, List.countP_cons, ← Forest.elementCount]
  simp

/-- **At the top, the pieces of a forest build it**, if it has one element at most. -/
theorem builds_pieces {f : Forest Label} (hf : f.Sound) (options : PrintOptions)
    {hasRoot : Bool} (hcount : f.elementCount + hasRoot.toNat ≤ 1) (hasDoctype : Bool) :
    Builds ((f.pieces options 1).map Piece.event) ⟨[], hasRoot, hasDoctype⟩
      ⟨[], hasRoot || decide (0 < f.elementCount), hasDoctype⟩ f.normal := by
  induction f generalizing hasRoot with
  | nil =>
    have hnone : decide (0 < (Forest.nil : Forest Label).elementCount) = false := rfl
    rw [hnone, Bool.or_false]
    exact builds_nil _
  | cons label below rest _ ihr =>
    obtain ⟨hvalid, hkind, hleaf, hb, hr⟩ := hf
    rw [elementCount_cons] at hcount ⊢
    obtain ⟨inner, hinner, hbelow⟩ := fills_pieces hb options (1 + 1)
    have hadmits : label.kind = .element → (Progress.mk [] hasRoot hasDoctype).Admits := by
      intro helement _
      rw [if_pos helement] at hcount
      cases hasRoot with
      | false => rfl
      | true => exact absurd hcount (by simp)
    have hcore := builds_core hvalid hkind hleaf hinner hbelow hadmits
    have hafter : (Progress.mk [] hasRoot hasDoctype).after label =
        ⟨[], hasRoot || decide (label.kind = .element), hasDoctype⟩ := by
      rw [Progress.after]
      split
      · next helement => simp [Progress.afterElement, helement]
      · next hother => simp [hother]
    rw [hafter] at hcore
    -- a root element in this line leaves none for the lines behind
    have hless : rest.elementCount + (hasRoot || decide (label.kind = .element)).toNat ≤ 1 := by
      by_cases helement : label.kind = .element <;> cases hasRoot <;> simp_all
    have hpad := builds_blank (allBlank_padding options 0 1) hasRoot hasDoctype
    have hend := builds_blank (allBlank_lineEnd options)
      (hasRoot || decide (label.kind = .element)) hasDoctype
    have hall := hpad.append (hcore.append (hend.append (ihr hr hless) rfl rfl) rfl rfl) rfl rfl
    have hflag : (hasRoot || decide (0 < rest.elementCount +
          if label.kind = .element then 1 else 0)) =
        (hasRoot || decide (label.kind = .element) || decide (0 < rest.elementCount)) := by
      by_cases helement : label.kind = .element <;> simp [helement]
    rw [hflag]
    simpa [Forest.pieces, line, Piece.event, Forest.normal, Forest.append] using hall

end Groundwork
