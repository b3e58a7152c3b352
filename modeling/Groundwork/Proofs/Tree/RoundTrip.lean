import Groundwork.Proofs.Tree.NormalForm

/-!
# `Proofs.Tree.RoundTrip` — writing a tree and reading it again

A parsed tree comes back as it is, whatever the layout. A tree that has been edited comes back in
normal form if the document has one root element at most. The checked changes do not keep anybody
from adding a second root element; the text is then refused where the tag of the second one starts,
which is where the printer has come to when it has printed the nodes in front of it.

## Contents

* `Tree.elementCount`, `Tree.printFront` — the root elements, and what is printed in front of a
  node at the top.
* `Linked.parse_print`, `Linked.parse_print_error` — trees that can be written, in terms of their
  entries.
* `parse_print_of_parse` — **a parsed tree comes back as it is.**
* `parse_print_of_reached` — **an edited tree comes back in normal form, or its second root element
  is refused.**
-/

namespace Groundwork

open Text Xml

namespace Tree

/-! ## The nodes at the top -/

/-- The number of elements among some nodes. -/
def elementCount (tree : Tree) (ids : List NodeId) : Nat :=
  ids.countP fun id => (tree.get? id).any (·.isElement)

/-- What is printed up to the end of some nodes at the top. -/
def printFront (tree : Tree) (options : PrintOptions) (front : List NodeId) : String :=
  front.foldl (fun out id => tree.printNode options id out) (printDeclaration options)

/-- Of elements that are counted, each can be found with those in front of it. -/
theorem exists_of_lt_countP {α : Type} {p : α → Bool} {n : Nat} {xs : List α}
    (h : n < xs.countP p) :
    ∃ front x back, xs = front ++ x :: back ∧ front.countP p = n ∧ p x = true := by
  induction xs generalizing n with
  | nil => cases h
  | cons x xs ih =>
    by_cases hx : p x = true
    · rw [List.countP_cons_of_pos hx] at h
      cases n with
      | zero => exact ⟨[], x, xs, rfl, rfl, hx⟩
      | succ n =>
        obtain ⟨front, y, back, rfl, hfront, hy⟩ := ih (Nat.lt_of_succ_lt_succ h)
        exact ⟨x :: front, y, back, rfl, by rw [List.countP_cons_of_pos hx, hfront], hy⟩
    · rw [List.countP_cons_of_neg hx] at h
      obtain ⟨front, y, back, rfl, hfront, hy⟩ := ih h
      exact ⟨x :: front, y, back, rfl, by rw [List.countP_cons_of_neg hx, hfront], hy⟩

namespace Linked

variable {tree : Tree} {entries : List Entry} {f : Forest NodeId} {parent : NodeId} {depth : Nat}

theorem elementCount_roots (h : tree.Linked entries) (hlies : f.LiesBelow entries parent depth) :
    tree.elementCount f.roots = (f.map (labelAt entries)).elementCount := by
  induction f with
  | nil => rfl
  | cons id below rest _ ihr =>
    obtain ⟨⟨label, he, -⟩, -, -, hlr⟩ := hlies
    have hrest := ihr hlr
    have hlabel : labelAt entries id = label := by rw [labelAt, he]
    rw [elementCount, Forest.elementCount] at hrest ⊢
    rw [Forest.map, Forest.roots, Forest.roots, List.countP_cons, List.countP_cons, hrest, hlabel,
      h.get?_eq_some he]
    rfl

/-- The nodes at the top are printed one behind the other. -/
theorem printFront_roots (h : tree.Linked entries) (options : PrintOptions)
    (hf : f.Follows fun id => childIds entries (some id)) (hlies : f.LiesBelow entries parent 1)
    (hsize : f.size < tree.size) :
    tree.printFront options f.roots = printForest options (f.map (labelAt entries)) := by
  suffices hfold : ∀ out, f.roots.foldl (fun out id => tree.printNode options id out) out =
      out ++ printPieces ((f.map (labelAt entries)).pieces options 1) from
    hfold (printDeclaration options)
  induction f with
  | nil => simp [Forest.roots, Forest.map, Forest.pieces, printPieces, Piece.spellAll]
  | cons id below rest _ ihr =>
    intro out
    have hsplit : Forest.cons id below rest = (Forest.cons id below .nil).append rest := rfl
    rw [hsplit, Forest.follows_append_iff] at hf
    rw [hsplit, Forest.liesBelow_append_iff] at hlies
    rw [Forest.size] at hsize
    rw [Forest.roots, List.foldl_cons, printNode_top h options hf.1 hlies.1 (by omega),
      ihr hf.2 hlies.2 (by omega), hsplit, Forest.map_append, pieces_append, printPieces_append,
      String.append_assoc]

/-! ## Trees that can be written -/

/-- **With one root element at most, a tree comes back in normal form.** -/
theorem parse_print (h : tree.Linked entries) (hentries : Rooted entries)
    (hvalid : ∀ e ∈ entries, e.label.Valid) (options : PrintOptions)
    (hcount : tree.elementCount (tree.children root) ≤ 1) :
    parse (tree.print options) = .ok tree.normalForm := by
  obtain ⟨f, hf⟩ := exists_spans hentries.ordered
  have hlies := hf.liesBelow hentries
  have hheight := hlies.height_le (Nat.zero_le maxDepth)
  rw [Nat.zero_add, ← Forest.height_map (labelAt entries)] at hheight
  rw [h.children_eq, ← hf.roots, h.elementCount_roots hlies] at hcount
  rw [print_eq h hentries hf, h.normalForm_eq hentries hvalid hf]
  exact parse_printed options (hlies.sound hvalid) hheight hcount

/-- An element at the top is printed from its tag on. -/
theorem exists_printPieces_element (options : PrintOptions) {node : Node} {label : Label}
    (hlabel : node.label = label) (hkind : label.kind = .element) (below rest : Forest Label) :
    ∃ behind, printPieces ((Forest.cons label below rest).pieces options 1) =
      printTagStart node ++ behind := by
  subst hlabel
  obtain ⟨tag, behind, hpieces, htag⟩ := exists_tag options hkind below rest
  have htagStart : (printTagStart node).toList =
      '<' :: node.label.name.toList ++ Attribute.spellAll node.label.attributes :=
    toList_printTagStart node
  obtain ⟨ending, hending⟩ : ∃ ending, tag.spelling = (printTagStart node).toList ++ ending := by
    rw [htagStart]
    rcases htag with rfl | rfl
    · exact ⟨emptyTagEnd, rfl⟩
    · exact ⟨['>'], rfl⟩
  refine ⟨String.ofList (ending ++ Piece.spellAll behind), ?_⟩
  have hblank : (Piece.text "").spelling = [] := rfl
  rw [hpieces, printPieces, Piece.spellAll_cons, Piece.spellAll_cons, hblank, hending,
    List.nil_append, List.append_assoc, String.ofList_append, String.ofList_toList]

/-- Where the second of several root elements stands in the forest. -/
theorem exists_second (h : tree.Linked entries) (hentries : Rooted entries)
    (hcount : 2 ≤ tree.elementCount (tree.children root)) :
    ∃ (front below back : Forest NodeId) (id : NodeId) (e : Entry),
      (front.append (.cons id below back)).Spans entries ∧ tree.elementCount front.roots = 1 ∧
        entries[id]? = some e ∧ e.label.kind = .element := by
  obtain ⟨s, hs⟩ := exists_spans hentries.ordered
  obtain ⟨ids, id, more, hids, hone, hid⟩ := exists_of_lt_countP hcount
  rw [h.children_eq, ← hs.roots] at hids
  obtain ⟨front, g, rfl, rfl, hg⟩ := Forest.exists_append_of_roots hids
  cases hnode : tree.get? id with
  | none => simp [hnode] at hid
  | some node =>
    obtain ⟨e, he, rfl⟩ := h.exists_of_get? hnode
    have hkind : e.label.kind = .element := by
      simpa [hnode, Node.isElement, Entry.linked] using hid
    cases g with
    | nil => cases hg
    | cons other below back =>
      obtain rfl : other = id := (List.cons.inj hg).1
      exact ⟨front, below, back, other, e, hs, hone, he, hkind⟩

/-- **Of several root elements the second is refused, where its tag starts.** -/
theorem parse_print_error (h : tree.Linked entries) (hentries : Rooted entries)
    (hvalid : ∀ e ∈ entries, e.label.Valid) (options : PrintOptions)
    (hcount : 2 ≤ tree.elementCount (tree.children root)) :
    ∃ (front back : List NodeId) (second : NodeId) (node : Node) (behind : String),
      tree.children root = front ++ second :: back ∧ tree.elementCount front = 1 ∧
      tree.get? second = some node ∧ node.kind = .element ∧
      tree.print options = tree.printFront options front ++ (printTagStart node ++ behind) ∧
      parse (tree.print options) =
        .error ⟨.multipleRoots, (tree.printFront options front).utf8ByteSize⟩ := by
  obtain ⟨front, below, back, id, e, hspans, hone, he, hkind⟩ := h.exists_second hentries hcount
  have hlies := hspans.liesBelow hentries
  have hsound := hlies.sound hvalid
  have hheight := hlies.height_le (Nat.zero_le maxDepth)
  rw [Nat.zero_add, ← Forest.height_map (labelAt entries)] at hheight
  have hlabel : labelAt entries id = e.label := by rw [labelAt, he]
  rw [Forest.map_append, Forest.map, hlabel] at hsound hheight
  -- what is printed in front of the second root element
  have hliesFront := (Forest.liesBelow_append_iff.1 hlies).1
  have hfollowsFront := (Forest.follows_append_iff.1 hspans.follows).1
  have hsize : front.size < tree.size := by
    have hlength := hspans.length_eq hentries
    rw [Forest.size_append, h.length_eq] at hlength
    omega
  have hfront := h.printFront_roots options hfollowsFront hliesFront hsize
  rw [h.elementCount_roots hliesFront] at hone
  -- the second root element and what is behind it
  have hsame : (e.linked entries id).label = e.label := rfl
  obtain ⟨behind, hbehind⟩ := exists_printPieces_element options hsame hkind
    (below.map (labelAt entries)) (back.map (labelAt entries))
  have hprint : tree.print options = printForest options ((front.map (labelAt entries)).append
      (.cons e.label (below.map (labelAt entries)) (back.map (labelAt entries)))) := by
    rw [print_eq h hentries hspans, Forest.map_append, Forest.map, hlabel, printForest]
  refine ⟨front.roots, back.roots, id, _, behind, ?_, ?_, h.get?_eq_some he, hkind, ?_, ?_⟩
  · rw [h.children_eq, ← hspans.roots, Forest.roots_append, Forest.roots]
  · rw [h.elementCount_roots hliesFront, hone]
  · rw [hprint, hfront, printForest, pieces_append, printPieces_append, printForest,
      String.append_assoc, ← hbehind]
  · rw [hprint, hfront]
    exact parse_printed_error options hsound hheight hone hkind

end Linked

/-! ## Parsed trees -/

/-- **A parsed tree comes back as it is**, whatever the layout. -/
theorem parse_print_of_parse {text : String} {tree : Tree} (h : parse text = .ok tree)
    (options : PrintOptions) : parse (tree.print options) = .ok tree := by
  obtain ⟨f, rfl, hsound, hnormal, hcount, hheight⟩ := exists_forest_of_parse h
  have hentries := Forest.rooted_documentEntries hsound hheight
  have hprint : f.tree.print options = printForest options f := by
    rw [print_eq f.linked_tree hentries f.spans_numbered, Forest.map_labelAt_numbered, printForest]
  rw [hprint, parse_printed options hsound hheight hcount, hnormal]

/-- A document with much that is not kept, and each kind of node. -/
theorem parse_print_of_parse_mixed :
    ∃ tree, parse "<!DOCTYPE a><a b='&lt;'> x<![CDATA[<]]>\n<!--y--><?p q ?></a>" = .ok tree ∧
      parse (tree.print .standard) = .ok tree := by
  have hparse : parse "<!DOCTYPE a><a b='&lt;'> x<![CDATA[<]]>\n<!--y--><?p q ?></a>" =
      .ok (Forest.tree (.cons ⟨.element, "a", "x<", [⟨"b", "<"⟩]⟩
        (.cons ⟨.comment, "", "y", []⟩ .nil (.cons ⟨.instruction, "p", "q ", []⟩ .nil .nil))
        .nil)) := by
    decide +kernel
  exact ⟨_, hparse, parse_print_of_parse hparse .standard⟩

/-! ## Edited trees -/

/-- **An edited tree comes back in normal form**, in which it has the same nodes in document order,
if it has one root element at most. **The second of several root elements is refused**, where its
tag starts. -/
theorem parse_print_of_reached {tree : Tree} (h : Reached OnElements tree)
    (options : PrintOptions) :
    tree.documentOrder.Perm (List.range tree.size) ∧
    (tree.elementCount (tree.children root) ≤ 1 →
      parse (tree.print options) = .ok tree.normalForm) ∧
    (2 ≤ tree.elementCount (tree.children root) →
      ∃ (front back : List NodeId) (second : NodeId) (node : Node) (behind : String)
        (e : ParseError),
        tree.children root = front ++ second :: back ∧ tree.elementCount front = 1 ∧
        tree.get? second = some node ∧ node.kind = .element ∧
        tree.print options = tree.printFront options front ++ (printTagStart node ++ behind) ∧
        parse (tree.print options) = .error e ∧
        e.fault.message = "Document has multiple root elements" ∧
        e.position = (tree.printFront options front).utf8ByteSize) := by
  obtain ⟨entries, hlinked, hentries, hvalid⟩ := h.exists_valid
  refine ⟨hlinked.documentOrder_perm hentries, ?_, ?_⟩
  · exact hlinked.parse_print hentries hvalid options
  · intro hcount
    obtain ⟨front, back, second, node, behind, hchildren, hfront, hnode, hkind, hprint, hparse⟩ :=
      hlinked.parse_print_error hentries hvalid options hcount
    exact ⟨front, back, second, node, behind, _, hchildren, hfront, hnode, hkind, hprint, hparse,
      rfl, rfl⟩

/-- A value with blanks at its ends and a child that is made after a comment behind its parent;
and one root element too many. -/
theorem parse_print_of_reached_edits :
    let tree := [Edit.appendElement root "a", .appendComment root "c", .appendElement 1 "b",
      .setValue 1 " ]]>&\n"].foldl Edit.apply empty
    let other := Edit.apply tree (.appendElement root "d")
    (Reached OnElements tree ∧ tree.elementCount (tree.children root) ≤ 1 ∧
      parse (tree.print .standard) = .ok tree.normalForm ∧ tree.normalForm ≠ tree) ∧
    (Reached OnElements other ∧ 2 ≤ other.elementCount (other.children root) ∧
      ∃ e, parse (other.print .compact) = .error e ∧
        e.fault.message = "Document has multiple root elements") := by
  intro tree other
  have hfirst : Reached OnElements (Edit.apply empty (.appendElement root "a")) :=
    .edited .empty trivial
  have hsecond : Reached OnElements (Edit.apply _ (.appendComment root "c")) :=
    .edited hfirst trivial
  have hthird : Reached OnElements (Edit.apply _ (.appendElement 1 "b")) :=
    .edited hsecond trivial
  have hfourth : Reached OnElements (Edit.apply _ (.setValue 1 " ]]>&\n")) :=
    .edited hthird ⟨_, rfl, by decide⟩
  have htree : Reached OnElements tree := hfourth
  have hother : Reached OnElements other := .edited htree trivial
  have hone : tree.elementCount (tree.children root) ≤ 1 := by decide +kernel
  have htwo : 2 ≤ other.elementCount (other.children root) := by decide +kernel
  have hparse := (parse_print_of_reached htree .standard).2.1 hone
  obtain ⟨_, _, _, _, _, e, -, -, -, -, -, herror, hmessage, -⟩ :=
    (parse_print_of_reached hother .compact).2.2 htwo
  exact ⟨⟨htree, hone, hparse, by decide +kernel⟩, hother, htwo, e, herror, hmessage⟩

end Tree

end Groundwork
