import Groundwork.Proofs.Text.Blank
import Groundwork.Proofs.Tree.Derivation
import Groundwork.Proofs.Tree.Rooted

/-!
# `Proofs.Tree.Parsed` — what every parsed tree satisfies

Whatever is read off a text can be written in one, and it is in normal form: an element with
children has no blanks at the ends of its value, and the data of an instruction do not start with
white space, since neither would be there after writing and reading.

## Contents

* `Label.normal`, `Forest.normal` — labels as they come back when they are written and read.
* `Content.sound`, `Document.sound` — the forest of a document whose events have been read.
* `exists_forest_of_parse` — **a parsed tree is a sound forest in normal form.**
-/

namespace Groundwork

open Text Xml Groundwork.Tree

/-! ## Normal forms -/

/-- A label as it comes back when a node is written and read, with or without children. -/
def Label.normal (isLeaf : Bool) (label : Label) : Label :=
  match label.kind with
  | .element => { label with value := if isLeaf then label.value else trim label.value }
  | .instruction =>
    { label with value := String.ofList (label.value.toList.dropWhile isSpace) }
  | .document | .comment => label

@[simp] theorem Label.kind_normal (isLeaf : Bool) (label : Label) :
    (label.normal isLeaf).kind = label.kind := by
  rw [Label.normal]
  split <;> rfl

@[simp] theorem Label.name_normal (isLeaf : Bool) (label : Label) :
    (label.normal isLeaf).name = label.name := by
  rw [Label.normal]
  split <;> rfl

@[simp] theorem Label.attributes_normal (isLeaf : Bool) (label : Label) :
    (label.normal isLeaf).attributes = label.attributes := by
  rw [Label.normal]
  split <;> rfl

/-- The forest with each label as it comes back. -/
def Forest.normal : Forest Label → Forest Label
  | nil => nil
  | cons label below rest => cons (label.normal below.isEmpty) below.normal rest.normal

namespace Forest

theorem normal_append (f g : Forest Label) : (f.append g).normal = f.normal.append g.normal := by
  induction f with
  | nil => rfl
  | cons label below rest _ ihr => rw [append, normal, ihr, normal, append]

@[simp] theorem isEmpty_normal (f : Forest Label) : f.normal.isEmpty = f.isEmpty := by
  cases f <;> rfl

@[simp] theorem size_normal (f : Forest Label) : f.normal.size = f.size := by
  induction f with
  | nil => rfl
  | cons label below rest ihb ihr => rw [normal, size, ihb, ihr, size]

@[simp] theorem numbered_normal (start : Nat) (f : Forest Label) :
    f.normal.numbered start = f.numbered start := by
  induction f generalizing start with
  | nil => rfl
  | cons label below rest ihb ihr => rw [normal, numbered, ihb, ihr, size_normal, numbered]

@[simp] theorem height_normal (f : Forest Label) : f.normal.height = f.height := by
  induction f with
  | nil => rfl
  | cons label below rest ihb ihr => rw [normal, height, ihb, ihr, height]

end Forest

/-! ## Documents of events that have been read -/

namespace Grammar

theorem valid_instruction {target : String} {data : Option String}
    (h : (Event.instruction target data).Sound) :
    (Label.mk .instruction target (data.getD "") []).Valid := by
  refine ⟨rfl, h.1, h.2.1, ?_⟩
  cases data with
  | none => simp [instructionEnd]
  | some body => exact (h.2.2 body rfl).1

theorem normal_instruction {target : String} {data : Option String}
    (h : (Event.instruction target data).Sound) :
    (Label.mk .instruction target (data.getD "") []).normal true =
      Label.mk .instruction target (data.getD "") [] := by
  cases data with
  | none => rfl
  | some body =>
    obtain ⟨-, c, cs, hbody, hc⟩ := h.2.2 body rfl
    have hdrop : body.toList.dropWhile isSpace = body.toList := by
      rw [hbody, List.dropWhile_cons_of_neg (by simp [hc])]
    simp only [Label.normal, Option.getD_some, hdrop, String.ofList_toList]

theorem normal_elementValue (name : String) (attributes : List Attribute) (f : Forest Label)
    (text : String) :
    (Label.mk .element name (elementValue f text) attributes).normal f.isEmpty =
      Label.mk .element name (elementValue f text) attributes := by
  cases hempty : f.isEmpty with
  | true => rfl
  | false => simp [Label.normal, elementValue, hempty, trim_trim]

mutual

theorem Element.sound (element : Element) (h : ∀ event ∈ element.events, event.Sound) :
    element.forest.Sound ∧ element.forest.normal = element.forest :=
  match element with
  | .empty name attributes => by
    rw [Element.events, List.forall_mem_singleton] at h
    rw [Element.forest]
    exact ⟨⟨h, by simp, .inl rfl, trivial, trivial⟩, rfl⟩
  | .tagged name attributes content => by
    rw [Element.events, List.forall_mem_cons, List.forall_mem_append] at h
    obtain ⟨hsound, hnormal⟩ := content.sound h.2.1
    rw [Element.forest]
    refine ⟨⟨h.1, by simp, .inl rfl, hsound, trivial⟩, ?_⟩
    rw [Forest.normal, normal_elementValue, hnormal, Forest.normal]

theorem Content.sound (content : Content) (h : ∀ event ∈ content.events, event.Sound) :
    content.forest.Sound ∧ content.forest.normal = content.forest :=
  match content with
  | .nil => ⟨trivial, rfl⟩
  | .text content rest => by
    rw [Content.events, List.forall_mem_cons] at h
    exact rest.sound h.2
  | .cdata content rest => by
    rw [Content.events, List.forall_mem_cons] at h
    exact rest.sound h.2
  | .comment content rest => by
    rw [Content.events, List.forall_mem_cons] at h
    obtain ⟨hsound, hnormal⟩ := rest.sound h.2
    rw [Content.forest]
    refine ⟨⟨⟨rfl, rfl, h.1⟩, by simp, .inr rfl, trivial, hsound⟩, ?_⟩
    rw [Forest.normal, hnormal]
    rfl
  | .instruction target data rest => by
    rw [Content.events, List.forall_mem_cons] at h
    obtain ⟨hsound, hnormal⟩ := rest.sound h.2
    rw [Content.forest]
    refine ⟨⟨valid_instruction h.1, by simp, .inr rfl, trivial, hsound⟩, ?_⟩
    rw [Forest.normal, hnormal]
    exact congrArg (Forest.cons · .nil rest.forest) (normal_instruction h.1)
  | .element element rest => by
    rw [Content.events, List.forall_mem_append] at h
    obtain ⟨hsound, hnormal⟩ := element.sound h.1
    obtain ⟨hsound', hnormal'⟩ := rest.sound h.2
    rw [Content.forest, Forest.normal_append, hnormal, hnormal']
    exact ⟨hsound.append hsound', rfl⟩

end

theorem sound_misc (misc : Misc) (h : misc.event.Sound) :
    misc.forest.Sound ∧ misc.forest.normal = misc.forest := by
  cases misc with
  | comment content => exact ⟨⟨⟨rfl, rfl, h⟩, by simp, .inr rfl, trivial, trivial⟩, rfl⟩
  | instruction target data =>
    refine ⟨⟨valid_instruction h, by simp, .inr rfl, trivial, trivial⟩, ?_⟩
    exact congrArg (Forest.cons · .nil .nil) (normal_instruction h)
  | declaration => exact ⟨trivial, rfl⟩
  | blank content hblank => exact ⟨trivial, rfl⟩

theorem sound_miscs {miscs : List Misc} (h : ∀ event ∈ miscs.map Misc.event, event.Sound) :
    (miscForest miscs).Sound ∧ (miscForest miscs).normal = miscForest miscs := by
  induction miscs with
  | nil => exact ⟨trivial, rfl⟩
  | cons misc miscs ih =>
    rw [List.map_cons, List.forall_mem_cons] at h
    obtain ⟨hsound, hnormal⟩ := sound_misc misc h.1
    obtain ⟨hsound', hnormal'⟩ := ih h.2
    rw [miscForest, Forest.normal_append, hnormal, hnormal']
    exact ⟨hsound.append hsound', rfl⟩

namespace Document

theorem sound_doctype {doctype : Option (String × List Misc)}
    (h : ∀ event ∈ doctypeEvents doctype, event.Sound) :
    (doctypeForest doctype).Sound ∧ (doctypeForest doctype).normal = doctypeForest doctype := by
  cases doctype with
  | none => exact ⟨trivial, rfl⟩
  | some found =>
    rw [doctypeEvents, List.forall_mem_cons] at h
    exact sound_miscs h.2

theorem sound_root {root : Option (Element × List Misc)}
    (h : ∀ event ∈ rootEvents root, event.Sound) :
    (rootForest root).Sound ∧ (rootForest root).normal = rootForest root := by
  cases root with
  | none => exact ⟨trivial, rfl⟩
  | some found =>
    rw [rootEvents, List.forall_mem_append] at h
    obtain ⟨hsound, hnormal⟩ := found.1.sound h.1
    obtain ⟨hsound', hnormal'⟩ := sound_miscs h.2
    rw [rootForest, Forest.normal_append, hnormal, hnormal']
    exact ⟨hsound.append hsound', rfl⟩

theorem sound {d : Document} (h : ∀ event ∈ d.events, event.Sound) :
    d.forest.Sound ∧ d.forest.normal = d.forest := by
  rw [events, List.forall_mem_append, List.forall_mem_append] at h
  obtain ⟨hprolog, hprolog'⟩ := sound_miscs h.1
  obtain ⟨hdoctype, hdoctype'⟩ := sound_doctype h.2.1
  obtain ⟨hroot, hroot'⟩ := sound_root h.2.2
  rw [forest, Forest.normal_append, Forest.normal_append, hprolog', hdoctype', hroot']
  exact ⟨hprolog.append (hdoctype.append hroot), rfl⟩

end Document

end Grammar

/-! ## One root element -/

/-- The number of elements at the top. -/
def Forest.elementCount (f : Forest Label) : Nat :=
  f.roots.countP fun label => label.kind = .element

namespace Grammar

theorem elementCount_append (f g : Forest Label) :
    (f.append g).elementCount = f.elementCount + g.elementCount := by
  rw [Forest.elementCount, Forest.roots_append, List.countP_append]
  rfl

theorem elementCount_miscForest (miscs : List Misc) : (miscForest miscs).elementCount = 0 := by
  induction miscs with
  | nil => rfl
  | cons misc miscs ih =>
    have hmisc : misc.forest.elementCount = 0 := by cases misc <;> rfl
    rw [miscForest, elementCount_append, hmisc, ih]

theorem Document.elementCount_le (d : Document) : d.forest.elementCount ≤ 1 := by
  have hdoctype : (doctypeForest d.doctype).elementCount = 0 := by
    cases d.doctype with
    | none => rfl
    | some found => exact elementCount_miscForest found.2
  have hroot : (rootForest d.root).elementCount ≤ 1 := by
    cases d.root with
    | none => exact Nat.zero_le _
    | some found =>
      have helement : found.1.forest.elementCount = 1 := by
        cases found.1 <;> rw [Element.forest] <;> rfl
      rw [rootForest, elementCount_append, elementCount_miscForest, helement]
  rw [forest, elementCount_append, elementCount_append, elementCount_miscForest, hdoctype]
  omega

end Grammar

namespace Tree

/-- **A parsed tree is a sound forest in normal form**, with one root element at most. -/
theorem exists_forest_of_parse {text : String} {tree : Tree} (h : parse text = .ok tree) :
    ∃ f : Forest Label, tree = f.tree ∧ f.Sound ∧ f.normal = f ∧ f.elementCount ≤ 1 ∧
      f.height ≤ maxDepth := by
  obtain ⟨d, hevents, hheight, rfl⟩ := exists_document_of_parse h
  have hsound : ∀ event ∈ d.events, event.Sound := by
    rw [← hevents]
    intro event hevent
    obtain ⟨placed, hplaced, rfl⟩ := List.mem_map.1 hevent
    exact Event.sound_of_mem_readAll hplaced
  obtain ⟨hforest, hnormal⟩ := Grammar.Document.sound hsound
  exact ⟨d.forest, rfl, hforest, hnormal, d.elementCount_le, hheight⟩

/-- The entries of a parsed tree lie as they should and can be written. -/
theorem exists_entries_of_parse {text : String} {tree : Tree} (h : parse text = .ok tree) :
    ∃ entries : List Entry, tree.Linked entries ∧ Rooted entries ∧
      ∀ e ∈ entries, e.label.Valid := by
  obtain ⟨f, rfl, hsound, -, -, hheight⟩ := exists_forest_of_parse h
  exact ⟨f.documentEntries, f.linked_tree, Forest.rooted_documentEntries hsound hheight,
    Forest.valid_documentEntries hsound⟩

end Tree

end Groundwork
