import Groundwork.Proofs.Tree.Forest
import Groundwork.Tree.Build

/-!
# `Proofs.Tree.Growth` — what events add to a tree under construction

While a tree is built, its nodes so far are those of the events so far, each under the element that
was open when its event came; so a list of events that opens and closes the same elements adds a
forest below the innermost open one. These additions are put together here without a view of the
nodes around them. The value of an element is known only when it ends, after everything in it.

## Contents

* `Builder.steps`, `run_of_steps`, `steps_of_run` — events without their places.
* `Progress`, `Builds`, `Builds.append` — **what events add**, and that additions follow each other.
* `Fills` — events inside an element: a forest and some text.
* `Fills.element` — **an element is its start, what fills it, and its end.**
* `Tree.parse_of_builds` — a text whose events build a forest is parsed as that forest.
-/

namespace Groundwork

open Text Xml Groundwork.Tree

/-! ## Events without their places -/

namespace Builder

/-- What a list of events does, up to the first that is refused. -/
def steps (builder : Builder) : List Event → Except Fault Builder
  | [] => .ok builder
  | event :: events =>
    match builder.step event with
    | .ok builder => steps builder events
    | .error fault => .error fault

variable {builder next last : Builder}

theorem steps_cons_of_ok {event : Event} (h : builder.step event = .ok next)
    (events : List Event) : builder.steps (event :: events) = next.steps events := by
  rw [steps, h]

/-- A first event that is not refused, and what follows it. -/
theorem exists_of_steps_cons {event : Event} {events : List Event}
    (h : builder.steps (event :: events) = .ok last) :
    ∃ next, builder.step event = .ok next ∧ next.steps events = .ok last := by
  rw [steps] at h
  split at h
  · next next hstep => exact ⟨next, hstep, h⟩
  · cases h

theorem steps_append {front : List Event} (h : builder.steps front = .ok next)
    (back : List Event) : builder.steps (front ++ back) = next.steps back := by
  induction front generalizing builder with
  | nil =>
    obtain rfl : builder = next := Except.ok.inj h
    rfl
  | cons event front ih =>
    obtain ⟨between, hstep, hfront⟩ := exists_of_steps_cons h
    rw [List.cons_append, steps_cons_of_ok hstep, ih hfront]

theorem run_append_of_steps {front : List (Placed Event)}
    (h : builder.steps (front.map (·.item)) = .ok next) (back : List (Placed Event)) :
    builder.run (front ++ back) = next.run back := by
  induction front generalizing builder with
  | nil =>
    obtain rfl : builder = next := Except.ok.inj h
    rfl
  | cons event front ih =>
    obtain ⟨between, hstep, hfront⟩ := exists_of_steps_cons h
    rw [List.cons_append, run, hstep]
    exact ih hfront

theorem run_of_steps {events : List (Placed Event)}
    (h : builder.steps (events.map (·.item)) = .ok last) : builder.run events = .ok last := by
  rw [← List.append_nil events, run_append_of_steps h, run]

theorem steps_of_run {events : List (Placed Event)} (h : builder.run events = .ok last) :
    builder.steps (events.map (·.item)) = .ok last := by
  induction events generalizing builder with
  | nil =>
    rw [run] at h
    obtain rfl : builder = last := Except.ok.inj h
    rfl
  | cons event events ih =>
    rw [run] at h
    split at h
    · next next hstep =>
      rw [List.map_cons, steps_cons_of_ok hstep]
      exact ih h
    · cases h

end Builder

/-! ## Additions to a tree -/

/-- How far the construction of a tree has come, apart from the tree. -/
structure Progress where
  opened : List OpenElement
  hasRoot : Bool
  hasDoctype : Bool
  deriving DecidableEq, Repr

namespace Progress

/-- The construction of this tree. -/
def on (progress : Progress) (tree : Tree) : Builder :=
  ⟨tree, progress.opened, progress.hasRoot, progress.hasDoctype⟩

/-- The node that new nodes come into. -/
def innermost (progress : Progress) : NodeId := OpenElement.innermost progress.opened

/-- The number of open elements. -/
def nesting (progress : Progress) : Nat := OpenElement.nesting progress.opened

/-- The entry of a new node with this label. -/
def entry (progress : Progress) (label : Label) : Tree.Entry :=
  ⟨some progress.innermost, progress.nesting + 1, label⟩

end Progress

/-- The events lead from one progress to another and put the forest into the innermost open element,
wherever there is room for it. -/
def Builds (events : List Event) (before after : Progress) (f : Forest Label) : Prop :=
  ∀ (tree : Tree) (entries : List Tree.Entry), tree.Linked entries →
    before.innermost < entries.length → before.nesting + f.height ≤ maxDepth →
      ∃ tree', (before.on tree).steps events = .ok (after.on tree') ∧
        tree'.Linked
          (entries ++ f.entries before.innermost (before.nesting + 1) entries.length)

/-- The events stand inside an element: they put a forest and some text into it. -/
def Fills (events : List Event) (f : Forest Label) (text : String) : Prop :=
  ∀ (element : OpenElement) (opened : List OpenElement) (hasRoot hasDoctype : Bool),
    Builds events ⟨element :: opened, hasRoot, hasDoctype⟩
      ⟨{ element with text := element.text ++ text } :: opened, hasRoot, hasDoctype⟩ f

/-- Additions to the same element follow each other. -/
theorem Builds.append {front back : List Event} {before between after : Progress}
    {f g : Forest Label} (hfront : Builds front before between f)
    (hback : Builds back between after g) (hid : between.innermost = before.innermost)
    (hlevel : between.nesting = before.nesting) :
    Builds (front ++ back) before after (f.append g) := by
  intro tree entries hlinked hlt hheight
  rw [Forest.height_append] at hheight
  obtain ⟨tree₁, hsteps₁, hlinked₁⟩ := hfront tree entries hlinked hlt (by omega)
  have hlt₁ : between.innermost < (entries ++
      f.entries before.innermost (before.nesting + 1) entries.length).length := by
    rw [hid, List.length_append]
    exact Nat.lt_of_lt_of_le hlt (Nat.le_add_right _ _)
  obtain ⟨tree₂, hsteps₂, hlinked₂⟩ := hback tree₁ _ hlinked₁ hlt₁ (by omega)
  refine ⟨tree₂, ?_, ?_⟩
  · rw [Builder.steps_append hsteps₁, hsteps₂]
  · rw [hid, hlevel, List.length_append, Forest.length_entries, List.append_assoc,
      ← Forest.entries_append] at hlinked₂
    exact hlinked₂

theorem builds_nil (progress : Progress) : Builds [] progress progress .nil := by
  intro tree entries hlinked _ _
  refine ⟨tree, rfl, ?_⟩
  rwa [Forest.entries, List.append_nil]

/-- An event that changes the progress only. -/
theorem builds_of_step {event : Event} {before after : Progress}
    (h : ∀ tree, (before.on tree).step event = .ok (after.on tree)) :
    Builds [event] before after .nil := by
  intro tree entries hlinked _ _
  refine ⟨tree, ?_, ?_⟩
  · rw [Builder.steps_cons_of_ok (h tree), Builder.steps]
  · rwa [Forest.entries, List.append_nil]

/-- White space at the top builds nothing. -/
theorem builds_blank {content : String} (h : allBlank content = true) (hasRoot hasDoctype : Bool) :
    Builds [.text content] ⟨[], hasRoot, hasDoctype⟩ ⟨[], hasRoot, hasDoctype⟩ .nil := by
  apply builds_of_step
  intro tree
  rw [Builder.step, h]
  rfl

/-! ## Nodes without children -/

/-- Adding a node, where there is room for it. -/
theorem addNode_on {progress : Progress} {tree : Tree} {entries : List Tree.Entry}
    (hlinked : tree.Linked entries) (hlt : progress.innermost < entries.length)
    (hdepth : progress.nesting + 1 ≤ maxDepth) (label : Label) :
    ∃ tree', ((progress.on tree).addNode fun parent depth =>
        Tree.Entry.unlinked ⟨parent, depth, label⟩) = .ok (progress.on tree') ∧
      tree'.Linked (entries ++ [progress.entry label]) := by
  refine ⟨_, if_pos hdepth, ?_⟩
  exact hlinked.appendChild rfl hlt

theorem builds_of_addNode {event : Event} {progress : Progress} {label : Label}
    (h : ∀ tree, (progress.on tree).step event =
      (progress.on tree).addNode fun parent depth => Tree.Entry.unlinked ⟨parent, depth, label⟩) :
    Builds [event] progress progress (.cons label .nil .nil) := by
  intro tree entries hlinked hlt hheight
  obtain ⟨tree', hadd, hlinked'⟩ := addNode_on hlinked hlt (by simpa [Forest.height] using hheight)
    label
  refine ⟨tree', ?_, hlinked'⟩
  rw [Builder.steps_cons_of_ok ((h tree).trans hadd), Builder.steps]

theorem builds_comment (progress : Progress) (content : String) :
    Builds [.comment content] progress progress (.cons ⟨.comment, "", content, []⟩ .nil .nil) :=
  builds_of_addNode fun _ => rfl

theorem builds_instruction (progress : Progress) (target : String) (data : Option String) :
    Builds [.instruction target data] progress progress
      (.cons ⟨.instruction, target, data.getD "", []⟩ .nil .nil) :=
  builds_of_addNode fun _ => rfl

/-! ## Elements -/

namespace Progress

/-- An element may come next: inside another one any number may, and at the top one. -/
def Admits (progress : Progress) : Prop := progress.opened = [] → progress.hasRoot = false

/-- The progress after an element. -/
def afterElement (progress : Progress) : Progress :=
  { progress with hasRoot := progress.hasRoot || progress.opened.isEmpty }

theorem afterElement_of_ne {progress : Progress} (h : progress.opened ≠ []) :
    progress.afterElement = progress := by
  obtain ⟨opened, hasRoot, hasDoctype⟩ := progress
  cases opened with
  | nil => exact absurd rfl h
  | cons element opened => simp [afterElement]

/-- The progress inside a new element, which is node `id`, behind this text. -/
def inside (progress : Progress) (id : NodeId) (name text : String) : Progress :=
  ⟨⟨id, name, progress.nesting + 1, text⟩ :: progress.opened, progress.afterElement.hasRoot,
    progress.hasDoctype⟩

end Progress

theorem addElement_on {progress : Progress} (hadmits : progress.Admits) {tree : Tree}
    {entries : List Tree.Entry} (hlinked : tree.Linked entries)
    (hlt : progress.innermost < entries.length) (hdepth : progress.nesting + 1 ≤ maxDepth)
    (name : String) (attributes : List Attribute) :
    ∃ tree', (progress.on tree).addElement name attributes = .ok (progress.afterElement.on tree') ∧
      tree'.Linked (entries ++ [progress.entry ⟨.element, name, "", attributes⟩]) := by
  obtain ⟨tree', hadd, hlinked'⟩ := addNode_on hlinked hlt hdepth ⟨.element, name, "", attributes⟩
  refine ⟨tree', ?_, hlinked'⟩
  have hfree : ((progress.on tree).opened.isEmpty && (progress.on tree).hasRoot) = false := by
    rw [Bool.and_eq_false_imp, List.isEmpty_iff]
    exact hadmits
  have hnode : ((progress.on tree).addNode fun parent depth =>
      { Node.element name parent depth with attributes }) = .ok (progress.on tree') := hadd
  simp only [Builder.addElement, hfree, hnode]
  rfl

theorem builds_emptyElement {progress : Progress} (hadmits : progress.Admits) (name : String)
    (attributes : List Attribute) :
    Builds [.emptyElement name attributes] progress progress.afterElement
      (.cons ⟨.element, name, "", attributes⟩ .nil .nil) := by
  intro tree entries hlinked hlt hheight
  obtain ⟨tree', hadd, hlinked'⟩ := addElement_on hadmits hlinked hlt
    (by simpa [Forest.height] using hheight) name attributes
  have hstep : (progress.on tree).step (.emptyElement name attributes) =
      .ok (progress.afterElement.on tree') := hadd
  refine ⟨tree', ?_, hlinked'⟩
  rw [Builder.steps_cons_of_ok hstep, Builder.steps]

/-! ## Inside an element -/

theorem fills_nil : Fills [] .nil "" := by
  intro element opened hasRoot hasDoctype
  rw [String.append_empty]
  exact builds_nil _

theorem Fills.append {front back : List Event} {f g : Forest Label} {text more : String}
    (hfront : Fills front f text) (hback : Fills back g more) :
    Fills (front ++ back) (f.append g) (text ++ more) := by
  intro element opened hasRoot hasDoctype
  rw [← String.append_assoc]
  exact (hfront element opened hasRoot hasDoctype).append
    (hback { element with text := element.text ++ text } opened hasRoot hasDoctype) rfl rfl

theorem fills_text (content : String) : Fills [.text content] .nil content := by
  intro element opened hasRoot hasDoctype
  exact builds_of_step fun _ => rfl

theorem fills_cdata (content : String) : Fills [.cdata content] .nil content := by
  intro element opened hasRoot hasDoctype
  exact builds_of_step fun _ => rfl

/-- What builds a forest anywhere inside an element, in front of what fills one. -/
theorem Fills.behind {events back : List Event} {f g : Forest Label} {text : String}
    (hback : Fills back g text)
    (h : ∀ progress : Progress, progress.opened ≠ [] → Builds events progress progress f) :
    Fills (events ++ back) (f.append g) text := by
  intro element opened hasRoot hasDoctype
  exact (h _ (List.cons_ne_nil _ _)).append (hback element opened hasRoot hasDoctype) rfl rfl

/-- The value of an element with this forest and this text in it. -/
def elementValue (f : Forest Label) (text : String) : String :=
  if f.isEmpty then text else trim text

/-- Whether a new entry has children is known from the forest that was put below it. -/
theorem hasChildren_linked {entries : List Tree.Entry} {new : Tree.Entry} {f : Forest Label}
    {depth : Nat}
    (h : Ordered (entries ++ [new] ++ f.entries entries.length depth (entries.length + 1))) :
    (new.linked (entries ++ [new] ++ f.entries entries.length depth (entries.length + 1))
      entries.length).hasChildren = !f.isEmpty := by
  have hnone : childIds (entries ++ [new]) (some entries.length) = [] :=
    h.of_append.childIds_eq_nil (by simp)
  have hbelow := @Forest.idsBelow_entries_parent entries.length depth (entries.length + 1) f
    (Nat.lt_succ_self _)
  have hids : childIds (entries ++ [new] ++ f.entries entries.length depth (entries.length + 1))
      (some entries.length) = (f.numbered (entries.length + 1)).roots := by
    rw [childIds, List.findIdxs_append, ← childIds, hnone, List.nil_append, ← hbelow]
    simp [Forest.idsBelow]
  rw [Node.hasChildren, Tree.Entry.linked, hids]
  cases f <;> rfl

/-- Closing an element gives it its value. -/
theorem closeElement_on {progress : Progress} {tree : Tree} {entries : List Tree.Entry}
    {name : String} {attributes : List Attribute} {f : Forest Label}
    (hlinked : tree.Linked (entries ++ [progress.entry ⟨.element, name, "", attributes⟩] ++
      f.entries entries.length (progress.nesting + 2) (entries.length + 1))) (text : String) :
    ∃ tree', ((progress.inside entries.length name text).on tree).step (.endElement name) =
        .ok (progress.afterElement.on tree') ∧
      tree'.Linked (entries ++
        (Forest.cons ⟨.element, name, elementValue f text, attributes⟩ f .nil).entries
          progress.innermost (progress.nesting + 1) entries.length) := by
  have hmodify : (entries ++ [progress.entry ⟨.element, name, "", attributes⟩] ++
      f.entries entries.length (progress.nesting + 2) (entries.length + 1)).modify entries.length
        (·.relabel fun label => { label with value := elementValue f text }) =
      entries ++ (Forest.cons ⟨.element, name, elementValue f text, attributes⟩ f .nil).entries
        progress.innermost (progress.nesting + 1) entries.length := by
    rw [List.append_assoc, List.singleton_append, modify_append_cons, Forest.entries,
      Forest.entries, List.append_nil]
    rfl
  refine ⟨_, if_pos rfl, ?_⟩
  rw [← hmodify]
  apply hlinked.modify
  intro e he
  rw [List.append_assoc, List.getElem?_append_right (Nat.le_refl _), Nat.sub_self] at he
  obtain rfl : progress.entry ⟨.element, name, "", attributes⟩ = e := by simpa using he
  rw [hasChildren_linked hlinked.ordered, elementValue]
  cases f.isEmpty <;> rfl

/-- **An element is its start, what fills it, and its end.** -/
theorem Fills.element {events : List Event} {f : Forest Label} {text : String}
    (h : Fills events f text) {progress : Progress} (hadmits : progress.Admits) (name : String)
    (attributes : List Attribute) :
    Builds (.startElement name attributes :: (events ++ [.endElement name])) progress
      progress.afterElement
      (.cons ⟨.element, name, elementValue f text, attributes⟩ f .nil) := by
  intro tree entries hlinked hlt hheight
  have hheight' : progress.nesting + (f.height + 1) ≤ maxDepth := by
    simpa [Forest.height] using hheight
  obtain ⟨tree₁, hadd, hlinked₁⟩ :=
    addElement_on hadmits hlinked hlt (by omega) name attributes
  -- the new element is the last node
  have hlast : tree₁.size - 1 = entries.length := by
    rw [← hlinked₁.length_eq, List.length_append, List.length_singleton, Nat.add_sub_cancel]
  have hopen : (progress.on tree).step (.startElement name attributes) =
      .ok ((progress.inside entries.length name "").on tree₁) := by
    rw [Builder.step, Builder.openElement, hadd, ← hlast]
    rfl
  have hfill : Builds events (progress.inside entries.length name "")
      (progress.inside entries.length name ("" ++ text)) f := h _ _ _ _
  have hinside : progress.nesting + 1 + f.height ≤ maxDepth := by omega
  obtain ⟨tree₂, hsteps, hlinked₂⟩ := hfill tree₁ _ hlinked₁
    (by rw [List.length_append]; exact Nat.lt_succ_self _) hinside
  rw [List.length_append, List.length_singleton] at hlinked₂
  obtain ⟨tree₃, hclose, hlinked₃⟩ := closeElement_on hlinked₂ ("" ++ text)
  rw [String.empty_append] at hlinked₃
  refine ⟨tree₃, ?_, hlinked₃⟩
  rw [Builder.steps_cons_of_ok hopen, Builder.steps_append hsteps, Builder.steps_cons_of_ok hclose,
    Builder.steps]

/-! ## Whole documents -/

/-- The construction of a tree before any event. -/
def Progress.start : Progress := ⟨[], false, false⟩

namespace Tree

/-- A text is parsed when its events can be read and leave no element open. -/
theorem parse_eq_ok_of_run {text : String} {last : Builder}
    (hfailure : (Event.readAll text).failure = none)
    (hrun : Builder.start.run (Event.readAll text).events = .ok last) (hopened : last.opened = []) :
    parse text = .ok last.tree := by
  simp only [parse, hrun, hfailure, hopened, List.getLast?_nil]

/-- **A text whose events build a forest is parsed as that forest.** -/
theorem parse_of_builds {text : String} {f : Forest Label} {after : Progress}
    (hfailure : (Event.readAll text).failure = none)
    (hevents : Builds ((Event.readAll text).events.map (·.item)) .start after f)
    (hopened : after.opened = []) (hheight : f.height ≤ maxDepth) : parse text = .ok f.tree := by
  obtain ⟨tree, hsteps, hlinked⟩ := hevents empty [Entry.document] linked_empty Nat.zero_lt_one
    (by rw [show Progress.start.nesting = 0 from rfl, Nat.zero_add]; exact hheight)
  obtain rfl : tree = f.tree := hlinked.eq f.linked_tree
  exact parse_eq_ok_of_run hfailure (Builder.run_of_steps hsteps) hopened

end Tree

end Groundwork
