import Groundwork.Proofs.Tree.Grammar

/-!
# `Proofs.Tree.Derivation` — what is accepted derives from the grammar

From a run of the stack parser the derivation is read off. Inside an element the events up to its
end tag are its content: the end tag is the one at which the stack is again what it was before the
element. At the top, everything but elements and the document type is passed over; what may come
next is then decided by what has come before.

## Contents

* `Builder.progress`, `progress_of_addNode` and its like — what an accepted event says of the
  progress.
* `Closes` — events that hold the content of an open element and its end tag; `Closes.tagged`, an
  element inside.
* `cases_of_step` — what an event can be inside an element; `exists_content`, **what follows the
  start of an element is its content and its end.**
* `exists_miscs`, `exists_element`, `exists_document` — the top of a document.
* `Tree.parse_eq_ok_iff` — **the stack parser is the grammar.**
-/

namespace Groundwork

open Text Xml Groundwork.Tree

namespace Builder

variable {builder next last : Builder}

/-- How far the construction has come. -/
def progress (builder : Builder) : Progress :=
  ⟨builder.opened, builder.hasRoot, builder.hasDoctype⟩

/-! ## What an accepted event says -/

theorem progress_of_addNode {node : Option NodeId → Nat → Node}
    (h : builder.addNode node = .ok next) :
    builder.progress.nesting + 1 ≤ maxDepth ∧ next.progress = builder.progress := by
  obtain ⟨tree, opened, hasRoot, hasDoctype⟩ := builder
  simp only [addNode] at h
  split at h
  · next hdepth =>
    obtain rfl := Except.ok.inj h
    exact ⟨hdepth, rfl⟩
  · cases h

theorem progress_of_addElement {name : String} {attributes : List Attribute}
    (h : builder.addElement name attributes = .ok next) :
    builder.progress.Admits ∧ builder.progress.nesting + 1 ≤ maxDepth ∧
      next.progress = builder.progress.afterElement := by
  simp only [addElement] at h
  split at h
  · cases h
  · next hfree =>
    split at h
    · next added hadd =>
      obtain ⟨hdepth, hprogress⟩ := progress_of_addNode hadd
      obtain rfl := Except.ok.inj h
      refine ⟨fun htop => ?_, hdepth, ?_⟩
      · have hopened : builder.opened = [] := htop
        simpa [progress, hopened] using hfree
      · simp only [progress, Progress.mk.injEq] at hprogress
        simp [progress, Progress.afterElement, hprogress]
    · cases h

theorem progress_of_openElement {name : String} {attributes : List Attribute}
    (h : builder.openElement name attributes = .ok next) :
    builder.progress.Admits ∧ builder.progress.nesting + 1 ≤ maxDepth ∧
      ∃ id, next.progress = builder.progress.inside id name "" := by
  simp only [openElement] at h
  split at h
  · next tree opened hasRoot hasDoctype hadd =>
    obtain ⟨hadmits, hdepth, hprogress⟩ := progress_of_addElement hadd
    obtain rfl := Except.ok.inj h
    refine ⟨hadmits, hdepth, tree.size - 1, ?_⟩
    simp only [progress, Progress.afterElement, Progress.mk.injEq] at hprogress
    obtain ⟨rfl, rfl, rfl⟩ := hprogress
    rfl
  · cases h

theorem progress_of_closeElement {name : String} (h : builder.closeElement name = .ok next) :
    ∃ element opened, builder.opened = element :: opened ∧ element.name = name ∧
      next.progress = { builder.progress with opened } := by
  obtain ⟨tree, opened, hasRoot, hasDoctype⟩ := builder
  cases opened with
  | nil => cases h
  | cons element opened =>
    simp only [closeElement] at h
    split at h
    · next hname =>
      obtain rfl := Except.ok.inj h
      exact ⟨element, opened, rfl, hname, rfl⟩
    · cases h

/-- Text inside an element. -/
theorem progress_of_addText {element : OpenElement} {opened : List OpenElement}
    {content : String} {fault : Option Fault} (hopened : builder.opened = element :: opened)
    (h : builder.addText content fault = .ok next) :
    next.progress = { builder.progress with
      opened := { element with text := element.text ++ content } :: opened } := by
  obtain ⟨tree, stack, hasRoot, hasDoctype⟩ := builder
  obtain rfl : stack = element :: opened := hopened
  obtain rfl := Except.ok.inj h
  rfl

/-- Text at the top, where only some of it is let pass. -/
theorem progress_of_addText_top {content : String} {fault : Option Fault}
    (hopened : builder.opened = []) (h : builder.addText content fault = .ok next) :
    fault = none ∧ next.progress = builder.progress := by
  obtain ⟨tree, stack, hasRoot, hasDoctype⟩ := builder
  obtain rfl : stack = [] := hopened
  cases fault with
  | some fault => cases h
  | none =>
    obtain rfl := Except.ok.inj h
    exact ⟨rfl, rfl⟩

theorem progress_of_addDoctype (h : builder.addDoctype = .ok next) :
    builder.progress = ⟨[], false, false⟩ ∧ next.progress = ⟨[], false, true⟩ := by
  obtain ⟨tree, opened, hasRoot, hasDoctype⟩ := builder
  simp only [addDoctype] at h
  split at h
  · cases h
  · next hfirst =>
    split at h
    · cases h
    · next hearly =>
      obtain rfl := Except.ok.inj h
      simp only [Bool.or_eq_true, Bool.not_eq_true', not_or, Bool.not_eq_true,
        Bool.not_eq_false, List.isEmpty_iff] at hearly
      obtain ⟨rfl, rfl⟩ := hearly
      obtain rfl : hasDoctype = false := by simpa using hfirst
      exact ⟨rfl, rfl⟩

end Builder

namespace Grammar

open Builder

/-! ## Inside an element -/

/-- The events are the content of this open element, its end tag, and what leads on to `last` from
there. -/
def Closes (element : OpenElement) (after : Progress) (last : Builder) (events : List Event) :
    Prop :=
  ∃ (content : Content) (more : List Event) (next : Builder),
    events = content.events ++ .endElement element.name :: more ∧
      element.level + content.forest.height ≤ maxDepth ∧ next.progress = after ∧
        next.steps more = .ok last

namespace Closes

variable {element : OpenElement} {after : Progress} {last : Builder} {events : List Event}

theorem text (h : Closes element after last events) (content : String) :
    Closes element after last (.text content :: events) := by
  obtain ⟨inner, more, next, rfl, hheight, hnext⟩ := h
  exact ⟨.text content inner, more, next, rfl, hheight, hnext⟩

theorem cdata (h : Closes element after last events) (content : String) :
    Closes element after last (.cdata content :: events) := by
  obtain ⟨inner, more, next, rfl, hheight, hnext⟩ := h
  exact ⟨.cdata content inner, more, next, rfl, hheight, hnext⟩

theorem comment (h : Closes element after last events) (content : String)
    (hdepth : element.level + 1 ≤ maxDepth) :
    Closes element after last (.comment content :: events) := by
  obtain ⟨inner, more, next, rfl, hheight, hnext⟩ := h
  refine ⟨.comment content inner, more, next, rfl, ?_, hnext⟩
  rw [Content.forest, Forest.height, Forest.height]
  omega

theorem instruction (h : Closes element after last events) (target : String)
    (data : Option String) (hdepth : element.level + 1 ≤ maxDepth) :
    Closes element after last (.instruction target data :: events) := by
  obtain ⟨inner, more, next, rfl, hheight, hnext⟩ := h
  refine ⟨.instruction target data inner, more, next, rfl, ?_, hnext⟩
  rw [Content.forest, Forest.height, Forest.height]
  omega

theorem child (h : Closes element after last events) (child : Element)
    (hdepth : element.level + child.forest.height ≤ maxDepth) :
    Closes element after last (child.events ++ events) := by
  obtain ⟨inner, more, next, rfl, hheight, hnext⟩ := h
  refine ⟨.element child inner, more, next, ?_, ?_, hnext⟩
  · rw [Content.events, List.append_assoc]
  · rw [Content.forest, Forest.height_append]
    omega

theorem empty (h : Closes element after last events) (name : String)
    (attributes : List Attribute) (hdepth : element.level + 1 ≤ maxDepth) :
    Closes element after last (.emptyElement name attributes :: events) := by
  have hheight : (Element.empty name attributes).forest.height = 1 := by
    rw [Element.forest]
    rfl
  have hchild := h.child (.empty name attributes) (hheight ▸ hdepth)
  rwa [Element.events, List.singleton_append] at hchild

/-- An element inside this one that has content: what closes it, and what closes this one from its
end tag on, together close this one from its start tag on. -/
theorem tagged {between : Progress} {id : NodeId} {name : String} (attributes : List Attribute)
    (h : Closes ⟨id, name, element.level + 1, ""⟩ between last events)
    (hrest : ∀ (more : List Event) (ended : Builder), .endElement name :: more <:+ events →
      ended.progress = between → ended.steps more = .ok last → Closes element after last more) :
    Closes element after last (.startElement name attributes :: events) := by
  obtain ⟨inner, more, ended, rfl, hheight, hended, hmore⟩ := h
  have hclosed := hrest more ended (List.suffix_append _ _) hended hmore
  have hinner : element.level + (Element.tagged name attributes inner).forest.height ≤
      maxDepth := by
    have hheight' : element.level + 1 + inner.forest.height ≤ maxDepth := hheight
    rw [Element.forest, Forest.height, Forest.height]
    omega
  have hchild := hclosed.child (.tagged name attributes inner) hinner
  rwa [Element.events, List.cons_append, List.append_assoc] at hchild

end Closes

/-- Inside an element an event is more of its content, which leaves its text open to change, or it
starts another element, or it is the end tag. -/
theorem cases_of_step {builder next : Builder} {event : Event} {element : OpenElement}
    {opened : List OpenElement} {hasRoot hasDoctype : Bool}
    (hprogress : builder.progress = ⟨element :: opened, hasRoot, hasDoctype⟩)
    (hstep : builder.step event = .ok next) (hno : event ≠ .declaration) :
    (∃ text, next.progress = ⟨{ element with text } :: opened, hasRoot, hasDoctype⟩ ∧
      ∀ after last events, Closes { element with text } after last events →
        Closes element after last (event :: events)) ∨
    (∃ id name attributes, event = .startElement name attributes ∧ element.level + 1 ≤ maxDepth ∧
      next.progress =
        ⟨⟨id, name, element.level + 1, ""⟩ :: element :: opened, hasRoot, hasDoctype⟩) ∨
    event = .endElement element.name ∧ next.progress = ⟨opened, hasRoot, hasDoctype⟩ := by
  have hopened : builder.opened = element :: opened := congrArg Progress.opened hprogress
  cases event with
  | text content =>
    have hnext := progress_of_addText hopened hstep
    rw [hprogress] at hnext
    exact .inl ⟨_, hnext, fun _ _ _ hclosed => hclosed.text content⟩
  | cdata content =>
    have hadd : builder.addText content (some .cdataOutsideRoot) = .ok next := hstep
    have hnext := progress_of_addText hopened hadd
    rw [hprogress] at hnext
    exact .inl ⟨_, hnext, fun _ _ _ hclosed => hclosed.cdata content⟩
  | comment content =>
    obtain ⟨hdepth, hnext⟩ := progress_of_addNode hstep
    rw [hprogress] at hdepth hnext
    exact .inl ⟨_, hnext, fun _ _ _ hclosed => hclosed.comment content hdepth⟩
  | instruction target data =>
    obtain ⟨hdepth, hnext⟩ := progress_of_addNode hstep
    rw [hprogress] at hdepth hnext
    exact .inl ⟨_, hnext, fun _ _ _ hclosed => hclosed.instruction target data hdepth⟩
  | emptyElement name attributes =>
    obtain ⟨-, hdepth, hnext⟩ := progress_of_addElement hstep
    rw [hprogress] at hdepth hnext
    rw [Progress.afterElement_of_ne (List.cons_ne_nil _ _)] at hnext
    exact .inl ⟨_, hnext, fun _ _ _ hclosed => hclosed.empty name attributes hdepth⟩
  | startElement name attributes =>
    obtain ⟨-, hdepth, id, hnext⟩ := progress_of_openElement hstep
    rw [hprogress] at hdepth hnext
    rw [Progress.inside, Progress.afterElement_of_ne (List.cons_ne_nil _ _)] at hnext
    exact .inr (.inl ⟨id, name, attributes, rfl, hdepth, hnext⟩)
  | endElement name =>
    obtain ⟨found, outer, hfound, rfl, hnext⟩ := progress_of_closeElement hstep
    rw [hopened, List.cons.injEq] at hfound
    obtain ⟨rfl, rfl⟩ := hfound
    rw [hprogress] at hnext
    exact .inr (.inr ⟨rfl, hnext⟩)
  | declaration => exact absurd rfl hno
  | doctype body =>
    obtain ⟨htop, -⟩ := progress_of_addDoctype hstep
    rw [hprogress] at htop
    cases htop

/-- **What follows the start of an element is its content and its end.** -/
theorem exists_content {builder last : Builder} {events : List Event} {element : OpenElement}
    {opened : List OpenElement} {hasRoot hasDoctype : Bool}
    (hprogress : builder.progress = ⟨element :: opened, hasRoot, hasDoctype⟩)
    (hlevel : element.level ≤ maxDepth) (hsteps : builder.steps events = .ok last)
    (hlast : last.opened.length ≤ opened.length) (hno : .declaration ∉ events) :
    Closes element ⟨opened, hasRoot, hasDoctype⟩ last events := by
  -- the recursion is on the events: an element inside takes off all up to its own end tag
  match events with
  | [] =>
    have hopened : builder.opened = element :: opened := congrArg Progress.opened hprogress
    obtain rfl : builder = last := Except.ok.inj hsteps
    rw [hopened] at hlast
    exact absurd hlast (Nat.not_le.2 (Nat.lt_succ_self _))
  | event :: events =>
    obtain ⟨next, hstep, hrest⟩ := exists_of_steps_cons hsteps
    rw [List.mem_cons, not_or] at hno
    obtain ⟨hevent, hno⟩ := hno
    rcases cases_of_step hprogress hstep (Ne.symm hevent) with
      ⟨text, hnext, hcloses⟩ | ⟨id, name, attributes, rfl, hdepth, hnext⟩ | ⟨rfl, hnext⟩
    · have hclosed := exists_content hnext hlevel hrest hlast hno
      exact hcloses _ _ _ hclosed
    · -- first what is inside the new element, then what follows its end tag
      have hinner := exists_content hnext hdepth hrest (Nat.le_succ_of_le hlast) hno
      refine hinner.tagged attributes fun more ended hmore hended hlater => ?_
      have hless : more.length < events.length := hmore.length_le
      have hno' : .declaration ∉ more := by
        intro hmem
        exact hno (hmore.mem (List.mem_cons_of_mem _ hmem))
      exact exists_content hended hlevel hlater hlast hno'
    · refine ⟨.nil, events, next, rfl, ?_, hnext, hrest⟩
      rwa [Content.forest, Forest.height, Nat.add_zero]
termination_by events.length

/-! ## At the top -/

/-- The event starts the root element. -/
def opensElement : Event → Bool
  | .startElement _ _ | .emptyElement _ _ => true
  | _ => false

/-- The event is let pass at the top and starts a part of the document. -/
def Opens (progress : Progress) (event : Event) : Prop :=
  opensElement event = true ∧ progress.Admits ∨
    (∃ body, event = .doctype body) ∧ progress = .start

/-- Everything at the top is passed over up to the next element or document type. -/
theorem exists_miscs {builder last : Builder} {events : List Event} (htop : builder.opened = [])
    (hsteps : builder.steps events = .ok last) :
    ∃ (miscs : List Misc) (more : List Event) (next : Builder),
      events = miscs.map Misc.event ++ more ∧ next.progress = builder.progress ∧
        next.steps more = .ok last ∧ ∀ event ∈ more.head?, Opens builder.progress event := by
  induction events generalizing builder with
  | nil => exact ⟨[], [], builder, rfl, rfl, hsteps, by simp⟩
  | cons event events ih =>
    obtain ⟨next, hstep, hrest⟩ := exists_of_steps_cons hsteps
    -- an event that is passed over is one more of those in front
    have hpass (misc : Misc) (hevent : misc.event = event)
        (hnext : next.progress = builder.progress) :
        ∃ (miscs : List Misc) (more : List Event) (ended : Builder),
          event :: events = miscs.map Misc.event ++ more ∧ ended.progress = builder.progress ∧
            ended.steps more = .ok last ∧ ∀ event ∈ more.head?, Opens builder.progress event := by
      have htop' : next.opened = [] := (congrArg Progress.opened hnext).trans htop
      obtain ⟨miscs, more, ended, rfl, hended, hmore, hopens⟩ := ih htop' hrest
      rw [hnext] at hended hopens
      exact ⟨misc :: miscs, more, ended, by rw [← hevent]; rfl, hended, hmore, hopens⟩
    cases event with
    | text content =>
      obtain ⟨hblank, hnext⟩ := progress_of_addText_top htop hstep
      have hblank' : allBlank content = true := by simpa using hblank
      exact hpass (.blank content hblank') rfl hnext
    | cdata content =>
      have hadd : builder.addText content (some .cdataOutsideRoot) = .ok next := hstep
      obtain ⟨hnone, -⟩ := progress_of_addText_top htop hadd
      cases hnone
    | comment content => exact hpass (.comment content) rfl (progress_of_addNode hstep).2
    | instruction target data =>
      exact hpass (.instruction target data) rfl (progress_of_addNode hstep).2
    | declaration =>
      obtain rfl : builder = next := Except.ok.inj hstep
      exact hpass .declaration rfl rfl
    | endElement name =>
      obtain ⟨found, outer, hfound, -⟩ := progress_of_closeElement hstep
      rw [htop] at hfound
      cases hfound
    | startElement name attributes =>
      have hopens : Opens builder.progress (.startElement name attributes) :=
        .inl ⟨rfl, (progress_of_openElement hstep).1⟩
      exact ⟨[], _, builder, rfl, rfl, hsteps, by simpa using hopens⟩
    | emptyElement name attributes =>
      have hopens : Opens builder.progress (.emptyElement name attributes) :=
        .inl ⟨rfl, (progress_of_addElement hstep).1⟩
      exact ⟨[], _, builder, rfl, rfl, hsteps, by simpa using hopens⟩
    | doctype body =>
      have hopens : Opens builder.progress (.doctype body) :=
        .inr ⟨⟨body, rfl⟩, (progress_of_addDoctype hstep).1⟩
      exact ⟨[], _, builder, rfl, rfl, hsteps, by simpa using hopens⟩

/-- An element at the top. -/
theorem exists_element {builder last : Builder} {event : Event} {events : List Event}
    {hasDoctype : Bool} (hprogress : builder.progress = ⟨[], false, hasDoctype⟩)
    (hevent : opensElement event = true) (hsteps : builder.steps (event :: events) = .ok last)
    (hlast : last.opened = []) (hno : .declaration ∉ events) :
    ∃ (element : Element) (more : List Event) (next : Builder),
      event :: events = element.events ++ more ∧ element.forest.height ≤ maxDepth ∧
        next.progress = ⟨[], true, hasDoctype⟩ ∧ next.steps more = .ok last := by
  obtain ⟨next, hstep, hrest⟩ := exists_of_steps_cons hsteps
  cases event with
  | emptyElement name attributes =>
    obtain ⟨-, -, hnext⟩ := progress_of_addElement hstep
    rw [hprogress] at hnext
    refine ⟨.empty name attributes, events, next, ?_, ?_, hnext, hrest⟩
    · rw [Element.events, List.singleton_append]
    · simp [Element.forest, Forest.height, maxDepth]
  | startElement name attributes =>
    obtain ⟨-, hdepth, id, hnext⟩ := progress_of_openElement hstep
    rw [hprogress] at hdepth hnext
    obtain ⟨inner, more, ended, rfl, hheight, hended, hmore⟩ :=
      exists_content hnext hdepth hrest (Nat.le_of_eq (congrArg List.length hlast)) hno
    refine ⟨.tagged name attributes inner, more, ended, ?_, ?_, hended, hmore⟩
    · rw [Element.events]
      simp
    · have hheight' : 0 + 1 + inner.forest.height ≤ maxDepth := hheight
      rw [Element.forest, Forest.height, Forest.height]
      omega
  | _ => cases hevent

theorem height_forest_le (misc : Misc) : misc.forest.height ≤ 1 := by
  cases misc <;> simp [Misc.forest, Forest.height]

theorem height_miscForest_le (miscs : List Misc) : (miscForest miscs).height ≤ 1 := by
  induction miscs with
  | nil => decide
  | cons misc miscs ih =>
    have hmisc := height_forest_le misc
    rw [miscForest, Forest.height_append]
    omega

/-- The root element, if one comes, and what is behind it. -/
theorem exists_root {builder last : Builder} {events : List Event} {hasDoctype : Bool}
    (hprogress : builder.progress = ⟨[], false, hasDoctype⟩)
    (hsteps : builder.steps events = .ok last) (hlast : last.opened = [])
    (hhead : ∀ event ∈ events.head?, opensElement event = true)
    (hno : .declaration ∉ events.tail) :
    ∃ root : Option (Element × List Misc),
      events = Document.rootEvents root ∧ (Document.rootForest root).height ≤ maxDepth := by
  cases events with
  | nil => exact ⟨none, rfl, Nat.zero_le _⟩
  | cons event events =>
    obtain ⟨element, more, next, hevents, hheight, hnext, hmore⟩ :=
      exists_element hprogress (hhead event rfl) hsteps hlast hno
    obtain ⟨miscs, rest, ended, rfl, hended, hrest, hpart⟩ :=
      exists_miscs (congrArg Progress.opened hnext) hmore
    have hended' := hended.trans hnext
    cases rest with
    | nil =>
      refine ⟨some (element, miscs), ?_, ?_⟩
      · rw [hevents, List.append_nil]
        rfl
      · have hmiscs := height_miscForest_le miscs
        have hbound : 1 ≤ maxDepth := by decide
        rw [Document.rootForest, Forest.height_append]
        omega
    | cons part rest =>
      -- behind a root element neither another one nor a document type is let pass
      have hopens := hpart part rfl
      rw [hnext] at hopens
      rcases hopens with ⟨-, hadmits⟩ | ⟨-, hstart⟩
      · cases hadmits rfl
      · cases hstart

theorem mem_tail_append {α : Type} {x : α} {back : List α} (front : List α) (h : x ∈ back.tail) :
    x ∈ (front ++ back).tail := by
  cases front with
  | nil => exact h
  | cons first front => exact List.mem_append_right _ (List.mem_of_mem_tail h)

/-- **What is accepted is a document.** -/
theorem exists_document {builder last : Builder} {events : List Event}
    (hprogress : builder.progress = .start) (hsteps : builder.steps events = .ok last)
    (hlast : last.opened = []) (hno : .declaration ∉ events.tail) :
    ∃ d : Document, events = d.events ∧ d.forest.height ≤ maxDepth := by
  have hbound : 1 ≤ maxDepth := by decide
  obtain ⟨prolog, more, next, rfl, hnext, hmore, hpart⟩ :=
    exists_miscs (congrArg Progress.opened hprogress) hsteps
  have hnext' : next.progress = ⟨[], false, false⟩ := hnext.trans hprogress
  have hprolog := height_miscForest_le prolog
  -- either the document type comes next, or the root element does, or nothing
  have hcases : (∃ body rest, more = .doctype body :: rest) ∨
      ∀ event ∈ more.head?, opensElement event = true := by
    cases more with
    | nil => exact .inr (by simp)
    | cons part more =>
      rcases hpart part rfl with ⟨helement, -⟩ | ⟨⟨body, rfl⟩, -⟩
      · exact .inr (by simpa using helement)
      · exact .inl ⟨body, more, rfl⟩
  rcases hcases with ⟨body, rest, rfl⟩ | helement
  · obtain ⟨behind, hstep, hbehind⟩ := exists_of_steps_cons hmore
    obtain ⟨-, hafter⟩ := progress_of_addDoctype hstep
    obtain ⟨miscs, more, ended, rfl, hended, hrest, hpart'⟩ :=
      exists_miscs (congrArg Progress.opened hafter) hbehind
    rw [hafter] at hended hpart'
    have helement : ∀ event ∈ more.head?, opensElement event = true := by
      intro event hevent
      rcases hpart' event hevent with ⟨helement, -⟩ | ⟨-, hstart⟩
      · exact helement
      · cases hstart
    obtain ⟨root, rfl, hroot⟩ := exists_root hended hrest hlast helement fun hmem =>
      hno (mem_tail_append _ (List.mem_append_right _ (List.mem_of_mem_tail hmem)))
    have hmiscs := height_miscForest_le miscs
    refine ⟨⟨prolog, some (body, miscs), root⟩, rfl, ?_⟩
    simp only [Document.forest, Document.doctypeForest, Forest.height_append]
    omega
  · obtain ⟨root, rfl, hroot⟩ := exists_root hnext' hmore hlast helement fun hmem =>
      hno (mem_tail_append _ hmem)
    refine ⟨⟨prolog, none, root⟩, rfl, ?_⟩
    simp only [Document.forest, Document.doctypeForest, Forest.height_append, Forest.height]
    omega

end Grammar

/-! ## The stack parser -/

namespace Tree

open Grammar

theorem exists_run_of_parse {text : String} {tree : Tree} (h : parse text = .ok tree) :
    (Event.readAll text).failure = none ∧ ∃ last : Builder,
      Builder.start.run (Event.readAll text).events = .ok last ∧ last.opened = [] ∧
        last.tree = tree := by
  simp only [parse] at h
  split at h
  · cases h
  · next last hrun =>
    split at h
    · cases h
    · next hfailure =>
      split at h
      · cases h
      · next hopened =>
        exact ⟨hfailure, last, hrun, List.getLast?_eq_none_iff.1 hopened, Except.ok.inj h⟩

/-- A document is parsed as its forest. -/
theorem parse_of_document {text : String} (hfailure : (Event.readAll text).failure = none)
    {d : Grammar.Document} (hevents : (Event.readAll text).events.map (·.item) = d.events)
    (hheight : d.forest.height ≤ maxDepth) : parse text = .ok d.forest.tree := by
  have hbuilds : Builds ((Event.readAll text).events.map (·.item)) .start
      ⟨[], d.root.isSome, d.doctype.isSome⟩ d.forest := by
    rw [hevents]
    exact d.builds
  exact parse_of_builds hfailure hbuilds rfl hheight

/-- What is parsed is a document. -/
theorem exists_document_of_parse {text : String} {tree : Tree} (h : parse text = .ok tree) :
    ∃ d : Grammar.Document, (Event.readAll text).events.map (·.item) = d.events ∧
      d.forest.height ≤ maxDepth ∧ tree = d.forest.tree := by
  obtain ⟨hfailure, last, hrun, hopened, -⟩ := exists_run_of_parse h
  have hno : .declaration ∉ ((Event.readAll text).events.map (·.item)).tail := by
    rw [← List.map_tail]
    intro hmem
    obtain ⟨event, hevent, hdeclaration⟩ := List.mem_map.1 hmem
    exact Event.ne_declaration_of_mem_tail hevent hdeclaration
  obtain ⟨d, hd, hheight⟩ := exists_document rfl (Builder.steps_of_run hrun) hopened hno
  have hparse := parse_of_document hfailure hd hheight
  rw [h] at hparse
  exact ⟨d, hd, hheight, Except.ok.inj hparse⟩

/-- **The stack parser is the grammar.** A text is parsed exactly when its events can be read to the
end, derive from the grammar and lie no deeper than a tree may be; the tree is then the one that
recursion on the derivation gives. -/
theorem parse_eq_ok_iff (text : String) (tree : Tree) :
    parse text = .ok tree ↔
      (Event.readAll text).failure = none ∧ ∃ d : Grammar.Document,
        (Event.readAll text).events.map (·.item) = d.events ∧ d.forest.height ≤ maxDepth ∧
          tree = d.forest.tree := by
  constructor
  · intro h
    exact ⟨(exists_run_of_parse h).1, exists_document_of_parse h⟩
  · rintro ⟨hfailure, d, hevents, hheight, rfl⟩
    exact parse_of_document hfailure hevents hheight

end Tree

end Groundwork
