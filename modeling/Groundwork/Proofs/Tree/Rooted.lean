import Groundwork.Proofs.Tree.Forest
import Groundwork.Proofs.Xml.Attribute
import Groundwork.Xml.Token

/-!
# `Proofs.Tree.Rooted` — what all trees have in common

The document comes first, and every other node lies directly below a node in front of it that may
have children, one level deeper. So the nodes below the document are a forest in which every number
stands once. A tree that is to be written as a document has labels that can be written: names where
names are read, and no comment or instruction that would end too early.

## Contents

* `Rooted`, `Rooted.concat`, `Rooted.modify` — how the entries of a tree lie, and that both changes
  keep it so.
* `Label.Valid`, `Forest.Sound` — labels that can be written, and forests of them.
* `exists_spans`, `Spans.perm_range` — **every tree is a forest, and holds each number once.**
* `Nested.rooted`, `LiesBelow.nested`, `LiesBelow.sound` — entries and forests satisfy the same.
-/

namespace Groundwork

open Xml

/-! ## Labels -/

/-- The label is one of a node that may have children. -/
def Label.isContainer (label : Label) : Bool :=
  label.kind = .document || label.kind = .element

/-- The label can be written in a document and read again. -/
def Label.Valid (label : Label) : Prop :=
  match label.kind with
  | .document => label = Label.document
  | .element => isName label.name.toList = true ∧ Attribute.Named label.attributes
  | .comment => label.name = "" ∧ label.attributes = [] ∧ isCommentBody label.value.toList = true
  | .instruction =>
    label.attributes = [] ∧ isName label.name.toList = true ∧
      isReserved label.name.toList = false ∧ ¬ instructionEnd <:+: label.value.toList

/-- An attribute of an element gets a value. -/
theorem Label.Valid.put {label : Label} (h : label.Valid) (hkind : label.kind = .element)
    {name : String} (hname : isName name.toList = true) (value : String) :
    Label.Valid { label with attributes := Attribute.put name value label.attributes } := by
  rw [Label.Valid, hkind] at h
  rw [Label.Valid, hkind]
  exact ⟨h.1, h.2.put hname value⟩

theorem Label.Valid.remove {label : Label} (h : label.Valid) (name : String) :
    Label.Valid { label with attributes := Attribute.remove name label.attributes } := by
  rw [Label.Valid] at h ⊢
  split at h
  · next hkind =>
    rw [h]
    rfl
  · next hkind =>
    simp only [hkind]
    exact ⟨h.1, h.2.remove name⟩
  · next hkind =>
    simp only [hkind, h.2.1]
    exact ⟨h.1, rfl, h.2.2⟩
  · next hkind =>
    simp only [hkind, h.1]
    exact ⟨rfl, h.2⟩

namespace Tree

/-! ## Entries -/

/-- The entry lies directly below one in front of number `id` that may have children. -/
def Entry.LiesBelow (e : Entry) (entries : List Entry) (id : NodeId) : Prop :=
  ∃ parent above, e.parent = some parent ∧ parent < id ∧ entries[parent]? = some above ∧
    above.label.isContainer = true ∧ above.depth < maxDepth ∧ e.depth = above.depth + 1

/-- The document comes first, and every other entry lies below one in front of it. -/
structure Rooted (entries : List Entry) : Prop where
  first : ∃ label, entries[root]? = some ⟨none, 0, label⟩ ∧ label.kind = .document
  below : ∀ (id : NodeId) (e : Entry), id ≠ root → entries[id]? = some e →
    e.label.kind ≠ .document ∧ e.LiesBelow entries id

theorem rooted_empty : Rooted [Entry.document] where
  first := ⟨Label.document, rfl, rfl⟩
  below id e hne he := by
    cases id with
    | zero => exact absurd rfl hne
    | succ id => simp at he

namespace Rooted

variable {entries : List Entry}

theorem ordered (h : Rooted entries) : Ordered entries := by
  intro id e he parent hparent
  by_cases hid : id = root
  · obtain ⟨label, hfirst, -⟩ := h.first
    rw [hid, hfirst] at he
    obtain rfl := Option.some.inj he
    cases hparent
  · obtain ⟨-, above, found, habove, hlt, -⟩ := h.below id e hid he
    rw [habove] at hparent
    exact Option.some.inj hparent ▸ hlt

theorem length_pos (h : Rooted entries) : root < entries.length := by
  obtain ⟨label, hfirst, -⟩ := h.first
  exact (List.getElem?_eq_some_iff.1 hfirst).1

/-- The document's own entry, if its label is one that can be written. -/
theorem first_eq (h : Rooted entries) (hvalid : ∀ e ∈ entries, e.label.Valid) :
    entries[root]? = some Entry.document := by
  obtain ⟨label, hfirst, hkind⟩ := h.first
  have hdocument := hvalid _ (List.mem_of_getElem? hfirst)
  have hlabel : label = Label.document := by simpa [Label.Valid, hkind] using hdocument
  rw [hfirst, hlabel]
  rfl

/-- A new entry below one that may have children. -/
theorem concat (h : Rooted entries) {parent : NodeId} {above : Entry}
    (habove : entries[parent]? = some above) (hcontainer : above.label.isContainer = true)
    (hdepth : above.depth < maxDepth) {label : Label} (hlabel : label.kind ≠ .document) :
    Rooted (entries ++ [⟨some parent, above.depth + 1, label⟩]) := by
  have hlt : parent < entries.length := (List.getElem?_eq_some_iff.1 habove).1
  have hkept {id : NodeId} {e : Entry} (he : entries[id]? = some e) (more : List Entry) :
      (entries ++ more)[id]? = some e := by
    rw [List.getElem?_append_left (List.getElem?_eq_some_iff.1 he).1, he]
  refine ⟨?_, fun id e hid he => ?_⟩
  · obtain ⟨first, hfirst, hkind⟩ := h.first
    exact ⟨first, hkept hfirst _, hkind⟩
  · by_cases hold : id < entries.length
    · rw [List.getElem?_append_left hold] at he
      obtain ⟨hkind, p, found, hp, hless, hfound, hrest⟩ := h.below id e hid he
      exact ⟨hkind, p, found, hp, hless, hkept hfound _, hrest⟩
    · rw [List.getElem?_append_right (Nat.le_of_not_lt hold)] at he
      obtain rfl := List.mem_singleton.1 (List.mem_of_getElem? he)
      exact ⟨hlabel, parent, above, rfl, Nat.lt_of_lt_of_le hlt (Nat.le_of_not_lt hold),
        hkept habove _, hcontainer, hdepth, rfl⟩

/-- A new label of the same kind. -/
theorem modify (h : Rooted entries) (id : NodeId) {relabel : Label → Label}
    (hkind : ∀ label, (relabel label).kind = label.kind) :
    Rooted (entries.modify id (·.relabel relabel)) := by
  -- what is found after the change differs from what was there in its label alone
  have hchange {i : NodeId} {e : Entry} (he : entries[i]? = some e) :
      ∃ label, (entries.modify id (·.relabel relabel))[i]? = some ⟨e.parent, e.depth, label⟩ ∧
        label.kind = e.label.kind := by
    rw [List.getElem?_modify, he]
    by_cases hid : id = i
    · exact ⟨relabel e.label, by simp [hid, Entry.relabel], hkind _⟩
    · exact ⟨e.label, by simp [hid], rfl⟩
  refine ⟨?_, fun i e hi he => ?_⟩
  · obtain ⟨first, hfirst, hdocument⟩ := h.first
    obtain ⟨label, hlabel, hsame⟩ := hchange hfirst
    exact ⟨label, hlabel, hsame.trans hdocument⟩
  · rw [List.getElem?_modify] at he
    obtain ⟨found, hfound, -⟩ := Option.map_eq_some_iff.1 he
    obtain ⟨label, hlabel, hsame⟩ := hchange hfound
    rw [← List.getElem?_modify, hlabel] at he
    obtain rfl := Option.some.inj he
    obtain ⟨hne, p, above, hp, hless, habove, hcontainer, hrest⟩ := h.below i found hi hfound
    obtain ⟨label', hlabel', hsame'⟩ := hchange habove
    refine ⟨hsame ▸ hne, p, _, hp, hless, hlabel', ?_, hrest⟩
    rw [Label.isContainer] at hcontainer ⊢
    rw [hsame', hcontainer]

end Rooted

/-! ## The forest below the document -/

/-- Forests can be built from the children of any numbers, since these lie behind. -/
theorem exists_follows {children : NodeId → List NodeId} {bound : Nat}
    (hbound : ∀ id, ∀ child ∈ children id, id < child ∧ child < bound) {ids : List NodeId}
    (hids : ∀ id ∈ ids, id < bound) : ∃ f : Forest NodeId, f.roots = ids ∧ f.Follows children := by
  -- by induction on the room between the least of the numbers and the bound
  suffices h : ∀ (room : Nat) (ids : List NodeId), (∀ id ∈ ids, id < bound ∧ bound ≤ id + room) →
      ∃ f : Forest NodeId, f.roots = ids ∧ f.Follows children from
    h bound ids fun id hid => ⟨hids id hid, Nat.le_add_left _ _⟩
  intro room
  induction room with
  | zero =>
    intro ids hids
    cases ids with
    | nil => exact ⟨.nil, rfl, trivial⟩
    | cons id ids =>
      obtain ⟨hlt, hle⟩ := hids id (by simp)
      exact absurd hlt (Nat.not_lt.2 hle)
  | succ room ih =>
    intro ids hids
    induction ids with
    | nil => exact ⟨.nil, rfl, trivial⟩
    | cons id ids ihids =>
      obtain ⟨below, hbelow, hfollows⟩ := ih (children id) fun child hchild => by
        have hlt := (hids id (by simp)).2
        obtain ⟨hid, hchild⟩ := hbound id child hchild
        exact ⟨hchild, by grind⟩
      obtain ⟨rest, hrest, hrestFollows⟩ := ihids fun other hother => hids other (by simp [hother])
      exact ⟨.cons id below rest, by rw [Forest.roots, hrest], hbelow, hfollows, hrestFollows⟩

/-- **Every tree is a forest below the document.** -/
theorem exists_spans {entries : List Entry} (h : Ordered entries) :
    ∃ f : Forest NodeId, f.Spans entries := by
  have hbound : ∀ id, ∀ child ∈ childIds entries (some id),
      id < child ∧ child < entries.length := by
    intro id child hchild
    exact ⟨h.lt_of_mem hchild, lt_length_of_mem_childIds hchild⟩
  have hroot : ∀ id ∈ childIds entries (some root), id < entries.length := by
    intro id hid
    exact lt_length_of_mem_childIds hid
  obtain ⟨f, hroots, hfollows⟩ := exists_follows hbound hroot
  exact ⟨f, hroots, hfollows⟩

theorem count_childIds {entries : List Entry} {id : NodeId} {e : Entry}
    (he : entries[id]? = some e) {parent : NodeId} (hparent : e.parent = some parent)
    (other : NodeId) :
    (childIds entries (some other)).count id = if other = parent then 1 else 0 := by
  rw [(nodup_childIds _ _).count]
  congr 1
  rw [mem_childIds, eq_iff_iff]
  constructor
  · rintro ⟨found, hfound, habove⟩
    rw [he] at hfound
    obtain rfl := Option.some.inj hfound
    exact Option.some.inj (habove.symm.trans hparent)
  · rintro rfl
    exact ⟨e, he, hparent⟩

/-- A number is a child of as many of the listed nodes as its parent is listed. -/
theorem count_flatMap_childIds {entries : List Entry} {id : NodeId} {e : Entry}
    (he : entries[id]? = some e) {parent : NodeId} (hparent : e.parent = some parent)
    (ids : List NodeId) :
    (ids.flatMap fun other => childIds entries (some other)).count id = ids.count parent := by
  induction ids with
  | nil => rfl
  | cons other ids ih =>
    rw [List.flatMap_cons, List.count_append, ih, count_childIds he hparent, List.count_cons,
      Nat.add_comm]
    simp

end Tree

namespace Forest.Spans

open Groundwork.Tree

variable {f : Forest NodeId} {entries : List Tree.Entry}

/-- The document and all nodes below it are the document and the children of all these. -/
theorem perm_flatMap (h : f.Spans entries) :
    f.toList.Perm ((root :: f.toList).flatMap fun id => childIds entries (some id)) := by
  have hperm := h.follows.toList_perm
  rw [h.roots] at hperm
  exact hperm

theorem exists_parent_of_mem (h : f.Spans entries) {id : NodeId} (hid : id ∈ f.toList) :
    ∃ (e : Tree.Entry) (parent : NodeId), entries[id]? = some e ∧ e.parent = some parent := by
  obtain ⟨parent, -, hmem⟩ := List.mem_flatMap.1 (h.perm_flatMap.mem_iff.1 hid)
  obtain ⟨e, he, hparent⟩ := mem_childIds.1 hmem
  exact ⟨e, parent, he, hparent⟩

/-- **The document and the nodes below it hold each number once.** -/
theorem perm_range (h : f.Spans entries) (hentries : Rooted entries) :
    (root :: f.toList).Perm (List.range entries.length) := by
  rw [List.perm_iff_count]
  intro id
  -- a number is listed as often as its parent, and the document is listed once
  induction id using Nat.strongRecOn with
  | ind id ih =>
    rw [List.count_range]
    by_cases hlt : id < entries.length
    · have he := List.getElem?_eq_getElem hlt
      rw [if_pos hlt]
      by_cases hid : id = root
      · obtain ⟨label, hfirst, -⟩ := hentries.first
        rw [hid, List.count_cons_self, List.count_eq_zero_of_not_mem]
        intro hmem
        obtain ⟨found, parent, hfound, hparent⟩ := h.exists_parent_of_mem hmem
        rw [hfirst] at hfound
        obtain rfl := Option.some.inj hfound
        cases hparent
      · obtain ⟨-, parent, above, hparent, hless, habove, -⟩ := hentries.below id _ hid he
        have hcount := ih parent hless
        rw [List.count_range, if_pos (List.getElem?_eq_some_iff.1 habove).1] at hcount
        rw [List.count_cons_of_ne (Ne.symm hid), h.perm_flatMap.count_eq,
          count_flatMap_childIds he hparent, hcount]
    · rw [if_neg hlt, List.count_eq_zero]
      intro hmem
      rcases List.mem_cons.1 hmem with rfl | hmem
      · exact hlt hentries.length_pos
      · obtain ⟨found, parent, hfound, -⟩ := h.exists_parent_of_mem hmem
        exact hlt (List.getElem?_eq_some_iff.1 hfound).1

theorem length_eq (h : f.Spans entries) (hentries : Rooted entries) :
    f.size + 1 = entries.length := by
  have hlength := (h.perm_range hentries).length_eq
  rwa [List.length_cons, length_toList, List.length_range] at hlength

end Forest.Spans

/-! ## Labels of a forest -/

/-- The label of an entry. -/
def Tree.labelAt (entries : List Tree.Entry) (id : NodeId) : Label :=
  match entries[id]? with
  | some e => e.label
  | none => Label.document

namespace Forest

open Groundwork.Tree

/-- All labels can be written, none is a document's, and only elements have something below. -/
def Sound : Forest Label → Prop
  | nil => True
  | cons label below rest =>
    label.Valid ∧ label.kind ≠ .document ∧ (label.kind = .element ∨ below = nil) ∧
      below.Sound ∧ rest.Sound

theorem sound_append_iff {f g : Forest Label} : (f.append g).Sound ↔ f.Sound ∧ g.Sound := by
  induction f with
  | nil => exact (and_iff_right trivial).symm
  | cons label below rest _ ihr =>
    simp only [append, Sound, ihr]
    tauto

theorem Sound.append {f g : Forest Label} (hf : f.Sound) (hg : g.Sound) : (f.append g).Sound :=
  sound_append_iff.2 ⟨hf, hg⟩

theorem Sound.valid {f : Forest Label} (h : f.Sound) : ∀ label ∈ f.toList, label.Valid := by
  induction f with
  | nil => simp [toList]
  | cons label below rest ihb ihr =>
    intro other hother
    rw [toList, List.mem_cons, List.mem_append] at hother
    rcases hother with rfl | hother | hother
    · exact h.1
    · exact ihb h.2.2.2.1 other hother
    · exact ihr h.2.2.2.2 other hother

/-- No label is a document's, and only nodes that may have children have something below. -/
def Nested : Forest Label → Prop
  | nil => True
  | cons label below rest =>
    label.kind ≠ .document ∧ (label.isContainer = true ∨ below = nil) ∧ below.Nested ∧ rest.Nested

theorem Sound.nested {f : Forest Label} (h : f.Sound) : f.Nested := by
  induction f with
  | nil => trivial
  | cons label below rest ihb ihr =>
    obtain ⟨-, hkind, hbelow, hb, hr⟩ := h
    refine ⟨hkind, hbelow.imp_left fun helement => ?_, ihb hb, ihr hr⟩
    simp [Label.isContainer, helement]

/-- A nested forest below one of the entries that may have children. -/
theorem rooted_append_entries {front : List Tree.Entry} (hfront : Rooted front) {parent : NodeId}
    {above : Tree.Entry} (habove : front[parent]? = some above)
    (hcontainer : above.label.isContainer = true) {f : Forest Label} (hf : f.Nested)
    (hheight : above.depth + f.height ≤ maxDepth) :
    Rooted (front ++ f.entries parent (above.depth + 1) front.length) := by
  induction f generalizing front parent above with
  | nil => rwa [entries, List.append_nil]
  | cons label below rest ihb ihr =>
    rw [height] at hheight
    obtain ⟨hkind, hinside, hb, hr⟩ := hf
    have hroot := hfront.concat habove hcontainer (by omega) hkind
    have hbelow : Rooted (front ++ [⟨some parent, above.depth + 1, label⟩] ++
        below.entries front.length (above.depth + 1 + 1) (front.length + 1)) := by
      rcases hinside with hlabel | hnil
      · have hnew (e : Tree.Entry) : (front ++ [e])[front.length]? = some e :=
          List.getElem?_concat_length
        have hadded := ihb hroot (hnew _) hlabel hb
          (show above.depth + 1 + below.height ≤ maxDepth by omega)
        simpa using hadded
      · rw [hnil, entries, List.append_nil]
        exact hroot
    have hkept : (front ++ [⟨some parent, above.depth + 1, label⟩] ++
        below.entries front.length (above.depth + 1 + 1) (front.length + 1))[parent]? =
          some above := by
      rw [List.append_assoc, List.getElem?_append_left (List.getElem?_eq_some_iff.1 habove).1,
        habove]
    have hrest := ihr hbelow hkept hcontainer hr (by omega)
    simpa [entries, Nat.add_assoc, Nat.add_comm 1] using hrest

/-- The entries of a document with a nested forest in it. -/
theorem Nested.rooted {f : Forest Label} (hf : f.Nested) (hheight : f.height ≤ maxDepth) :
    Rooted f.documentEntries := by
  have hfirst : [Tree.Entry.document][root]? = some Tree.Entry.document := rfl
  have hbound : Tree.Entry.document.depth + f.height ≤ maxDepth := by
    rw [show Tree.Entry.document.depth = 0 from rfl, Nat.zero_add]
    exact hheight
  exact rooted_append_entries rooted_empty hfirst (by decide) hf hbound

theorem rooted_documentEntries {f : Forest Label} (hf : f.Sound) (hheight : f.height ≤ maxDepth) :
    Rooted f.documentEntries := hf.nested.rooted hheight

/-- The labels of a document's entries are the document's and those of the forest. -/
theorem forall_documentEntries {P : Label → Prop} {f : Forest Label} (hdocument : P Label.document)
    (hf : ∀ label ∈ f.toList, P label) : ∀ e ∈ f.documentEntries, P e.label := by
  intro e he
  rcases List.mem_cons.1 he with rfl | he
  · exact hdocument
  · refine hf e.label ?_
    rw [← map_label_entries root 1 1]
    exact List.mem_map_of_mem he

theorem valid_documentEntries {f : Forest Label} (hf : f.Sound) :
    ∀ e ∈ f.documentEntries, e.label.Valid := forall_documentEntries rfl hf.valid

/-- The labels of a document's entries, put in place of their numbers, give the forest again. -/
theorem map_labelAt_numbered (f : Forest Label) :
    (f.numbered 1).map (labelAt f.documentEntries) = f := by
  have hshape : ((f.numbered 1).map (labelAt f.documentEntries)).numbered 1 = f.numbered 1 := by
    rw [numbered_map, numbered_numbered]
  refine eq_of_numbered hshape ?_
  have hlabels : f.documentEntries.map (·.label) = Label.document :: f.toList := by
    rw [documentEntries, List.map_cons, map_label_entries]
    rfl
  rw [toList_map, toList_numbered]
  refine List.ext_getElem (by simp) fun i hi hi' => ?_
  rw [List.getElem_map, List.getElem_range']
  have hlabel := congrArg (fun labels => labels[i + 1]?) hlabels
  rw [List.getElem?_map, List.getElem?_cons_succ, List.getElem?_eq_getElem hi',
    Option.map_eq_some_iff] at hlabel
  obtain ⟨e, he, hsame⟩ := hlabel
  rw [labelAt, Nat.one_mul, Nat.add_comm 1, he]
  exact hsame

/-! ## Where the numbers of a forest lie -/

/-- The forest lies directly below `parent`, at this depth. -/
def LiesBelow (entries : List Tree.Entry) (parent : NodeId) (depth : Nat) : Forest NodeId → Prop
  | nil => True
  | cons id below rest =>
    (∃ label, entries[id]? = some ⟨some parent, depth, label⟩ ∧ label.kind ≠ .document ∧
      (label.isContainer = true ∨ below = nil)) ∧ depth ≤ maxDepth ∧
      below.LiesBelow entries id (depth + 1) ∧ rest.LiesBelow entries parent depth

theorem liesBelow_append_iff {entries : List Tree.Entry} {parent : NodeId} {depth : Nat}
    {f g : Forest NodeId} :
    (f.append g).LiesBelow entries parent depth ↔
      f.LiesBelow entries parent depth ∧ g.LiesBelow entries parent depth := by
  induction f with
  | nil => exact (and_iff_right trivial).symm
  | cons id below rest _ ihr =>
    simp only [append, LiesBelow, ihr, and_assoc]

theorem Follows.liesBelow {f : Forest NodeId} {entries : List Tree.Entry} {parent : NodeId}
    {above : Tree.Entry} (h : f.Follows fun id => childIds entries (some id))
    (hentries : Rooted entries) (habove : entries[parent]? = some above)
    (hroots : ∀ id ∈ f.roots, id ∈ childIds entries (some parent)) :
    f.LiesBelow entries parent (above.depth + 1) := by
  induction f generalizing parent above with
  | nil => trivial
  | cons id below rest ihb ihr =>
    obtain ⟨e, he, hparent⟩ := mem_childIds.1 (hroots id (by simp [roots]))
    have hne : id ≠ root := by
      rintro rfl
      obtain ⟨label, hfirst, -⟩ := hentries.first
      rw [hfirst] at he
      obtain rfl := Option.some.inj he
      cases hparent
    obtain ⟨hkind, p, found, hp, -, hfound, -, hdepth, hlevel⟩ := hentries.below id e hne he
    obtain rfl : p = parent := Option.some.inj (hp.symm.trans hparent)
    obtain rfl : found = above := Option.some.inj (hfound.symm.trans habove)
    have hbelow : ∀ child ∈ below.roots, child ∈ childIds entries (some id) := by
      intro child hchild
      rwa [h.1] at hchild
    have hcontainer : e.label.isContainer = true ∨ below = nil := by
      cases below with
      | nil => exact .inr rfl
      | cons child _ _ =>
        obtain ⟨inner, hinner, habove'⟩ := mem_childIds.1 (hbelow child (by simp [roots]))
        have hpos : child ≠ root := by
          have hless := hentries.ordered.lt_of_mem (hbelow child (by simp [roots]))
          exact Nat.ne_zero_of_lt hless
        obtain ⟨-, q, outer, hq, -, houter, hokay, -⟩ := hentries.below child inner hpos hinner
        obtain rfl : q = id := Option.some.inj (hq.symm.trans habove')
        obtain rfl : outer = e := Option.some.inj (houter.symm.trans he)
        exact .inl hokay
    refine ⟨⟨e.label, ?_, hkind, hcontainer⟩, by omega, ?_, ?_⟩
    · rw [he, ← hparent, ← hlevel]
    · rw [← hlevel]
      exact ihb h.2.1 he hbelow
    · exact ihr h.2.2 habove fun other hother => hroots other (by simp [roots, hother])

/-- A node other than the document's, with what is below it, lies below another. -/
theorem Follows.exists_liesBelow {entries : List Tree.Entry} (hentries : Rooted entries)
    {id : NodeId} (hid : id ≠ root) {e : Tree.Entry} (he : entries[id]? = some e)
    {below : Forest NodeId} (hbelow : below.roots = childIds entries (some id))
    (hf : below.Follows fun id => childIds entries (some id)) :
    ∃ parent depth, e.depth = depth + 1 ∧ depth < maxDepth ∧
      (cons id below nil).LiesBelow entries parent (depth + 1) := by
  obtain ⟨-, parent, above, hparent, -, habove, -, hless, hdepth⟩ := hentries.below id e hid he
  have hfollows : (cons id below nil).Follows fun id => childIds entries (some id) :=
    ⟨hbelow, hf, trivial⟩
  refine ⟨parent, above.depth, hdepth, hless, hfollows.liesBelow hentries habove ?_⟩
  intro child hchild
  obtain rfl := List.mem_singleton.1 hchild
  exact mem_childIds.2 ⟨e, he, hparent⟩

/-- **The forest of a tree lies below the document.** -/
theorem Spans.liesBelow {f : Forest NodeId} {entries : List Tree.Entry} (h : f.Spans entries)
    (hentries : Rooted entries) : f.LiesBelow entries root 1 := by
  obtain ⟨label, hfirst, -⟩ := hentries.first
  exact h.follows.liesBelow hentries hfirst fun id hid => h.roots ▸ hid

variable {f : Forest NodeId} {entries : List Tree.Entry} {parent : NodeId} {depth : Nat}

theorem LiesBelow.sound (h : f.LiesBelow entries parent depth)
    (hvalid : ∀ e ∈ entries, e.label.Valid) : (f.map (labelAt entries)).Sound := by
  induction f generalizing parent depth with
  | nil => trivial
  | cons id below rest ihb ihr =>
    obtain ⟨⟨label, he, hkind, hbelow⟩, -, hb, hr⟩ := h
    have hlabel : labelAt entries id = label := by rw [labelAt, he]
    refine ⟨?_, ?_, ?_, ihb hb, ihr hr⟩
    · rw [hlabel]
      exact hvalid _ (List.mem_of_getElem? he)
    · rwa [hlabel]
    · rw [hlabel]
      rcases hbelow with hcontainer | rfl
      · exact .inl (by simpa [Label.isContainer, hkind] using hcontainer)
      · exact .inr rfl

theorem LiesBelow.nested (h : f.LiesBelow entries parent depth) :
    (f.map (labelAt entries)).Nested := by
  induction f generalizing parent depth with
  | nil => trivial
  | cons id below rest ihb ihr =>
    obtain ⟨⟨label, he, hkind, hbelow⟩, -, hb, hr⟩ := h
    have hlabel : labelAt entries id = label := by rw [labelAt, he]
    rw [map, Nested, hlabel]
    refine ⟨hkind, hbelow.imp_right fun hnil => ?_, ihb hb, ihr hr⟩
    rw [hnil]
    rfl

theorem LiesBelow.height_le (h : f.LiesBelow entries parent (depth + 1))
    (hdepth : depth ≤ maxDepth) : depth + f.height ≤ maxDepth := by
  induction f generalizing parent depth with
  | nil => exact hdepth
  | cons id below rest ihb ihr =>
    obtain ⟨-, hle, hb, hr⟩ := h
    have hbelow := ihb hb hle
    have hrest := ihr hr hdepth
    rw [height]
    omega

end Forest

end Groundwork
