import Groundwork.Proofs.Tree.Entry
import Mathlib.Data.List.Range

/-!
# `Proofs.Tree.Forest` — trees by recursion

A forest is a list of nodes with a forest below each. It holds the same as the entries of a tree,
but by recursion: entries are a forest written down in order, each node with the number of its
parent. A forest of numbers *follows* a function that gives the children of each number when below
every number there are exactly its children, in their order.

## Contents

* `Forest`, `Forest.toList`, `Forest.roots`, `Forest.height` — forests and what they consist of.
* `Forest.Follows`, `Follows.map_eq`, `Follows.toList_perm` — a forest given by the children of its
  nodes.
* `Forest.entries`, `Forest.numbered` — a forest as entries, and the numbers that its nodes get.
* `follows_numbered` — **the children of the entries are those of the forest.**
* `Forest.tree`, `Forest.Spans` — a document with a forest in it, and the forest of a document.
-/

namespace Groundwork

/-- A list of nodes with a forest below each. -/
inductive Forest (α : Type) where
  | nil
  /-- The first node, what is below it, and what stands behind it. -/
  | cons (root : α) (below rest : Forest α)
  deriving DecidableEq, Repr

namespace Forest

variable {α β : Type}

/-! ## What a forest consists of -/

/-- The number of nodes. -/
def size : Forest α → Nat
  | nil => 0
  | cons _ below rest => 1 + below.size + rest.size

/-- The number of levels. -/
def height : Forest α → Nat
  | nil => 0
  | cons _ below rest => max (below.height + 1) rest.height

/-- All nodes, each before those below it. -/
def toList : Forest α → List α
  | nil => []
  | cons root below rest => root :: (below.toList ++ rest.toList)

/-- The nodes at the top. -/
def roots : Forest α → List α
  | nil => []
  | cons root _ rest => root :: rest.roots

/-- The forest with another node in place of each. -/
def map (f : α → β) : Forest α → Forest β
  | nil => nil
  | cons root below rest => cons (f root) (below.map f) (rest.map f)

/-- Two forests side by side. -/
def append : Forest α → Forest α → Forest α
  | nil, other => other
  | cons root below rest, other => cons root below (rest.append other)

/-- The forest is empty. -/
def isEmpty : Forest α → Bool
  | nil => true
  | cons _ _ _ => false

@[simp] theorem length_toList (f : Forest α) : f.toList.length = f.size := by
  induction f with
  | nil => rfl
  | cons root below rest ihb ihr =>
    rw [toList, List.length_cons, List.length_append, ihb, ihr, size]
    omega

@[simp] theorem toList_map (g : α → β) (f : Forest α) : (f.map g).toList = f.toList.map g := by
  induction f with
  | nil => rfl
  | cons root below rest ihb ihr =>
    rw [map, toList, ihb, ihr, toList, List.map_cons, List.map_append]

@[simp] theorem roots_map (g : α → β) (f : Forest α) : (f.map g).roots = f.roots.map g := by
  induction f with
  | nil => rfl
  | cons root below rest ihb ihr => rw [map, roots, ihr, roots, List.map_cons]

@[simp] theorem size_map (g : α → β) (f : Forest α) : (f.map g).size = f.size := by
  rw [← length_toList, toList_map, List.length_map, length_toList]

@[simp] theorem height_map (g : α → β) (f : Forest α) : (f.map g).height = f.height := by
  induction f with
  | nil => rfl
  | cons root below rest ihb ihr => rw [map, height, ihb, ihr, height]

@[simp] theorem isEmpty_map (g : α → β) (f : Forest α) : (f.map g).isEmpty = f.isEmpty := by
  cases f <;> rfl

theorem isEmpty_iff {f : Forest α} : f.isEmpty = true ↔ f = nil := by
  cases f <;> simp [isEmpty]

@[simp] theorem append_nil (f : Forest α) : f.append nil = f := by
  induction f with
  | nil => rfl
  | cons root below rest _ ihr => rw [append, ihr]

@[simp] theorem size_append (f g : Forest α) : (f.append g).size = f.size + g.size := by
  induction f with
  | nil => rw [append, size, Nat.zero_add]
  | cons root below rest _ ihr => rw [append, size, ihr, size]; omega

@[simp] theorem height_append (f g : Forest α) :
    (f.append g).height = max f.height g.height := by
  induction f with
  | nil => rw [append, height, Nat.zero_max]
  | cons root below rest _ ihr => rw [append, height, ihr, height]; omega

theorem roots_append (f g : Forest α) : (f.append g).roots = f.roots ++ g.roots := by
  induction f with
  | nil => rfl
  | cons root below rest _ ihr => rw [append, roots, ihr, roots, List.cons_append]

theorem toList_append (f g : Forest α) : (f.append g).toList = f.toList ++ g.toList := by
  induction f with
  | nil => rfl
  | cons root below rest _ ihr =>
    rw [append, toList, ihr, toList, List.cons_append, List.append_assoc]

theorem map_append {β : Type} (change : α → β) (f g : Forest α) :
    (f.append g).map change = (f.map change).append (g.map change) := by
  induction f with
  | nil => rfl
  | cons root below rest _ ihr => rw [append, map, ihr, map, append]

/-- A forest can be taken apart between any two of its roots. -/
theorem exists_append_of_roots {s : Forest α} {front back : List α}
    (h : s.roots = front ++ back) :
    ∃ f g : Forest α, s = f.append g ∧ f.roots = front ∧ g.roots = back := by
  induction front generalizing s with
  | nil => exact ⟨nil, s, rfl, rfl, h⟩
  | cons first front ih =>
    cases s with
    | nil => cases h
    | cons root below rest =>
      rw [roots, List.cons_append, List.cons.injEq] at h
      obtain ⟨f, g, rfl, hf, hg⟩ := ih h.2
      exact ⟨cons root below f, g, rfl, by rw [roots, hf, h.1], hg⟩

/-! ## Forests given by the children of their nodes -/

/-- Below every node of the forest there are its children. -/
def Follows (children : α → List α) : Forest α → Prop
  | nil => True
  | cons root below rest =>
    below.roots = children root ∧ below.Follows children ∧ rest.Follows children

theorem Follows.congr {children others : α → List α} {f : Forest α} (h : f.Follows children)
    (heq : ∀ x ∈ f.toList, children x = others x) : f.Follows others := by
  induction f with
  | nil => trivial
  | cons root below rest ihb ihr =>
    simp only [toList, List.mem_cons, List.mem_append] at heq
    exact ⟨h.1.trans (heq root (.inl rfl)), ihb h.2.1 fun x hx => heq x (.inr (.inl hx)),
      ihr h.2.2 fun x hx => heq x (.inr (.inr hx))⟩

theorem follows_append_iff {children : α → List α} {f g : Forest α} :
    (f.append g).Follows children ↔ f.Follows children ∧ g.Follows children := by
  induction f with
  | nil => exact (and_iff_right trivial).symm
  | cons root below rest _ ihr =>
    simp only [append, Follows, ihr, and_assoc]

/-- **A forest is its roots and the children of its nodes.** -/
theorem Follows.toList_perm {children : α → List α} {f : Forest α} (h : f.Follows children) :
    f.toList.Perm (f.roots ++ f.toList.flatMap children) := by
  induction f with
  | nil => exact .refl _
  | cons root below rest ihb ihr =>
    have hb := ihb h.2.1
    have hr := ihr h.2.2
    rw [h.1] at hb
    rw [toList, roots, List.flatMap_cons, List.flatMap_append, List.cons_append, List.perm_cons]
    refine (hb.append hr).trans ?_
    rw [← List.append_assoc, ← List.append_assoc, ← List.append_assoc]
    refine List.Perm.append_right _ ?_
    exact List.perm_append_comm.trans (by rw [List.append_assoc])

/-- The same shape over two functions: the children of corresponding nodes correspond. -/
theorem Follows.map_eq {children : α → List α} {others : β → List β} {g : α → β} {f : Forest α}
    (h : f.Follows children) (hmap : (f.map g).Follows others) :
    ∀ x ∈ f.toList, others (g x) = (children x).map g := by
  induction f with
  | nil => simp [toList]
  | cons root below rest ihb ihr =>
    intro x hx
    rw [toList, List.mem_cons, List.mem_append] at hx
    rcases hx with rfl | hx | hx
    · rw [← hmap.1, roots_map, h.1]
    · exact ihb h.2.1 hmap.2.1 x hx
    · exact ihr h.2.2 hmap.2.2 x hx

/-! ## A forest as entries -/

/-- The entries of a forest below `parent`, of which the first gets the number `start`. -/
def entries (parent : NodeId) (depth : Nat) (start : NodeId) : Forest Label → List Tree.Entry
  | nil => []
  | cons label below rest =>
    ⟨some parent, depth, label⟩ :: (below.entries start (depth + 1) (start + 1) ++
      rest.entries parent depth (start + 1 + below.size))

/-- The numbers that the nodes of a forest get as entries. -/
def numbered (start : NodeId) : Forest α → Forest NodeId
  | nil => nil
  | cons _ below rest =>
    cons start (below.numbered (start + 1)) (rest.numbered (start + 1 + below.size))

@[simp] theorem length_entries (parent depth start : Nat) (f : Forest Label) :
    (f.entries parent depth start).length = f.size := by
  induction f generalizing parent depth start with
  | nil => rfl
  | cons label below rest ihb ihr =>
    rw [entries, List.length_cons, List.length_append, ihb, ihr, size]
    omega

theorem map_label_entries (parent depth start : Nat) (f : Forest Label) :
    (f.entries parent depth start).map (·.label) = f.toList := by
  induction f generalizing parent depth start with
  | nil => rfl
  | cons label below rest ihb ihr =>
    rw [entries, List.map_cons, List.map_append, ihb, ihr, toList]

theorem entries_append (parent depth start : Nat) (f g : Forest Label) :
    (f.append g).entries parent depth start =
      f.entries parent depth start ++ g.entries parent depth (start + f.size) := by
  induction f generalizing start with
  | nil => rfl
  | cons label below rest _ ihr =>
    have hstart : start + 1 + below.size + rest.size = start + (1 + below.size + rest.size) := by
      omega
    rw [append, entries, ihr, entries, size, List.cons_append, List.append_assoc, hstart]

theorem toList_numbered (start : Nat) (f : Forest α) :
    (f.numbered start).toList = List.range' start f.size := by
  induction f generalizing start with
  | nil => rfl
  | cons root below rest ihb ihr =>
    rw [numbered, toList, ihb, ihr, size, List.range'_append_1, Nat.add_assoc, Nat.add_comm 1,
      List.range'_succ]

/-- The numbers depend on the shape of a forest alone. -/
@[simp] theorem numbered_map (g : α → β) (start : Nat) (f : Forest α) :
    (f.map g).numbered start = f.numbered start := by
  induction f generalizing start with
  | nil => rfl
  | cons root below rest ihb ihr => rw [map, numbered, ihb, ihr, size_map, numbered]

@[simp] theorem size_numbered (start : Nat) (f : Forest α) : (f.numbered start).size = f.size := by
  rw [← length_toList, toList_numbered, List.length_range']

theorem numbered_numbered (start other : Nat) (f : Forest α) :
    (f.numbered start).numbered other = f.numbered other := by
  induction f generalizing start other with
  | nil => rfl
  | cons root below rest ihb ihr => rw [numbered, numbered, ihb, ihr, size_numbered, numbered]

/-- The shape of a forest and the list of its nodes determine it. -/
theorem eq_of_numbered {start : Nat} {f g : Forest α} (hshape : f.numbered start = g.numbered start)
    (hlist : f.toList = g.toList) : f = g := by
  induction f generalizing g start with
  | nil =>
    cases g with
    | nil => rfl
    | cons root below rest => cases hshape
  | cons root below rest ihb ihr =>
    cases g with
    | nil => cases hshape
    | cons root' below' rest' =>
      rw [numbered, numbered, cons.injEq] at hshape
      obtain ⟨-, hbelow, hrest⟩ := hshape
      have hsize : below.size = below'.size := by
        have hsizes := congrArg size hbelow
        rwa [size_numbered, size_numbered] at hsizes
      rw [toList, toList, List.cons.injEq] at hlist
      obtain ⟨hlistBelow, hlistRest⟩ :=
        List.append_inj hlist.2 (by rw [length_toList, length_toList, hsize])
      rw [hsize] at hrest
      rw [hlist.1, ihb hbelow hlistBelow, ihr hrest hlistRest]

/-- A forest that has its nodes in the order of their numbers is numbered. -/
theorem eq_numbered {start : Nat} {f : Forest NodeId}
    (h : f.toList = List.range' start f.size) : f = f.numbered start := by
  induction f generalizing start with
  | nil => rfl
  | cons root below rest ihb ihr =>
    have hsize : 1 + below.size + rest.size = below.size + rest.size + 1 := by omega
    rw [toList, size, hsize, List.range'_succ, ← List.range'_append_1, List.cons.injEq] at h
    obtain ⟨hbelow, hrest⟩ := List.append_inj h.2 (by rw [length_toList, List.length_range'])
    rw [numbered, ← ihb hbelow, ← ihr hrest, h.1]

/-- The entries of a forest have their parents in it, but for those at the top. -/
theorem parent_of_mem_entries {parent depth start : Nat} {f : Forest Label} {e : Tree.Entry}
    (h : e ∈ f.entries parent depth start) :
    e.parent = some parent ∨ ∃ above : Nat, e.parent = some above ∧ start ≤ above ∧
      above < start + f.size := by
  induction f generalizing parent depth start with
  | nil => cases h
  | cons label below rest ihb ihr =>
    rw [entries, List.mem_cons, List.mem_append] at h
    rw [size]
    rcases h with rfl | h | h
    · exact .inl rfl
    · rcases ihb h with habove | ⟨above, habove, hle, hlt⟩
      · exact .inr ⟨start, habove, Nat.le_refl _, by omega⟩
      · exact .inr ⟨above, habove, by omega, by omega⟩
    · rcases ihr h with habove | ⟨above, habove, hle, hlt⟩
      · exact .inl habove
      · exact .inr ⟨above, habove, by omega, by omega⟩

/-- The numbers of the entries below `id`, of which the first has the number `start`. -/
def idsBelow (start : Nat) (es : List Tree.Entry) (id : NodeId) : List NodeId :=
  es.findIdxs (fun e => e.parent = some id) start

theorem idsBelow_cons_of_ne {start id : Nat} {e : Tree.Entry} (h : e.parent ≠ some id)
    (es : List Tree.Entry) : idsBelow start (e :: es) id = idsBelow (start + 1) es id := by
  rw [idsBelow, List.findIdxs_cons, if_neg (by simpa using h), idsBelow]

theorem idsBelow_append (start id : Nat) (es others : List Tree.Entry) :
    idsBelow start (es ++ others) id =
      idsBelow start es id ++ idsBelow (start + es.length) others id :=
  List.findIdxs_append

/-- Outside its numbers, a forest has entries below `parent` alone. -/
theorem idsBelow_entries_eq_nil {parent depth start id : Nat} (f : Forest Label)
    (hne : id ≠ parent) (hid : id < start ∨ start + f.size ≤ id) :
    idsBelow start (f.entries parent depth start) id = [] := by
  rw [idsBelow, List.findIdxs_eq_nil_iff]
  intro e he
  have hparent : e.parent ≠ some id := by
    intro habove
    rcases parent_of_mem_entries he with h | ⟨above, h, hle, hlt⟩
    · exact hne (Option.some.inj (habove.symm.trans h))
    · have : id = above := Option.some.inj (habove.symm.trans h)
      omega
  simpa using hparent

theorem idsBelow_entries_parent {parent depth start : Nat} (f : Forest Label)
    (h : parent < start) :
    idsBelow start (f.entries parent depth start) parent = (f.numbered start).roots := by
  induction f generalizing start with
  | nil => rfl
  | cons label below rest _ ihr =>
    have hbelow : idsBelow (start + 1) (below.entries start (depth + 1) (start + 1)) parent = [] :=
      idsBelow_entries_eq_nil below (by omega) (.inl (by omega))
    rw [entries, numbered, roots, idsBelow, List.findIdxs_cons, if_pos (by simp), ← idsBelow,
      idsBelow_append, hbelow, length_entries, ihr (by omega), List.nil_append]

/-- **The children of the entries are those of the forest.** -/
theorem follows_numbered {parent depth start : Nat} (f : Forest Label) (h : parent < start) :
    (f.numbered start).Follows (idsBelow start (f.entries parent depth start)) := by
  induction f generalizing parent depth start with
  | nil => trivial
  | cons label below rest ihb ihr =>
    -- what any number but `parent` has below it
    have hids (id : Nat) (hne : id ≠ parent) :
        idsBelow start ((cons label below rest).entries parent depth start) id =
          idsBelow (start + 1) (below.entries start (depth + 1) (start + 1)) id ++
            idsBelow (start + 1 + below.size)
              (rest.entries parent depth (start + 1 + below.size)) id := by
      rw [entries, idsBelow_cons_of_ne (by simpa [eq_comm] using hne), idsBelow_append,
        length_entries]
    refine ⟨?_, ?_, ?_⟩
    · rw [hids start (by omega), idsBelow_entries_parent below (by omega),
        idsBelow_entries_eq_nil rest (by omega) (.inl (by omega)), List.append_nil]
    · have hbelow := @ihb start (depth + 1) (start + 1) (Nat.lt_succ_self start)
      apply hbelow.congr
      intro id hid
      rw [toList_numbered, List.mem_range'_1] at hid
      rw [hids id (by omega), idsBelow_entries_eq_nil rest (by omega) (.inl (by omega)),
        List.append_nil]
    · have hrest := @ihr parent depth (start + 1 + below.size) (by omega)
      apply hrest.congr
      intro id hid
      rw [toList_numbered, List.mem_range'_1] at hid
      rw [hids id (by omega), idsBelow_entries_eq_nil below (by omega) (.inr (by omega)),
        List.nil_append]

/-! ## Documents -/

theorem ordered_append_entries {front : List Tree.Entry} (h : Tree.Ordered front) {parent : NodeId}
    (hparent : parent < front.length) (depth : Nat) (f : Forest Label) :
    Tree.Ordered (front ++ f.entries parent depth front.length) := by
  induction f generalizing front parent depth with
  | nil => rwa [entries, List.append_nil]
  | cons label below rest ihb ihr =>
    have hroot : Tree.Ordered (front ++ [⟨some parent, depth, label⟩]) :=
      h.concat fun above habove => Option.some.inj habove ▸ hparent
    have hlt : front.length < (front ++ [(⟨some parent, depth, label⟩ : Tree.Entry)]).length := by
      simp
    have hbelow := ihb hroot hlt (depth + 1)
    have hrest := ihr hbelow (Nat.lt_of_lt_of_le hparent (by simp)) depth
    simpa [entries, Nat.add_assoc, Nat.add_comm 1] using hrest

/-- The entries of a document with this forest in it. -/
def documentEntries (f : Forest Label) : List Tree.Entry :=
  Tree.Entry.document :: f.entries Tree.root 1 1

/-- The tree of a document with this forest in it. -/
def tree (f : Forest Label) : Tree := Tree.ofEntries (f.entries Tree.root 1 1)

theorem linked_tree (f : Forest Label) : f.tree.Linked f.documentEntries :=
  Tree.linked_ofEntries (ordered_append_entries Tree.linked_empty.ordered (by decide) 1 f)

theorem childIds_documentEntries (f : Forest Label) (id : NodeId) :
    Tree.childIds f.documentEntries (some id) = idsBelow 1 (f.entries Tree.root 1 1) id := by
  rw [Tree.childIds, documentEntries, List.findIdxs_cons, if_neg (by simp [Tree.Entry.document])]
  rfl

/-- The forest holds what is below the document, each number above those of its children. -/
structure Spans (f : Forest NodeId) (entries : List Tree.Entry) : Prop where
  roots : f.roots = Tree.childIds entries (some Tree.root)
  follows : f.Follows fun id => Tree.childIds entries (some id)

theorem spans_numbered (f : Forest Label) : (f.numbered 1).Spans f.documentEntries where
  roots := by
    rw [childIds_documentEntries]
    exact (idsBelow_entries_parent f Nat.zero_lt_one).symm
  follows := by
    have hfollows := @follows_numbered Tree.root 1 1 f Nat.zero_lt_one
    exact hfollows.congr fun id _ => (childIds_documentEntries f id).symm

end Forest

end Groundwork
