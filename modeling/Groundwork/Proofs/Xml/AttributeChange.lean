import Groundwork.Proofs.Xml.Attribute
import Mathlib.Data.List.Induction

/-!
# `Proofs.Xml.AttributeChange` — attributes as a map that keeps the order of insertion

A list of attributes is changed by putting a value under a name and by removing a name. Seen as a
map, it holds under each name what was last put there and not removed since; seen as a list, it has
the names in the order in which they came in, where a name that is put again stays and one that is
removed and put again comes in anew. Both are told from the history of changes alone, and a list
that was there before the changes is one more part of the history: the values that it would have
been made of.

## Contents

* `Change`, `Change.apply`, `run` — changes to a list; `run_madeOf`, a list from its own history.
* `LastPut`, `get?_run_iff` — **the map**: the last value put counts.
* `PutsIn`, `TakesOut` — one change, seen on the list; `putsIn_put`, `takesOut_remove`.
* `CameBefore`, `sublist_names_run_iff` — **the order**: names stand as they came in.
-/

namespace Groundwork.Xml.Attribute

/-! ## Changes -/

/-- A change to the attributes of an element. -/
inductive Change where
  /-- A value for a name. -/
  | put (name value : String)
  /-- No value for a name any more. -/
  | remove (name : String)
  deriving DecidableEq, Repr

namespace Change

/-- The name that a change is about. -/
def name : Change → String
  | .put name _ | .remove name => name

/-- The list after a change. Under what is no name, nothing is put. -/
def apply (attributes : List Attribute) : Change → List Attribute
  | .put name value =>
    if isName name.toList then Attribute.put name value attributes else attributes
  | .remove name => Attribute.remove name attributes

end Change

/-- The list after some changes, the first of them first. -/
def run (attributes : List Attribute) (changes : List Change) : List Attribute :=
  changes.foldl Change.apply attributes

/-- The changes that make a list from nothing. -/
def madeOf (attributes : List Attribute) : List Change :=
  attributes.map fun a => .put a.name a.value

theorem run_concat (attributes : List Attribute) (changes : List Change) (change : Change) :
    run attributes (changes ++ [change]) = change.apply (run attributes changes) := by
  rw [run, List.foldl_append]
  rfl

theorem Named.apply {attributes : List Attribute} (h : Named attributes) (change : Change) :
    Named (change.apply attributes) := by
  cases change with
  | put name value =>
    rw [Change.apply]
    split
    · next hname => exact h.put hname value
    · exact h
  | remove name => exact h.remove name

theorem get?_eq_none_iff {name : String} {attributes : List Attribute} :
    get? name attributes = none ↔ ∀ a ∈ attributes, a.name ≠ name := by
  simp [get?]

theorem remove_of_get?_eq_none {name : String} {attributes : List Attribute}
    (h : get? name attributes = none) : remove name attributes = attributes := by
  rw [remove, List.eraseP_eq_self_iff]
  simpa using get?_eq_none_iff.1 h

/-- **Names stay names and distinct**, whatever is changed. -/
theorem Named.run {attributes : List Attribute} (h : Named attributes) (changes : List Change) :
    Named (Attribute.run attributes changes) := by
  induction changes generalizing attributes with
  | nil => exact h
  | cons change changes ih => exact ih (h.apply change)

/-- A list is what its own history makes. -/
theorem run_madeOf {attributes : List Attribute} (h : Named attributes) :
    run [] (madeOf attributes) = attributes := by
  have hbehind (front back : List Attribute) (hnamed : Named (front ++ back)) :
      run front (madeOf back) = front ++ back := by
    induction back generalizing front with
    | nil => rw [List.append_nil]; rfl
    | cons a back ih =>
      have hname : isName a.name.toList = true := hnamed.isName a (by simp)
      have hput : Change.apply front (.put a.name a.value) = front ++ [a] := by
        rw [Change.apply, if_pos hname, put_of_not_mem a.value hnamed.ne_of_append_cons]
      show run (Change.apply front (.put a.name a.value)) (madeOf back) = front ++ a :: back
      rw [hput, ih (front ++ [a]) (by simpa using hnamed), List.append_assoc]
      rfl
  exact hbehind [] attributes h

theorem run_append (attributes : List Attribute) (front back : List Change) :
    run attributes (front ++ back) = run (run attributes front) back :=
  List.foldl_append

/-- Changes to a list are changes to nothing, behind those that make the list. -/
theorem run_eq {attributes : List Attribute} (h : Named attributes) (changes : List Change) :
    run attributes changes = run [] (madeOf attributes ++ changes) := by
  rw [run_append, run_madeOf h]

/-! ## The map -/

/-- `value` was put under `name`, and later on nothing more was put there, nor was it removed. -/
def LastPut (name value : String) (history : List Change) : Prop :=
  ∃ front back, history = front ++ .put name value :: back ∧ isName name.toList = true ∧
    ∀ change ∈ back, change.name ≠ name

theorem not_lastPut_nil (name value : String) : ¬ LastPut name value [] := by
  rintro ⟨front, back, hhistory, -⟩
  simp at hhistory

/-- A change decides about its own name and leaves all others. -/
theorem lastPut_concat_iff {name value : String} {history : List Change} {change : Change} :
    LastPut name value (history ++ [change]) ↔
      change = .put name value ∧ isName name.toList = true ∨
        change.name ≠ name ∧ LastPut name value history := by
  constructor
  · rintro ⟨front, back, hhistory, hname, hback⟩
    rcases List.eq_nil_or_concat back with rfl | ⟨between, last, rfl⟩
    · exact .inl ⟨(List.append_inj' hhistory rfl).2 |> List.singleton_inj.1, hname⟩
    · rw [List.concat_eq_append, ← List.cons_append, ← List.append_assoc] at hhistory
      obtain ⟨rfl, hlast⟩ := List.append_inj' hhistory rfl
      obtain rfl := List.singleton_inj.1 hlast
      rw [List.concat_eq_append, List.forall_mem_append, List.forall_mem_singleton] at hback
      exact .inr ⟨hback.2, front, between, rfl, hname, hback.1⟩
  · rintro (⟨rfl, hname⟩ | ⟨hother, front, back, rfl, hname, hback⟩)
    · exact ⟨history, [], rfl, hname, List.forall_mem_nil _⟩
    · refine ⟨front, back ++ [change], by simp, hname, ?_⟩
      rw [List.forall_mem_append, List.forall_mem_singleton]
      exact ⟨hback, hother⟩

theorem get?_remove_self {name : String} {attributes : List Attribute}
    (h : (attributes.map (·.name)).Nodup) : get? name (remove name attributes) = none := by
  rw [get?_eq_none_iff]
  induction attributes with
  | nil => exact List.forall_mem_nil _
  | cons a attributes ih =>
    rw [List.map_cons, List.nodup_cons] at h
    rw [remove, List.eraseP_cons]
    by_cases ha : a.name = name
    · intro b hb
      have hmem : b ∈ attributes := by simpa [ha] using hb
      intro hsame
      exact h.1 (List.mem_map.2 ⟨b, hmem, hsame.trans ha.symm⟩)
    · simp only [ha, decide_false, cond_false, List.forall_mem_cons]
      exact ⟨ha, ih h.2⟩

theorem get?_eq_none_of_named {name : String} {attributes : List Attribute} (h : Named attributes)
    (hname : isName name.toList = false) : get? name attributes = none := by
  rw [get?_eq_none_iff]
  rintro a ha rfl
  rw [h.isName a ha] at hname
  cases hname

theorem get?_apply_of_ne {name : String} {change : Change} (attributes : List Attribute)
    (h : change.name ≠ name) : get? name (change.apply attributes) = get? name attributes := by
  cases change with
  | put other value =>
    have hother : other ≠ name := h
    rw [Change.apply]
    split
    · rw [get?_put, if_neg hother]
    · rfl
  | remove other => exact get?_remove_of_ne attributes h

/-- **The last value put counts**, unless its name has been removed since. -/
theorem get?_run_iff {name value : String} (history : List Change) :
    get? name (run [] history) = some value ↔ LastPut name value history := by
  induction history using List.reverseRecOn with
  | nil => exact iff_of_false nofun (not_lastPut_nil name value)
  | append_singleton history change ih =>
    have hnamed : Named (run [] history) := named_nil.run history
    rw [run_concat, lastPut_concat_iff]
    by_cases hsame : change.name = name
    · cases change with
      | put other found =>
        obtain rfl : other = name := hsame
        rw [Change.apply]
        by_cases hname : isName other.toList = true
        · simp [Change.name, hname, get?_put]
        · have hno : isName other.toList = false := Bool.eq_false_iff.2 hname
          rw [if_neg hname, get?_eq_none_of_named hnamed hno]
          simp [Change.name, hno]
      | remove other =>
        obtain rfl : other = name := hsame
        simp [Change.apply, Change.name, get?_remove_self hnamed.nodup]
    · rw [get?_apply_of_ne _ hsame, ih]
      constructor
      · exact fun hlast => .inr ⟨hsame, hlast⟩
      · rintro (⟨rfl, -⟩ | ⟨-, hlast⟩)
        · exact absurd rfl hsame
        · exact hlast

/-! ## One change, seen on the list -/

/-- A value that is put takes the place of the one before it, or goes to the end. -/
inductive PutsIn (name value : String) : List Attribute → List Attribute → Prop where
  | replaced (front back : List Attribute) (old : String) :
    PutsIn name value (front ++ ⟨name, old⟩ :: back) (front ++ ⟨name, value⟩ :: back)
  | added {attributes : List Attribute} (hnew : ∀ a ∈ attributes, a.name ≠ name) :
    PutsIn name value attributes (attributes ++ [⟨name, value⟩])

/-- An attribute is taken out, and those around it stay as they are. -/
inductive TakesOut (name value : String) : List Attribute → List Attribute → Prop where
  | intro (front back : List Attribute) :
    TakesOut name value (front ++ ⟨name, value⟩ :: back) (front ++ back)

theorem putsIn_put (name value : String) (attributes : List Attribute) :
    PutsIn name value attributes (put name value attributes) := by
  induction attributes with
  | nil => exact .added (List.forall_mem_nil _)
  | cons a attributes ih =>
    rw [put]
    split
    · next ha =>
      obtain ⟨_, old⟩ := a
      subst ha
      exact .replaced [] attributes old
    · next ha =>
      generalize put name value attributes = after at ih
      cases ih with
      | replaced front back old => exact .replaced (a :: front) back old
      | added hnew => exact .added (List.forall_mem_cons.2 ⟨ha, hnew⟩)

theorem takesOut_remove {name value : String} {attributes : List Attribute}
    (h : get? name attributes = some value) :
    TakesOut name value attributes (remove name attributes) := by
  induction attributes with
  | nil => cases h
  | cons a attributes ih =>
    rw [get?_cons] at h
    rw [remove, List.eraseP_cons]
    by_cases ha : a.name = name
    · rw [if_pos ha] at h
      obtain ⟨_, found⟩ := a
      obtain rfl := Option.some.inj h
      obtain rfl : _ = name := ha
      simpa using TakesOut.intro [] attributes
    · rw [if_neg ha] at h
      have hrest := ih h
      rw [remove] at hrest
      simp only [ha, decide_false, cond_false]
      generalize attributes.eraseP (fun a => a.name = name) = after at hrest
      cases hrest with
      | intro front back => exact .intro (a :: front) back

/-! ## The order -/

/-- The names in a list, in its order. -/
def names (attributes : List Attribute) : List String := attributes.map (·.name)

/-- `name` is there after these changes. -/
def Present (name : String) (history : List Change) : Prop := ∃ value, LastPut name value history

/-- `first` came in while `second` was not there, and has not been removed since. -/
def Since (first second : String) (history : List Change) : Prop :=
  ∃ front back, history = front ++ back ∧ Present first front ∧ ¬ Present second front ∧
    ∀ change ∈ back, change ≠ .remove first

/-- `second` is there, and `first` has been there since a time when it was not. -/
def CameBefore (first second : String) (history : List Change) : Prop :=
  Present second history ∧ Since first second history

theorem present_iff {name : String} {history : List Change} :
    Present name history ↔ name ∈ names (run [] history) := by
  have hget (attributes : List Attribute) :
      (∃ value, get? name attributes = some value) ↔ name ∈ names attributes := by
    rw [← Option.isSome_iff_exists, ← Option.ne_none_iff_isSome, Ne, get?_eq_none_iff]
    simp [names]
  simp only [Present, ← get?_run_iff, hget]

theorem names_put (name value : String) (attributes : List Attribute) :
    names (put name value attributes) =
      if name ∈ names attributes then names attributes else names attributes ++ [name] :=
  map_name_put name value attributes

/-- A name that is there stays where it is, and so does everything under what is no name. -/
theorem names_apply_put (name value : String) (attributes : List Attribute) :
    names ((Change.put name value).apply attributes) =
      if isName name.toList = true ∧ name ∉ names attributes then names attributes ++ [name]
      else names attributes := by
  rw [Change.apply, apply_ite names, names_put]
  grind

theorem names_remove {attributes : List Attribute} (h : (names attributes).Nodup) (name : String) :
    names (remove name attributes) = (names attributes).filter (· ≠ name) := by
  induction attributes with
  | nil => rfl
  | cons a attributes ih =>
    obtain ⟨hnot, hnodup⟩ := List.nodup_cons.1 h
    show names ((a :: attributes).eraseP _) = (a.name :: names attributes).filter _
    by_cases ha : a.name = name
    · have hself : (names attributes).filter (· ≠ name) = names attributes := by
        rw [List.filter_eq_self]
        intro other hother
        rw [decide_eq_true_eq]
        rintro rfl
        have hin : a.name ∈ names attributes := by rwa [ha]
        exact hnot hin
      rw [List.eraseP_cons_of_pos (by simpa using ha), List.filter_cons_of_neg (by simpa using ha),
        hself]
    · rw [List.eraseP_cons_of_neg (by simpa using ha), List.filter_cons_of_pos (by simpa using ha),
        ← ih hnodup]
      rfl

/-- What is there and is not removed stays. -/
theorem Present.append {name : String} {front back : List Change} (h : Present name front)
    (hback : ∀ change ∈ back, change ≠ .remove name) : Present name (front ++ back) := by
  induction back using List.reverseRecOn with
  | nil => rwa [List.append_nil]
  | append_singleton back change ih =>
    rw [List.forall_mem_append, List.forall_mem_singleton] at hback
    have hmem := present_iff.1 (ih hback.1)
    rw [present_iff, ← List.append_assoc, run_concat]
    cases change with
    | put other value =>
      rw [names_apply_put]
      split
      · exact List.mem_append_left _ hmem
      · exact hmem
    | remove other =>
      have hother : name ≠ other := by
        rintro rfl
        exact hback.2 rfl
      rw [Change.apply, names_remove (named_nil.run _).nodup]
      simpa using ⟨hmem, hother⟩

theorem Since.present {first second : String} {history : List Change}
    (h : Since first second history) : Present first history := by
  obtain ⟨front, back, rfl, hfirst, -, hback⟩ := h
  exact hfirst.append hback

/-- With `second` there, the time when it was not lies in front of the last change. -/
theorem cameBefore_concat_iff {first second : String} {history : List Change} {change : Change} :
    CameBefore first second (history ++ [change]) ↔
      Present second (history ++ [change]) ∧ Since first second history ∧
        change ≠ .remove first := by
  refine and_congr_right fun hsecond => ?_
  constructor
  · rintro ⟨front, back, hhistory, hfirst, hnot, hback⟩
    rcases List.eq_nil_or_concat back with rfl | ⟨between, last, rfl⟩
    · rw [List.append_nil] at hhistory
      exact absurd (hhistory ▸ hsecond) hnot
    · rw [List.concat_eq_append, ← List.append_assoc] at hhistory
      obtain ⟨rfl, hlast⟩ := List.append_inj' hhistory rfl
      obtain rfl := List.singleton_inj.1 hlast
      rw [List.concat_eq_append, List.forall_mem_append, List.forall_mem_singleton] at hback
      exact ⟨⟨front, between, rfl, hfirst, hnot, hback.1⟩, hback.2⟩
  · rintro ⟨⟨front, back, rfl, hfirst, hnot, hback⟩, hchange⟩
    refine ⟨front, back ++ [change], List.append_assoc _ _ _, hfirst, hnot, ?_⟩
    rw [List.forall_mem_append, List.forall_mem_singleton]
    exact ⟨hback, hchange⟩

theorem sublist_concat_iff {first second name : String} {xs : List String} :
    [first, second].Sublist (xs ++ [name]) ↔
      [first, second].Sublist xs ∨ first ∈ xs ∧ second = name := by
  constructor
  · intro h
    obtain ⟨front, back, heq, hfront, hback⟩ := List.sublist_append_iff.1 h
    rcases List.sublist_singleton.1 hback with rfl | rfl
    · rw [List.append_nil] at heq
      exact .inl (heq ▸ hfront)
    · have hlast : [first] ++ [second] = front ++ [name] := heq
      obtain ⟨rfl, hsecond⟩ := List.append_inj' hlast rfl
      exact .inr ⟨List.singleton_sublist.1 hfront, List.singleton_inj.1 hsecond⟩
  · rintro (h | ⟨hfirst, rfl⟩)
    · exact h.trans (List.sublist_append_left _ _)
    · exact (List.singleton_sublist.2 hfirst).append (List.Sublist.refl [second])

theorem sublist_filter_ne_iff {first second name : String} {xs : List String} :
    [first, second].Sublist (xs.filter (· ≠ name)) ↔
      first ≠ name ∧ second ≠ name ∧ [first, second].Sublist xs := by
  constructor
  · intro h
    have hall : ∀ other ∈ [first, second], other ≠ name := fun other hother => by
      simpa using (List.mem_filter.1 (h.subset hother)).2
    exact ⟨hall first (by simp), hall second (by simp), h.trans List.filter_sublist⟩
  · rintro ⟨hfirst, hsecond, h⟩
    simpa [hfirst, hsecond] using h.filter (· ≠ name)

/-- **Names stand in the order in which they came in.** -/
theorem sublist_names_run_iff {first second : String} (history : List Change) :
    [first, second].Sublist (names (run [] history)) ↔ CameBefore first second history := by
  induction history using List.reverseRecOn with
  | nil =>
    refine iff_of_false (by simp [run, names]) ?_
    rintro ⟨⟨value, hlast⟩, -⟩
    exact not_lastPut_nil _ _ hlast
  | append_singleton history change ih =>
    have hnodup : (names (run [] history)).Nodup := (named_nil.run history).nodup
    have hsince : Since first second history → first ∈ names (run [] history) := fun h =>
      present_iff.1 h.present
    rw [cameBefore_concat_iff, present_iff, run_concat]
    rw [CameBefore, present_iff] at ih
    cases change with
    | put name value =>
      rw [names_apply_put]
      split
      · next hin =>
        rw [sublist_concat_iff, ih, List.mem_append, List.mem_singleton]
        constructor
        · rintro (⟨hsecond, hfirst⟩ | ⟨hfirst, rfl⟩)
          · exact ⟨.inl hsecond, hfirst, nofun⟩
          · have hnot : ¬ Present second history := mt present_iff.1 hin.2
            exact ⟨.inr rfl, ⟨history, [], by simp, present_iff.2 hfirst, hnot,
              List.forall_mem_nil _⟩, nofun⟩
        · rintro ⟨hsecond | rfl, hfirst, -⟩
          · exact .inl ⟨hsecond, hfirst⟩
          · exact .inr ⟨hsince hfirst, rfl⟩
      · rw [ih]
        simp
    | remove name =>
      have hother : Change.remove name ≠ .remove first ↔ first ≠ name := by simp [eq_comm]
      rw [Change.apply, names_remove hnodup, sublist_filter_ne_iff, ih, List.mem_filter,
        decide_eq_true_eq, hother]
      constructor
      · rintro ⟨hfirst, hsecond, hmem, hsince⟩
        exact ⟨⟨hmem, hsecond⟩, hsince, hfirst⟩
      · rintro ⟨⟨hmem, hsecond⟩, hsince, hfirst⟩
        exact ⟨hfirst, hsecond, hmem, hsince⟩

end Groundwork.Xml.Attribute
