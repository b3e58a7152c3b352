import Groundwork.Delegate.Client
import Mathlib.Algebra.BigOperators.Group.Finset.Basic
import Mathlib.Data.Fintype.BigOperators

/-!
# `Proofs.Delegate.Interleaving` — clients that leave each other alone

Each client of a delegate has handlers of its own and a program: changes that name only its own
handlers. What all clients together do to the delegate is a schedule, one change after the other,
in which each client's changes come in the order of its program. The handlers of one client are a
*part* of the delegate, and a change acts on the parts separately: it acts on the part of the client
that makes it as it acts on the whole, and it leaves every other part as it is. So each part ends up
as if its client had been alone.

## Contents

* `Delegate.part`, `Change.Uses`, `Apart` — the handlers of one client among all.
* `part_apply_of_uses`, `part_apply_of_apart` — what one change does to the parts.
* `Schedule`, `Interleaves` — programs run together.
* `part_applyAll` — **what a schedule does to a part.**
* `occurrences_applyAll_appends`, `size_applyAll_appends` — clients that only append.
-/

namespace Groundwork

variable {φ ι : Type}

/-! ## Handlers that count as one -/

namespace Handler

variable [DecidableEq φ]

@[simp] theorem same_self (h : Handler φ) : h.same h = true := by
  rcases h with ⟨cell, _ | f⟩ <;> simp [same]

theorem same_comm (h k : Handler φ) : h.same k = k.same h := by
  rcases h with ⟨cell, _ | f⟩ <;> rcases k with ⟨cell', _ | g⟩ <;> simp [same, eq_comm]

end Handler

/-! ## The part of one client -/

/-- The delegate with only those of its handlers that are a client's own. -/
def Delegate.part (d : Delegate φ) (own : Handler φ → Bool) : Delegate φ :=
  { d with handlers := d.handlers.filter own }

/-- A change that adds or removes, and names only a client's own handlers. -/
def Change.Uses (own : Handler φ → Bool) : Change φ → Prop
  | .append handler | .remove handler => own handler = true
  | .appendAll other | .removeAll other => ∀ handler ∈ other.handlers, own handler = true
  | .assign _ | .assignHandler _ | .clear => False

instance (own : Handler φ → Bool) (change : Change φ) : Decidable (change.Uses own) :=
  match change with
  | .append handler | .remove handler => inferInstanceAs (Decidable (own handler = true))
  | .appendAll other | .removeAll other =>
    inferInstanceAs (Decidable (∀ handler ∈ other.handlers, own handler = true))
  | .assign _ | .assignHandler _ | .clear => inferInstanceAs (Decidable False)

section Changes

variable [DecidableEq φ]

/-- No handler of one client counts as one of another client. -/
def Apart (owns : ι → Handler φ → Bool) : Prop :=
  ∀ i j, i ≠ j → ∀ h k, owns i h = true → owns j k = true → h.same k = false

/-- A client's change acts on its part as on the whole. -/
theorem part_apply_of_uses {own : Handler φ → Bool} {change : Change φ} (uses : change.Uses own)
    (d : Delegate φ) : (d.apply change).part own = (d.part own).apply change := by
  cases change with
  | append handler =>
    have kept : [handler].filter own = [handler] :=
      List.filter_eq_self.2 (by simpa [Change.Uses] using uses)
    simp only [Delegate.apply, Delegate.append, Delegate.part, List.filter_append, kept]
  | appendAll other =>
    have kept : other.handlers.filter own = other.handlers := List.filter_eq_self.2 uses
    simp only [Delegate.apply, Delegate.appendAll, Delegate.part, List.filter_append, kept]
  | remove handler =>
    simp only [Delegate.apply, Delegate.remove, Delegate.part, List.filter_filter, Bool.and_comm]
  | removeAll other =>
    simp only [Delegate.apply, Delegate.removeAll, Delegate.part, List.filter_filter, Bool.and_comm,
      Delegate.contains]
  | assign other => exact uses.elim
  | assignHandler handler => exact uses.elim
  | clear => exact uses.elim

/-- A client's change leaves the part of everybody else as it is. -/
theorem part_apply_of_apart {own other : Handler φ → Bool} {change : Change φ}
    (uses : change.Uses other)
    (apart : ∀ h k, own h = true → other k = true → h.same k = false) (d : Delegate φ) :
    (d.apply change).part own = d.part own := by
  have foreign {h : Handler φ} (of : other h = true) : own h = false :=
    Bool.eq_false_iff.2 fun mine => by simpa using apart h h mine of
  cases change with
  | append handler =>
    simp [Delegate.apply, Delegate.append, Delegate.part, foreign uses]
  | appendAll others =>
    have dropped : others.handlers.filter own = [] :=
      List.filter_eq_nil_iff.2 fun h mem => by simp [foreign (uses h mem)]
    simp only [Delegate.apply, Delegate.appendAll, Delegate.part, List.filter_append, dropped,
      List.append_nil]
  | remove handler =>
    simp only [Delegate.apply, Delegate.remove, Delegate.part, List.filter_filter]
    congr 1
    refine List.filter_congr fun h _ => ?_
    cases mine : own h with
    | false => rfl
    | true => simp [apart h handler mine uses]
  | removeAll others =>
    simp only [Delegate.apply, Delegate.removeAll, Delegate.part, List.filter_filter]
    congr 1
    refine List.filter_congr fun h _ => ?_
    cases mine : own h with
    | false => rfl
    | true =>
      have absent : others.contains h = false :=
        List.any_eq_false.2 fun k mem => by
          rw [Handler.same_comm, apart h k mine (uses k mem)]; simp
      simp [absent]
  | assign others => exact uses.elim
  | assignHandler handler => exact uses.elim
  | clear => exact uses.elim

end Changes

/-! ## Schedules -/

/-- Changes one after the other, each with the client that makes it. -/
abbrev Schedule (ι φ : Type) := List (ι × Change φ)

namespace Schedule

/-- The changes, whoever makes them. -/
def changes (schedule : Schedule ι φ) : List (Change φ) := schedule.map (·.2)

/-- The clients, in the order in which they make changes. -/
def clients (schedule : Schedule ι φ) : List ι := schedule.map (·.1)

variable [DecidableEq ι]

/-- The changes of one client. -/
def programOf (schedule : Schedule ι φ) (i : ι) : List (Change φ) :=
  (schedule.filter (·.1 = i)).map (·.2)

/-- The schedule runs the programs of all clients together: each client makes the changes of its
program in their order, and no others. -/
def Interleaves (schedule : Schedule ι φ) (programs : ι → List (Change φ)) : Prop :=
  ∀ i, schedule.programOf i = programs i

@[simp] theorem programOf_append (front back : Schedule ι φ) (i : ι) :
    programOf (front ++ back) i = programOf front i ++ programOf back i := by
  simp [programOf]

theorem programOf_cons_self (i : ι) (change : Change φ) (rest : Schedule ι φ) :
    programOf ((i, change) :: rest) i = change :: programOf rest i := by
  simp [programOf]

theorem programOf_cons_of_ne {i j : ι} (ne : j ≠ i) (change : Change φ) (rest : Schedule ι φ) :
    programOf ((j, change) :: rest) i = programOf rest i := by
  simp [programOf, ne]

theorem mem_programOf {schedule : Schedule ι φ} {i : ι} {change : Change φ} :
    change ∈ schedule.programOf i ↔ (i, change) ∈ schedule := by
  simp [programOf]

theorem length_programOf (schedule : Schedule ι φ) (i : ι) :
    (schedule.programOf i).length = schedule.clients.count i := by
  rw [programOf, clients, List.length_map, List.count_eq_countP, List.countP_map,
    List.countP_eq_length_filter]
  rfl

end Schedule

open Schedule

variable [DecidableEq φ] [DecidableEq ι]

/-- Every client finds its part as if it had been alone. -/
theorem part_applyAll {owns : ι → Handler φ → Bool} (apart : Apart owns) (schedule : Schedule ι φ)
    (uses : ∀ i, ∀ change ∈ schedule.programOf i, change.Uses (owns i)) (d : Delegate φ) (i : ι) :
    (d.applyAll schedule.changes).part (owns i)
      = (d.part (owns i)).applyAll (schedule.programOf i) := by
  induction schedule generalizing d with
  | nil => rfl
  | cons step rest ih =>
    obtain ⟨j, change⟩ := step
    have usesFirst : change.Uses (owns j) := uses j change (by simp [programOf_cons_self])
    have usesRest : ∀ i, ∀ c ∈ programOf rest i, c.Uses (owns i) := fun i c mem =>
      uses i c (mem_programOf.2 (List.mem_cons_of_mem _ (mem_programOf.1 mem)))
    have first : (d.applyAll (changes ((j, change) :: rest))).part (owns i)
        = ((d.apply change).part (owns i)).applyAll (programOf rest i) := ih usesRest _
    rw [first]
    by_cases mine : j = i
    · subst mine
      rw [part_apply_of_uses usesFirst, programOf_cons_self]
      rfl
    · have others := fun h k own other => apart i j (Ne.symm mine) h k own other
      rw [part_apply_of_apart usesFirst others, programOf_cons_of_ne mine]

/-! ## Clients that only append -/

omit [DecidableEq φ] in
@[simp] theorem length_appendProgram (handler : Handler φ) (times : Nat) :
    (appendProgram handler times).length = times := List.length_replicate

/-- A schedule of clients that append their handlers: the handlers come to stand behind those that
are there already, in the order of the schedule. -/
theorem handlers_applyAll_appends {handler : ι → Handler φ} {times : ι → Nat}
    {schedule : Schedule ι φ}
    (runs : schedule.Interleaves fun i => appendProgram (handler i) (times i)) (d : Delegate φ) :
    (d.applyAll schedule.changes).handlers = d.handlers ++ schedule.clients.map handler := by
  have appends : ∀ step ∈ schedule, step.2 = .append (handler step.1) := fun step mem =>
    List.eq_of_mem_replicate (runs step.1 ▸ mem_programOf.2 mem)
  clear runs
  induction schedule generalizing d with
  | nil => simp [changes, clients, Delegate.applyAll]
  | cons step rest ih =>
    obtain ⟨j, change⟩ := step
    obtain rfl : change = .append (handler j) := appends _ List.mem_cons_self
    have := ih (d.append (handler j)) fun step mem => appends step (List.mem_cons_of_mem _ mem)
    simpa [changes, clients, Delegate.applyAll, Delegate.apply, Delegate.append] using this

/-- Each client's handler has been added as often as its program says. -/
theorem occurrences_applyAll_appends {handler : ι → Handler φ} {times : ι → Nat}
    {schedule : Schedule ι φ} (different : ∀ i j, i ≠ j → (handler i).same (handler j) = false)
    (runs : schedule.Interleaves fun i => appendProgram (handler i) (times i)) (d : Delegate φ)
    (i : ι) :
    (d.applyAll schedule.changes).occurrences (handler i)
      = d.occurrences (handler i) + times i := by
  have counted : (fun j => (handler j).same (handler i)) = (· == i) := by
    funext j
    by_cases eq : j = i
    · simp [eq]
    · simp [different j i eq, eq]
  have made : (schedule.clients.map handler).countP (·.same (handler i)) = times i := by
    rw [List.countP_map, Function.comp_def, counted, ← List.count_eq_countP, ← length_programOf,
      runs i, length_appendProgram]
  rw [Delegate.occurrences, handlers_applyAll_appends runs, List.countP_append, made]
  rfl

/-- Nothing else has been added. -/
theorem size_applyAll_appends [Fintype ι] {handler : ι → Handler φ} {times : Nat}
    {schedule : Schedule ι φ} (runs : schedule.Interleaves fun i => appendProgram (handler i) times)
    (d : Delegate φ) :
    (d.applyAll schedule.changes).size = d.size + Fintype.card ι * times := by
  have each (i : ι) : schedule.clients.count i = times := by
    rw [← length_programOf, runs i, length_appendProgram]
  have all : schedule.clients.length = Fintype.card ι * times := by
    have counts := Multiset.sum_count_eq_card (m := (schedule.clients : Multiset ι))
      fun i _ => Finset.mem_univ i
    calc schedule.clients.length
        = ∑ i, schedule.clients.count i := by simpa using counts.symm
      _ = ∑ _i : ι, times := Finset.sum_congr rfl fun i _ => each i
      _ = Fintype.card ι * times := by simp
  rw [Delegate.size, handlers_applyAll_appends runs, List.length_append, List.length_map, all]
  rfl

end Groundwork
