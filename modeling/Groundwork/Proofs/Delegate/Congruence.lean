import Groundwork.Delegate.Bench
import Groundwork.Proofs.Delegate.Interchange

/-!
# `Proofs.Delegate.Congruence` — equality of the handlers that can be made

The handlers that come out of a workshop are settled: a cell belongs to one closure or to one
function. So their equality is an equivalence, and what has been proved of equal handlers among
settled ones holds of them. That invocations in states alike come to the same end is a statement
about any setting whose handlers see no more of delegates than delegates show; a bench is one, with
all that its handlers do to its delegates.

## Contents

* `Bench.Alike`, `Bench.respects` — benches that differ by equal handlers in their delegates.
* `Workshop.congruence_makeAll` — **equality of the handlers made is a congruence.**
-/

namespace Groundwork

variable {φ F : Type}

open Delegate

/-! ## Benches alike -/

namespace Bench

/-- Two benches that differ at most by equal handlers in their delegates; all their handlers are
among these. -/
structure Alike (hs : List BenchHandler) (b c : Bench) : Prop where
  supply : b.supply = c.supply
  stations : b.stations = c.stations
  handlers : b.handlers = c.handlers
  log : b.log = c.log
  made : ∀ named ∈ b.handlers, named.2 ∈ hs
  delegates : List.Forall₂ (fun named named' => named.1 = named'.1 ∧ named.2.Matched hs named'.2)
    b.delegates c.delegates

variable {hs : List BenchHandler} {b c : Bench}

theorem Alike.delegate? (alike : Alike hs b c) (name : String) :
    Option.Rel (Matched hs) (b.delegate? name) (c.delegate? name) := by
  have all := alike.delegates
  unfold Bench.delegate?
  generalize b.delegates = ds, c.delegates = es at all ⊢
  induction all with
  | nil => exact .none
  | @cons named named' _ _ first _ ih =>
    obtain ⟨key, d⟩ := named
    obtain ⟨key', e⟩ := named'
    obtain ⟨rfl, matched⟩ := first
    simp only [List.lookup_cons]
    cases name == key with
    | true => exact .some matched
    | false => exact ih

theorem Alike.handler? (alike : Alike hs b c) (name : String) :
    b.handler? name = c.handler? name := by
  simp only [Bench.handler?, alike.handlers]

theorem Alike.mem_of_handler? (alike : Alike hs b c) {name : String} {h : BenchHandler}
    (found : b.handler? name = some h) : h ∈ hs := by
  obtain ⟨front, back, eq, _⟩ := List.lookup_eq_some_iff.1 found
  exact alike.made (name, h) (by simp [eq])

theorem Alike.putDelegate (alike : Alike hs b c) (name : String) {d e : BenchDelegate}
    (matched : d.Matched hs e) : Alike hs (b.putDelegate name d) (c.putDelegate name e) := by
  have others := List.rel_filter
    (p := fun named : String × BenchDelegate => named.1 ≠ name)
    (q := fun named : String × BenchDelegate => named.1 ≠ name)
    (fun named named' related => by simp [related.1]) alike.delegates
  exact ⟨alike.supply, alike.stations, alike.handlers, alike.log, alike.made,
    .cons ⟨rfl, matched⟩ others⟩

/-- An edit names changes that match. -/
theorem Alike.change? (alike : Alike hs b c) (edit : Edit) :
    Option.Rel (Change.Matched hs) (b.change? edit) (c.change? edit) := by
  have byHandler (name : String) {make : BenchHandler → Change NamedFunction}
      (keeps : ∀ h ∈ hs, (make h).Matched hs (make h)) :
      Option.Rel (Change.Matched hs) ((b.handler? name).map make) ((c.handler? name).map make) := by
    rw [← alike.handler? name]
    cases found : b.handler? name with
    | none => exact .none
    | some h => exact .some (keeps h (alike.mem_of_handler? found))
  have byDelegate (name : String) {make : BenchDelegate → Change NamedFunction}
      (keeps : ∀ d e, d.Matched hs e → (make d).Matched hs (make e)) :
      Option.Rel (Change.Matched hs) ((b.delegate? name).map make)
        ((c.delegate? name).map make) := by
    have found := alike.delegate? name
    generalize b.delegate? name = d?, c.delegate? name = e? at found ⊢
    cases found with
    | none => exact .none
    | some matched => exact .some (keeps _ _ matched)
  cases edit with
  | append name => exact byHandler name fun h mem => .append mem mem h.same_self
  | remove name => exact byHandler name fun h mem => .remove mem mem h.same_self
  | appendAll name => exact byDelegate name fun d e => .appendAll
  | removeAll name => exact byDelegate name fun d e => .removeAll
  | assign name => exact byDelegate name fun d e => .assign
  | assignHandler name => exact byHandler name fun h mem => .assignHandler mem mem h.same_self
  | clear => exact .some .clear

theorem Alike.edit? (settled : Settled hs) (alike : Alike hs b c) (target : String) (edit : Edit) :
    Option.Rel (Alike hs) (b.edit? target edit) (c.edit? target edit) := by
  unfold Bench.edit?
  have found := alike.delegate? target
  have named := alike.change? edit
  generalize b.delegate? target = d?, c.delegate? target = e? at found ⊢
  generalize b.change? edit = change?, c.change? edit = change?' at named ⊢
  cases found with
  | none => exact .none
  | some matched =>
    cases named with
    | none => exact .none
    | some change => exact .some (alike.putDelegate target (settled.matched_apply matched change))

/-! ## What handlers do to benches alike -/

theorem Alike.note (alike : Alike hs b c) (tag : String) (arg : Int64) :
    Alike hs (note tag arg b) (note tag arg c) where
  supply := alike.supply
  stations := alike.stations
  handlers := alike.handlers
  log := congrArg ((tag, arg) :: ·) alike.log
  made := alike.made
  delegates := alike.delegates

theorem Alike.addToTotal (alike : Alike hs b c) (cell : Nat) (amount : Int64) :
    Alike hs (addToTotal cell amount b) (addToTotal cell amount c) where
  supply := alike.supply
  stations := congrArg (List.map _) alike.stations
  handlers := alike.handlers
  log := alike.log
  made := alike.made
  delegates := alike.delegates

theorem Alike.editIfShort (settled : Settled hs) (alike : Alike hs b c) (target : String)
    (edit : Edit) : Alike hs (editIfShort target edit b) (editIfShort target edit c) := by
  have found := alike.delegate? target
  have edited := alike.edit? settled target edit
  unfold Bench.editIfShort
  generalize b.delegate? target = d?, c.delegate? target = e? at found ⊢
  generalize b.edit? target edit = b?, c.edit? target edit = c? at edited ⊢
  cases found with
  | none => exact alike
  | @some d e matched =>
    -- delegates alike are equally long
    obtain ⟨_, _, _, callables⟩ := settled.matched_iff.1 matched
    have size : d.size = e.size := by
      rw [size_eq_length_callables, callables, size_eq_length_callables]
    simp only [size]
    by_cases short : e.size ≤ editLimit
    · simp only [if_pos short]
      cases edited with
      | none => exact alike
      | some edited => exact edited
    · simpa only [if_neg short] using alike

/-- A closure does the same on benches alike. -/
theorem related_closureRoutine (settled : Settled hs) (cell : Nat) (station : Station)
    (arg : Int64) :
    Routine.Related (Alike hs) (closureRoutine cell station arg)
      (closureRoutine cell station arg) := by
  refine .update (fun _ _ alike => alike.note _ arg) ?_
  cases station.behaviour with
  | const k => exact .done _
  | add k => exact .done _
  | mul k => exact .done _
  | counter k =>
    refine .update (fun _ _ alike => alike.addToTotal cell arg) (.look fun b c alike => ?_)
    simp only [total, alike.stations]
    exact .done _
  | fail => exact .fail _
  | compute f => exact .done _
  | edit target edit k =>
    exact .update (fun _ _ alike => alike.editIfShort settled target edit) (.done _)
  | invoke target k =>
    by_cases last : arg ≤ 0
    · simp only [if_pos last]
      exact .done _
    · simp only [if_neg last]
      exact .invoke target _ fun result => .done _

/-- Nothing that happens on a bench tells equal handlers apart. -/
theorem respects (settled : Settled hs) : setting.Respects hs (Alike hs) where
  delegate := by
    intro b c target alike
    have found := alike.delegate? target
    show ((b.delegate? target).getD _).Matched hs ((c.delegate? target).getD _)
    generalize b.delegate? target = d?, c.delegate? target = e? at found ⊢
    cases found with
    | none => exact ⟨by simp [MadeOf, Delegate.new], by simp [MadeOf, Delegate.new], rfl, .nil⟩
    | some matched => exact matched
  routine := by
    intro callable arg
    cases callable with
    | function f => exact .update (fun _ _ alike => alike.note _ arg) (.done _)
    | closure cell =>
      refine .look fun b c alike => ?_
      rw [alike.stations]
      cases c.stations.lookup cell with
      | some station => exact related_closureRoutine settled cell station arg
      | none => exact .fail _

end Bench

/-! ## The handlers of a workshop -/

/-- Equality of the handlers made is an equivalence, and equal handlers may stand for each other. -/
structure Workshop.Congruence [DecidableEq φ] (w : Workshop φ F) : Prop where
  refl : ∀ h ∈ w.handlers, h.same h = true
  symm : ∀ h ∈ w.handlers, ∀ k ∈ w.handlers, h.same k = true → k.same h = true
  trans : ∀ h ∈ w.handlers, ∀ k ∈ w.handlers, ∀ l ∈ w.handlers,
    h.same k = true → k.same l = true → h.same l = true
  /-- Equal handlers are those of one function, and those that descend from one closure. -/
  same_iff : ∀ p ∈ w.products, ∀ q ∈ w.products,
    (p.handler.same q.handler = true ↔ p.origin = q.origin)
  /-- A handler in a list may be replaced by an equal one. -/
  replace : ∀ (d : Delegate φ) (index : Nat) (h k : Handler φ), d.MadeOf w.handlers →
    d.handlers[index]? = some h → k ∈ w.handlers → k.same h = true →
    d.Interchangeable w.handlers (d.replace index k)
  /-- It does not matter which of two equal handlers is asked for or removed. -/
  argument : ∀ (d : Delegate φ) (h k : Handler φ), d.MadeOf w.handlers → h ∈ w.handlers →
    k ∈ w.handlers → h.same k = true → d.contains h = d.contains k ∧ d.remove h = d.remove k
  /-- An invocation that changes delegates on the way comes to the same end from states that differ
  by equal handlers. -/
  nested : ∀ (σ δ α β : Type) (setting : Setting φ σ δ α β) (R : σ → σ → Prop),
    setting.Respects w.handlers R → ∀ depth target arg,
      Parallel R (setting.invoke depth target arg) (setting.invoke depth target arg)

/-- **Equality of handlers is a congruence.** However handlers have been made, of closures with and
without argument, of functions and as copies: if distinct functions have distinct addresses,
equality of handlers is an equivalence that relates the handlers of one function and the copies of
one closure, and replacing a handler by an equal one in any list changes nothing that a delegate
does. -/
theorem Workshop.congruence_makeAll [DecidableEq φ] {address : F → φ}
    (distinct : Function.Injective address) (makings : List (Making F)) :
    (makeAll address makings).Congruence := by
  have sound := sound_makeAll address makings
  have settled := sound.settled
  constructor
  · exact fun h _ => h.same_self
  · intro h _ k _ same
    rw [Handler.same_comm]
    exact same
  · intro h memH k memK l memL first second
    rw [settled.same_iff memH memK] at first
    rw [settled.same_iff memK memL] at second
    exact (settled.same_iff memH memL).2 (first.trans second)
  · exact fun p memP q memQ => sound.same_iff distinct memP memQ
  · intro d index h k made found mem same
    exact settled.interchangeable ⟨made.replace mem index, made, replace_alike found same⟩
  · exact fun d h k made memH memK same => settled.contains_remove_congr made memH memK same
  · exact fun σ δ α β setting R respects depth target arg =>
      Setting.parallel_invoke settled respects depth target arg

/-- A closure, a function, a copy of the closure, the function once more, and another closure. -/
def someMakings : List (Making NamedFunction) :=
  [.closure, .function .twice, .copy 0, .function .twice, .nullary]

/-- The two handlers of one function may stand for each other, and invocations on benches that
differ in such handlers come to the same end. -/
theorem Workshop.congruence_makeAll_bench :
    Function.Injective (id : NamedFunction → NamedFunction) ∧
    (makeAll id someMakings).handlers
      = [⟨0, none⟩, ⟨1, some .twice⟩, ⟨0, none⟩, ⟨2, some .twice⟩, ⟨3, none⟩] ∧
    (⟨[⟨1, some .twice⟩, ⟨0, none⟩], .mutex⟩ : BenchDelegate).Interchangeable
      (makeAll id someMakings).handlers ⟨[⟨2, some .twice⟩, ⟨0, none⟩], .mutex⟩ ∧
    ∀ depth name arg, Parallel (Bench.Alike (makeAll id someMakings).handlers)
      (Bench.setting.invoke depth name arg) (Bench.setting.invoke depth name arg) := by
  have congruence := congruence_makeAll (φ := NamedFunction) Function.injective_id someMakings
  have settled := (sound_makeAll (id : NamedFunction → NamedFunction) someMakings).settled
  refine ⟨Function.injective_id, by decide, ?_, ?_⟩
  · exact congruence.replace _ 0 ⟨1, some .twice⟩ ⟨2, some .twice⟩ (by unfold MadeOf; decide) rfl
      (by decide) (by decide)
  · exact congruence.nested _ _ _ _ Bench.setting _ (Bench.respects settled)

end Groundwork
