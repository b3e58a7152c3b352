import Groundwork.Proofs.Delegate.Congruence

/-!
# `Proofs.Delegate.Algebra` — sums and differences of delegates

A sum puts lists one behind the other; a difference keeps, of a list, what is not in another. So
sums are associative, with the empty delegate as unit, and differences depend on nothing of what is
taken away but its members: neither on their order nor on how often they are there. Removal of a
single handler compares each handler of the list with it, removal of a delegate looks each handler
up in the other list, with the sides of the comparison exchanged. That both come to the same is due
to the symmetry of the comparison; that any equal handlers may be removed instead is due to its
transitivity, and holds of handlers that have been made.

An operator that makes a new delegate changes a copy, one that changes a delegate changes it in its
place, and a delegate may take part in a change of its own.

## Contents

* `contains_add`, `sub_eq_foldl_remove` — what there is in a sum, what is left in a difference.
* `Delegate.Sums`, `Delegate.Differences`, `Delegate.Remainder`, `Delegate.Removals` — the laws.
* `Delegate.Operators`, `Bench.InPlace` — operators and named methods, on copies and in place.
* `Delegate.algebra` — **all these laws hold.**
-/

namespace Groundwork

variable {φ F : Type}

attribute [ext] Delegate

namespace Delegate

/-! ## What sums and differences are -/

@[simp] theorem handlers_add (d e : Delegate φ) : (d + e).handlers = d.handlers ++ e.handlers := rfl

@[simp] theorem handlers_add_handler (d : Delegate φ) (h : Handler φ) :
    (d + h).handlers = d.handlers ++ [h] := rfl

variable [DecidableEq φ]

@[simp] theorem handlers_sub (d e : Delegate φ) :
    (d - e).handlers = d.handlers.filter fun h => !e.contains h := rfl

@[simp] theorem handlers_sub_handler (d : Delegate φ) (h : Handler φ) :
    (d - h).handlers = d.handlers.filter fun k => !k.same h := rfl

theorem contains_add (d e : Delegate φ) (h : Handler φ) :
    (d + e).contains h = (d.contains h || e.contains h) := List.any_append

theorem contains_iff {d : Delegate φ} {h : Handler φ} :
    d.contains h = true ↔ ∃ k ∈ d.handlers, k.same h = true := List.any_eq_true

theorem contains_of_mem {d : Delegate φ} {h : Handler φ} (mem : h ∈ d.handlers) :
    d.contains h = true := contains_iff.2 ⟨h, mem, h.same_self⟩

/-- Handlers removed one at a time are all gone, and no others. -/
theorem foldl_remove (d : Delegate φ) (ks : List (Handler φ)) :
    ks.foldl remove d
      = { d with handlers := d.handlers.filter fun h => ks.all fun k => !h.same k } := by
  induction ks generalizing d with
  | nil => simp
  | cons k ks ih =>
    rw [List.foldl_cons, ih]
    simp only [remove, List.filter_filter, List.all_cons, Bool.and_comm]

/-- Taking away a delegate is taking away handlers one at a time, provided that they are equal to
just those of the list that the delegate has. -/
theorem sub_eq_foldl_remove {d e : Delegate φ} {ks : List (Handler φ)}
    (members : ∀ h ∈ d.handlers, (∃ k ∈ ks, h.same k = true) ↔ e.contains h = true) :
    d - e = ks.foldl remove d := by
  rw [foldl_remove]
  refine Delegate.ext ?_ rfl
  show d.handlers.filter _ = d.handlers.filter _
  refine List.filter_congr fun h mem => ?_
  rw [Bool.eq_iff_iff, Bool.not_eq_true', Bool.eq_false_iff, ne_eq, ← members h mem,
    List.all_eq_true]
  simp

/-! ## The laws -/

/-- Appending is associative, and has the empty delegate as its unit. The unit to the left brings
its own policy. -/
structure Sums (φ : Type) : Prop where
  assoc : ∀ d₁ d₂ d₃ : Delegate φ, d₁ + d₂ + d₃ = d₁ + (d₂ + d₃)
  assocFirst : ∀ (h : Handler φ) (d₁ d₂ : Delegate φ), h + d₁ + d₂ = h + (d₁ + d₂)
  assocMiddle : ∀ (d₁ : Delegate φ) (h : Handler φ) (d₂ : Delegate φ), d₁ + h + d₂ = d₁ + (h + d₂)
  assocLast : ∀ (d₁ d₂ : Delegate φ) (h : Handler φ), d₁ + d₂ + h = d₁ + (d₂ + h)
  emptyRight : ∀ (d : Delegate φ) (policy : LockPolicy), d + (new policy : Delegate φ) = d
  emptyLeft : ∀ (d : Delegate φ) (policy : LockPolicy),
    ((new policy : Delegate φ) + d).handlers = d.handlers

/-- What is taken away is gone, wherever it was added; it makes no difference in which order things
are taken away, nor whether all at once. -/
structure Differences (φ : Type) [DecidableEq φ] : Prop where
  addSub : ∀ (d : Delegate φ) (h : Handler φ), d + h - h = d - h
  gone : ∀ (d : Delegate φ) (h : Handler φ), (d + h - h).contains h = false
  distribute : ∀ d₁ d₂ d₃ : Delegate φ, d₁ + d₂ - d₃ = (d₁ - d₃) + (d₂ - d₃)
  exchange : ∀ d d₁ d₂ : Delegate φ, d - d₁ - d₂ = d - d₂ - d₁
  atOnce : ∀ d d₁ d₂ : Delegate φ, d - d₁ - d₂ = d - (d₁ + d₂)
  /-- One handler at a time, in any order and with any duplicates. -/
  oneByOne : ∀ (d other : Delegate φ) (ks : List (Handler φ)),
    (∀ k, k ∈ ks ↔ k ∈ other.handlers) → d - other = ks.foldl remove d
  double : ∀ d : Delegate φ, (d.appendAll d).handlers = d.handlers ++ d.handlers
  nothing : ∀ d : Delegate φ, (d.removeAll d).handlers = []

/-- What is left of a delegate when some handlers are removed: the others, in their order and each
as often as before. -/
structure Remainder (hs : List (Handler φ)) (removed : Handler φ → Bool) (d rest : Delegate φ) :
    Prop where
  order : rest.handlers.Sublist d.handlers
  gone : ∀ k ∈ hs, removed k = true → rest.occurrences k = 0
  kept : ∀ k ∈ hs, removed k = false → rest.occurrences k = d.occurrences k

/-- What holds of differences up to the equality of handlers that have been made. -/
structure Removals (hs : List (Handler φ)) : Prop where
  /-- One handler at a time, or one equal to it, in any order and with any duplicates. -/
  oneByOne : ∀ (d other : Delegate φ) (ks : List (Handler φ)), d.MadeOf hs → other.MadeOf hs →
    (∀ k ∈ ks, k ∈ hs ∧ other.contains k = true) →
    (∀ h ∈ other.handlers, ∃ k ∈ ks, h.same k = true) → d - other = ks.foldl remove d
  one : ∀ (d : Delegate φ) (h : Handler φ), d.MadeOf hs → h ∈ hs →
    Remainder hs (fun k => k.same h) d (d - h)
  all : ∀ d other : Delegate φ, d.MadeOf hs → other.MadeOf hs →
    Remainder hs other.contains d (d - other)

/-- The operators do what the methods do, with the policy of the delegate to the left, or with the
default policy if there is a handler to the left. -/
structure Operators (φ : Type) [DecidableEq φ] : Prop where
  addHandler : ∀ (d : Delegate φ) (h : Handler φ), d + h = d.append h
    ∧ d.withAppended h = d.append h ∧ d.addOwned h = d.append h
    ∧ d.addAssign (.handler h) = d.append h
  add : ∀ d other : Delegate φ, d + other = d.appendAll other
    ∧ d.withAppendedAll other = d.appendAll other
    ∧ d.addAssign (.delegate other) = d.appendAll other
  subHandler : ∀ (d : Delegate φ) (h : Handler φ), d - h = d.remove h ∧ d.without h = d.remove h
    ∧ d.subAssign (.handler h) = d.remove h
  sub : ∀ d other : Delegate φ, d - other = d.removeAll other
    ∧ d.withoutAll other = d.removeAll other ∧ d.subAssign (.delegate other) = d.removeAll other
  handlerAdd : ∀ (h : Handler φ) (d : Delegate φ) (policy : LockPolicy),
    (h + d).handlers = ((ofHandler h policy).appendAll d).handlers ∧ (h + d).policy = default
  handlerAddHandler : ∀ (h k : Handler φ) (policy : LockPolicy),
    (h + k : Delegate φ).handlers = ((ofHandler h policy).append k).handlers
      ∧ (h + k : Delegate φ).policy = default
  policy : ∀ (d other : Delegate φ) (h : Handler φ), (d + h).policy = d.policy
    ∧ (d + other).policy = d.policy ∧ (d - h).policy = d.policy ∧ (d - other).policy = d.policy
    ∧ ∀ term, (d.addAssign term).policy = d.policy ∧ (d.subAssign term).policy = d.policy

omit [DecidableEq φ] in
theorem sums : Sums φ where
  assoc _ _ _ := Delegate.ext (List.append_assoc ..) rfl
  assocFirst _ _ _ := rfl
  assocMiddle _ _ _ := Delegate.ext (List.append_assoc ..) rfl
  assocLast _ _ _ := Delegate.ext (List.append_assoc ..) rfl
  emptyRight _ _ := Delegate.ext (List.append_nil _) rfl
  emptyLeft _ _ := rfl

theorem differences : Differences φ where
  addSub d h := Delegate.ext (by simp) rfl
  gone d h := by
    rw [Bool.eq_false_iff]
    intro there
    obtain ⟨k, mem, same⟩ := contains_iff.1 there
    have := List.of_mem_filter mem
    simp [same] at this
  distribute d₁ d₂ d₃ := Delegate.ext (by simp) rfl
  exchange d d₁ d₂ := Delegate.ext (by simp [List.filter_filter, Bool.and_comm]) rfl
  atOnce d d₁ d₂ :=
    Delegate.ext (by simp [List.filter_filter, contains_add, Bool.and_comm]) rfl
  oneByOne d other ks members := by
    refine sub_eq_foldl_remove fun h _ => ?_
    simp only [contains_iff, members, Handler.same_comm h]
  double d := rfl
  nothing d := List.filter_eq_nil_iff.2 fun h mem => by simp [contains_of_mem mem]

section Made

variable {hs : List (Handler φ)} {d : Delegate φ}

/-- Removal leaves the rest as it is, if equal handlers are removed together. -/
theorem remainder_filter (made : d.MadeOf hs) {removed : Handler φ → Bool}
    (together : ∀ x ∈ hs, ∀ k ∈ hs, x.same k = true → removed x = removed k) :
    Remainder hs removed d { d with handlers := d.handlers.filter fun h => !removed h } where
  order := List.filter_sublist
  gone k mem yes := by
    refine List.countP_eq_zero.2 fun x memX same => ?_
    obtain ⟨memD, left⟩ := List.mem_filter.1 memX
    simp [together x (made x memD) k mem same, yes] at left
  kept k mem no := by
    show List.countP _ (d.handlers.filter _) = List.countP _ d.handlers
    rw [List.countP_filter]
    refine List.countP_congr fun x memD => ?_
    constructor
    · intro both
      exact (Bool.and_eq_true_iff.1 both).1
    · intro same
      rw [same, together x (made x memD) k mem same, no]
      rfl

theorem removals (settled : Settled hs) : Removals hs where
  oneByOne d other ks madeD madeO subset cover := by
    refine sub_eq_foldl_remove fun h memD => ?_
    constructor
    · rintro ⟨k, mem, same⟩
      obtain ⟨memK, there⟩ := subset k mem
      exact (settled.contains_remove_congr madeO (madeD h memD) memK same).1.trans there
    · intro there
      obtain ⟨x, memX, same⟩ := contains_iff.1 there
      obtain ⟨k, mem, same'⟩ := cover x memX
      refine ⟨k, mem, ?_⟩
      -- `h`, `x` and `k` call the same
      have memK := (subset k mem).1
      rw [settled.same_iff (madeO x memX) (madeD h memD)] at same
      rw [settled.same_iff (madeO x memX) memK] at same'
      exact (settled.same_iff (madeD h memD) memK).2 (same.symm.trans same')
  one d h made mem := by
    refine remainder_filter made fun x memX k memK same => ?_
    rw [settled.same_iff memX memK] at same
    rw [Bool.eq_iff_iff, settled.same_iff memX mem, settled.same_iff memK mem, same]
  all d other madeD madeO := by
    refine remainder_filter madeD fun x memX k memK same => ?_
    exact (settled.contains_remove_congr madeO memX memK same).1

end Made

theorem operators : Operators φ where
  addHandler d h := ⟨rfl, rfl, rfl, rfl⟩
  add d other := ⟨rfl, rfl, rfl⟩
  subHandler d h := ⟨rfl, rfl, rfl⟩
  sub d other := ⟨rfl, rfl, rfl⟩
  handlerAdd h d policy := ⟨rfl, rfl⟩
  handlerAddHandler h k policy := ⟨rfl, rfl⟩
  policy d other h := ⟨rfl, rfl, rfl, rfl, fun term => by cases term <;> exact ⟨rfl, rfl⟩⟩

end Delegate

/-! ## Changes in place -/

namespace Bench

/-- A change of a delegate in its place leaves there what the operator makes of it, also if the
delegate takes part in its own change. -/
structure InPlace (bench : Bench) (name : String) : Prop where
  addHandler : ∀ h, (bench.edit? name (.append h)).bind (·.delegate? name)
    = bench.sum? (.delegate name) (.handler h)
  add : ∀ other, (bench.edit? name (.appendAll other)).bind (·.delegate? name)
    = bench.sum? (.delegate name) (.delegate other)
  subHandler : ∀ h, (bench.edit? name (.remove h)).bind (·.delegate? name)
    = bench.difference? name (.handler h)
  sub : ∀ other, (bench.edit? name (.removeAll other)).bind (·.delegate? name)
    = bench.difference? name (.delegate other)
  double : ∀ d, bench.delegate? name = some d →
    (bench.edit? name (.appendAll name)).bind (·.delegate? name)
      = some ⟨d.handlers ++ d.handlers, d.policy⟩
  nothing : ∀ d, bench.delegate? name = some d →
    (bench.edit? name (.removeAll name)).bind (·.delegate? name) = some ⟨[], d.policy⟩

@[simp] theorem delegate?_putDelegate (bench : Bench) (name : String) (d : BenchDelegate) :
    (bench.putDelegate name d).delegate? name = some d := by
  simp [Bench.delegate?, Bench.putDelegate]

/-- What an edit leaves under the name of its target. -/
theorem delegate?_edit? (bench : Bench) (name : String) (edit : Edit) :
    (bench.edit? name edit).bind (·.delegate? name)
      = (bench.delegate? name).bind fun d => (bench.change? edit).map d.apply := by
  unfold Bench.edit?
  cases bench.delegate? name with
  | none => rfl
  | some d =>
    cases bench.change? edit with
    | none => rfl
    | some change => exact delegate?_putDelegate ..

theorem inPlace (bench : Bench) (name : String) : InPlace bench name where
  addHandler h := by
    simp only [delegate?_edit?, change?, sum?]
    cases bench.delegate? name <;> cases bench.handler? h <;> rfl
  add other := by
    simp only [delegate?_edit?, change?, sum?]
    cases bench.delegate? name <;> cases bench.delegate? other <;> rfl
  subHandler h := by
    simp only [delegate?_edit?, change?, difference?]
    cases bench.delegate? name <;> cases bench.handler? h <;> rfl
  sub other := by
    simp only [delegate?_edit?, change?, difference?]
    cases bench.delegate? name <;> cases bench.delegate? other <;> rfl
  double d found := by
    rw [delegate?_edit?, change?, found]
    rfl
  nothing d found := by
    rw [delegate?_edit?, change?, found]
    exact congrArg some (Delegate.ext (Delegate.differences.nothing d) rfl)

end Bench

/-- **The algebra of delegates.** Sums are associative with the empty delegate as unit; differences
depend on the members of what is taken away only, and leave the others in their order and number;
the operators do what the methods do, be it on a copy, on a delegate given away or in place. Up to
the equality of handlers this holds of any handlers that can be made. -/
theorem Delegate.algebra [DecidableEq φ] (address : F → φ) (makings : List (Making F)) :
    Sums φ ∧ Differences φ ∧ Removals (Workshop.makeAll address makings).handlers ∧ Operators φ ∧
    ∀ bench name, Bench.InPlace bench name :=
  ⟨sums, differences, removals (Workshop.sound_makeAll address makings).settled, operators,
    Bench.inPlace⟩

end Groundwork
