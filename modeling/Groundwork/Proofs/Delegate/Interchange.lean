import Groundwork.Proofs.Delegate.Identity
import Groundwork.Proofs.Delegate.Invocation

/-!
# `Proofs.Delegate.Interchange` — equal handlers may stand for each other

Equal handlers call the same, and nothing that a delegate does looks at more of its handlers than
what they call. So a handler in a list may be replaced by an equal one: membership, the number of
handlers and removal do not see it, and an invocation makes the same calls in the same states.

Handlers may change the very delegates that hold them, so two invocations that start with lists
alike do not stay in equal states, only in states alike. The run is therefore compared with the
other step by step, under any relation of states that routines carry over.

## Contents

* `Delegate.Alike`, `Settled.alike_iff` — delegates whose handlers are equal, place by place.
* `Change.Matched`, `Settled.matched_apply` — changes that name equal handlers.
* `Delegate.Interchangeable`, `Settled.interchangeable` — **one delegate in the place of another.**
* `Parallel`, `Routine.Related`, `Setting.Respects` — two runs that do not come apart.
* `Setting.parallel_invoke` — **invocations in states alike.**
-/

namespace Groundwork

variable {φ F α β σ δ : Type}

/-! ## Delegates alike -/

namespace Delegate

/-- All handlers of a delegate are among these. -/
def MadeOf (d : Delegate φ) (hs : List (Handler φ)) : Prop := ∀ h ∈ d.handlers, h ∈ hs

/-- The delegate with another handler at a place. -/
def replace (d : Delegate φ) (index : Nat) (handler : Handler φ) : Delegate φ :=
  { d with handlers := d.handlers.set index handler }

/-- What the handlers of a delegate call. -/
def callables (d : Delegate φ) : List (Callable φ) := d.handlers.map (·.callable)

/-- Two delegates of one policy whose handlers are equal, place by place. -/
structure Alike [DecidableEq φ] (d e : Delegate φ) : Prop where
  policy : d.policy = e.policy
  handlers : List.Forall₂ (fun h k => h.same k = true) d.handlers e.handlers

variable {hs : List (Handler φ)} {d e : Delegate φ}

theorem MadeOf.replace (made : d.MadeOf hs) {handler : Handler φ} (mem : handler ∈ hs)
    (index : Nat) : (d.replace index handler).MadeOf hs := by
  intro h memSet
  rcases List.mem_or_eq_of_mem_set memSet with old | rfl
  · exact made h old
  · exact mem

theorem size_eq_length_callables (d : Delegate φ) : d.size = d.callables.length :=
  (List.length_map _).symm

@[simp] theorem callables_append (d : Delegate φ) (handler : Handler φ) :
    (d.append handler).callables = d.callables ++ [handler.callable] := List.map_append

@[simp] theorem callables_appendAll (d other : Delegate φ) :
    (d.appendAll other).callables = d.callables ++ other.callables := List.map_append

theorem MadeOf.append (made : d.MadeOf hs) {handler : Handler φ} (mem : handler ∈ hs) :
    (d.append handler).MadeOf hs := by
  intro h memAppend
  rcases List.mem_append.1 memAppend with old | new
  · exact made h old
  · obtain rfl := List.mem_singleton.1 new
    exact mem

theorem MadeOf.appendAll (made : d.MadeOf hs) {other : Delegate φ} (madeOther : other.MadeOf hs) :
    (d.appendAll other).MadeOf hs := by
  intro h memAppend
  rcases List.mem_append.1 memAppend with old | new
  · exact made h old
  · exact madeOther h new

/-- What some handlers of a list call, where it depends on what a handler calls whether it is one
of them. -/
theorem callables_filter {kept : Handler φ → Bool} {keeps : Callable φ → Bool}
    (eq : ∀ h ∈ d.handlers, kept h = keeps h.callable) :
    (d.handlers.filter kept).map (·.callable) = d.callables.filter keeps := by
  unfold callables
  rw [List.filter_map]
  congr 1
  exact List.filter_congr eq

section Removals

variable [DecidableEq φ]

theorem MadeOf.remove (made : d.MadeOf hs) (handler : Handler φ) : (d.remove handler).MadeOf hs :=
  fun h mem => made h (List.mem_of_mem_filter mem)

theorem MadeOf.removeAll (made : d.MadeOf hs) (other : Delegate φ) :
    (d.removeAll other).MadeOf hs :=
  fun h mem => made h (List.mem_of_mem_filter mem)

end Removals

/-- Delegates alike, with handlers among these. -/
structure Matched [DecidableEq φ] (hs : List (Handler φ)) (d e : Delegate φ) : Prop where
  left : d.MadeOf hs
  right : e.MadeOf hs
  alike : d.Alike e

end Delegate

/-- Changes of one kind that name equal handlers, all of them among these. -/
inductive Change.Matched [DecidableEq φ] (hs : List (Handler φ)) : Change φ → Change φ → Prop where
  | append {h k : Handler φ} (memH : h ∈ hs) (memK : k ∈ hs) (same : h.same k = true) :
    Matched hs (.append h) (.append k)
  | remove {h k : Handler φ} (memH : h ∈ hs) (memK : k ∈ hs) (same : h.same k = true) :
    Matched hs (.remove h) (.remove k)
  | appendAll {d e : Delegate φ} (matched : d.Matched hs e) :
    Matched hs (.appendAll d) (.appendAll e)
  | removeAll {d e : Delegate φ} (matched : d.Matched hs e) :
    Matched hs (.removeAll d) (.removeAll e)
  | assign {d e : Delegate φ} (matched : d.Matched hs e) : Matched hs (.assign d) (.assign e)
  | assignHandler {h k : Handler φ} (memH : h ∈ hs) (memK : k ∈ hs) (same : h.same k = true) :
    Matched hs (.assignHandler h) (.assignHandler k)
  | clear : Matched hs .clear .clear

open Delegate

section Settled

variable [DecidableEq φ] {hs : List (Handler φ)} (settled : Settled hs) {d e : Delegate φ}

include settled

/-- Delegates are alike just when they have one policy and call the same, place by place. -/
theorem Settled.alike_iff (madeD : d.MadeOf hs) (madeE : e.MadeOf hs) :
    d.Alike e ↔ d.policy = e.policy ∧ d.callables = e.callables := by
  have byCallable : ∀ xs ys : List (Handler φ), (∀ h ∈ xs, h ∈ hs) → (∀ h ∈ ys, h ∈ hs) →
      (List.Forall₂ (fun h k => h.same k = true) xs ys
        ↔ xs.map (·.callable) = ys.map (·.callable)) := by
    intro xs
    induction xs with
    | nil => intro ys _ _; cases ys <;> simp
    | cons x xs ih =>
      intro ys madeX madeY
      cases ys with
      | nil => simp
      | cons y ys =>
        rw [List.forall₂_cons, List.map_cons, List.map_cons, List.cons.injEq,
          settled.same_iff (madeX x List.mem_cons_self) (madeY y List.mem_cons_self),
          ih ys (fun h mem => madeX h (List.mem_cons_of_mem _ mem))
            (fun h mem => madeY h (List.mem_cons_of_mem _ mem))]
  constructor
  · intro alike
    exact ⟨alike.policy, (byCallable _ _ madeD madeE).1 alike.handlers⟩
  · rintro ⟨policy, callables⟩
    exact ⟨policy, (byCallable _ _ madeD madeE).2 callables⟩

/-- A handler equal to this one is in the list just when something there calls the same. -/
theorem Settled.contains_iff (madeD : d.MadeOf hs) {h : Handler φ} (mem : h ∈ hs) :
    d.contains h = true ↔ h.callable ∈ d.callables := by
  unfold Delegate.contains callables
  rw [List.any_eq_true, List.mem_map]
  exact exists_congr fun k => and_congr_right fun memK => settled.same_iff (madeD k memK) mem

theorem Settled.callables_remove (madeD : d.MadeOf hs) {h : Handler φ} (mem : h ∈ hs) :
    (d.remove h).callables = d.callables.filter (· ≠ h.callable) := by
  refine callables_filter fun k memK => ?_
  rw [Bool.eq_iff_iff, Bool.not_eq_true', decide_eq_true_iff, ← Bool.not_eq_true,
    settled.same_iff (madeD k memK) mem]

theorem Settled.callables_removeAll (madeD : d.MadeOf hs) (madeE : e.MadeOf hs) :
    (d.removeAll e).callables = d.callables.filter (· ∉ e.callables) := by
  refine callables_filter fun k memK => ?_
  rw [Bool.eq_iff_iff, Bool.not_eq_true', decide_eq_true_iff, ← Bool.not_eq_true,
    settled.contains_iff madeE (madeD k memK)]

/-- Delegates match just when they are among these handlers and call the same, place by place. -/
theorem Settled.matched_iff : d.Matched hs e
    ↔ d.MadeOf hs ∧ e.MadeOf hs ∧ d.policy = e.policy ∧ d.callables = e.callables := by
  constructor
  · intro matched
    have eq := (settled.alike_iff matched.left matched.right).1 matched.alike
    exact ⟨matched.left, matched.right, eq⟩
  · rintro ⟨left, right, eq⟩
    exact ⟨left, right, (settled.alike_iff left right).2 eq⟩

/-- Changes that match keep delegates matched. -/
theorem Settled.matched_apply (matched : d.Matched hs e) {c c' : Change φ}
    (change : c.Matched hs c') : (d.apply c).Matched hs (e.apply c') := by
  obtain ⟨madeD, madeE, policy, callables⟩ := settled.matched_iff.1 matched
  refine settled.matched_iff.2 ?_
  cases change with
  | append memH memK same =>
    refine ⟨madeD.append memH, madeE.append memK, policy, ?_⟩
    simp only [Delegate.apply, callables_append, callables, (settled.same_iff memH memK).1 same]
  | remove memH memK same =>
    refine ⟨madeD.remove _, madeE.remove _, policy, ?_⟩
    simp only [Delegate.apply, settled.callables_remove madeD memH,
      settled.callables_remove madeE memK, callables, (settled.same_iff memH memK).1 same]
  | appendAll other =>
    obtain ⟨madeO, madeO', _, eq⟩ := settled.matched_iff.1 other
    refine ⟨madeD.appendAll madeO, madeE.appendAll madeO', policy, ?_⟩
    simp only [Delegate.apply, callables_appendAll, callables, eq]
  | removeAll other =>
    obtain ⟨madeO, madeO', _, eq⟩ := settled.matched_iff.1 other
    refine ⟨madeD.removeAll _, madeE.removeAll _, policy, ?_⟩
    simp only [Delegate.apply, settled.callables_removeAll madeD madeO,
      settled.callables_removeAll madeE madeO', callables, eq]
  | assign other =>
    obtain ⟨madeO, madeO', _, eq⟩ := settled.matched_iff.1 other
    exact ⟨madeO, madeO', policy, eq⟩
  | assignHandler memH memK same =>
    refine ⟨by simpa [MadeOf, Delegate.apply, Delegate.assignHandler] using memH,
      by simpa [MadeOf, Delegate.apply, Delegate.assignHandler] using memK, policy, ?_⟩
    simp [Delegate.apply, Delegate.assignHandler, Delegate.callables,
      (settled.same_iff memH memK).1 same]
  | clear => exact ⟨by simp [MadeOf, Delegate.apply, Delegate.clear],
      by simp [MadeOf, Delegate.apply, Delegate.clear], policy, rfl⟩

end Settled

/-! ## One invocation of delegates alike -/

theorem callAll_congr (call : Callable φ → α → Action σ β) (arg : α) {h k : Handler φ}
    {hs ks : List (Handler φ)} (first : h.callable = k.callable)
    (rest : hs.map (·.callable) = ks.map (·.callable)) :
    callAll call arg h hs = callAll call arg k ks := by
  induction hs generalizing h k ks with
  | nil =>
    obtain rfl : ks = [] := by simpa using rest.symm
    simp only [callAll, first]
  | cons h' hs ih =>
    cases ks with
    | nil => simp at rest
    | cons k' ks =>
      obtain ⟨first', rest'⟩ := List.cons.inj rest
      simp only [callAll, first, ih first' rest']

/-- An invocation depends on nothing but what the handlers call. -/
theorem Delegate.invokeWith_congr {d e : Delegate φ} (eq : d.callables = e.callables)
    (call : Callable φ → α → Action σ β) (arg : α) :
    d.invokeWith call arg = e.invokeWith call arg := by
  rcases d with ⟨_ | ⟨h, hs⟩, _⟩ <;> rcases e with ⟨_ | ⟨k, ks⟩, _⟩
  · rfl
  · simp [callables] at eq
  · simp [callables] at eq
  · obtain ⟨first, rest⟩ := List.cons.inj eq
    simp only [invokeWith, callAll_congr call arg first rest]

/-- Nothing tells the second delegate from the first: not its size, not what it contains, not what
is left of it when handlers are removed, not what is left of others when its handlers are removed
from them, and not its invocation, with its result and all it does to the state. -/
structure Delegate.Interchangeable [DecidableEq φ] (hs : List (Handler φ)) (d e : Delegate φ) :
    Prop where
  size : e.size = d.size
  contains : ∀ h ∈ hs, e.contains h = d.contains h
  remove : ∀ h ∈ hs, (e.remove h).Alike (d.remove h)
  removeAll : ∀ other : Delegate φ, other.MadeOf hs → (e.removeAll other).Alike (d.removeAll other)
  removeAllOf : ∀ other : Delegate φ, other.MadeOf hs → other.removeAll e = other.removeAll d
  invoke : ∀ (σ α β : Type) (call : Callable φ → α → Action σ β) (arg : α),
    e.invokeWith call arg = d.invokeWith call arg

/-- Delegates alike may stand for each other. -/
theorem Settled.interchangeable [DecidableEq φ] {hs : List (Handler φ)} (settled : Settled hs)
    {d e : Delegate φ} (matched : e.Matched hs d) : Interchangeable hs d e := by
  obtain ⟨madeE, madeD, policy, callables⟩ := settled.matched_iff.1 matched
  have contains : ∀ h ∈ hs, e.contains h = d.contains h := fun h mem => by
    rw [Bool.eq_iff_iff, settled.contains_iff madeE mem, settled.contains_iff madeD mem, callables]
  constructor
  · rw [size_eq_length_callables, callables, size_eq_length_callables]
  · exact contains
  · intro h mem
    refine (settled.alike_iff (madeE.remove h) (madeD.remove h)).2 ⟨policy, ?_⟩
    rw [settled.callables_remove madeE mem, settled.callables_remove madeD mem, callables]
  · intro other made
    refine (settled.alike_iff (madeE.removeAll other) (madeD.removeAll other)).2 ⟨policy, ?_⟩
    rw [settled.callables_removeAll madeE made, settled.callables_removeAll madeD made, callables]
  · intro other made
    unfold Delegate.removeAll
    congr 1
    exact List.filter_congr fun h mem => by rw [contains h (made h mem)]
  · exact fun σ α β call arg => invokeWith_congr callables call arg

/-- It does not matter which of two equal handlers is asked for, nor which is removed. -/
theorem Settled.contains_remove_congr [DecidableEq φ] {hs : List (Handler φ)} (settled : Settled hs)
    {d : Delegate φ} (made : d.MadeOf hs) {h k : Handler φ} (memH : h ∈ hs) (memK : k ∈ hs)
    (same : h.same k = true) : d.contains h = d.contains k ∧ d.remove h = d.remove k := by
  have eq := (settled.same_iff memH memK).1 same
  constructor
  · rw [Bool.eq_iff_iff, settled.contains_iff made memH, settled.contains_iff made memK, eq]
  · unfold Delegate.remove
    congr 1
    refine List.filter_congr fun x mem => congrArg _ ?_
    rw [Bool.eq_iff_iff, settled.same_iff (made x mem) memH, settled.same_iff (made x mem) memK, eq]

/-- A delegate with one handler replaced by an equal one is like the delegate. -/
theorem Delegate.replace_alike [DecidableEq φ] {d : Delegate φ} {index : Nat} {h k : Handler φ}
    (found : d.handlers[index]? = some h) (same : k.same h = true) :
    (d.replace index k).Alike d := by
  refine ⟨rfl, ?_⟩
  show List.Forall₂ _ (d.handlers.set index k) d.handlers
  rw [List.forall₂_iff_get]
  refine ⟨by simp, fun i lt lt' => ?_⟩
  simp only [List.get_eq_getElem, List.getElem_set]
  by_cases eq : index = i
  · subst eq
    obtain ⟨_, rfl⟩ := List.getElem?_eq_some_iff.1 found
    simpa using same
  · simp [eq]

/-! ## Two runs -/

/-- The same end, be it a result or a failure, in related states. -/
inductive Agree (R : σ → σ → Prop) : Outcome σ β → Outcome σ β → Prop where
  | ok (result : β) {s s' : σ} (related : R s s') : Agree R (.ok result s) (.ok result s')
  | error (failure : CallFailure) {s s' : σ} (related : R s s') :
    Agree R (.error failure s) (.error failure s')

/-- From related states, both actions come to the same end. -/
def Parallel (R : σ → σ → Prop) (x y : Action σ β) : Prop := ∀ s s', R s s' → Agree R (x s) (y s')

section Parallel

variable {R : σ → σ → Prop}

theorem Parallel.pure (result : β) : Parallel R (pure result : Action σ β) (pure result) :=
  fun _ _ related => .ok result related

theorem Parallel.throw (failure : CallFailure) :
    Parallel R (throw failure : Action σ β) (throw failure) :=
  fun _ _ related => .error failure related

theorem Parallel.modify {change change' : σ → σ}
    (keeps : ∀ s s', R s s' → R (change s) (change' s')) :
    Parallel R (modify change : Action σ PUnit) (modify change') :=
  fun s s' related => .ok () (keeps s s' related)

theorem Parallel.bind {γ : Type} {x y : Action σ γ} {f g : γ → Action σ β} (first : Parallel R x y)
    (next : ∀ result, Parallel R (f result) (g result)) : Parallel R (x >>= f) (y >>= g) := by
  intro s s' related
  have agree := first s s' related
  show Agree R (EStateM.bind x f s) (EStateM.bind y g s')
  unfold EStateM.bind
  generalize x s = outcome, y s' = outcome' at agree ⊢
  cases agree with
  | ok result related => exact next result _ _ related
  | error failure related => exact .error failure related

/-- Reading the state, and then going on in parallel from whatever related states are read. -/
theorem Parallel.get {f g : σ → Action σ β} (next : ∀ s s', R s s' → Parallel R (f s) (g s')) :
    Parallel R (MonadState.get >>= f) (MonadState.get >>= g) :=
  fun s s' related => next s s' related s s' related

end Parallel

/-- Two routines that do the same to related states: as long as they look at the state, change it
and invoke delegates, they go along with each other. -/
inductive Routine.Related (R : σ → σ → Prop) : Routine σ δ α β → Routine σ δ α β → Prop where
  | done (result : β) : Related R (.done result) (.done result)
  | fail (message : String) : Related R (.fail message) (.fail message)
  | update {change change' : σ → σ} {next next' : Routine σ δ α β}
    (keeps : ∀ s s', R s s' → R (change s) (change' s')) (rest : Related R next next') :
    Related R (.update change next) (.update change' next')
  | look {next next' : σ → Routine σ δ α β}
    (rest : ∀ s s', R s s' → Related R (next s) (next' s')) :
    Related R (.look next) (.look next')
  | invoke (target : δ) (arg : α) {next next' : Except DelegateError β → Routine σ δ α β}
    (rest : ∀ result, Related R (next result) (next' result)) :
    Related R (.invoke target arg next) (.invoke target arg next')

theorem Routine.Related.parallel_run {R : σ → σ → Prop}
    {invoke : δ → α → Action σ (Except DelegateError β)}
    (invokes : ∀ target arg, Parallel R (invoke target arg) (invoke target arg))
    {r r' : Routine σ δ α β} (related : Related R r r') :
    Parallel R (r.run invoke) (r'.run invoke) := by
  induction related with
  | done result => exact .pure result
  | fail message => exact .throw (.raised message)
  | update keeps _ ih => exact .bind (.modify keeps) fun _ => ih
  | look _ ih => exact .get ih
  | invoke target arg _ ih => exact .bind (invokes target arg) ih

/-- The setting does not tell related states apart: delegates of one name are alike in both, and
what handlers do goes along in both. -/
structure Setting.Respects [DecidableEq φ] (setting : Setting φ σ δ α β) (hs : List (Handler φ))
    (R : σ → σ → Prop) : Prop where
  delegate : ∀ s s' target, R s s' →
    (setting.delegate s target).Matched hs (setting.delegate s' target)
  routine : ∀ callable arg,
    Routine.Related R (setting.routine callable arg) (setting.routine callable arg)

theorem parallel_callAll {R : σ → σ → Prop} {call : Callable φ → α → Action σ β}
    (calls : ∀ callable arg, Parallel R (call callable arg) (call callable arg)) (arg : α)
    (handler : Handler φ) (handlers : List (Handler φ)) :
    Parallel R (callAll call arg handler handlers) (callAll call arg handler handlers) := by
  induction handlers generalizing handler with
  | nil => exact calls handler.callable arg
  | cons next handlers ih => exact .bind (calls handler.callable arg) fun _ => ih next

theorem Delegate.parallel_invokeWith {R : σ → σ → Prop} {call : Callable φ → α → Action σ β}
    (calls : ∀ callable arg, Parallel R (call callable arg) (call callable arg))
    (d : Delegate φ) (arg : α) : Parallel R (d.invokeWith call arg) (d.invokeWith call arg) := by
  unfold invokeWith
  cases d.handlers with
  | nil => exact .pure _
  | cons handler handlers =>
    exact .bind (parallel_callAll calls arg handler handlers) fun result => .pure (Except.ok result)

/-- An invocation in related states comes to the same end in both, however deep it nests and
whatever its handlers do to the delegates on the way. -/
theorem Setting.parallel_invoke [DecidableEq φ] {hs : List (Handler φ)} (settled : Settled hs)
    {setting : Setting φ σ δ α β} {R : σ → σ → Prop} (respects : setting.Respects hs R)
    (depth : Nat) (target : δ) (arg : α) :
    Parallel R (setting.invoke depth target arg) (setting.invoke depth target arg) := by
  induction depth generalizing target arg with
  | zero => exact .throw .nestedTooDeep
  | succ depth ih =>
    refine .get fun s s' related => ?_
    obtain ⟨_, _, _, callables⟩ := settled.matched_iff.1 (respects.delegate s s' target related)
    rw [invokeWith_congr callables]
    exact parallel_invokeWith (fun callable arg =>
      (respects.routine callable arg).parallel_run fun target arg => ih target arg) _ arg

end Groundwork
