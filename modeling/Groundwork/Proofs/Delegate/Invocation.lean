import Groundwork.Delegate.Invocation
import Mathlib.Data.List.Chain

/-!
# `Proofs.Delegate.Invocation` — the calls of one invocation

An invocation takes the list of handlers as it is at the start, and calls them in order, each in the
state that the one before has left, until one fails or all have been called. What the calls do to
the state has no say in which calls are made, even where delegates are a part of the state: the only
thing that can end the calls early is a failure.

## Contents

* `Call`, `callsFrom` — a call with its state and its outcome; the calls that handlers give rise to.
* `Snapshot` — what the calls of an invocation have to do with the list at its start.
* `Delegate.snapshot_invokeWith` — **the calls of an invocation are fixed at its start.**
-/

namespace Groundwork

variable {φ α β σ : Type}

/-! ## Calls -/

/-- How something done to a state ends: with a result or a failure, and with the state after it. -/
abbrev Outcome (σ β : Type) := EStateM.Result CallFailure σ β

/-- What is called and with which argument, the state before, and how the call ends. -/
structure Call (φ σ α β : Type) where
  callable : Callable φ
  arg : α
  before : σ
  outcome : Outcome σ β

/-- The calls that are made when handlers are called in order. -/
def callsFrom (call : Callable φ → α → Action σ β) (arg : α) (s : σ) :
    List (Handler φ) → List (Call φ σ α β)
  | [] => []
  | handler :: handlers =>
    ⟨handler.callable, arg, s, call handler.callable arg s⟩ ::
      match call handler.callable arg s with
      | .ok _ after => callsFrom call arg after handlers
      | .error _ _ => []

/-- The outcome of an invocation that has called some handlers, by how the last call ended. -/
def EndsWith (handlers : List (Handler φ)) (before : σ) (calls : List (Call φ σ α β))
    (outcome : Outcome σ (Except DelegateError β)) : Prop :=
  match calls.getLast? with
  | none => handlers = [] ∧ outcome = .ok (.error .emptyInvocation) before
  | some last =>
    match last.outcome with
    | .ok result after => calls.length = handlers.length ∧ outcome = .ok (.ok result) after
    | .error failure after => outcome = .error failure after

/-- The calls of an invocation follow the list of handlers at its start. -/
structure Snapshot (handlers : List (Handler φ)) (arg : α) (before : σ)
    (calls : List (Call φ σ α β)) (outcome : Outcome σ (Except DelegateError β)) : Prop where
  /-- The first handlers are called, in their order and each once. -/
  order : calls.map (·.callable) <+: handlers.map (·.callable)
  /-- All are called with the same argument. -/
  argument : ∀ call ∈ calls, call.arg = arg
  /-- The first call is made in the state at the start. -/
  first : ∀ call ∈ calls.head?, call.before = before
  /-- Every further call is made in the state that the one before has left when it succeeded. -/
  handOver : calls.IsChain fun call next => ∃ result, call.outcome = .ok result next.before
  /-- Without handlers there is no call, no change and no result. If the last call succeeded, all
  handlers have been called, and its result is that of the invocation. If it failed, so does the
  invocation, in the state that it left. -/
  ending : EndsWith handlers before calls outcome

/-! ## One invocation -/

theorem snapshot_nil (arg : α) (before : σ) :
    Snapshot (φ := φ) (β := β) [] arg before [] (.ok (.error .emptyInvocation) before) where
  order := List.prefix_rfl
  argument := by simp
  first := by simp
  handOver := .nil
  ending := ⟨rfl, rfl⟩

/-- A call that succeeds, with no handler left. -/
theorem snapshot_last (handler : Handler φ) (arg : α) (before after : σ) (result : β) :
    Snapshot [handler] arg before [⟨handler.callable, arg, before, .ok result after⟩]
      (.ok (.ok result) after) where
  order := List.prefix_rfl
  argument := by simp
  first := by simp
  handOver := .singleton _
  ending := ⟨rfl, rfl⟩

/-- A call that fails, whatever handlers are left. -/
theorem snapshot_failed (handler : Handler φ) (handlers : List (Handler φ)) (arg : α)
    (before after : σ) (failure : CallFailure) :
    Snapshot (β := β) (handler :: handlers) arg before
      [⟨handler.callable, arg, before, .error failure after⟩] (.error failure after) where
  order := by simp
  argument := by simp
  first := by simp
  handOver := .singleton _
  ending := rfl

/-- A call that succeeds, in front of those of the handlers that are left. -/
theorem Snapshot.cons {handlers : List (Handler φ)} {arg : α} {after : σ}
    {calls : List (Call φ σ α β)} {outcome : Outcome σ (Except DelegateError β)}
    (h : Snapshot handlers arg after calls outcome) (more : handlers ≠ []) (handler : Handler φ)
    (before : σ) (result : β) :
    Snapshot (handler :: handlers) arg before
      (⟨handler.callable, arg, before, .ok result after⟩ :: calls) outcome where
  order := by simpa using h.order
  argument := by simpa using h.argument
  first := by simp
  handOver := List.isChain_cons.2 ⟨fun next mem => ⟨result, by rw [h.first next mem]⟩, h.handOver⟩
  ending := by
    have ending := h.ending
    cases calls with
    | nil => exact absurd ending.1 more
    | cons call calls =>
      have last := List.getLast?_eq_some_getLast (List.cons_ne_nil call calls)
      unfold EndsWith at ending ⊢
      rw [List.getLast?_cons_cons]
      simpa only [last, List.length_cons, Nat.add_right_cancel_iff] using ending

theorem callAll_nil (call : Callable φ → α → Action σ β) (arg : α) (handler : Handler φ) (s : σ) :
    callAll call arg handler [] s = call handler.callable arg s := rfl

theorem callAll_cons_of_ok {call : Callable φ → α → Action σ β} {arg : α} {handler : Handler φ}
    {s after : σ} {result : β} (ok : call handler.callable arg s = .ok result after)
    (next : Handler φ) (handlers : List (Handler φ)) :
    callAll call arg handler (next :: handlers) s = callAll call arg next handlers after := by
  simp only [callAll, bind, EStateM.bind, ok]

theorem callAll_cons_of_error {call : Callable φ → α → Action σ β} {arg : α} {handler : Handler φ}
    {s after : σ} {failure : CallFailure}
    (error : call handler.callable arg s = .error failure after) (handlers : List (Handler φ)) :
    callAll call arg handler handlers s = .error failure after := by
  cases handlers with
  | nil => exact error
  | cons next handlers => simp only [callAll, bind, EStateM.bind, error]

/-- An invocation of a handler and those behind it. -/
theorem snapshot_callAll (call : Callable φ → α → Action σ β) (arg : α) (s : σ)
    (handler : Handler φ) (handlers : List (Handler φ)) :
    Snapshot (handler :: handlers) arg s (callsFrom call arg s (handler :: handlers))
      (((.ok <$> callAll call arg handler handlers) : Action σ (Except DelegateError β)) s) := by
  induction handlers generalizing handler s with
  | nil =>
    cases called : call handler.callable arg s with
    | ok result after =>
      simpa [callsFrom, called, callAll, EStateM.map, Functor.map]
        using snapshot_last handler arg s after result
    | error failure after =>
      simpa [callsFrom, called, callAll, EStateM.map, Functor.map]
        using snapshot_failed handler [] arg s after failure
  | cons next handlers ih =>
    cases called : call handler.callable arg s with
    | ok result after =>
      have rest := (ih after next).cons (by simp) handler s result
      rw [callsFrom]
      simpa [called, EStateM.map, Functor.map, callAll_cons_of_ok called] using rest
    | error failure after =>
      rw [callsFrom]
      simpa [called, EStateM.map, Functor.map, callAll_cons_of_error called]
        using snapshot_failed handler (next :: handlers) arg s after failure

namespace Delegate

theorem invokeWith_cons {d : Delegate φ} {handler : Handler φ} {handlers : List (Handler φ)}
    (eq : d.handlers = handler :: handlers) (call : Callable φ → α → Action σ β) (arg : α) :
    d.invokeWith call arg = .ok <$> callAll call arg handler handlers := by
  rw [invokeWith, eq]
  rfl

/-- An invocation calls the handlers that are in the list at its start, whatever the calls do. -/
theorem snapshot_invokeWith (d : Delegate φ) (call : Callable φ → α → Action σ β) (arg : α)
    (s : σ) :
    Snapshot d.handlers arg s (callsFrom call arg s d.handlers) (d.invokeWith call arg s) := by
  cases eq : d.handlers with
  | nil =>
    have empty : d.invokeWith call arg s = .ok (.error .emptyInvocation) s := by
      rw [invokeWith, eq]
      rfl
    rw [empty]
    exact snapshot_nil arg s
  | cons handler handlers =>
    rw [invokeWith_cons eq]
    exact snapshot_callAll call arg s handler handlers

end Delegate

/-- Every call has the outcome that calling gives. -/
theorem outcome_of_mem_callsFrom {call : Callable φ → α → Action σ β} {arg : α} {s : σ}
    {handlers : List (Handler φ)} {c : Call φ σ α β} (mem : c ∈ callsFrom call arg s handlers) :
    call c.callable c.arg c.before = c.outcome := by
  induction handlers generalizing s with
  | nil => simp [callsFrom] at mem
  | cons handler handlers ih =>
    rw [callsFrom, List.mem_cons] at mem
    rcases mem with rfl | mem
    · rfl
    · cases called : call handler.callable arg s with
      | ok result after => exact ih (by simpa [called] using mem)
      | error failure after => simp [called] at mem

end Groundwork
