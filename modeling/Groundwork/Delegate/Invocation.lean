import Groundwork.Delegate.Basic

/-!
# `Delegate.Invocation` — calling the handlers of a delegate

To invoke a delegate is to call its handlers in order, all with the same argument; the result is
that of the last. The list is taken as it is when the invocation starts, so a handler may change the
very delegate that is being invoked, and the change shows in the next invocation. A handler that
fails ends the invocation, and all that was done up to then stays done.

What handlers do is given as a `Routine`: it may look at the state of the surroundings and change
it, where delegates are a part of that state; it may invoke delegates, which runs further routines;
and it ends with a result or fails.

## Contents

* `Delegate.invokeWith` — an invocation, for calls that act on a state in any way.
* `Routine`, `Setting` — what handlers do, and where delegates are found.
* `Setting.invoke`, `Setting.call` — invocations in a setting, nested up to a given depth.
-/

namespace Groundwork

/-! ## One invocation -/

/-- Why a call ends without a result. -/
inductive CallFailure where
  /-- A handler has failed with this message. -/
  | raised (message : String)
  /-- Invocations are nested deeper than allowed. -/
  | nestedTooDeep
  deriving DecidableEq, Repr

/-- The wording of a failure. -/
def CallFailure.message : CallFailure → String
  | .raised message => message
  | .nestedTooDeep => "invocations nested too deeply"

/-- Something done to a state of type `σ` that gives a result or fails; a failure keeps the
state. -/
abbrev Action (σ β : Type) := EStateM CallFailure σ β

variable {φ α β σ δ : Type}

/-- Calls `handler` and then all of `handlers`; the result is that of the last call. -/
def callAll (call : Callable φ → α → Action σ β) (arg : α) (handler : Handler φ) :
    List (Handler φ) → Action σ β
  | [] => call handler.callable arg
  | next :: handlers => do
    let _ ← call handler.callable arg
    callAll call arg next handlers

/-- Calls the handlers of a delegate in order. -/
def Delegate.invokeWith (d : Delegate φ) (call : Callable φ → α → Action σ β) (arg : α) :
    Action σ (Except DelegateError β) :=
  match d.handlers with
  | [] => pure (.error .emptyInvocation)
  | handler :: handlers => do
    let result ← callAll call arg handler handlers
    pure (.ok result)

/-! ## What handlers do -/

/-- What is done in a call, step by step: `σ` is the state of the surroundings, `δ` names delegates,
`α` and `β` are arguments and results. -/
inductive Routine (σ δ α β : Type) where
  /-- Ends with a result. -/
  | done (result : β)
  /-- Fails. -/
  | fail (message : String)
  /-- Changes the state. -/
  | update (change : σ → σ) (next : Routine σ δ α β)
  /-- Goes on as the state says. -/
  | look (next : σ → Routine σ δ α β)
  /-- Invokes a delegate and goes on with what comes of it. -/
  | invoke (target : δ) (arg : α) (next : Except DelegateError β → Routine σ δ α β)

/-- Runs a routine, given how delegates are invoked. -/
def Routine.run (invoke : δ → α → Action σ (Except DelegateError β)) : Routine σ δ α β → Action σ β
  | .done result => pure result
  | .fail message => throw (.raised message)
  | .update change next => do
    modify change
    next.run invoke
  | .look next => do
    let state ← get
    (next state).run invoke
  | .invoke target arg next => do
    let result ← invoke target arg
    (next result).run invoke

/-! ## Settings -/

/-- The surroundings of delegates: how a delegate is found by its name, and what is done with an
argument by whatever can be called. -/
structure Setting (φ σ δ α β : Type) where
  delegate : σ → δ → Delegate φ
  routine : Callable φ → α → Routine σ δ α β

namespace Setting

/-- Invokes a delegate as it is found now. Invocations may be nested `depth` deep, this one
included; one that goes deeper fails. -/
def invoke (setting : Setting φ σ δ α β) : (depth : Nat) → δ → α → Action σ (Except DelegateError β)
  | 0, _, _ => throw .nestedTooDeep
  | depth + 1, target, arg => do
    let state ← get
    (setting.delegate state target).invokeWith
      (fun callable arg => (setting.routine callable arg).run (setting.invoke depth)) arg

/-- Calls a single handler, which may invoke delegates up to `depth` deep. -/
def call (setting : Setting φ σ δ α β) (depth : Nat) (handler : Handler φ) (arg : α) : Action σ β :=
  (setting.routine handler.callable arg).run (setting.invoke depth)

end Setting

end Groundwork
