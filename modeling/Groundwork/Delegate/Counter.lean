import Groundwork.Delegate.Invocation

/-!
# `Delegate.Counter` — handlers without argument that count

A bank holds a row of counters, each with a step of its own. The handler of a counter takes no
argument; called, it moves its counter on by one step and gives the new value. Values wrap around at
64 bits.

## Contents

* `Counter`, `CounterBank`, `CounterBank.handlers` — the counters and their handlers.
* `CounterBank.invoke` — a delegate of such handlers, invoked.
-/

namespace Groundwork

/-- A value and the step by which it moves on. -/
structure Counter where
  value : Int64
  step : Int64
  deriving DecidableEq, Repr

/-- A counter moved on by its step. -/
def Counter.next (counter : Counter) : Counter :=
  { counter with value := counter.value + counter.step }

/-- A row of counters; the handler in cell `i` moves the counter at place `i`. -/
structure CounterBank where
  counters : List Counter
  deriving DecidableEq, Repr

namespace CounterBank

/-- The handlers of the counters, in order. -/
def handlers (bank : CounterBank) : List (Handler Empty) :=
  (List.range bank.counters.length).map fun cell => ⟨cell, none⟩

/-- Moves on the counter in a cell and gives its new value. -/
def call : Callable Empty → Unit → Action CounterBank Int64
  | .closure cell, () => do
    modify fun bank => ⟨bank.counters.modify cell Counter.next⟩
    let bank ← get
    match bank.counters[cell]? with
    | some counter => pure counter.value
    | none => throw (.raised "no such counter")

/-- Invokes a delegate of counter handlers. -/
def invoke (d : Delegate Empty) : Action CounterBank (Except DelegateError Int64) :=
  d.invokeWith call ()

/-- The results of invoking a delegate a number of times, each with the bank after it. -/
def invokeTimes (bank : CounterBank) (d : Delegate Empty) :
    Nat → List (Except DelegateError Int64 × CounterBank)
  | 0 => []
  | times + 1 =>
    match invoke d bank with
    | .ok result bank => (result, bank) :: bank.invokeTimes d times
    | .error _ _ => []

end CounterBank

end Groundwork
