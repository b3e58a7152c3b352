import Groundwork.Delegate.Handler
import Groundwork.Delegate.Policy

/-!
# `Delegate.Basic` — lists of handlers, called as one

A delegate is a list of handlers in order of insertion; a handler may stand in it more than once.
Adding goes to the end, removing takes away all occurrences and keeps the others in order. Changes
never touch the policy, which stays what it was when the delegate was made; a delegate computed from
another has the policy of that one.

## Contents

* `Delegate`, `contains`, `at?` — the list and how to look into it; `DelegateError`.
* `append`, `remove`, `appendAll`, `removeAll`, `assign`, `assignHandler`, `clear` — the changes.
* `Change`, `Delegate.apply` — a change as data; `Delegate.policy_applyAll`.
* `copy`, `withAppended`, `without`, `withAppendedAll`, `withoutAll` — changed copies.
* `+` and `-`, `addAssign` and `subAssign` — sums and differences of delegates and handlers.
-/

namespace Groundwork

variable {φ : Type}

/-- A list of handlers, called in order, and the kind of lock that changes to it take. -/
structure Delegate (φ : Type) where
  handlers : List (Handler φ)
  policy : LockPolicy
  deriving DecidableEq, Repr

/-- What a delegate cannot do. -/
inductive DelegateError where
  /-- There is no handler at this place. -/
  | outOfRange (index length : Nat)
  /-- There is no handler to be called. -/
  | emptyInvocation
  deriving DecidableEq, Repr

/-- The wording of a delegate error. -/
def DelegateError.message : DelegateError → String
  | .outOfRange index length =>
    "handler index " ++ toString index ++ " out of range for delegate of length " ++ toString length
  | .emptyInvocation => "cannot invoke a delegate with no handlers"

namespace Delegate

/-! ## Making delegates and looking into them -/

/-- A delegate without handlers. -/
def new (policy : LockPolicy) : Delegate φ := ⟨[], policy⟩

/-- A delegate with one handler. -/
def ofHandler (handler : Handler φ) (policy : LockPolicy) : Delegate φ := ⟨[handler], policy⟩

/-- The number of handlers, counting each as often as it stands there. -/
def size (d : Delegate φ) : Nat := d.handlers.length

/-- There are no handlers. -/
def isEmpty (d : Delegate φ) : Bool := d.handlers.isEmpty

/-- The handler at a place. -/
def at? (d : Delegate φ) (index : Nat) : Except DelegateError (Handler φ) :=
  match d.handlers[index]? with
  | some handler => .ok handler
  | none => .error (.outOfRange index d.size)

/-- A delegate as messages show it; what tells its handlers apart is not shown. -/
def describe (d : Delegate φ) : String :=
  "MulticastDelegate \x7b policy: " ++ d.policy.name ++ ", handlers: ["
    ++ ", ".intercalate (d.handlers.map fun _ => "Handler(0x_)") ++ "] \x7d"

variable [DecidableEq φ]

/-- The handler, or one that is the same, is in the list. -/
def contains (d : Delegate φ) (handler : Handler φ) : Bool := d.handlers.any (·.same handler)

/-! ## Changes -/

/-- Adds a handler at the end. -/
def append (d : Delegate φ) (handler : Handler φ) : Delegate φ :=
  { d with handlers := d.handlers ++ [handler] }

/-- Adds the handlers of another delegate at the end, in their order. -/
def appendAll (d other : Delegate φ) : Delegate φ :=
  { d with handlers := d.handlers ++ other.handlers }

/-- Takes away every occurrence of a handler. -/
def remove (d : Delegate φ) (handler : Handler φ) : Delegate φ :=
  { d with handlers := d.handlers.filter fun h => !h.same handler }

/-- Takes away every occurrence of every handler of another delegate. -/
def removeAll (d other : Delegate φ) : Delegate φ :=
  { d with handlers := d.handlers.filter fun h => !other.contains h }

/-- Replaces the handlers by those of another delegate. -/
def assign (d other : Delegate φ) : Delegate φ := { d with handlers := other.handlers }

/-- Replaces the handlers by a single one. -/
def assignHandler (d : Delegate φ) (handler : Handler φ) : Delegate φ :=
  { d with handlers := [handler] }

/-- Takes away all handlers. -/
def clear (d : Delegate φ) : Delegate φ := { d with handlers := [] }

end Delegate

/-- A change to a delegate. Another delegate that takes part in it does so as it is when the change
is made. -/
inductive Change (φ : Type) where
  | append (handler : Handler φ)
  | remove (handler : Handler φ)
  | appendAll (other : Delegate φ)
  | removeAll (other : Delegate φ)
  | assign (other : Delegate φ)
  | assignHandler (handler : Handler φ)
  | clear
  deriving DecidableEq, Repr

namespace Delegate

variable [DecidableEq φ]

/-- The delegate after a change. -/
def apply (d : Delegate φ) : Change φ → Delegate φ
  | .append handler => d.append handler
  | .remove handler => d.remove handler
  | .appendAll other => d.appendAll other
  | .removeAll other => d.removeAll other
  | .assign other => d.assign other
  | .assignHandler handler => d.assignHandler handler
  | .clear => d.clear

/-- The delegate after some changes, one after the other. -/
def applyAll (d : Delegate φ) (changes : List (Change φ)) : Delegate φ := changes.foldl apply d

@[simp] theorem policy_apply (d : Delegate φ) (change : Change φ) :
    (d.apply change).policy = d.policy := by
  cases change <;> rfl

/-- No sequence of changes touches the policy. -/
@[simp] theorem policy_applyAll (d : Delegate φ) (changes : List (Change φ)) :
    (d.applyAll changes).policy = d.policy := by
  induction changes generalizing d with
  | nil => rfl
  | cons change changes ih => exact (ih _).trans (policy_apply d change)

/-! ## Changed copies -/

/-- A copy has the same list, and a lock of its own of the same kind. -/
def copy (d : Delegate φ) : Delegate φ := ⟨d.handlers, d.policy⟩

/-- A copy with a handler more at the end. -/
def withAppended (d : Delegate φ) (handler : Handler φ) : Delegate φ := d.copy.append handler

/-- A copy with the handlers of another delegate at the end. -/
def withAppendedAll (d other : Delegate φ) : Delegate φ := d.copy.appendAll other

/-- A copy without any occurrence of a handler. -/
def without (d : Delegate φ) (handler : Handler φ) : Delegate φ := d.copy.remove handler

/-- A copy without the handlers of another delegate. -/
def withoutAll (d other : Delegate φ) : Delegate φ := d.copy.removeAll other

/-! ## Sums and differences -/

instance : HAdd (Delegate φ) (Handler φ) (Delegate φ) := ⟨withAppended⟩

instance : HAdd (Delegate φ) (Delegate φ) (Delegate φ) := ⟨withAppendedAll⟩

instance : HSub (Delegate φ) (Handler φ) (Delegate φ) := ⟨without⟩

instance : HSub (Delegate φ) (Delegate φ) (Delegate φ) := ⟨withoutAll⟩

/-- A handler in front of a delegate makes a delegate with the default policy. -/
instance : HAdd (Handler φ) (Delegate φ) (Delegate φ) :=
  ⟨fun h d => (ofHandler h default).appendAll d⟩

/-- Two handlers make a delegate with the default policy. -/
instance : HAdd (Handler φ) (Handler φ) (Delegate φ) := ⟨fun h k => (ofHandler h default).append k⟩

/-- The sum of a delegate and a handler, where the delegate itself is given away and no copy is
made. -/
def addOwned (d : Delegate φ) (handler : Handler φ) : Delegate φ := d.append handler

/-- What an operator may change a delegate by. -/
inductive Term (φ : Type) where
  | handler (handler : Handler φ)
  | delegate (other : Delegate φ)
  deriving DecidableEq, Repr

/-- What `+=` makes of a delegate. -/
def addAssign (d : Delegate φ) : Term φ → Delegate φ
  | .handler handler => d.append handler
  | .delegate other => d.appendAll other

/-- What `-=` makes of a delegate. -/
def subAssign (d : Delegate φ) : Term φ → Delegate φ
  | .handler handler => d.remove handler
  | .delegate other => d.removeAll other

end Delegate

end Groundwork
