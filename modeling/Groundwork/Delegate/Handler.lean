/-!
# `Delegate.Handler` — callables that know who they are

A handler is something to be called, and has an identity of its own: every handler made anew lives
in a cell that no other lives in, and a copy lives in the cell of what it is a copy of. A handler
made from a named function is known by that function instead, wherever it lives. What happens in a
call is not part of the handler; it depends on its `Callable` only.

## Contents

* `Handler`, `Handler.same` — handlers and when two count as one; `Handler.copy`.
* `Callable`, `Handler.callable` — what is called through a handler.
* `Supply` — the cells not yet taken; `Supply.ofClosure`, `Supply.ofNullary`, `Supply.ofFunction`
  make handlers.
-/

namespace Groundwork

variable {φ : Type}

/-- What can be called: a named function, or the closure that lives in a cell. -/
inductive Callable (φ : Type) where
  | function (f : φ)
  | closure (cell : Nat)
  deriving DecidableEq, Repr

/-- Something to be called, known by its function if it is made from one, and by its cell if not. -/
structure Handler (φ : Type) where
  cell : Nat
  function : Option φ
  deriving DecidableEq, Repr

namespace Handler

/-- What is called through a handler. -/
def callable (h : Handler φ) : Callable φ :=
  match h.function with
  | some f => .function f
  | none => .closure h.cell

/-- The two handlers call the same function, or are copies of one handler. -/
def same [DecidableEq φ] (h k : Handler φ) : Bool :=
  match h.function, k.function with
  | some f, some g => f = g
  | _, _ => h.cell = k.cell

/-- A copy of a handler shares its cell, and its function if it is made from one. -/
def copy (h : Handler φ) : Handler φ := ⟨h.cell, h.function⟩

end Handler

/-- The number of cells taken so far; the next handler gets the next one. -/
structure Supply where
  taken : Nat
  deriving DecidableEq, Repr

namespace Supply

/-- No handler has been made. -/
def start : Supply := ⟨0⟩

/-- Makes a handler that is equal only to its copies. -/
def ofClosure (supply : Supply) : Handler φ × Supply := (⟨supply.taken, none⟩, ⟨supply.taken + 1⟩)

/-- Makes a handler of a closure without argument, by way of a closure that takes the unit. -/
def ofNullary (supply : Supply) : Handler φ × Supply := supply.ofClosure

/-- Makes a handler of a named function. -/
def ofFunction (supply : Supply) (f : φ) : Handler φ × Supply :=
  (⟨supply.taken, some f⟩, ⟨supply.taken + 1⟩)

end Supply

end Groundwork
