import Groundwork.Delegate.Basic

/-!
# `Delegate.Client` — several clients of one delegate

Clients change a delegate independently of each other. Where every change holds an excluding lock
from reading the list to storing it, what several clients do together is some sequence of their
changes, in which each client's own come in the order of its program.

## Contents

* `appendProgram` — the client that appends one handler a number of times.
* `Delegate.serveInTurn` — the delegate after all clients have run, one after the other.
* `Delegate.occurrences` — how often a handler stands in a delegate.
-/

namespace Groundwork

variable {φ : Type}

/-- The client that appends `handler` some number of times. -/
def appendProgram (handler : Handler φ) (times : Nat) : List (Change φ) :=
  List.replicate times (.append handler)

/-- Makes a handler for each of some clients. -/
def clientHandlers (supply : Supply) : Nat → List (Handler φ) × Supply
  | 0 => ([], supply)
  | clients + 1 =>
    let (handler, supply) := supply.ofClosure
    let (handlers, supply) := clientHandlers supply clients
    (handler :: handlers, supply)

namespace Delegate

variable [DecidableEq φ]

/-- The delegate after the programs of all clients have run, one after the other. -/
def serveInTurn (d : Delegate φ) (programs : List (List (Change φ))) : Delegate φ :=
  programs.foldl applyAll d

/-- How often a handler, or one that is the same, stands in the list. -/
def occurrences (d : Delegate φ) (handler : Handler φ) : Nat := d.handlers.countP (·.same handler)

end Delegate

end Groundwork
