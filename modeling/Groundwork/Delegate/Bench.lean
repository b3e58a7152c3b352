import Groundwork.Delegate.Invocation

/-!
# `Delegate.Bench` — delegates and handlers by name

A bench is a place to try delegates out: it keeps handlers and delegates under names, and it keeps a
log of calls. Its handlers compute with 64-bit integers that wrap around, and some of them change or
invoke delegates of the bench while they are being called. Names inside a handler are looked up when
it is called.

## Contents

* `NamedFunction`, `Behaviour`, `Edit` — what handlers of a bench do.
* `Bench` — the named handlers and delegates and the log.
* `Bench.setting`, `Bench.routine` — a bench as the setting of its own delegates.
* `Command`, `Bench.perform`, `Reply` — one thing to do with a bench, and what comes of it.
-/

namespace Groundwork

/-! ## What handlers do -/

/-- The functions that handlers can be made from. -/
inductive NamedFunction where
  /-- One more. -/
  | plusOne
  /-- Twice as much. -/
  | twice
  /-- The opposite. -/
  | negate
  deriving DecidableEq, Repr

namespace NamedFunction

/-- The name of a function. -/
def name : NamedFunction → String
  | .plusOne => "plus_one"
  | .twice => "twice"
  | .negate => "negate"

/-- The value of a function. -/
def apply : NamedFunction → Int64 → Int64
  | .plusOne, x => x + 1
  | .twice, x => 2 * x
  | .negate, x => -x

end NamedFunction

/-- A change to a delegate that names what takes part in it. -/
inductive Edit where
  | append (handler : String)
  | remove (handler : String)
  | appendAll (other : String)
  | removeAll (other : String)
  | assign (other : String)
  | assignHandler (handler : String)
  | clear
  deriving DecidableEq, Repr

/-- What a closure does with its argument. -/
inductive Behaviour where
  /-- Gives `k`. -/
  | const (k : Int64)
  /-- Adds `k`. -/
  | add (k : Int64)
  /-- Multiplies by `k`. -/
  | mul (k : Int64)
  /-- Adds the argument to a total that starts at `k`, and gives the total. -/
  | counter (k : Int64)
  /-- Fails. -/
  | fail
  /-- Computes a function, without being known by it. -/
  | compute (f : NamedFunction)
  /-- Edits a delegate that has not grown too long, and adds `k`. -/
  | edit (target : String) (edit : Edit) (k : Int64)
  /-- Invokes a delegate with one less and adds `k` to the result; an argument that is not positive
  gives `k`. -/
  | invoke (target : String) (k : Int64)
  deriving DecidableEq, Repr

/-- A closure on a bench: the name it was made under, what it does, and its running total. -/
structure Station where
  name : String
  behaviour : Behaviour
  total : Int64
  deriving DecidableEq, Repr

/-! ## The bench -/

/-- The handlers of a bench. -/
abbrev BenchHandler := Handler NamedFunction

/-- The delegates of a bench. -/
abbrev BenchDelegate := Delegate NamedFunction

/-- Named handlers and delegates, and a log of calls. -/
structure Bench where
  /-- The cells taken by handlers. -/
  supply : Supply
  /-- The closures by cell. -/
  stations : List (Nat × Station)
  /-- The handlers by name, the newest first. -/
  handlers : List (String × BenchHandler)
  /-- The delegates by name. -/
  delegates : List (String × BenchDelegate)
  /-- The calls since the last command began, each with its tag and argument, the latest first. -/
  log : List (String × Int64)
  deriving DecidableEq, Repr

namespace Bench

/-- A bench with nothing on it. -/
def empty : Bench := ⟨Supply.start, [], [], [], []⟩

instance : Inhabited Bench := ⟨empty⟩

/-- The handler of a name. -/
def handler? (bench : Bench) (name : String) : Option BenchHandler := bench.handlers.lookup name

/-- The delegate of a name. -/
def delegate? (bench : Bench) (name : String) : Option BenchDelegate := bench.delegates.lookup name

/-- The name of the first handler made that is the same as this one. -/
def nameOf? (bench : Bench) (handler : BenchHandler) : Option String :=
  (bench.handlers.reverse.find? fun named => named.2.same handler).map (·.1)

/-- Puts a delegate under a name, in the place of what was there. -/
def putDelegate (bench : Bench) (name : String) (d : BenchDelegate) : Bench :=
  { bench with delegates := (name, d) :: bench.delegates.filter fun named => named.1 ≠ name }

/-- Puts a handler under a name. -/
def putHandler (bench : Bench) (name : String) (handler : BenchHandler) : Bench :=
  { bench with handlers := (name, handler) :: bench.handlers }

/-- Makes a handler of a function. -/
def addFunction (bench : Bench) (name : String) (f : NamedFunction) : Bench :=
  let (handler, supply) := bench.supply.ofFunction f
  { bench with supply }.putHandler name handler

/-- The total that a closure starts with. -/
def startTotal : Behaviour → Int64
  | .counter k => k
  | _ => 0

/-- Makes a handler of a closure. -/
def addClosure (bench : Bench) (name : String) (behaviour : Behaviour) : Bench :=
  let (handler, supply) := bench.supply.ofClosure
  let station : Station := ⟨name, behaviour, startTotal behaviour⟩
  { bench with supply, stations := (handler.cell, station) :: bench.stations }.putHandler
    name handler

/-- Enters a call into the log. -/
def note (tag : String) (arg : Int64) (bench : Bench) : Bench :=
  { bench with log := (tag, arg) :: bench.log }

/-- Adds to the running total of the closure in a cell. -/
def addToTotal (cell : Nat) (amount : Int64) (bench : Bench) : Bench :=
  { bench with stations := bench.stations.map fun (place, station) =>
      if place = cell then (place, { station with total := station.total + amount })
      else (place, station) }

/-- The running total of the closure in a cell. -/
def total (bench : Bench) (cell : Nat) : Int64 :=
  match bench.stations.lookup cell with
  | some station => station.total
  | none => 0

/-! ## Edits -/

/-- The change that an edit names, if all it names is on the bench. -/
def change? (bench : Bench) : Edit → Option (Change NamedFunction)
  | .append handler => (bench.handler? handler).map .append
  | .remove handler => (bench.handler? handler).map .remove
  | .appendAll other => (bench.delegate? other).map .appendAll
  | .removeAll other => (bench.delegate? other).map .removeAll
  | .assign other => (bench.delegate? other).map .assign
  | .assignHandler handler => (bench.handler? handler).map .assignHandler
  | .clear => some .clear

/-- The bench after an edit of one of its delegates. -/
def edit? (bench : Bench) (target : String) (edit : Edit) : Option Bench :=
  match bench.delegate? target, bench.change? edit with
  | some d, some change => some (bench.putDelegate target (d.apply change))
  | _, _ => none

/-- The most handlers that a delegate may have for a handler to edit it. -/
def editLimit : Nat := 24

/-- What a handler that edits does to the bench. -/
def editIfShort (target : String) (edit : Edit) (bench : Bench) : Bench :=
  match bench.delegate? target with
  | some d => if d.size ≤ editLimit then (bench.edit? target edit).getD bench else bench
  | none => bench

/-! ## Calls -/

/-- What handlers on a bench do in a call. -/
abbrev BenchRoutine := Routine Bench String Int64 Int64

/-- What a handler that invokes gives, from what came of the invocation. -/
def afterInvoke (k : Int64) : Except DelegateError Int64 → Int64
  | .ok result => result + k
  | .error _ => k - 1000

/-- The tag under which a function goes into the log. -/
def functionTag (f : NamedFunction) : String := "fn:" ++ f.name

/-- The tag under which a closure goes into the log; one that computes a function leaves the logging
to it. -/
def closureTag (station : Station) : String :=
  match station.behaviour with
  | .compute f => functionTag f
  | _ => station.name

/-- What is done in a call to the closure in a cell. -/
def closureRoutine (cell : Nat) (station : Station) (arg : Int64) : BenchRoutine :=
  .update (note (closureTag station) arg) <|
    match station.behaviour with
    | .const k => .done k
    | .add k => .done (arg + k)
    | .mul k => .done (arg * k)
    | .counter _ => .update (addToTotal cell arg) (.look fun bench => .done (bench.total cell))
    | .fail => .fail ("handler failed: " ++ station.name)
    | .compute f => .done (f.apply arg)
    | .edit target edit k => .update (editIfShort target edit) (.done (arg + k))
    | .invoke target k =>
      if arg ≤ 0 then .done k
      else .invoke target (arg - 1) fun result => .done (afterInvoke k result)

/-- What is done in a call on the bench. -/
def routine : Callable NamedFunction → Int64 → BenchRoutine
  | .function f, arg => .update (note (functionTag f) arg) (.done (f.apply arg))
  | .closure cell, arg =>
    .look fun bench =>
      match bench.stations.lookup cell with
      | some station => closureRoutine cell station arg
      | none => .fail "no such handler"

/-- A bench as the setting in which its delegates are invoked; a name that stands for none is a
delegate without handlers. -/
def setting : Setting NamedFunction Bench String Int64 Int64 where
  delegate bench name := (bench.delegate? name).getD (Delegate.new default)
  routine := routine

/-- How deep invocations with this argument nest at most: every handler that invokes passes on one
less, and stops at zero. -/
def depthFor (arg : Int64) : Nat := arg.toInt.toNat + 1

/-! ## Commands -/

/-- A handler or a delegate, by name. -/
inductive Operand where
  | handler (name : String)
  | delegate (name : String)
  deriving DecidableEq, Repr

/-- One thing to do with a bench. -/
inductive Command where
  /-- Makes a handler of a closure. -/
  | closure (name : String) (behaviour : Behaviour)
  /-- Makes a handler of a function. -/
  | function (name : String) (f : NamedFunction)
  /-- Puts a copy of a handler under another name. -/
  | alias (name source : String)
  /-- Makes a delegate without handlers. -/
  | new (name : String) (policy : LockPolicy)
  /-- Makes a delegate with one handler. -/
  | ofHandler (name handler : String) (policy : LockPolicy)
  /-- Puts a copy of a delegate under another name. -/
  | copy (name source : String)
  /-- Edits a delegate. -/
  | edit (target : String) (edit : Edit)
  /-- Puts a sum under a name. -/
  | sum (name : String) (left right : Operand)
  /-- Puts a difference under a name. -/
  | difference (name left : String) (right : Operand)
  /-- Asks for the handler at a place. -/
  | at (name : String) (index : Nat)
  /-- Invokes a delegate. -/
  | invoke (name : String) (arg : Int64)
  /-- Calls a handler. -/
  | call (handler : String) (arg : Int64)
  /-- Asks whether a delegate has a handler. -/
  | contains (name handler : String)
  /-- Asks whether two handlers are the same. -/
  | same (left right : String)
  /-- Asks for the number of handlers. -/
  | size (name : String)
  /-- Asks for a delegate as messages show it. -/
  | describe (name : String)
  deriving DecidableEq, Repr

/-- What comes of a command. -/
inductive Reply where
  | done
  | number (n : Int64)
  | flag (b : Bool)
  | size (n : Nat) (isEmpty : Bool)
  | text (s : String)
  | refused (error : DelegateError)
  | failed (failure : CallFailure)
  deriving DecidableEq, Repr

/-- The sum of two operands. -/
def sum? (bench : Bench) (left right : Operand) : Option BenchDelegate :=
  match left, right with
  | .handler h, .handler k => return (← bench.handler? h) + (← bench.handler? k)
  | .handler h, .delegate e => return (← bench.handler? h) + (← bench.delegate? e)
  | .delegate d, .handler k => return (← bench.delegate? d) + (← bench.handler? k)
  | .delegate d, .delegate e => return (← bench.delegate? d) + (← bench.delegate? e)

/-- The difference of a delegate and an operand. -/
def difference? (bench : Bench) (left : String) (right : Operand) : Option BenchDelegate :=
  match right with
  | .handler k => return (← bench.delegate? left) - (← bench.handler? k)
  | .delegate e => return (← bench.delegate? left) - (← bench.delegate? e)

/-- The reply to an invocation or a call, with the bench it leaves. -/
def replyTo (result : EStateM.Result CallFailure Bench (Except DelegateError Int64)) :
    Reply × Bench :=
  match result with
  | .ok (.ok n) bench => (.number n, bench)
  | .ok (.error e) bench => (.refused e, bench)
  | .error failure bench => (.failed failure, bench)

/-- Carries out a command on a bench whose log is empty. -/
def carryOut (bench : Bench) : Command → Option (Reply × Bench)
  | .closure name behaviour => some (.done, bench.addClosure name behaviour)
  | .function name f => some (.done, bench.addFunction name f)
  | .alias name source => do
    let handler ← bench.handler? source
    return (.done, bench.putHandler name handler.copy)
  | .new name policy => some (.done, bench.putDelegate name (Delegate.new policy))
  | .ofHandler name handler policy => do
    let handler ← bench.handler? handler
    return (.done, bench.putDelegate name (Delegate.ofHandler handler policy))
  | .copy name source => do
    let d ← bench.delegate? source
    return (.done, bench.putDelegate name d.copy)
  | .edit target edit => do
    let bench ← bench.edit? target edit
    return (.done, bench)
  | .sum name left right => do
    let d ← bench.sum? left right
    return (.done, bench.putDelegate name d)
  | .difference name left right => do
    let d ← bench.difference? left right
    return (.done, bench.putDelegate name d)
  | .at name index => do
    let d ← bench.delegate? name
    match d.at? index with
    | .ok handler => return (.text (← bench.nameOf? handler), bench)
    | .error e => return (.refused e, bench)
  | .invoke name arg => do
    let _ ← bench.delegate? name
    return replyTo (setting.invoke (depthFor arg) name arg bench)
  | .call handler arg => do
    let handler ← bench.handler? handler
    return replyTo ((Except.ok <$> setting.call (depthFor arg) handler arg) bench)
  | .contains name handler => do
    return (.flag ((← bench.delegate? name).contains (← bench.handler? handler)), bench)
  | .same left right => do
    return (.flag ((← bench.handler? left).same (← bench.handler? right)), bench)
  | .size name => do
    let d ← bench.delegate? name
    return (.size d.size d.isEmpty, bench)
  | .describe name => do
    let d ← bench.delegate? name
    return (.text d.describe, bench)

/-- Carries out a command with a fresh log; nothing, if it names something that is not on the
bench. -/
def perform (bench : Bench) (command : Command) : Option (Reply × Bench) :=
  carryOut { bench with log := [] } command

end Bench

end Groundwork
