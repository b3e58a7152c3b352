import Groundwork.Proofs.Delegate.Invocation

/-!
# `Proofs.Delegate.Record` — invocations inside each other

A setting can be observed: every handler, whatever else it does, then writes into a log when it is
called and when it returns, and before and after each delegate that it invokes. A failure writes
nothing, it ends everything. The observed setting does to the state what the setting does, and its
log is that of a *record*, in which calls stand below the invocation that makes them, and
invocations below the call that makes them. In this record each invocation, however deep, has the
calls that follow the list of its delegate as it was when this very invocation started; a change to
the list shows in the invocations that start after it.

## Contents

* `Note`, `Routine.observed`, `Setting.observed` — handlers that write a log.
* `CallRecord`, `InvocationRecord`, `notes` — records, and the log that a record stands for.
* `CallRecord.Faithful` — the record is one of the setting, and each invocation in it follows its
  list.
* `exists_record_invoke` — **what an observed invocation does and writes.**
* `invoke_snapshot` — **invocations run on the list at their start, at every depth.**
-/

namespace Groundwork

variable {φ σ δ α β : Type}

/-! ## Observed settings -/

/-- What the log of a run consists of. -/
inductive Note (φ σ δ α β : Type) where
  | invoked (target : δ) (arg : α) (before : σ)
  | called (callable : Callable φ) (arg : α) (before : σ)
  | returned (result : β) (after : σ)
  | ended (result : Except DelegateError β) (after : σ)

/-- Notes in the order in which they are made. -/
abbrev Log (φ σ δ α β : Type) := List (Note φ σ δ α β)

namespace Routine

/-- Makes a note of the state and goes on. -/
def noting (note : σ → Note φ σ δ α β) (next : Routine (σ × Log φ σ δ α β) δ α β) :
    Routine (σ × Log φ σ δ α β) δ α β :=
  .update (fun (s, log) => (s, log ++ [note s])) next

/-- Does the same and makes notes of it. -/
def observed : Routine σ δ α β → Routine (σ × Log φ σ δ α β) δ α β
  | .done result => noting (.returned result) (.done result)
  | .fail message => .fail message
  | .update change next => .update (fun (s, log) => (change s, log)) next.observed
  | .look next => .look fun (s, _) => (next s).observed
  | .invoke target arg next =>
    noting (.invoked target arg)
      (.invoke target arg fun result => noting (.ended result) (next result).observed)

end Routine

/-- The setting in which every handler makes notes of what it does. -/
def Setting.observed (setting : Setting φ σ δ α β) :
    Setting φ (σ × Log φ σ δ α β) δ α β where
  delegate := fun (s, _) target => setting.delegate s target
  routine callable arg :=
    .noting (.called callable arg) (setting.routine callable arg).observed

/-- What is done in a call, with the given depth of invocations below it. -/
def Setting.act (setting : Setting φ σ δ α β) (depth : Nat) (callable : Callable φ) (arg : α) :
    Action σ β := (setting.routine callable arg).run (setting.invoke depth)

/-! ## Records -/

/-- Which delegate is invoked and with which argument, the state before, and how it ends. -/
structure Invocation (σ δ α β : Type) where
  target : δ
  arg : α
  before : σ
  outcome : Outcome σ (Except DelegateError β)

mutual

/-- Calls one after the other, each with the invocations that it makes. -/
inductive CallRecord (φ σ δ α β : Type) where
  | nil
  | cons (call : Call φ σ α β) (below : InvocationRecord φ σ δ α β) (rest : CallRecord φ σ δ α β)

/-- Invocations one after the other, each with the calls that it makes. -/
inductive InvocationRecord (φ σ δ α β : Type) where
  | nil
  | cons (invocation : Invocation σ δ α β) (below : CallRecord φ σ δ α β)
      (rest : InvocationRecord φ σ δ α β)

end

/-- The note of a result; there is none of a failure. -/
def noteOf {γ : Type} (note : γ → σ → Note φ σ δ α β) : Outcome σ γ → Log φ σ δ α β
  | .ok result after => [note result after]
  | .error _ _ => []

mutual

/-- The log of some calls. -/
def CallRecord.notes : CallRecord φ σ δ α β → Log φ σ δ α β
  | .nil => []
  | .cons call below rest =>
    .called call.callable call.arg call.before ::
      (below.notes ++ (noteOf .returned call.outcome ++ rest.notes))

/-- The log of some invocations. -/
def InvocationRecord.notes : InvocationRecord φ σ δ α β → Log φ σ δ α β
  | .nil => []
  | .cons invocation below rest =>
    .invoked invocation.target invocation.arg invocation.before ::
      (below.notes ++ (noteOf .ended invocation.outcome ++ rest.notes))

end

/-- The calls themselves, without what is below them. -/
def CallRecord.calls : CallRecord φ σ δ α β → List (Call φ σ α β)
  | .nil => []
  | .cons call _ rest => call :: rest.calls

mutual

/-- Each call ends as it does in the setting, where invocations may be nested `depth` deep below it,
and the invocations that it makes are as they should be. -/
def CallRecord.Faithful (setting : Setting φ σ δ α β) (depth : Nat) : CallRecord φ σ δ α β → Prop
  | .nil => True
  | .cons call below rest =>
    setting.act depth call.callable call.arg call.before = call.outcome
      ∧ below.Faithful setting depth ∧ rest.Faithful setting depth

/-- Each invocation ends as it does in the setting. One that is nested too deep makes no calls; the
calls of any other follow the list of the delegate in the state before the invocation. -/
def InvocationRecord.Faithful (setting : Setting φ σ δ α β) (depth : Nat) :
    InvocationRecord φ σ δ α β → Prop
  | .nil => True
  | .cons invocation below rest =>
    setting.invoke depth invocation.target invocation.arg invocation.before = invocation.outcome
      ∧ (match depth with
        | 0 => below.calls = []
        | depth + 1 =>
          Snapshot (setting.delegate invocation.before invocation.target).handlers invocation.arg
              invocation.before below.calls invocation.outcome
            ∧ below.Faithful setting depth)
      ∧ rest.Faithful setting depth

end

/-! ## What is observed -/

/-- The outcome, with a log beside the state. -/
def withLog {γ : Type} (log : Log φ σ δ α β) : Outcome σ γ → Outcome (σ × Log φ σ δ α β) γ
  | .ok result after => .ok result (after, log)
  | .error failure after => .error failure (after, log)

/-- With invocations nested `depth` deep, the observed setting invokes delegates as the setting
does, and writes a faithful record. -/
def Observes (setting : Setting φ σ δ α β) (depth : Nat) : Prop :=
  ∀ target arg s log, ∃ below : CallRecord φ σ δ α β,
    (InvocationRecord.cons ⟨target, arg, s, setting.invoke depth target arg s⟩ below .nil).Faithful
        setting depth
      ∧ setting.observed.invoke depth target arg (s, log)
        = withLog (log ++ below.notes) (setting.invoke depth target arg s)

section Routines

variable {invoke : δ → α → Action σ (Except DelegateError β)} {target : δ} {arg : α} {s after : σ}

theorem run_invoke_of_ok {result : Except DelegateError β}
    (ok : invoke target arg s = .ok result after)
    (next : Except DelegateError β → Routine σ δ α β) :
    (Routine.invoke target arg next).run invoke s = (next result).run invoke after := by
  simp only [Routine.run, bind, EStateM.bind, ok]

theorem run_invoke_of_error {failure : CallFailure}
    (error : invoke target arg s = .error failure after)
    (next : Except DelegateError β → Routine σ δ α β) :
    (Routine.invoke target arg next).run invoke s = .error failure after := by
  simp only [Routine.run, bind, EStateM.bind, error]

end Routines

variable {setting : Setting φ σ δ α β} {depth : Nat}

/-- What an observed routine does and writes: its invocations, and then its result. -/
theorem exists_record_routine (observes : Observes setting depth) (routine : Routine σ δ α β)
    (s : σ) (log : Log φ σ δ α β) :
    ∃ below : InvocationRecord φ σ δ α β, below.Faithful setting depth
      ∧ routine.observed.run (setting.observed.invoke depth) (s, log)
        = withLog (log ++ (below.notes
              ++ noteOf .returned (routine.run (setting.invoke depth) s)))
            (routine.run (setting.invoke depth) s) := by
  induction routine generalizing s log with
  | done result => exact ⟨.nil, trivial, rfl⟩
  | fail message =>
    refine ⟨.nil, trivial, ?_⟩
    show EStateM.Result.error (CallFailure.raised message) (s, log)
      = .error (.raised message) (s, log ++ [])
    rw [List.append_nil]
  | update change next ih => exact ih (change s) log
  | look next ih => exact ih s s log
  | invoke target arg next ih =>
    obtain ⟨calls, faithful, invoked⟩ := observes target arg s (log ++ [.invoked target arg s])
    cases outcome : setting.invoke depth target arg s with
    | ok result after =>
      rw [outcome] at invoked faithful
      obtain ⟨rest, faithfulRest, run⟩ := ih result after
        (log ++ [.invoked target arg s] ++ calls.notes ++ [.ended result after])
      refine ⟨.cons ⟨target, arg, s, .ok result after⟩ calls rest,
        ⟨faithful.1, faithful.2.1, faithfulRest⟩, ?_⟩
      rw [run_invoke_of_ok outcome]
      refine ((run_invoke_of_ok invoked _).trans run).trans ?_
      simp [InvocationRecord.notes, noteOf]
    | error failure after =>
      rw [outcome] at invoked faithful
      refine ⟨.cons ⟨target, arg, s, .error failure after⟩ calls .nil, faithful, ?_⟩
      rw [run_invoke_of_error outcome]
      refine (run_invoke_of_error invoked _).trans ?_
      simp [withLog, InvocationRecord.notes, noteOf]

/-- What an observed call does and writes. -/
theorem exists_record_act (observes : Observes setting depth) (callable : Callable φ) (arg : α)
    (s : σ) (log : Log φ σ δ α β) :
    ∃ below : InvocationRecord φ σ δ α β, below.Faithful setting depth
      ∧ setting.observed.act depth callable arg (s, log)
        = withLog (log ++ .called callable arg s ::
              (below.notes ++ noteOf .returned (setting.act depth callable arg s)))
            (setting.act depth callable arg s) := by
  obtain ⟨below, faithful, run⟩ := exists_record_routine observes (setting.routine callable arg) s
    (log ++ [.called callable arg s])
  refine ⟨below, faithful, run.trans ?_⟩
  rw [List.append_assoc]
  rfl

/-- What observed handlers do and write when they are called in order. -/
theorem exists_record_callAll (observes : Observes setting depth) (arg : α) (s : σ)
    (log : Log φ σ δ α β) (handler : Handler φ) (handlers : List (Handler φ)) :
    ∃ record : CallRecord φ σ δ α β,
      record.calls = callsFrom (setting.act depth) arg s (handler :: handlers)
      ∧ record.Faithful setting depth
      ∧ callAll (setting.observed.act depth) arg handler handlers (s, log)
        = withLog (log ++ record.notes) (callAll (setting.act depth) arg handler handlers s) := by
  induction handlers generalizing handler s log with
  | nil =>
    obtain ⟨below, faithful, run⟩ := exists_record_act observes handler.callable arg s log
    refine ⟨.cons ⟨handler.callable, arg, s, setting.act depth handler.callable arg s⟩ below .nil,
      ?_, ⟨rfl, faithful, trivial⟩, run.trans ?_⟩
    · cases called : setting.act depth handler.callable arg s <;>
        simp [CallRecord.calls, callsFrom, called]
    · rw [callAll_nil]
      simp [CallRecord.notes]
  | cons next handlers ih =>
    obtain ⟨below, faithful, run⟩ := exists_record_act observes handler.callable arg s log
    cases called : setting.act depth handler.callable arg s with
    | ok result after =>
      rw [called] at run
      obtain ⟨rest, calls, faithfulRest, runRest⟩ := ih after
        (log ++ .called handler.callable arg s :: (below.notes ++ [.returned result after])) next
      refine ⟨.cons ⟨handler.callable, arg, s, .ok result after⟩ below rest, ?_,
        ⟨called, faithful, faithfulRest⟩, ?_⟩
      · rw [callsFrom]
        simp [CallRecord.calls, called, calls]
      · rw [callAll_cons_of_ok called]
        refine ((callAll_cons_of_ok run next handlers).trans runRest).trans ?_
        simp [CallRecord.notes, noteOf]
    | error failure after =>
      rw [called] at run
      refine ⟨.cons ⟨handler.callable, arg, s, .error failure after⟩ below .nil, ?_,
        ⟨called, faithful, trivial⟩, ?_⟩
      · rw [callsFrom]
        simp [CallRecord.calls, called]
      · rw [callAll_cons_of_error called]
        refine (callAll_cons_of_error run _).trans ?_
        simp [CallRecord.notes, noteOf, withLog]

/-- What an observed delegate does and writes when it is invoked. -/
theorem exists_record_invokeWith (observes : Observes setting depth) (d : Delegate φ) (arg : α)
    (s : σ) (log : Log φ σ δ α β) :
    ∃ record : CallRecord φ σ δ α β,
      record.calls = callsFrom (setting.act depth) arg s d.handlers
      ∧ record.Faithful setting depth
      ∧ d.invokeWith (setting.observed.act depth) arg (s, log)
        = withLog (log ++ record.notes) (d.invokeWith (setting.act depth) arg s) := by
  cases eq : d.handlers with
  | nil =>
    refine ⟨.nil, rfl, trivial, ?_⟩
    rw [Delegate.invokeWith, Delegate.invokeWith, eq]
    show EStateM.Result.ok (Except.error DelegateError.emptyInvocation) (s, log)
      = .ok (.error .emptyInvocation) (s, log ++ [])
    rw [List.append_nil]
  | cons handler handlers =>
    obtain ⟨record, calls, faithful, run⟩ :=
      exists_record_callAll observes arg s log handler handlers
    refine ⟨record, calls, faithful, ?_⟩
    rw [Delegate.invokeWith_cons eq, Delegate.invokeWith_cons eq]
    simp only [Functor.map, EStateM.map, run]
    cases callAll (setting.act depth) arg handler handlers s <;> rfl

/-- At every depth, an observed setting does what the setting does and writes a faithful record. -/
theorem exists_record_invoke (setting : Setting φ σ δ α β) (depth : Nat) :
    Observes setting depth := by
  induction depth with
  | zero =>
    intro target arg s log
    refine ⟨.nil, ⟨rfl, rfl, trivial⟩, ?_⟩
    show EStateM.Result.error CallFailure.nestedTooDeep (s, log)
      = .error .nestedTooDeep (s, log ++ [])
    rw [List.append_nil]
  | succ depth ih =>
    intro target arg s log
    obtain ⟨record, calls, faithful, run⟩ :=
      exists_record_invokeWith ih (setting.delegate s target) arg s log
    refine ⟨record, ⟨rfl, ⟨?_, faithful⟩, trivial⟩, run⟩
    rw [calls]
    exact (setting.delegate s target).snapshot_invokeWith (setting.act depth) arg s

/-- An invocation calls the handlers that are in the list when it starts.

Whatever calls do to a state, the calls of an invocation follow the list of the delegate. In a
setting, where calls may change the delegates and invoke them, this goes for every delegate and
every depth: the invocation itself follows the list of its delegate in the state at its start, and
when the setting is observed it does the same and writes down a record in which every invocation
inside of it follows the list that its delegate has when that invocation starts, however the calls
around it have changed it before and whatever they change after. -/
theorem invoke_snapshot :
    (∀ (d : Delegate φ) (call : Callable φ → α → Action σ β) (arg : α) (s : σ),
      ∃ calls, (∀ c ∈ calls, call c.callable c.arg c.before = c.outcome)
        ∧ Snapshot d.handlers arg s calls (d.invokeWith call arg s))
    ∧ ∀ (setting : Setting φ σ δ α β) (depth : Nat) (target : δ) (arg : α) (s : σ)
        (log : Log φ σ δ α β),
      ∃ record : CallRecord φ σ δ α β,
        Snapshot (setting.delegate s target).handlers arg s record.calls
            (setting.invoke (depth + 1) target arg s)
          ∧ record.Faithful setting depth
          ∧ setting.observed.invoke (depth + 1) target arg (s, log)
            = withLog (log ++ record.notes) (setting.invoke (depth + 1) target arg s) := by
  constructor
  · intro d call arg s
    exact ⟨callsFrom call arg s d.handlers, fun _ mem => outcome_of_mem_callsFrom mem,
      d.snapshot_invokeWith call arg s⟩
  · intro setting depth target arg s log
    obtain ⟨record, faithful, run⟩ := exists_record_invoke setting (depth + 1) target arg s log
    exact ⟨record, faithful.2.1.1, faithful.2.1.2, run⟩

/-- A handler that appends another to the delegate that is being invoked: the other is not called,
and is in the list afterwards. -/
example :
    let setting : Setting Empty (Delegate Empty) Unit Nat Nat :=
      { delegate := fun d _ => d
        routine := fun callable arg =>
          if callable = .closure 0 then .update (·.append ⟨1, none⟩) (.done arg)
          else .done (arg + 1) }
    setting.invoke 1 () 5 ⟨[⟨0, none⟩], .mutex⟩
      = .ok (.ok 5) ⟨[⟨0, none⟩, ⟨1, none⟩], .mutex⟩ := rfl

end Groundwork
