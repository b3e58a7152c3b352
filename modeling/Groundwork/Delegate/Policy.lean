/-!
# `Delegate.Policy` — how changes to a delegate exclude each other

A delegate owns one lock of a kind chosen when it is made. A change holds the lock from before it
reads the list of handlers until after it has stored the new one, so changes to one delegate happen
one after the other; the kind that excludes nobody leaves that to those who make the changes. The
lock guards no data of its own: a holder that fails leaves it as free as one that finishes.

## Contents

* `LockPolicy` — the kinds of locks.
* `PolicyLock`, `PolicyLock.acquire?`, `PolicyLock.release` — a lock and who may hold it.
-/

namespace Groundwork

/-! ## Policies -/

/-- The kind of lock that a delegate has. -/
inductive LockPolicy where
  /-- A light lock within the program. -/
  | criticalSection
  /-- A lock of the operating system. -/
  | mutex
  /-- No exclusion at all. -/
  | noLock
  deriving DecidableEq, Repr

namespace LockPolicy

/-- A critical section is what a delegate has when nothing else is asked for. -/
instance : Inhabited LockPolicy := ⟨.criticalSection⟩

/-- The name of a policy. -/
def name : LockPolicy → String
  | .criticalSection => "CriticalSection"
  | .mutex => "Mutex"
  | .noLock => "NoLock"

end LockPolicy

/-! ## Locks -/

/-- A lock and the number of its holders. -/
structure PolicyLock where
  policy : LockPolicy
  holders : Nat
  deriving DecidableEq, Repr

/-- The proof of holding a lock. -/
structure LockGuard where
  policy : LockPolicy
  deriving DecidableEq, Repr

namespace PolicyLock

/-- A lock that nobody holds. -/
def new (policy : LockPolicy) : PolicyLock := ⟨policy, 0⟩

/-- Takes hold of a lock, unless that has to wait for another holder. Without exclusion nobody
waits. -/
def acquire? (lock : PolicyLock) : Option (LockGuard × PolicyLock) :=
  if lock.holders = 0 || lock.policy = .noLock then
    some (⟨lock.policy⟩, { lock with holders := lock.holders + 1 })
  else none

/-- Lets go of a lock, be it that the holder has finished or failed. -/
def release (lock : PolicyLock) : PolicyLock := { lock with holders := lock.holders - 1 }

/-- What becomes of a lock when somebody takes hold of it, if that is possible without waiting, and
fails. -/
def disturb (lock : PolicyLock) : PolicyLock :=
  match lock.acquire? with
  | some (_, lock) => lock.release
  | none => lock

/-- Takes hold of a lock several times over and keeps every hold, as far as that is possible without
waiting; `before` happens to the lock before each time. -/
def acquireTimes (before : PolicyLock → PolicyLock) (lock : PolicyLock) : Nat → List LockGuard
  | 0 => []
  | times + 1 =>
    match (before lock).acquire? with
    | some (guard, lock) => guard :: acquireTimes before lock times
    | none => []

/-- A lock as messages show it. -/
def describe (lock : PolicyLock) : String := "PolicyLock(" ++ lock.policy.name ++ ")"

end PolicyLock

/-- A hold of a lock as messages show it. -/
def LockGuard.describe (guard : LockGuard) : String := "LockGuard(\"" ++ guard.policy.name ++ "\")"

end Groundwork
