import SharedMemory.Answer
import SharedMemory.TwoPartyLock

/-!
# Two-party exclusion with at most one side waiting

The session knows which side holds the lock and which side, if any, waits for it. A side that gave up
its desire may still hold the lock in the session's eyes; a waiter then enters at once, and yet counts
as waiting until the holder releases. Every step that is not refused answers the lock's memory.
-/
namespace SharedMemory.SideSession

open TwoPartyLock

structure Session where
  memory : Memory := {}
  holder : Option Side := none
  waiter : Option (Side × Status TwoPartyLock.Label (LockAnswer Side)) := none

inductive Step | acquire (side : Side) | waiter (side : Side) | release (side : Side) | report

/-- Enough steps to enter, or to be back at the wait with desire and turn set. -/
def lockSteps : Nat := 8

namespace Session

def acquire (s : Session) (side : Side) : Session × Answer :=
  match lock.advance lockSteps (.want side) s.memory with
  | (memory, .returned _) => ({ s with memory, holder := some side }, .sides memory)
  | (memory, .running _) => ({ s with memory }, .refused .wouldBlock)

/-- The waiter stays one even if nothing keeps it from entering. -/
def wait (s : Session) (side : Side) : Session × Answer :=
  let (memory, status) := lock.advance lockSteps (.want side) s.memory
  ({ s with memory, waiter := some (side, status) }, .sides memory)

/-- The holder has released: a waiter that has not entered yet looks again, and holds the lock once it
has entered. -/
def letIn (s : Session) : Session :=
  match s.waiter with
  | none => s
  | some (side, .returned _) => { s with holder := some side, waiter := none }
  | some (side, .running l) =>
    match lock.advance lockSteps l s.memory with
    | (memory, .returned _) => { memory, holder := some side, waiter := none }
    | (memory, status) => { s with memory, waiter := some (side, status) }

def release (s : Session) (side : Side) : Session × Answer :=
  let (memory, _) := lock.advance lockSteps (lock.release side) s.memory
  let s := { s with memory }
  let s := if s.holder = some side then { s with holder := none }.letIn else s
  (s, .sides s.memory)

def perform (s : Session) : Step → Session × Answer
  | .acquire side =>
    if s.waiter.isSome ∨ s.holder = some side.other then (s, .refused .wouldBlock)
    else s.acquire side
  | .waiter side =>
    if s.holder = some side.other ∧ s.waiter.isNone then s.wait side else (s, .refused .notHeld)
  | .release side => s.release side
  | .report => (s, .sides s.memory)

end Session

end SharedMemory.SideSession
