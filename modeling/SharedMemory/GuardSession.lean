import SharedMemory.Answer
import SharedMemory.CriticalSection
import SharedMemory.Interleaving
import SharedMemory.LockKind

/-!
# A list under a lock, with one guard in hand and threads that wait for it

The session holds at most one guard. Waiters append a value each; they are in the queue when their
step ends, and dropping the guard lets all of them through in order of arrival.
-/
namespace SharedMemory.GuardSession

abbrev Waiter (kind : LockKind) : Type :=
  Status (SectionLabel kind.Label kind.Token (List Value) Unit) (Option Unit)

/-- `memory` is `none` once the data has been taken out of the lock. -/
structure Session (kind : LockKind) where
  memory : Option (Guarded kind.Memory (List Value))
  held : Option kind.Token := none
  waiters : List (Waiter kind) := []

inductive Step
  | lock | tryLock | unlock | push (v : Value) | clear | get | waiter (v : Value)
  | report | debug | intoInner

def new (kind : LockKind) (data : List Value) : Session kind := { memory := some ⟨kind.free, data⟩ }

/-- Enough steps to take or give back a lock that nobody else moves. -/
def lockSteps : Nat := 16

def append (v : Value) : Section (List Value) Unit := .update fun data => (data ++ [v], ())

def lockReport : (kind : LockKind) → kind.Memory → Option kind.Token → Answer
  | .testAndSet, m, _ | .testThenSet, m, _ | .blocking, m, _ => .locked m
  | .ticket, m, held => .tickets m.nowServing m.nextTicket held
  | .queue, m, _ => .queued (m.tail 0).isSome

def isLocked : (kind : LockKind) → kind.Memory → Bool
  | .testAndSet, m | .testThenSet, m | .blocking, m => m
  | .ticket, m => m.nowServing ≠ m.nextTicket
  | .queue, m => (m.tail 0).isSome

/-- The data stays hidden. -/
def debugText (locked : Bool) : String :=
  "Lock \x7b inner: PlatformLock \x7b locked: " ++ (if locked then "true" else "false") ++
    " \x7d, data: UnsafeCell \x7b .. \x7d \x7d"

namespace Session

variable {kind : LockKind}

def acquire (s : Session kind) (m : Guarded kind.Memory (List Value)) (entry : kind.Label)
    (onSuccess onRefusal : Answer) : Session kind × Answer :=
  let (lock, status) := kind.lock.advance lockSteps entry m.lock
  let s := { s with memory := some { m with lock } }
  match status with
  | .returned (.acquired token) => ({ s with held := some token }, onSuccess)
  | .returned _ => (s, onRefusal)
  | .running _ => (s, .refused .wouldBlock)

def runWaiters (rounds : Nat) (m : Guarded kind.Memory (List Value)) (waiters : List (Waiter kind)) :
    Crew (Guarded kind.Memory (List Value))
      (SectionLabel kind.Label kind.Token (List Value) Unit) (Option Unit) :=
  Crew.inTurn kind.lock.guarding (fun _ _ => ()) rounds ⟨m, waiters, []⟩

def unlock (s : Session kind) (m : Guarded kind.Memory (List Value)) (token : kind.Token) :
    Session kind × Answer :=
  let (lock, _) := kind.lock.advance lockSteps (kind.lock.release token) m.lock
  let crew := runWaiters (4 * lockSteps) { m with lock } s.waiters
  ({ memory := some crew.memory, held := none, waiters := [] }, .ok)

def wait (s : Session kind) (m : Guarded kind.Memory (List Value)) (v : Value) : Session kind × Answer :=
  let crew := runWaiters lockSteps m [.running (.entering kind.acquire (append v))]
  ({ s with memory := some crew.memory, waiters := s.waiters ++ crew.threads }, .ok)

/-- A step that needs the guard. -/
def withGuard (s : Session kind) (f : kind.Token → Session kind × Answer) : Session kind × Answer :=
  match s.held with
  | none => (s, .refused .notHeld)
  | some token => f token

def perform (s : Session kind) (step : Step) : Session kind × Answer :=
  match s.memory with
  | none => (s, .refused .gone)
  | some m =>
    match step with
    | .lock => if s.held.isSome then (s, .refused .wouldBlock) else s.acquire m kind.acquire .ok .ok
    | .tryLock =>
      match kind.attempt? with
      | none => (s, .refused .unsupported)
      | some entry => s.acquire m entry (.flag true) (.flag false)
    | .unlock => s.withGuard fun token => s.unlock m token
    | .push v =>
      s.withGuard fun _ => ({ s with memory := some { m with data := m.data ++ [v] } }, .ok)
    | .clear => s.withGuard fun _ => ({ s with memory := some { m with data := [] } }, .ok)
    | .get => s.withGuard fun _ => (s, .values m.data)
    | .waiter v => s.withGuard fun _ => s.wait m v
    | .report => (s, lockReport kind m.lock s.held)
    | .debug =>
      if kind = .blocking then (s, .text (debugText (isLocked kind m.lock)))
      else (s, .refused .unsupported)
    | .intoInner =>
      if s.held.isSome then (s, .refused .wouldBlock)
      else ({ s with memory := none }, .values m.data)

end Session

end SharedMemory.GuardSession
