import SharedMemory.QueueLock
import SharedMemory.TwoPartyLock
import SharedMemory.SpinLock
import SharedMemory.TicketLock

/-! # The locks a container may be guarded by -/
namespace SharedMemory

inductive LockKind | testAndSet | testThenSet | ticket | queue | blocking deriving DecidableEq

namespace LockKind

@[reducible] def Memory : LockKind → Type
  | .testAndSet | .testThenSet | .blocking => Bool
  | .ticket => TicketLock.Memory
  | .queue => QueueLock.Memory

@[reducible] def Label : LockKind → Type
  | .testAndSet | .blocking => TestAndSet.Label
  | .testThenSet => TestThenSet.Label
  | .ticket => TicketLock.Label
  | .queue => QueueLock.OwnLabel

@[reducible] def Token : LockKind → Type
  | .testAndSet | .testThenSet | .blocking => Unit
  | .ticket => UInt64
  | .queue => QueueLock.Guard

def free : (kind : LockKind) → kind.Memory
  | .testAndSet | .testThenSet | .blocking => false
  | .ticket => {}
  | .queue => .ofSizes 1 0

def lock : (kind : LockKind) → Lock kind.Memory kind.Label kind.Token
  | .testAndSet | .blocking => TestAndSet.lock
  | .testThenSet => TestThenSet.lock
  | .ticket => TicketLock.lock
  | .queue => QueueLock.onOwnNodes

/-- Where an acquisition begins. -/
def acquire : (kind : LockKind) → kind.Label
  | .testAndSet | .blocking => .seize
  | .testThenSet => .watch
  | .ticket => .draw
  | .queue => .allocate 0

/-- Where a single attempt begins; the queue lock has none. -/
def attempt? : (kind : LockKind) → Option kind.Label
  | .testAndSet | .blocking => some .attempt
  | .testThenSet => some .peek
  | .ticket => some .look
  | .queue => none

end LockKind

end SharedMemory
