import SharedMemory.CriticalSection
import SharedMemory.Interleaving
import SharedMemory.LockKind
import SharedMemory.Program
import SharedMemory.Value

/-! # Threads that add to one counter under a lock -/
namespace SharedMemory.Counter

variable {Memory Label Token : Type}

/-- Read and write are separate steps: without exclusion an update could be lost. -/
def add (by_ : Value) : Section Value Unit := .read fun n => .write (n + by_) (.leave ())

/-- One thread for each label an acquisition may begin at, each adding `iters` times to a counter at
zero. -/
def crew (lock : Lock Memory Label Token) (m : Memory) (entries : List Label) (iters : Nat)
    (by_ : Value) : Crew (Guarded Memory Value)
      (ProgramLabel (Label × Section Value Unit) (SectionLabel Label Token Value Unit) (Option Unit))
      (List (Option Unit)) :=
  Crew.start lock.guarding.program ⟨m, 0⟩
    (entries.map fun l => List.replicate iters (l, add by_))

/-- The counter after a schedule that runs the threads in turn. -/
def final (lock : Lock Memory Label Token) (m : Memory) (entries : List Label) (iters : Nat)
    (by_ : Value) : Value :=
  (Crew.inTurn lock.guarding.program (fun _ _ => ()) (24 * iters + 1)
    (crew lock m entries iters by_)).memory.data

def underLock (kind : LockKind) (threads iters : Nat) (by_ : Value) : Value :=
  final kind.lock kind.free (List.replicate threads kind.acquire) iters by_

/-- Each thread queues with a node of its own, reused for every acquisition. -/
def underQueueLock (threads iters : Nat) (by_ : Value) : Value :=
  final QueueLock.onCallerNodes (.ofSizes 1 threads)
    ((List.range threads).map fun node => QueueLock.Guard.acquire ⟨0, node⟩) iters by_

/-- One thread a side. -/
def underTwoPartyLock (iters : Nat) (by_ : Value) : Value :=
  final TwoPartyLock.lock {} [.want .left, .want .right] iters by_

end SharedMemory.Counter
