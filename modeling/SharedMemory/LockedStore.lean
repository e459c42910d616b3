import SharedMemory.AttemptStack
import SharedMemory.CriticalSection
import SharedMemory.LockKind
import SharedMemory.Store

/-!
# A sequential container under one lock

Every operation is one critical section. Under a lock with a single attempt the stack can be
attempted as well: the attempt is refused exactly when the lock is.
-/
namespace SharedMemory.LockedStore

abbrev Memory (kind : LockKind) : Type := Guarded kind.Memory Store

def empty (kind : LockKind) : Memory kind := ⟨kind.free, {}⟩

inductive Call | request (r : Request) | size | isEmpty deriving DecidableEq

inductive Answer | found (v : Option Value) | size (n : Nat) | emptiness (empty : Bool)
  deriving DecidableEq

def body (d : Discipline) : Call → Section Store Answer
  | .request r => .update fun s => let (found, s) := s.serve d r; (s, .found found)
  | .size => .inspect fun s => .size s.size
  | .isEmpty => .inspect fun s => .emptiness s.isEmpty

/-- A call waits for the lock, so it is never refused. -/
def algorithm (kind : LockKind) (d : Discipline) :
    Algorithm (Memory kind) Call (SectionLabel kind.Label kind.Token Store Answer) Unit
      (Option Answer) :=
  kind.lock.guarding.via (fun c => (kind.acquire, body d c)) id

section Attempts

variable {LockMemory Label Token : Type} (lock : Lock LockMemory Label Token)

def attemptStep (l : SectionLabel Label Token Store AttemptAnswer) (m : Guarded LockMemory Store) :
    Guarded LockMemory Store × Status (SectionLabel Label Token Store AttemptAnswer) AttemptAnswer :=
  let e := lock.guardedStep l m
  (e.memory, e.status.mapAnswer (·.getD .contended))

def insertSection (v : Value) : Section Store AttemptAnswer :=
  .update fun s => (s.insert .lifo v, .pushed)

def removeSection : Section Store AttemptAnswer :=
  .update fun s => let (found, s) := s.remove; (s, .popped found)

/-- A single attempt at the lock begins at `entry`; a look waits for the lock from `acquire` on. -/
def attemptsUnder (acquire entry : Label) :
    AttemptStack (Guarded LockMemory Store) Value (SectionLabel Label Token Store AttemptAnswer) where
  prepare v m := (m, v)
  value := id
  discard _ m := m
  push v := .entering entry (insertSection v)
  pop := .entering entry removeSection
  look := .entering acquire (.inspect fun s => .emptiness s.isEmpty)
  step := attemptStep lock

end Attempts

def attempts (kind : LockKind) (entry : kind.Label) :
    AttemptStack (Memory kind) Value (SectionLabel kind.Label kind.Token Store AttemptAnswer) :=
  attemptsUnder kind.lock kind.acquire entry

end SharedMemory.LockedStore
