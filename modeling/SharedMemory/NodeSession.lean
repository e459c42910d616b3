import SharedMemory.Answer
import SharedMemory.CriticalSection
import SharedMemory.Interleaving
import SharedMemory.QueueLock

/-!
# Queue locks whose callers bring their nodes

The session may hold one guard on each lock. A waiter notes its node when it gets its lock and lets go
again, so giving up a guard tells in which order the nodes were granted the lock. A step that names a
node or a lock outside the pool is refused before anything else is looked at.
-/
namespace SharedMemory.NodeSession

open QueueLock

abbrev WaiterLabel : Type := SectionLabel QueueLock.Label Guard (List Nat) Unit

structure Waiter where
  guard : Guard
  status : Status WaiterLabel (Option Unit)

structure Session where
  memory : Memory
  guards : List Guard := []
  waiters : List Waiter := []

/-- `unknown` is any action that a queue lock does not have. -/
inductive Action | acquire | waiter | release | drop | releaseWrong | report | node | unknown
  deriving DecidableEq

structure Step where
  action : Action
  node : Nat := 0
  lock : Nat := 0

def new (locks nodes : Nat) : Session :=
  { memory := .ofSizes locks nodes }

/-- Enough steps to take or give back a lock that nobody else moves. -/
def lockSteps : Nat := 16

def note (node : Nat) : Section (List Nat) Unit := .update fun granted => (granted ++ [node], ())

namespace Session

def waits (s : Session) (node : Nat) : Bool := s.waiters.any (·.guard.node = node)

def inUse (s : Session) (node : Nat) : Bool := s.guards.any (·.node = node) || s.waits node

def holds (s : Session) (lock : Nat) : Bool := s.guards.any (·.lock = lock)

def acquire (s : Session) (g : Guard) : Session × Answer :=
  match onCallerNodes.advance lockSteps g.acquire s.memory with
  | (memory, .returned _) => ({ s with memory, guards := g :: s.guards }, .ok)
  | (memory, .running _) => ({ s with memory }, .refused .wouldBlock)

/-- Runs waiters; the first component lists the nodes that were granted their lock. -/
def runWaiters (steps : Nat) (m : Memory) (statuses : List (Status WaiterLabel (Option Unit))) :
    List Nat × Memory × List (Status WaiterLabel (Option Unit)) :=
  let crew := Crew.inTurn onCallerNodes.guarding (fun _ _ => ()) steps ⟨⟨m, []⟩, statuses, []⟩
  (crew.memory.data, crew.memory.lock, crew.threads)

def wait (s : Session) (g : Guard) : Session × Answer :=
  let (_, memory, statuses) := runWaiters lockSteps s.memory
    [.running (.entering g.acquire (note g.node))]
  ({ s with memory, waiters := s.waiters ++ statuses.map (⟨g, ·⟩) }, .ok)

/-- Gives up a guard from `entry` on and joins the waiters of its lock. -/
def giveUp (s : Session) (g : Guard) (entry : QueueLock.Label) : Session × List Nat :=
  let (memory, _) := onCallerNodes.advance lockSteps entry s.memory
  let (mine, others) := s.waiters.partition (·.guard.lock = g.lock)
  let (granted, memory, _) := runWaiters (4 * lockSteps) memory (mine.map (·.status))
  ({ memory, guards := s.guards.filter (· ≠ g), waiters := others }, granted)

/-- A step that needs the guard of a node. -/
def withGuard (s : Session) (node : Nat) (f : Guard → Session × Answer) : Session × Answer :=
  match s.guards.find? (·.node = node) with
  | none => (s, .refused .notHeld)
  | some g => f g

def giveThrough (s : Session) (g : Guard) (lock : Nat) : Session × Answer :=
  let (entry, panic) := g.releaseThrough lock
  let (s, granted) := s.giveUp g entry
  (s, match panic with
    | none => .granted granted
    | some panic => .refused (.panic panic))

def perform (s : Session) (step : Step) : Session × Answer :=
  let ⟨action, node, lock⟩ := step
  if node ≥ s.memory.nodes.size ∨ lock ≥ s.memory.tails.length then (s, .refused .badInput)
  else match action with
    | .acquire =>
      if s.inUse node then (s, .refused .nodeInUse)
      else if s.holds lock then (s, .refused .wouldBlock)
      else s.acquire ⟨lock, node⟩
    | .waiter =>
      if s.inUse node then (s, .refused .nodeInUse)
      else if s.holds lock then s.wait ⟨lock, node⟩
      else (s, .refused .notHeld)
    | .release => s.withGuard node fun g => s.giveThrough g g.lock
    | .drop => s.withGuard node fun g => let (s, granted) := s.giveUp g g.release; (s, .granted granted)
    | .releaseWrong =>
      s.withGuard node fun g => s.giveThrough g ((g.lock + 1) % s.memory.tails.length)
    | .report => (s, .queued (s.memory.tail lock).isSome)
    | .node =>
      if s.waits node then (s, .refused .nodeInUse)
      else (s, .node (s.memory.node node).locked (s.memory.node node).next.isSome)
    | .unknown => (s, .refused .unsupported)

end Session

end SharedMemory.NodeSession
