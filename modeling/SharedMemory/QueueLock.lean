import SharedMemory.Fault
import SharedMemory.Lock

/-!
# Queue locks

Every waiter brings a node, swaps it in as the tail of the lock's queue, links it behind the node it
found there and spins on its own flag. Any number of locks share one pool of nodes, and a node may
serve one lock after another: entering resets its two fields, leaving leaves them as they are. A
release that finds no successor clears the tail; if a successor has swapped itself in without having
linked yet, the release waits for the link.
-/
namespace SharedMemory.QueueLock

structure Node where
  locked : Bool := false
  next : Option Nat := none
  deriving DecidableEq

/-- Locks and nodes are named by their places. `freed` lists the nodes given back for good. -/
structure Memory where
  tails : List (Option Nat)
  nodes : Array Node
  freed : List Nat := []
  deriving DecidableEq

namespace Memory

def ofSizes (locks nodes : Nat) : Memory := ⟨List.replicate locks none, Array.replicate nodes {}, []⟩

def tail (m : Memory) (lock : Nat) : Option Nat := (m.tails[lock]?).join

def setTail (m : Memory) (lock : Nat) (node : Option Nat) : Memory :=
  { m with tails := m.tails.set lock node }

def node (m : Memory) (node : Nat) : Node := m.nodes.getD node {}

def setLocked (m : Memory) (node : Nat) (locked : Bool) : Memory :=
  { m with nodes := m.nodes.modify node (fun n => { n with locked }) }

def setNext (m : Memory) (node : Nat) (next : Option Nat) : Memory :=
  { m with nodes := m.nodes.modify node (fun n => { n with next }) }

@[simp] theorem tail_setLocked (m : Memory) (lock node : Nat) (locked : Bool) :
    (m.setLocked node locked).tail lock = m.tail lock := rfl

@[simp] theorem tail_setNext (m : Memory) (lock node : Nat) (next : Option Nat) :
    (m.setNext node next).tail lock = m.tail lock := rfl

@[simp] theorem node_setTail (m : Memory) (lock n : Nat) (node : Option Nat) :
    (m.setTail lock node).node n = m.node n := rfl

theorem tail_setTail_self {m : Memory} {lock : Nat} (h : lock < m.tails.length) (node : Option Nat) :
    (m.setTail lock node).tail lock = node := by
  simp [tail, setTail, h]

/-- A step on one lock leaves the tail of another alone. -/
theorem tail_setTail_ne {m : Memory} {lock other : Nat} (h : lock ≠ other) (node : Option Nat) :
    (m.setTail lock node).tail other = m.tail other := by
  simp [tail, setTail, List.getElem?_set_ne h]

private theorem getD_modify (a : Array Node) (f : Node → Node) (i j : Nat) :
    (a.modify i f).getD j {} = if i = j ∧ i < a.size then f (a.getD j {}) else a.getD j {} := by
  simp only [Array.getD_eq_getD_getElem?, Array.getElem?_modify]
  by_cases h : i = j
  · subst h
    by_cases hi : i < a.size
    · simp [hi]
    · simp [hi]
  · simp [h]

theorem node_setLocked (m : Memory) (n k : Nat) (locked : Bool) :
    (m.setLocked n locked).node k =
      if n = k ∧ n < m.nodes.size then { m.node k with locked } else m.node k :=
  getD_modify m.nodes _ n k

theorem node_setNext (m : Memory) (n k : Nat) (next : Option Nat) :
    (m.setNext n next).node k =
      if n = k ∧ n < m.nodes.size then { m.node k with next } else m.node k :=
  getD_modify m.nodes _ n k

end Memory

/-- What an acquisition leaves its caller with: the lock and the node it is queued with. -/
structure Guard where
  lock : Nat
  node : Nat
  deriving DecidableEq

inductive Label
  | unlink (g : Guard) | raise (g : Guard) | swap (g : Guard)
  | link (g : Guard) (before : Nat) | spin (g : Guard)
  | look (g : Guard) | clear (g : Guard) | await (g : Guard)
  | pass (g : Guard) (next : Nat)
  deriving DecidableEq

def step : Label → Memory → Memory × Status Label (LockAnswer Guard)
  | .unlink g, m => (m.setNext g.node none, .running (.raise g))
  | .raise g, m => (m.setLocked g.node true, .running (.swap g))
  | .swap g, m =>
    (m.setTail g.lock (some g.node),
      match m.tail g.lock with
      | none => .returned (.acquired g)
      | some before => .running (.link g before))
  | .link g before, m => (m.setNext before (some g.node), .running (.spin g))
  | .spin g, m =>
    (m, if (m.node g.node).locked then .running (.spin g) else .returned (.acquired g))
  | .look g, m =>
    (m, .running (match (m.node g.node).next with
      | none => .clear g
      | some next => .pass g next))
  | .clear g, m =>
    if m.tail g.lock = some g.node then (m.setTail g.lock none, .returned .released)
    else (m, .running (.await g))
  | .await g, m =>
    (m, .running (match (m.node g.node).next with
      | none => .await g
      | some next => .pass g next))
  | .pass _ next, m => (m.setLocked next false, .returned .released)

namespace Guard

/-- Where an acquisition begins. -/
def acquire (g : Guard) : Label := .unlink g

/-- Where the release of a guard begins, by whichever way it is given up. -/
def release (g : Guard) : Label := .look g

/-- A guard given to `lock` is released in any case; the wrong lock panics as well. -/
def releaseThrough (g : Guard) (lock : Nat) : Label × Option Panic :=
  (g.release, if lock = g.lock then none else some .foreignGuard)

end Guard

/-- All locks of the pool, whose callers bring the nodes. -/
def onCallerNodes : Lock Memory Label Guard := ⟨step, Guard.release⟩

/-- With nodes of its own: each acquisition allocates one and the release frees it. -/
inductive OwnLabel | allocate (lock : Nat) | within (l : Label) (g : Guard) | free (node : Nat)
  deriving DecidableEq

def ownStep : OwnLabel → Memory → Memory × Status OwnLabel (LockAnswer Guard)
  | .allocate lock, m =>
    let node := m.nodes.size
    ({ m with nodes := m.nodes.push {} }, .running (.within (.unlink ⟨lock, node⟩) ⟨lock, node⟩))
  | .within l g, m =>
    let (m, s) := step l m
    (m, match s with
      | .running l => .running (.within l g)
      | .returned .released => .running (.free g.node)
      | .returned answer => .returned answer)
  | .free node, m => ({ m with freed := node :: m.freed }, .returned .released)

def onOwnNodes : Lock Memory OwnLabel Guard := ⟨ownStep, fun g => .within g.release g⟩

end SharedMemory.QueueLock
