import SharedMemory.Fault
import SharedMemory.Algorithm

/-!
# A lock-free queue on a chain of nodes

The head names the sentinel, whose successor holds the oldest value; the tail names the last node or
the one before it, and every operation that meets a lagging tail helps it forward. Nodes are
allocated in order and their addresses are never used again.
-/
namespace SharedMemory.MichaelScottQueue

structure Node where
  value : Value
  next : Option Nat
  deriving DecidableEq

/-- `retired` lists the sentinels that dequeues have replaced. -/
structure Memory where
  nodes : Array Node := #[⟨0, none⟩]
  head : Nat := 0
  tail : Nat := 0
  retired : List Nat := []
  deriving DecidableEq

namespace Memory

def value (m : Memory) (node : Nat) : Value := (m.nodes[node]?.map Node.value).getD 0

def next (m : Memory) (node : Nat) : Option Nat := (m.nodes[node]?.map Node.next).join

/-- The first `n` nodes of the chain that starts at a link. -/
def walk (m : Memory) : Nat → Option Nat → List Nat
  | n + 1, some node => node :: m.walk n (m.next node)
  | _, _ => []

/-- The nodes linked from the sentinel on. No walk meets a node twice, so their number bounds it. -/
def linked (m : Memory) : List Nat := m.walk m.nodes.size (some m.head)

/-- Oldest first. -/
def toList (m : Memory) : List Value := m.linked.tail.map m.value

/-- A compare-and-swap on the tail, whose failure nobody acts on. -/
def swingTail (m : Memory) (seen next : Nat) : Memory :=
  if m.tail = seen then { m with tail := next } else m

end Memory

inductive Call | enqueue (v : Value) | dequeue | isEmpty deriving DecidableEq

inductive Label
  | allocate (v : Value)
  | putTail (node : Nat)
  | putNext (node tail : Nat)
  | putCheck (node tail : Nat) (next : Option Nat)
  | putHelp (node tail next : Nat)
  | putLink (node tail : Nat)
  | putSwing (node tail : Nat)
  | takeHead
  | takeTail (head : Nat)
  | takeNext (head tail : Nat)
  | takeCheck (head tail : Nat) (next : Option Nat)
  | takeHelp (tail next : Nat)
  | takeSwing (head next : Nat) (v : Value)
  | lookHead
  | lookNext (head : Nat)
  deriving DecidableEq

/-- `crashed` stands for following a successor that is not there. -/
inductive Answer | enqueued | dequeued (found : Option Value) | emptiness (empty : Bool) | crashed
  deriving DecidableEq

/-- Where a dequeue goes once it knows that its view of the head was current. -/
def afterCheck (m : Memory) (head tail : Nat) (next : Option Nat) : Status Label Answer :=
  match next with
  | none => if head = tail then .returned (.dequeued none) else .returned .crashed
  | some next =>
    if head = tail then .running (.takeHelp tail next)
    else .running (.takeSwing head next (m.value next))

def step : Label → Memory → Memory × Status Label Answer
  | .allocate v, m =>
    let node := m.nodes.size
    ({ m with nodes := m.nodes.push ⟨v, none⟩ }, .running (.putTail node))
  | .putTail node, m => (m, .running (.putNext node m.tail))
  | .putNext node tail, m => (m, .running (.putCheck node tail (m.next tail)))
  | .putCheck node tail next, m =>
    (m, .running (
      if m.tail = tail then
        match next with
        | none => .putLink node tail
        | some next => .putHelp node tail next
      else .putTail node))
  | .putHelp node tail next, m => (m.swingTail tail next, .running (.putTail node))
  | .putLink node tail, m =>
    if m.next tail = none then
      ({ m with nodes := m.nodes.modify tail (fun n => { n with next := some node }) },
        .running (.putSwing node tail))
    else (m, .running (.putTail node))
  | .putSwing node tail, m => (m.swingTail tail node, .returned .enqueued)
  | .takeHead, m => (m, .running (.takeTail m.head))
  | .takeTail head, m => (m, .running (.takeNext head m.tail))
  | .takeNext head tail, m => (m, .running (.takeCheck head tail (m.next head)))
  | .takeCheck head tail next, m =>
    (m, if m.head = head then afterCheck m head tail next else .running .takeHead)
  | .takeHelp tail next, m => (m.swingTail tail next, .running .takeHead)
  | .takeSwing head next v, m =>
    if m.head = head then
      ({ m with head := next, retired := head :: m.retired }, .returned (.dequeued (some v)))
    else (m, .running .takeHead)
  | .lookHead, m => (m, .running (.lookNext m.head))
  | .lookNext head, m => (m, .returned (.emptiness (m.next head).isNone))

def algorithm : Algorithm Memory Call Label Unit Answer where
  enter
    | .enqueue v => .allocate v
    | .dequeue => .takeHead
    | .isEmpty => .lookHead
  step _ l m := let (m, s) := step l m; ⟨m, s, []⟩

end SharedMemory.MichaelScottQueue
