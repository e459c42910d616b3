import SharedMemory.AttemptStack

/-!
# A lock-free stack on a chain of nodes

The head is swung from one node to the next by compare-and-swap. Nodes are allocated in order and
their addresses are never used again, so an address read earlier names the same node later. A popped
node is retired, not freed: a thread that read the head before may still follow it.
-/
namespace SharedMemory.TreiberStack

structure Node where
  value : Value
  next : Option Nat
  deriving DecidableEq

/-- `retired` lists the nodes unlinked by pops, `discarded` those whose push was served elsewhere. -/
structure Memory where
  nodes : Array Node := #[]
  head : Option Nat := none
  retired : List Nat := []
  discarded : List Nat := []
  deriving DecidableEq

/-- A node in the hands of the thread that allocated it, with the value it will carry. -/
structure Item where
  node : Nat
  value : Value
  deriving DecidableEq

inductive Label
  | pushLoad (node : Nat)
  | pushLink (node : Nat) (seen : Option Nat)
  | pushSwing (node : Nat) (seen : Option Nat)
  | popLoad
  | popNext (seen : Nat)
  | popSwing (seen : Nat) (next : Option Nat)
  | look
  deriving DecidableEq

namespace Memory

def value (m : Memory) (node : Nat) : Value := (m.nodes[node]?.map Node.value).getD 0

def next (m : Memory) (node : Nat) : Option Nat := (m.nodes[node]?.map Node.next).join

/-- The first `n` nodes of the chain that starts at a link. -/
def walk (m : Memory) : Nat → Option Nat → List Nat
  | n + 1, some node => node :: m.walk n (m.next node)
  | _, _ => []

/-- The nodes linked from the head on. No walk meets a node twice, so their number bounds it. -/
def linked (m : Memory) : List Nat := m.walk m.nodes.size m.head

/-- Top first. -/
def toList (m : Memory) : List Value := m.linked.map m.value

end Memory

def prepare (v : Value) (m : Memory) : Memory × Item :=
  let node := m.nodes.size
  ({ m with nodes := m.nodes.push ⟨v, none⟩ }, ⟨node, v⟩)

def step : Label → Memory → Memory × Status Label AttemptAnswer
  | .pushLoad node, m => (m, .running (.pushLink node m.head))
  | .pushLink node seen, m =>
    ({ m with nodes := m.nodes.modify node (fun n => { n with next := seen }) },
      .running (.pushSwing node seen))
  | .pushSwing node seen, m =>
    if m.head = seen then ({ m with head := some node }, .returned .pushed)
    else (m, .returned .contended)
  | .popLoad, m =>
    (m, match m.head with
      | none => .returned (.popped none)
      | some seen => .running (.popNext seen))
  | .popNext seen, m => (m, .running (.popSwing seen (m.next seen)))
  | .popSwing seen next, m =>
    if m.head = some seen then
      ({ m with head := next, retired := seen :: m.retired }, .returned (.popped (some (m.value seen))))
    else (m, .returned .contended)
  | .look, m => (m, .returned (.emptiness m.head.isNone))

def attempts : AttemptStack Memory Item Label where
  prepare := prepare
  value := Item.value
  discard item m := { m with discarded := item.node :: m.discarded }
  push item := .pushLoad item.node
  pop := .popLoad
  look := .look
  step := step

end SharedMemory.TreiberStack
