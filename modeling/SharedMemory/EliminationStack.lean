import SharedMemory.AttemptStack
import SharedMemory.EliminationArray

/-!
# The elimination-backoff stack

Every operation attempts the inner stack once; when the attempt is refused it goes to the
elimination array, and attempts again if it met nobody there. The item of a push that was eliminated
is discarded.
-/
namespace SharedMemory.EliminationStack

structure Memory (Inner : Type) where
  inner : Inner
  array : EliminationArray.Memory

inductive Label (Item Inner : Type)
  | prepare (v : Value)
  | pushing (item : Item) (l : Inner)
  | offering (item : Item) (l : EliminationArray.Label)
  | popping (l : Inner)
  | seeking (l : EliminationArray.Label)

/-- `broken` reports the word of a slot that left the hands of its owner. -/
inductive Answer | found (v : Option Value) | broken (word expected : SlotWord) deriving DecidableEq

variable {Inner Item L : Type} (stack : AttemptStack Inner Item L)

def pushAttempt (item : Item) (l : L) (m : Memory Inner) :
    Effect (Memory Inner) (Label Item L) Answer :=
  let (inner, s) := stack.step l m.inner
  ⟨{ m with inner }, match s with
    | .running l => .running (.pushing item l)
    | .returned .contended => .running (.offering item (.pushProbe (stack.value item)))
    | .returned _ => .returned (.found none), []⟩

def popAttempt (l : L) (m : Memory Inner) : Effect (Memory Inner) (Label Item L) Answer :=
  let (inner, s) := stack.step l m.inner
  ⟨{ m with inner }, match s with
    | .running l => .running (.popping l)
    | .returned (.popped found) => .returned (.found found)
    | .returned _ => .running (.seeking .popProbe), []⟩

def offer (choice : EliminationArray.Choice) (item : Item) (l : EliminationArray.Label)
    (m : Memory Inner) : Effect (Memory Inner) (Label Item L) Answer :=
  let e := EliminationArray.step choice l m.array
  let m := { m with array := e.memory }
  match e.status with
  | .running l => ⟨m, .running (.offering item l), e.events⟩
  | .returned (.pushed true) =>
    ⟨{ m with inner := stack.discard item m.inner }, .returned (.found none), e.events⟩
  | .returned (.broken word expected) => ⟨m, .returned (.broken word expected), e.events⟩
  | .returned _ => ⟨m, .running (.pushing item (stack.push item)), e.events⟩

def seek (choice : EliminationArray.Choice) (l : EliminationArray.Label) (m : Memory Inner) :
    Effect (Memory Inner) (Label Item L) Answer :=
  let e := EliminationArray.step choice l m.array
  ⟨{ m with array := e.memory }, match e.status with
    | .running l => .running (.seeking l)
    | .returned (.popped (some v)) => .returned (.found (some v))
    | .returned (.broken word expected) => .returned (.broken word expected)
    | .returned _ => .running (.popping stack.pop), e.events⟩

def step (choice : EliminationArray.Choice) :
    Label Item L → Memory Inner → Effect (Memory Inner) (Label Item L) Answer
  | .prepare v, m =>
    let (inner, item) := stack.prepare v m.inner
    ⟨{ m with inner }, .running (.pushing item (stack.push item)), []⟩
  | .pushing item l, m => pushAttempt stack item l m
  | .offering item l, m => offer stack choice item l m
  | .popping l, m => popAttempt stack l m
  | .seeking l, m => seek stack choice l m

def algorithm : Algorithm (Memory Inner) Request (Label Item L) EliminationArray.Choice Answer where
  enter
    | .insert v => .prepare v
    | .remove => .popping stack.pop
  step := step stack

/-- The choices of a thread inside the array, by its own habit there. -/
def choose (habit : EliminationArray.Label → EliminationArray.Memory → EliminationArray.Choice) :
    Label Item L → Memory Inner → EliminationArray.Choice
  | .offering _ l, m => habit l m.array
  | .seeking l, m => habit l m.array
  | _, _ => ⟨0, false⟩

end SharedMemory.EliminationStack
