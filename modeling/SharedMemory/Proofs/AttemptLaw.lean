import Mathlib.Logic.Function.Basic
import SharedMemory.AttemptStack
import SharedMemory.Store

/-!
# What a client may expect of a stack it attempts

However many threads attempt a stack at once, every attempt takes effect at one step or is refused and
has none. `AttemptStack.Law` says so for one stack, without naming the threads' clients: they hold
items and attempt pushes and pops in any order. `values` is what a sequential stack would hold.
-/
namespace SharedMemory.AttemptStack

variable {Memory Item Label : Type}

inductive Phase (Item Label : Type)
  | idle
  | holding (item : Item)
  | pushing (item : Item) (l : Label)
  | popping (l : Label)

namespace Phase

def afterPush (item : Item) : Status Label AttemptAnswer → Phase Item Label
  | .running l => .pushing item l
  | .returned .contended => .holding item
  | .returned _ => .idle

def afterPop : Status Label AttemptAnswer → Phase Item Label
  | .running l => .popping l
  | .returned _ => .idle

end Phase

/-- An attempt that is served, against a sequential stack. -/
def respond : Request → List Value → AttemptAnswer × List Value
  | .insert v, values => (.pushed, Discipline.lifo.insert v values)
  | .remove, values => (.popped (Discipline.remove values).1, (Discipline.remove values).2)

/-- One step of an attempt at the request `r`. `fixed` is the answer of an attempt that has taken
effect and has still to return. -/
inductive Outcome (fixed : Label → Option AttemptAnswer) (r : Request) (l : Label)
    (values : List Value) : Status Label AttemptAnswer → List Value → Prop
  | goes (l' : Label) (same : fixed l' = fixed l) : Outcome fixed r l values (.running l') values
  | fixes (l' : Label) (pending : fixed l = none) (settled : fixed l' = some (respond r values).1) :
      Outcome fixed r l values (.running l') (respond r values).2
  | serves (pending : fixed l = none) :
      Outcome fixed r l values (.returned (respond r values).1) (respond r values).2
  | refused (pending : fixed l = none) : Outcome fixed r l values (.returned .contended) values
  | done (past : List Value) (settled : fixed l = some (respond r past).1) :
      Outcome fixed r l values (.returned (respond r past).1) values

/-- `Good` is an invariant of the memory, of where each thread stands and of the values that a
sequential stack would hold. -/
structure Law (stack : AttemptStack Memory Item Label) where
  start : Memory
  fixed : Label → Option AttemptAnswer
  Good : (Nat → Phase Item Label) → Memory → List Value → Prop
  good_start : Good (fun _ => .idle) start []
  prepare : ∀ {phases m values i} (v : Value), Good phases m values → phases i = .idle →
    stack.value (stack.prepare v m).2 = v ∧
      Good (Function.update phases i (.holding (stack.prepare v m).2)) (stack.prepare v m).1 values
  discard : ∀ {phases m values i item}, Good phases m values → phases i = .holding item →
    Good (Function.update phases i .idle) (stack.discard item m) values
  push : ∀ {phases m values i item}, Good phases m values → phases i = .holding item →
    fixed (stack.push item) = none ∧
      Good (Function.update phases i (.pushing item (stack.push item))) m values
  pop : ∀ {phases m values i}, Good phases m values → phases i = .idle →
    fixed stack.pop = none ∧ Good (Function.update phases i (.popping stack.pop)) m values
  pushing : ∀ {phases m values i item l}, Good phases m values → phases i = .pushing item l →
    ∃ values', Outcome fixed (.insert (stack.value item)) l values (stack.step l m).2 values' ∧
      Good (Function.update phases i (.afterPush item (stack.step l m).2)) (stack.step l m).1 values'
  popping : ∀ {phases m values i l}, Good phases m values → phases i = .popping l →
    ∃ values', Outcome fixed .remove l values (stack.step l m).2 values' ∧
      Good (Function.update phases i (.afterPop (stack.step l m).2)) (stack.step l m).1 values'

end SharedMemory.AttemptStack
