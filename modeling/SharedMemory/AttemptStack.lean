import SharedMemory.Algorithm

/-!
# Stacks whose operations can be attempted once

An attempt either serves its request or reports that another thread interfered, and then has had no
effect; a push is handed back to be tried again. `retrying` tries until served. `disturbed` refuses a
given number of attempts before they begin, which is what a client of a contended stack sees.
-/
namespace SharedMemory

/-- `emptiness` answers a look at the stack. -/
inductive AttemptAnswer | pushed | popped (found : Option Value) | emptiness (empty : Bool) | contended
  deriving DecidableEq

/-- An item carries the value of one push through all its attempts. -/
structure AttemptStack (Memory Item Label : Type) where
  prepare : Value → Memory → Memory × Item
  value : Item → Value
  discard : Item → Memory → Memory
  push : Item → Label
  pop : Label
  look : Label
  step : Label → Memory → Memory × Status Label AttemptAnswer

namespace AttemptStack

variable {Memory Item Label : Type}

inductive Call (Item : Type)
  | push (v : Value) | pop | isEmpty
  | prepare (v : Value) | attemptPush (item : Item) | attemptPop

inductive Position (Item Label : Type)
  | prepare (v : Value) (untilServed : Bool)
  | pushing (item : Item) (untilServed : Bool) (l : Label)
  | popping (untilServed : Bool) (l : Label)
  | looking (l : Label)

inductive Answer (Item : Type)
  | pushed | popped (found : Option Value) | emptiness (empty : Bool)
  | prepared (item : Item) | handedBack (item : Item) | interfered

variable (stack : AttemptStack Memory Item Label)

def enter : Call Item → Position Item Label
  | .push v => .prepare v true
  | .pop => .popping true stack.pop
  | .isEmpty => .looking stack.look
  | .prepare v => .prepare v false
  | .attemptPush item => .pushing item false (stack.push item)
  | .attemptPop => .popping false stack.pop

def afterPush (item : Item) (untilServed : Bool) :
    Status Label AttemptAnswer → Status (Position Item Label) (Answer Item)
  | .running l => .running (.pushing item untilServed l)
  | .returned .contended =>
    if untilServed then .running (.pushing item true (stack.push item))
    else .returned (.handedBack item)
  | .returned _ => .returned .pushed

def afterPop (untilServed : Bool) :
    Status Label AttemptAnswer → Status (Position Item Label) (Answer Item)
  | .running l => .running (.popping untilServed l)
  | .returned (.popped found) => .returned (.popped found)
  | .returned _ =>
    if untilServed then .running (.popping true stack.pop) else .returned .interfered

def retryStep : Position Item Label → Memory → Effect Memory (Position Item Label) (Answer Item)
  | .prepare v untilServed, m =>
    let (m, item) := stack.prepare v m
    ⟨m, if untilServed then .running (.pushing item true (stack.push item))
      else .returned (.prepared item), []⟩
  | .pushing item untilServed l, m =>
    let (m, s) := stack.step l m
    ⟨m, stack.afterPush item untilServed s, []⟩
  | .popping untilServed l, m =>
    let (m, s) := stack.step l m
    ⟨m, stack.afterPop untilServed s, []⟩
  | .looking l, m =>
    let (m, s) := stack.step l m
    ⟨m, match s with
      | .running l => .running (.looking l)
      | .returned (.emptiness empty) => .returned (.emptiness empty)
      | .returned _ => .returned .interfered, []⟩

def retrying : Algorithm Memory (Call Item) (Position Item Label) Unit (Answer Item) where
  enter := stack.enter
  step _ := stack.retryStep

end AttemptStack

/-- A memory together with the number of attempts still to be refused; a negative number never runs
out. -/
structure Disturbed (Memory : Type) where
  memory : Memory
  refusals : Int := 0

inductive DisturbedLabel (Label : Type) | arriving (l : Label) | through (l : Label)

namespace AttemptStack

variable {Memory Item Label : Type}

def disturbedStep (stack : AttemptStack Memory Item Label) :
    DisturbedLabel Label → Disturbed Memory →
      Disturbed Memory × Status (DisturbedLabel Label) AttemptAnswer
  | .arriving l, ⟨m, refusals⟩ =>
    if refusals = 0 then (⟨m, refusals⟩, .running (.through l))
    else (⟨m, if 0 < refusals then refusals - 1 else refusals⟩, .returned .contended)
  | .through l, ⟨m, refusals⟩ =>
    let (m, s) := stack.step l m
    (⟨m, refusals⟩, match s with
      | .running l => .running (.through l)
      | .returned a => .returned a)

def disturbed (stack : AttemptStack Memory Item Label) :
    AttemptStack (Disturbed Memory) Item (DisturbedLabel Label) where
  prepare v m := let (inner, item) := stack.prepare v m.memory; ({ m with memory := inner }, item)
  value := stack.value
  discard item m := { m with memory := stack.discard item m.memory }
  push item := .arriving (stack.push item)
  pop := .arriving stack.pop
  look := .through stack.look
  step := stack.disturbedStep

end AttemptStack

end SharedMemory
