import SharedMemory.Lock

/-!
# Two-party mutual exclusion by desire and turn

A side that wants to enter says so, gives the other side the turn, and waits while the other side
wants to enter and has the turn. The two halves of that condition are read one after the other.
-/
namespace SharedMemory

inductive Side | left | right deriving DecidableEq

namespace Side

def other : Side → Side
  | .left => .right
  | .right => .left

def index : Side → Nat
  | .left => 0
  | .right => 1

def name : Side → String
  | .left => "Left"
  | .right => "Right"

@[simp] theorem other_other (s : Side) : s.other.other = s := by cases s <;> rfl

@[simp] theorem other_ne (s : Side) : s.other ≠ s := by cases s <;> decide

end Side

namespace TwoPartyLock

structure Memory where
  leftDesire : Bool := false
  rightDesire : Bool := false
  turn : Side := .left
  deriving DecidableEq

namespace Memory

def desire (m : Memory) : Side → Bool
  | .left => m.leftDesire
  | .right => m.rightDesire

def setDesire (m : Memory) (s : Side) (wants : Bool) : Memory :=
  match s with
  | .left => { m with leftDesire := wants }
  | .right => { m with rightDesire := wants }

@[simp] theorem desire_setDesire (m : Memory) (s t : Side) (wants : Bool) :
    (m.setDesire s wants).desire t = if t = s then wants else m.desire t := by
  cases s <;> cases t <;> rfl

@[simp] theorem turn_setDesire (m : Memory) (s : Side) (wants : Bool) :
    (m.setDesire s wants).turn = m.turn := by cases s <;> rfl

end Memory

inductive Label
  | want (me : Side) | yield (me : Side) | watchDesire (me : Side) | watchTurn (me : Side)
  | leave (me : Side)
  deriving DecidableEq

def step : Label → Memory → Memory × Status Label (LockAnswer Side)
  | .want me, m => (m.setDesire me true, .running (.yield me))
  | .yield me, m => ({ m with turn := me.other }, .running (.watchDesire me))
  | .watchDesire me, m =>
    (m, if m.desire me.other then .running (.watchTurn me) else .returned (.acquired me))
  | .watchTurn me, m =>
    (m, if m.turn = me.other then .running (.watchDesire me) else .returned (.acquired me))
  | .leave me, m => (m.setDesire me false, .returned .released)

def lock : Lock Memory Label Side := ⟨step, .leave⟩

end TwoPartyLock

end SharedMemory
