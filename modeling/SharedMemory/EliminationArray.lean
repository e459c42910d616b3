import SharedMemory.Algorithm
import SharedMemory.Config
import SharedMemory.SlotWord

/-!
# Slots in which a push and a pop cancel out

A pusher claims a free slot, writes its value, offers it and waits. A popper that finds an offer
reads the value and takes the offer by compare-and-swap; the pusher then frees the slot. A pusher
whose deadline passes withdraws its offer by compare-and-swap on the same word, so exactly one of the
two wins.
-/
namespace SharedMemory.EliminationArray

structure Slot where
  word : SlotWord := 0
  value : Value := 0
  deriving DecidableEq

structure Memory where
  slots : Array Slot
  deriving DecidableEq

def Memory.ofConfig (config : EliminationConfig) : Memory := ⟨Array.replicate config.slots.toNat {}⟩

namespace Memory

def slot (m : Memory) (i : Nat) : Slot := m.slots.getD i {}

def setWord (m : Memory) (i : Nat) (word : SlotWord) : Memory :=
  ⟨m.slots.modify i (fun s => { s with word })⟩

def setValue (m : Memory) (i : Nat) (value : Value) : Memory :=
  ⟨m.slots.modify i (fun s => { s with value })⟩

/-- Every slot free, with its first stamp. -/
def reset (m : Memory) : Memory := ⟨m.slots.map fun _ => {}⟩

def count (m : Memory) (t : SlotWord.Tag) : Nat := m.slots.countP (·.word.hasTag t)

def freeSlots (m : Memory) : Nat := m.count .free

/-- Claims since the slots were last reset, over all slots. -/
def claims (m : Memory) : Nat := m.slots.foldl (fun n s => n + s.word.stamp.toNat) 0

def offers (m : Memory) : List Value :=
  (m.slots.filter (·.word.hasTag .offered)).toList.map Slot.value

end Memory

/-- The slot a step looks at, taken modulo their number, and whether the deadline has passed. -/
structure Choice where
  slot : Nat
  expired : Bool
  deriving DecidableEq

inductive Call | push (v : Value) | pop deriving DecidableEq

inductive Label
  | pushProbe (v : Value)
  | pushClaim (v : Value) (slot : Nat) (seen : SlotWord)
  | pushClock (v : Value)
  | pushWrite (v : Value) (slot : Nat) (claimed : SlotWord)
  | pushOffer (v : Value) (slot : Nat) (claimed : SlotWord)
  | pushWaitClock (v : Value) (slot : Nat) (claimed : SlotWord)
  | pushWait (v : Value) (slot : Nat) (claimed : SlotWord)
  | pushFree (v : Value) (slot : Nat) (claimed : SlotWord)
  | pushWithdraw (v : Value) (slot : Nat) (claimed : SlotWord)
  | popProbe
  | popRead (slot : Nat) (seen : SlotWord)
  | popTake (slot : Nat) (seen : SlotWord) (v : Value)
  | popClock
  deriving DecidableEq

/-- `broken` reports the word of a slot that left the hands of its owner. -/
inductive Answer
  | pushed (eliminated : Bool) | popped (found : Option Value) | broken (word expected : SlotWord)
  deriving DecidableEq

def step (choice : Choice) : Label → Memory → Effect Memory Label Answer
  | .pushProbe v, m =>
    let i := choice.slot % m.slots.size
    let word := (m.slot i).word
    ⟨m, .running (if word.hasTag .free then .pushClaim v i word else .pushClock v), []⟩
  | .pushClaim v i seen, m =>
    if (m.slot i).word = seen then
      ⟨m.setWord i seen.nextClaim, .running (.pushWrite v i seen.nextClaim), []⟩
    else ⟨m, .running (.pushClock v), []⟩
  | .pushClock v, m =>
    ⟨m, if choice.expired then .returned (.pushed false) else .running (.pushProbe v), []⟩
  | .pushWrite v i claimed, m => ⟨m.setValue i v, .running (.pushOffer v i claimed), []⟩
  | .pushOffer v i claimed, m =>
    ⟨m.setWord i (claimed.withTag .offered), .running (.pushWaitClock v i claimed), []⟩
  | .pushWaitClock v i claimed, m =>
    ⟨m, .running (if choice.expired then .pushWithdraw v i claimed else .pushWait v i claimed), []⟩
  | .pushWait v i claimed, m =>
    ⟨m, .running (
      if (m.slot i).word = claimed.withTag .taken then .pushFree v i claimed
      else .pushWaitClock v i claimed), []⟩
  | .pushFree v i claimed, m =>
    ⟨m.setWord i (claimed.withTag .free), .returned (.pushed true), [.pushEliminated v]⟩
  | .pushWithdraw v i claimed, m =>
    if (m.slot i).word = claimed.withTag .offered then
      ⟨m.setWord i (claimed.withTag .free), .returned (.pushed false), [.pushTimedOut v]⟩
    else if (m.slot i).word = claimed.withTag .taken then ⟨m, .running (.pushFree v i claimed), []⟩
    else ⟨m, .returned (.broken (m.slot i).word (claimed.withTag .taken)), []⟩
  | .popProbe, m =>
    let i := choice.slot % m.slots.size
    let word := (m.slot i).word
    ⟨m, .running (if word.hasTag .offered then .popRead i word else .popClock), []⟩
  | .popRead i seen, m => ⟨m, .running (.popTake i seen (m.slot i).value), []⟩
  | .popTake i seen v, m =>
    if (m.slot i).word = seen then
      ⟨m.setWord i (seen.withTag .taken), .returned (.popped (some v)), [.popEliminated v]⟩
    else ⟨m, .running .popClock, []⟩
  | .popClock, m =>
    ⟨m, if choice.expired then .returned (.popped none) else .running .popProbe, []⟩

def enter : Call → Label
  | .push v => .pushProbe v
  | .pop => .popProbe

def algorithm : Algorithm Memory Call Label Choice Answer := ⟨enter, step⟩

/-! A thread that looks at the slot most useful to it, with the deadline always or never past. -/

def usefulSlot (m : Memory) : Label → Nat
  | .pushProbe _ => (m.slots.findIdx? (·.word.hasTag .free)).getD 0
  | .popProbe => (m.slots.findIdx? (·.word.hasTag .offered)).getD 0
  | _ => 0

def impatient (l : Label) (m : Memory) : Choice := ⟨usefulSlot m l, true⟩

def patient (l : Label) (m : Memory) : Choice := ⟨usefulSlot m l, false⟩

end SharedMemory.EliminationArray
