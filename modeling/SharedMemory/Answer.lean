import SharedMemory.Barrier
import SharedMemory.FlatCombining
import SharedMemory.TwoPartyLock
import SharedMemory.EliminationArray

/-! # What a session answers to a step -/
namespace SharedMemory

/-- Why a step is refused. `wouldBlock` also stands for a call that does not return. -/
inductive Refusal
  | error (cause : Error) | panic (cause : Panic)
  | badInput | unsupported | noObject | gone | notHeld | wouldBlock
  | nodeInUse | tokenInUse | notWaiting | busy
  deriving DecidableEq

/-- `only` is the slot of an array that has exactly one. -/
structure SlotReport where
  slots : Nat
  free : Nat
  claims : Nat
  offered : List Value
  only : Option EliminationArray.Slot

structure LogReport where
  next : UInt64
  records : List FlatCombining.Record
  watermark : Nat
  container : List Value

/-- A push that was offered, when it has been taken. -/
structure TakenOffer where
  popped : Value
  pushed : Bool

inductive Answer
  | ok | flag (b : Bool) | number (n : Nat) | text (s : String)
  | value (v : Value) | found (v : Option Value)
  | values (vs : List Value) | founds (vs : List (Option Value))
  | handedBack (v : Value) | interfered
  | config (c : EliminationConfig)
  | slots (r : SlotReport) | taken (t : Option TakenOffer) | allTaken (ts : List TakenOffer)
  | log (r : LogReport)
  | locked (b : Bool) | queued (b : Bool)
  | tickets (nowServing nextTicket : UInt64) (held : Option UInt64)
  | node (locked linked : Bool) | granted (nodes : List Nat)
  | sides (m : TwoPartyLock.Memory)
  | barrier (m : SenseReversingBarrier.Memory)
  | refused (r : Refusal)

structure Response where
  answer : Answer
  events : List Event := []

/-- The answer of a call that has returned. -/
def Answer.ofReturn {Label A : Type} (f : A → Answer) : Status Label A → Answer
  | .running _ => .refused .wouldBlock
  | .returned a => f a

end SharedMemory
