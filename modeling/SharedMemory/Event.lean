import SharedMemory.Value

/-! # Trace events, one line each, and their order in a report -/
namespace SharedMemory

inductive Event
  | partiesRejected
  | logExhausted (capacity : UInt64)
  | passApplied (start stop : Nat)
  | stackConfigured (slots timeoutMicros : UInt64)
  | pushEliminated (value : Value)
  | pushTimedOut (value : Value)
  | popEliminated (value : Value)
  deriving DecidableEq

namespace Event

def line : Event → String
  | .partiesRejected => "DEBUG rejected barrier with zero parties"
  | .logExhausted capacity =>
    "DEBUG flat-combining log exhausted capacity=" ++ toString capacity.toNat
  | .passApplied start stop =>
    "TRACE combining pass applied requests from=" ++ toString start ++ " to=" ++ toString stop
  | .stackConfigured slots micros =>
    "DEBUG elimination stack configured slots=" ++ toString slots.toNat ++
      " timeout_us=" ++ toString micros.toNat
  | .pushEliminated v => "TRACE push eliminated value=" ++ toString v.toInt
  | .pushTimedOut v => "TRACE elimination push timed out value=" ++ toString v.toInt
  | .popEliminated v => "TRACE pop eliminated value=" ++ toString v.toInt

/-- Lines in ascending order. Racing threads emit in any order, so a report fixes one. -/
def report (events : List Event) : List String :=
  (events.map line).mergeSort (fun a b => !decide (b < a))

end Event

end SharedMemory
