import SharedMemory.Fault

/-!
# What a run of producers and consumers observed, and whether it conserved the values

The counts are compared first, then the sums, then the values themselves. The expected sum is taken
in ascending order with every partial sum checked, so a total that fits may still be refused.
-/
namespace SharedMemory

structure Observation where
  inserted : UInt64
  removed : UInt64
  sum : Value
  removedSorted : List Value
  deriving DecidableEq

namespace Observation

/-- `pairs` copies of every value, ascending. -/
def expected (pairs : UInt64) (values : List Value) : List Value :=
  Value.sort (values.flatMap (List.replicate pairs.toNat))

def require (holds : Bool) (label left right : String) : Except Panic Unit :=
  if holds then .ok () else .error (.mismatch (some label) left right)

def requireTotal (label : String) (count total : UInt64) : Except Panic Unit :=
  require (count = total) label (toString count.toNat) (toString total.toNat)

def checkConserved (o : Observation) (pairs : UInt64) (values : List Value) : Except Panic Unit := do
  let all := expected pairs values
  let some total := Size.mul? pairs (UInt64.ofNat values.length) | .error .multiplyOverflow
  requireTotal "insert count mismatch" o.inserted total
  requireTotal "remove count mismatch" o.removed total
  let some sum := Value.checkedSum all | .error .addOverflow
  require (o.sum = sum) "sum mismatch" (DebugText.ofValue o.sum) (DebugText.ofValue sum)
  require (o.removedSorted = all) "multiset mismatch" (DebugText.ofList o.removedSorted)
    (DebugText.ofList all)

end Observation

end SharedMemory
