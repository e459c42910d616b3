import SharedMemory.Lock

/-!
# Spin locks on one flag

Both locks take the flag with a compare-and-swap. The first swaps until it succeeds, the second
reads until the flag is clear before it swaps. A blocking lock that excludes is the first with its
spinning replaced by sleep, which no step of another thread can tell apart.
-/
namespace SharedMemory

namespace TestAndSet

inductive Label | seize | attempt | clear deriving DecidableEq

def step : Label → Bool → Bool × Status Label (LockAnswer Unit)
  | .seize, locked => if locked then (locked, .running .seize) else (true, .returned (.acquired ()))
  | .attempt, locked =>
    if locked then (locked, .returned .refused) else (true, .returned (.acquired ()))
  | .clear, _ => (false, .returned .released)

def lock : Lock Bool Label Unit := ⟨step, fun _ => .clear⟩

end TestAndSet

namespace TestThenSet

inductive Label | watch | seize | peek | attempt | clear deriving DecidableEq

def step : Label → Bool → Bool × Status Label (LockAnswer Unit)
  | .watch, locked => (locked, .running (if locked then .watch else .seize))
  | .seize, locked => if locked then (locked, .running .watch) else (true, .returned (.acquired ()))
  | .peek, locked => (locked, if locked then .returned .refused else .running .attempt)
  | .attempt, locked =>
    if locked then (locked, .returned .refused) else (true, .returned (.acquired ()))
  | .clear, _ => (false, .returned .released)

def lock : Lock Bool Label Unit := ⟨step, fun _ => .clear⟩

end TestThenSet

end SharedMemory
