import SharedMemory.Fault
import SharedMemory.Algorithm

/-!
# Barriers

Every participant brings a token. The sense-reversing barrier counts arrivals; the last one resets
the count and flips the shared sense, which the others wait for. A token flips on every wait, so a
participant that is already in the next generation waits for the other sense. The blocking barrier
counts under a mutex of its own, one step an arrival, and tells generations apart by number.
-/
namespace SharedMemory

structure SenseToken where
  sense : Bool := false
  deriving DecidableEq

def SenseToken.flip (t : SenseToken) : SenseToken := ⟨!t.sense⟩

namespace SenseReversingBarrier

structure Memory where
  count : UInt64 := 0
  sense : Bool := false
  parties : UInt64
  deriving DecidableEq

inductive Label
  | arrive (sense : Bool) | reset (sense : Bool) | flip (sense : Bool) | wait (sense : Bool)
  deriving DecidableEq

def step : Label → Memory → Memory × Status Label Bool
  | .arrive sense, m =>
    ({ m with count := m.count + 1 },
      .running (if m.count = m.parties - 1 then .reset sense else .wait sense))
  | .reset sense, m => ({ m with count := 0 }, .running (.flip sense))
  | .flip sense, m => ({ m with sense }, .returned true)
  | .wait sense, m => (m, if m.sense = sense then .returned false else .running (.wait sense))

/-- A call brings the token as its owner holds it, flips it, and answers whether it was the last to
arrive. -/
def algorithm : Algorithm Memory SenseToken Label Unit Bool where
  enter t := .arrive t.flip.sense
  step _ l m := let (m, s) := step l m; ⟨m, s, []⟩

def new (parties : UInt64) : Except Error Memory × List Event :=
  if parties = 0 then (.error (.ofFault .noParties), [.partiesRejected]) else (.ok { parties }, [])

end SenseReversingBarrier

namespace BlockingBarrier

structure Memory where
  count : UInt64 := 0
  generation : Nat := 0
  parties : UInt64
  deriving DecidableEq

inductive Label | arrive | wait (generation : Nat) deriving DecidableEq

def step : Label → Memory → Memory × Status Label Bool
  | .arrive, m =>
    if m.count + 1 < m.parties then ({ m with count := m.count + 1 }, .running (.wait m.generation))
    else ({ m with count := 0, generation := m.generation + 1 }, .returned true)
  | .wait generation, m =>
    (m, if m.generation = generation then .running (.wait generation) else .returned false)

def algorithm : Algorithm Memory SenseToken Label Unit Bool where
  enter _ := .arrive
  step _ l m := let (m, s) := step l m; ⟨m, s, []⟩

def new (parties : UInt64) : Except Error Memory :=
  if parties = 0 then .error (.ofFault .noParties) else .ok { parties }

end BlockingBarrier

end SharedMemory
