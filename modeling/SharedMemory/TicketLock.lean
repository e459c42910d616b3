import SharedMemory.Lock

/-!
# The ticket lock

A thread draws the next ticket and waits until it is served. Both counters are 64-bit words that
wrap, so tickets are compared only for equality. A single attempt draws a ticket only if that ticket
is the one being served.
-/
namespace SharedMemory.TicketLock

structure Memory where
  nowServing : UInt64 := 0
  nextTicket : UInt64 := 0
  deriving DecidableEq

inductive Label
  | draw | wait (ticket : UInt64)
  | look | attempt (serving : UInt64)
  | pass (ticket : UInt64)
  deriving DecidableEq

def step : Label → Memory → Memory × Status Label (LockAnswer UInt64)
  | .draw, m => ({ m with nextTicket := m.nextTicket + 1 }, .running (.wait m.nextTicket))
  | .wait ticket, m =>
    (m, if m.nowServing = ticket then .returned (.acquired ticket) else .running (.wait ticket))
  | .look, m => (m, .running (.attempt m.nowServing))
  | .attempt serving, m =>
    if m.nextTicket = serving then
      ({ m with nextTicket := serving + 1 }, .returned (.acquired serving))
    else (m, .returned .refused)
  | .pass ticket, m => ({ m with nowServing := ticket + 1 }, .returned .released)

def lock : Lock Memory Label UInt64 := ⟨step, .pass⟩

end SharedMemory.TicketLock
