import SharedMemory.Algorithm

/-!
# The interface of a lock

A lock hands out a token on acquisition and takes it back on release. Both walk through labels of
the same algorithm; a single attempt, where the lock has one, may be refused instead of waiting.
-/
namespace SharedMemory

inductive LockAnswer (Token : Type) | acquired (token : Token) | refused | released
  deriving DecidableEq

structure Lock (Memory Label Token : Type) where
  step : Label → Memory → Memory × Status Label (LockAnswer Token)
  release : Token → Label

/-- At most `n` steps of one thread that moves alone. -/
def Lock.advance {Memory Label Token : Type} (lock : Lock Memory Label Token) :
    Nat → Label → Memory → Memory × Status Label (LockAnswer Token)
  | 0, l, m => (m, .running l)
  | n + 1, l, m =>
    match lock.step l m with
    | (m, .running l) => lock.advance n l m
    | returned => returned

end SharedMemory
