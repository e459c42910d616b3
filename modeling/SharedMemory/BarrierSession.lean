import SharedMemory.Answer
import SharedMemory.Interleaving

/-!
# A sense-reversing barrier and the tokens of its participants

A token is made when it is first named. It is in use from the moment its thread arrives until that
thread is joined, and then every step that names it is refused, but a join and a report. After every
arrival the waiting threads look at the sense again.
-/
namespace SharedMemory.BarrierSession

open SenseReversingBarrier

/-- `waiting` carries the token as the wait has left it. -/
inductive TokenState
  | idle (t : SenseToken)
  | waiting (t : SenseToken) (status : Status Label Bool)

structure Session where
  memory : Memory
  tokens : List (Nat × TokenState) := []

/-- `unknown` is any action that a barrier does not have. -/
inductive Action | wait | arrive | join | fresh | token | report | unknown deriving DecidableEq

structure Step where
  action : Action
  token : Nat := 0

/-- Enough steps to pass the barrier, or to be waiting at it. -/
def waitSteps : Nat := 8

def new (parties : UInt64) : Except Error Session × List Event :=
  let (made, events) := SenseReversingBarrier.new parties
  (made.map fun memory => { memory }, events)

namespace Session

def state (s : Session) (token : Nat) : TokenState := (s.tokens.lookup token).getD (.idle {})

def setState (s : Session) (token : Nat) (state : TokenState) : Session :=
  { s with tokens := (token, state) :: s.tokens.filter (·.1 ≠ token) }

def run (status : Status Label Bool) (m : Memory) : Run Memory Label Bool :=
  algorithm.advance (fun _ _ => ()) waitSteps ⟨m, status, []⟩

/-- No step of a waiting thread changes the memory, so their order does not matter. -/
def settle (s : Session) : Session :=
  { s with tokens := s.tokens.map fun
      | (n, .waiting t status) => (n, .waiting t (run status s.memory).status)
      | idle => idle }

def wait (s : Session) (n : Nat) (t : SenseToken) : Session × Answer :=
  let r := run (.running (algorithm.enter t)) s.memory
  let s := ({ s with memory := r.memory }.setState n (.idle t.flip)).settle
  (s, .ofReturn .flag r.status)

def arrive (s : Session) (n : Nat) (t : SenseToken) : Session × Answer :=
  let r := run (.running (algorithm.enter t)) s.memory
  let s := ({ s with memory := r.memory }.setState n (.waiting t.flip r.status)).settle
  (s, .barrier s.memory)

def perform (s : Session) (step : Step) : Session × Answer :=
  let ⟨action, n⟩ := step
  match action, s.state n with
  | .report, _ => (s, .barrier s.memory)
  | .join, .waiting t (.returned led) => (s.setState n (.idle t), .flag led)
  | .join, .waiting _ (.running _) => (s, .refused .wouldBlock)
  | .join, .idle _ => (s, .refused .notWaiting)
  | _, .waiting .. => (s, .refused .tokenInUse)
  | .wait, .idle t => s.wait n t
  | .arrive, .idle t => s.arrive n t
  | .fresh, .idle _ => (s.setState n (.idle {}), .ok)
  | .token, .idle t => (s.setState n (.idle t), .flag t.sense)
  | .unknown, .idle _ => (s, .refused .unsupported)

end Session

end SharedMemory.BarrierSession
