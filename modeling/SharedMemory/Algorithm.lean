import SharedMemory.Event

/-!
# Algorithms as labelled atomic steps, and a call that runs alone

A thread inside a call stands at a label. One atomic step reads and writes the shared memory once
and leads to the next label or to the answer of the call; a thread that waits steps to the label it
stands at. What a step cannot know from the memory, such as a random index or whether a deadline
has passed, is a choice handed to it.
-/
namespace SharedMemory

inductive Status (Label Answer : Type) | running (label : Label) | returned (answer : Answer)
  deriving DecidableEq

structure Effect (Memory Label Answer : Type) where
  memory : Memory
  status : Status Label Answer
  events : List Event := []

structure Algorithm (Memory Call Label Choice Answer : Type) where
  enter : Call → Label
  step : Choice → Label → Memory → Effect Memory Label Answer

variable {Memory Call Label Choice Answer Call' Answer' : Type}

namespace Status

def answer? : Status Label Answer → Option Answer
  | .running _ => none
  | .returned a => some a

def mapAnswer (f : Answer → Answer') : Status Label Answer → Status Label Answer'
  | .running l => .running l
  | .returned a => .returned (f a)

end Status

/-- The same steps under another vocabulary of calls and answers. -/
def Algorithm.via (alg : Algorithm Memory Call Label Choice Answer) (ask : Call' → Call)
    (reply : Answer → Answer') : Algorithm Memory Call' Label Choice Answer' where
  enter c := alg.enter (ask c)
  step choice l m :=
    let e := alg.step choice l m
    ⟨e.memory, e.status.mapAnswer reply, e.events⟩

/-- One call in progress and the memory it works on. The trace lists the newest event first. -/
structure Run (Memory Label Answer : Type) where
  memory : Memory
  status : Status Label Answer
  trace : List Event := []

namespace Algorithm

variable (alg : Algorithm Memory Call Label Choice Answer) (choose : Label → Memory → Choice)

def tick (r : Run Memory Label Answer) : Run Memory Label Answer :=
  match r.status with
  | .returned _ => r
  | .running l =>
    let e := alg.step (choose l r.memory) l r.memory
    ⟨e.memory, e.status, e.events.reverse ++ r.trace⟩

/-- At most `n` steps, none after the call has returned. -/
def advance : Nat → Run Memory Label Answer → Run Memory Label Answer
  | 0, r => r
  | n + 1, r =>
    match r.status with
    | .returned _ => r
    | .running _ => advance n (alg.tick choose r)

/-- A call made while no other thread moves. -/
def call (budget : Nat) (c : Call) (m : Memory) : Run Memory Label Answer :=
  alg.advance choose budget ⟨m, .running (alg.enter c), []⟩

@[simp] theorem tick_returned (m : Memory) (a : Answer) (t : List Event) :
    alg.tick choose ⟨m, .returned a, t⟩ = ⟨m, .returned a, t⟩ := rfl

@[simp] theorem advance_returned (n : Nat) (m : Memory) (a : Answer) (t : List Event) :
    alg.advance choose n ⟨m, .returned a, t⟩ = ⟨m, .returned a, t⟩ := by
  cases n <;> rfl

theorem advance_succ (n : Nat) (r : Run Memory Label Answer) :
    alg.advance choose (n + 1) r = alg.advance choose n (alg.tick choose r) := by
  obtain ⟨m, s, t⟩ := r
  cases s <;> simp [advance]

end Algorithm

end SharedMemory
