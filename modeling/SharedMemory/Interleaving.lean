import SharedMemory.Algorithm

/-!
# Threads that interleave on one memory

A crew is a memory and the threads that share it, each inside a call or returned from it. `Step` lets
any running thread take one atomic step under any choice, so a property of every reachable crew
holds under every schedule. Schedules that are run, thread after thread or round by round, are made
of such steps.
-/
namespace SharedMemory

variable {Memory Call Label Choice Answer : Type}

/-- The trace lists the newest event first. -/
structure Crew (Memory Label Answer : Type) where
  memory : Memory
  threads : List (Status Label Answer)
  trace : List Event := []

namespace Crew

variable (alg : Algorithm Memory Call Label Choice Answer)

def start (m : Memory) (calls : List Call) : Crew Memory Label Answer :=
  ⟨m, calls.map (fun c => .running (alg.enter c)), []⟩

def answers? (c : Crew Memory Label Answer) : Option (List Answer) := c.threads.mapM Status.answer?

/-- One step of thread `i`; nothing happens if it has returned. -/
def act (i : Nat) (choose : Label → Memory → Choice) (c : Crew Memory Label Answer) :
    Crew Memory Label Answer :=
  match c.threads[i]? with
  | some (.running l) =>
    let e := alg.step (choose l c.memory) l c.memory
    ⟨e.memory, c.threads.set i e.status, e.events.reverse ++ c.trace⟩
  | _ => c

inductive Step (c : Crew Memory Label Answer) : Crew Memory Label Answer → Prop
  | act (i : Nat) (l : Label) (choice : Choice) (here : c.threads[i]? = some (.running l)) :
      Step c (c.act alg i (fun _ _ => choice))

inductive Reaches (c : Crew Memory Label Answer) : Crew Memory Label Answer → Prop
  | refl : Reaches c c
  | tail {d e : Crew Memory Label Answer} : Reaches c d → Step alg d e → Reaches c e

variable (choose : Label → Memory → Choice)

/-- The threads one after the other, each for at most `budget` steps. -/
def inTurnFrom (budget : Nat) :
    Memory → List Event → List (Status Label Answer) → Crew Memory Label Answer
  | m, trace, [] => ⟨m, [], trace⟩
  | m, trace, s :: rest =>
    let r := alg.advance choose budget ⟨m, s, trace⟩
    let c := inTurnFrom budget r.memory r.trace rest
    { c with threads := r.status :: c.threads }

def inTurn (budget : Nat) (c : Crew Memory Label Answer) : Crew Memory Label Answer :=
  inTurnFrom alg choose budget c.memory c.trace c.threads

/-- `n` rounds in which every thread takes one step. -/
def rounds : Nat → Crew Memory Label Answer → Crew Memory Label Answer
  | 0, c => c
  | n + 1, c => if (c.answers?).isSome then c else rounds n (inTurn alg choose 1 c)

theorem Reaches.trans {alg : Algorithm Memory Call Label Choice Answer}
    {c d e : Crew Memory Label Answer} (h : Reaches alg c d) (k : Reaches alg d e) :
    Reaches alg c e := by
  induction k with
  | refl => exact h
  | tail _ s ih => exact ih.tail s

/-- The choice a step was taken under may come from a rule. -/
theorem act_step {c : Crew Memory Label Answer} {i : Nat} {l : Label}
    (here : c.threads[i]? = some (.running l)) : Step alg c (c.act alg i choose) := by
  have h : c.act alg i choose = c.act alg i (fun _ _ => choose l c.memory) := by
    simp [act, here]
  rw [h]
  exact .act i l _ here

/-- A thread that moves alone takes steps of its crew. -/
theorem reaches_advance (n : Nat) (m : Memory) (trace : List Event) (s : Status Label Answer)
    (before after : List (Status Label Answer)) :
    let r := alg.advance choose n ⟨m, s, trace⟩
    Reaches alg ⟨m, before ++ s :: after, trace⟩ ⟨r.memory, before ++ r.status :: after, r.trace⟩ := by
  induction n generalizing m trace s with
  | zero => exact .refl
  | succ n ih =>
    cases s with
    | returned a =>
      rw [Algorithm.advance_returned]
      exact .refl
    | running l =>
      have here : (before ++ .running l :: after)[before.length]? = some (.running l) := by simp
      have first := act_step alg choose (c := ⟨m, before ++ .running l :: after, trace⟩) here
      rw [Algorithm.advance_succ]
      refine Reaches.trans (Reaches.refl.tail first) ?_
      simpa [act, Algorithm.tick] using ih _ _ _

theorem reaches_inTurnFrom (budget : Nat) (m : Memory) (trace : List Event)
    (before threads : List (Status Label Answer)) :
    let c := inTurnFrom alg choose budget m trace threads
    Reaches alg ⟨m, before ++ threads, trace⟩ ⟨c.memory, before ++ c.threads, c.trace⟩ := by
  induction threads generalizing m trace before with
  | nil => exact .refl
  | cons s rest ih =>
    have first := reaches_advance alg choose budget m trace s before rest
    refine first.trans ?_
    simpa [inTurnFrom] using ih _ _ (before ++ [(alg.advance choose budget ⟨m, s, trace⟩).status])

theorem reaches_inTurn (budget : Nat) (c : Crew Memory Label Answer) :
    Reaches alg c (c.inTurn alg choose budget) := by
  simpa [inTurn] using reaches_inTurnFrom alg choose budget c.memory c.trace [] c.threads

end Crew

end SharedMemory
