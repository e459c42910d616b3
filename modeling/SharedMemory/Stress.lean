import SharedMemory.Container
import SharedMemory.Interleaving
import SharedMemory.Observation

/-!
# Threads that put values through a container

`Stress.algorithm` runs producers against consumers that retry while they find the container empty;
`Paired.algorithm` runs threads that remove one value after each insert. The counters beside the
container are updated in steps of their own.
-/
namespace SharedMemory

variable {Memory L Choice : Type}

structure Tally (Memory : Type) where
  container : Memory
  inserted : UInt64 := 0
  removed : UInt64 := 0
  sum : Value := 0

namespace Stress

inductive Role | producer (values : List Value) | consumer (count : Nat)

/-- A consumer lists what it got newest first. -/
inductive Label (L : Type)
  | produce (left : List Value)
  | inserting (l : L) (left : List Value)
  | countInsert (left : List Value)
  | consume (left : Nat) (got : List Value)
  | removing (l : L) (left : Nat) (got : List Value)
  | countRemoval (v : Value) (left : Nat) (got : List Value)
  | addToSum (v : Value) (left : Nat) (got : List Value)

def enter : Role → Label L
  | .producer values => .produce values
  | .consumer count => .consume count []

def step (c : Container Memory L Choice) (choice : Choice) :
    Label L → Tally Memory → Effect (Tally Memory) (Label L) (Except Panic (List Value))
  | .produce [], m => ⟨m, .returned (.ok []), []⟩
  | .produce (v :: left), m => ⟨m, .running (.inserting (c.enter (.insert v)) left), []⟩
  | .inserting l left, m =>
    let e := c.step choice l m.container
    ⟨{ m with container := e.memory }, match e.status with
      | .running l => .running (.inserting l left)
      | .returned (.ok _) => .running (.countInsert left)
      | .returned (.error p) => .returned (.error p), e.events⟩
  | .countInsert left, m => ⟨{ m with inserted := m.inserted + 1 }, .running (.produce left), []⟩
  | .consume 0 got, m => ⟨m, .returned (.ok got.reverse), []⟩
  | .consume (left + 1) got, m => ⟨m, .running (.removing (c.enter .remove) left got), []⟩
  | .removing l left got, m =>
    let e := c.step choice l m.container
    ⟨{ m with container := e.memory }, match e.status with
      | .running l => .running (.removing l left got)
      | .returned (.ok (some v)) => .running (.countRemoval v left got)
      | .returned (.ok none) => .running (.consume (left + 1) got)
      | .returned (.error p) => .returned (.error p), e.events⟩
  | .countRemoval v left got, m =>
    ⟨{ m with removed := m.removed + 1 }, .running (.addToSum v left got), []⟩
  | .addToSum v left got, m => ⟨{ m with sum := m.sum + v }, .running (.consume left (v :: got)), []⟩

def algorithm (c : Container Memory L Choice) :
    Algorithm (Tally Memory) Role (Label L) Choice (Except Panic (List Value)) := ⟨enter, step c⟩

/-- Producers first, then as many consumers. -/
def crew (c : Container Memory L Choice) (pairs : Nat) (values : List Value) (m : Memory) :
    Crew (Tally Memory) (Label L) (Except Panic (List Value)) :=
  Crew.start (algorithm c) { container := m }
    (List.replicate pairs (.producer values) ++ List.replicate pairs (.consumer values.length))

end Stress

namespace Paired

inductive Label (L : Type)
  | next (left got : List Value)
  | inserting (l : L) (left got : List Value)
  | removing (l : L) (left got : List Value)
  | addToSum (v : Value) (left got : List Value)

def step (c : Container Memory L Choice) (choice : Choice) :
    Label L → Tally Memory → Effect (Tally Memory) (Label L) (Except Panic (List Value))
  | .next [] got, m => ⟨m, .returned (.ok got.reverse), []⟩
  | .next (v :: left) got, m => ⟨m, .running (.inserting (c.enter (.insert v)) left got), []⟩
  | .inserting l left got, m =>
    let e := c.step choice l m.container
    ⟨{ m with container := e.memory }, match e.status with
      | .running l => .running (.inserting l left got)
      | .returned (.ok _) => .running (.removing (c.enter .remove) left got)
      | .returned (.error p) => .returned (.error p), e.events⟩
  | .removing l left got, m =>
    let e := c.step choice l m.container
    ⟨{ m with container := e.memory }, match e.status with
      | .running l => .running (.removing l left got)
      | .returned (.ok (some v)) => .running (.addToSum v left got)
      | .returned (.ok none) => .returned (.error .emptyAfterInsert)
      | .returned (.error p) => .returned (.error p), e.events⟩
  | .addToSum v left got, m => ⟨{ m with sum := m.sum + v }, .running (.next left (v :: got)), []⟩

def algorithm (c : Container Memory L Choice) :
    Algorithm (Tally Memory) (List Value) (Label L) Choice (Except Panic (List Value)) :=
  ⟨fun values => .next values [], step c⟩

def crew (c : Container Memory L Choice) (threads : Nat) (values : List Value) (m : Memory) :
    Crew (Tally Memory) (Label L) (Except Panic (List Value)) :=
  Crew.start (algorithm c) { container := m } (List.replicate threads values)

end Paired

/-- What the threads of a crew leave to the thread that started them: the lists of the joined threads
put together, unless one of them panicked, or one that nobody joins. -/
def gather (joined rest : List (Except Panic (List Value))) : Except Panic (List Value) :=
  if joined.any (fun r => !r.isOk) then .error .workerLost
  else if rest.any (fun r => !r.isOk) then .error .scopeLost
  else .ok (Value.sort (joined.flatMap fun r => (r.toOption).getD []))

/-- What is observed of producers and consumers that have all returned. Only the consumers are joined. -/
def Stress.observe (pairs : Nat) (answers : List (Except Panic (List Value))) (m : Tally Memory) :
    Except Panic Observation :=
  (gather (answers.drop pairs) (answers.take pairs)).map fun removed =>
    { inserted := m.inserted, removed := m.removed, sum := m.sum, removedSorted := removed }

/-- Threads that insert and remove by turns do not count their inserts, so the number is computed. -/
def Paired.inserted? (threads : Nat) (values : List Value) : Option UInt64 :=
  Size.mul? (UInt64.ofNat threads) (UInt64.ofNat values.length)

/-- What is observed of them. The number of inserts is asked for after the threads have been joined. -/
def Paired.observe (inserted? : Option UInt64) (answers : List (Except Panic (List Value)))
    (m : Tally Memory) : Except Panic Observation :=
  (gather answers []).bind fun removed => match inserted? with
    | none => .error .multiplyOverflow
    | some inserted =>
      .ok { inserted, removed := UInt64.ofNat removed.length, sum := m.sum, removedSorted := removed }

end SharedMemory
