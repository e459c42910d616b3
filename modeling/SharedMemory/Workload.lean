import SharedMemory.Comparison
import SharedMemory.ProducerOrder
import SharedMemory.Stress

/-!
# Workloads

A plan names a workload and its size. Running one takes the threads in turn, producers before
consumers; the result is one that every schedule can give. A result is `none` when some thread never
returns.
-/
namespace SharedMemory.Workload

variable {Memory L Choice : Type}

inductive Plan
  | stress (pairs : Nat) (values : List Value)
  | paired (threads : Nat) (values : List Value)
  | sequential (steps : Nat)
  | producerOrder (producers perProducer : UInt64)

/-- The values below `n`, in whatever order a workload takes them. -/
def distinctValues (n : UInt64) : List Value :=
  (List.range n.toInt64.toInt.toNat).map fun i => Int64.ofNat i

/-- Only the first two plans report what the threads removed. -/
def Plan.conserves? : Plan → Option (Nat × List Value)
  | .stress pairs values | .paired pairs values => some (pairs, values)
  | _ => none

abbrev Result := Option (Except Panic (Option Observation))

def emptyLabel : Discipline → String
  | .lifo => "stack should be empty at this point"
  | .fifo => "queue should be empty at this point"

/-- After the threads, the thread that started them checks that the container is empty. -/
def conclude (c : Container Memory L Choice) (choose : L → Memory → Choice) (d : Discipline)
    (o : Except Panic Observation) (m : Memory) : Memory × Result :=
  match o with
  | .error p => (m, some (.error p))
  | .ok o =>
    let (m, checked) := Comparison.removal c choose (some (emptyLabel d)) none m
    (m, checked.map fun checked => checked.map fun _ => some o)

/-- What becomes of a workload once its threads are left alone: none if one of them is still running. -/
def finish {Label : Type} (c : Container Memory L Choice) (choose : L → Memory → Choice)
    (d : Discipline)
    (observe : List (Except Panic (List Value)) → Tally Memory → Except Panic Observation)
    (crew : Crew (Tally Memory) Label (Except Panic (List Value))) : Memory × Result :=
  match crew.answers? with
  | none => (crew.memory.container, none)
  | some answers => conclude c choose d (observe answers crew.memory) crew.memory.container

/-- A thread outside its container call makes no choice of the container's. -/
def stress (c : Container Memory L Choice) (choose : L → Memory → Choice) (idle : Choice)
    (d : Discipline) (pairs : Nat) (values : List Value) (m : Memory) : Memory × Result :=
  let habit : Stress.Label L → Tally Memory → Choice
    | .inserting l _, m | .removing l _ _, m => choose l m.container
    | _, _ => idle
  finish c choose d (Stress.observe pairs)
    ((Stress.crew c pairs values m).inTurn (Stress.algorithm c) habit
      ((Comparison.patience + 4) * (values.length + 1)))

def paired (c : Container Memory L Choice) (choose : L → Memory → Choice) (idle : Choice)
    (d : Discipline) (threads : Nat) (values : List Value) (m : Memory) : Memory × Result :=
  let habit : Paired.Label L → Tally Memory → Choice
    | .inserting l _ _, m | .removing l _ _, m => choose l m.container
    | _, _ => idle
  finish c choose d (Paired.observe (Paired.inserted? threads values))
    ((Paired.crew c threads values m).inTurn (Paired.algorithm c) habit
      (2 * (Comparison.patience + 4) * (values.length + 1)))

def producerOrder (c : Container Memory L Choice) (choose : L → Memory → Choice) (idle : Choice)
    (producers perProducer : UInt64) (m : Memory) : Memory × Result :=
  match Size.mul? producers perProducer with
  | none => (m, some (.error .multiplyOverflow))
  | some total =>
    let plan : ProducerOrder.Plan := ⟨producers, perProducer, total⟩
    let habit : ProducerOrder.Label L → ProducerOrder.Tally Memory → Choice
      | .inserting l _ _, m | .removing l _, m => choose l m.container
      | _, _ => idle
    let crew := (ProducerOrder.crew plan c m).inTurn (ProducerOrder.algorithm plan c) habit
      ((Comparison.patience + 4) * (total.toNat + 1))
    (crew.memory.container, crew.answers?.map fun answers =>
      if answers.any (fun r => !r.isOk) then .error .scopeLost
      else if crew.memory.taken = total then .ok none
      else .error (.mismatch none (toString crew.memory.taken.toNat) (toString total.toNat)))

def run (c : Container Memory L Choice) (choose : L → Memory → Choice) (idle : Choice)
    (d : Discipline) (m : Memory) : Plan → Memory × Result
  | .stress pairs values => stress c choose idle d pairs values m
  | .paired threads values => paired c choose idle d threads values m
  | .sequential steps =>
    let (m, checked) := Comparison.run c choose d (Comparison.coins steps) {} m
    (m, checked.map fun checked => checked.map fun _ => none)
  | .producerOrder producers perProducer => producerOrder c choose idle producers perProducer m

end SharedMemory.Workload
