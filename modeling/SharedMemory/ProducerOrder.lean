import SharedMemory.Container
import SharedMemory.Interleaving

/-!
# Consumers that check each producer's order

Producer `p` of `producers` inserts `p`, `p + producers`, `p + 2 * producers` and so on, so a value
names its producer by its remainder. Every consumer keeps the last value it saw of each producer and
panics if the next one is not larger. A value below zero is read as a 64-bit size.
-/
namespace SharedMemory.ProducerOrder

variable {Memory L Choice : Type}

structure Plan where
  producers : UInt64
  perProducer : UInt64
  total : UInt64

structure Tally (Memory : Type) where
  container : Memory
  taken : UInt64 := 0

inductive Role | producer (p : UInt64) | consumer

inductive Label (L : Type)
  | produce (p i : UInt64)
  | inserting (l : L) (p i : UInt64)
  | look (last : List Value)
  | removing (l : L) (last : List Value)
  | countTaken (v : Value) (last : List Value)
  | judge (v : Value) (last : List Value)

def Plan.value (plan : Plan) (p i : UInt64) : Value := (p + plan.producers * i).toInt64

def Plan.producerOf (plan : Plan) (v : Value) : Nat := (v.toUInt64 % plan.producers).toNat

def enter (plan : Plan) : Role → Label L
  | .producer p => .produce p 0
  | .consumer => .look (List.replicate plan.producers.toNat (-1))

def step (plan : Plan) (c : Container Memory L Choice) (choice : Choice) :
    Label L → Tally Memory → Effect (Tally Memory) (Label L) (Except Panic Unit)
  | .produce p i, m =>
    ⟨m, if i < plan.perProducer then .running (.inserting (c.enter (.insert (plan.value p i))) p i)
      else .returned (.ok ()), []⟩
  | .inserting l p i, m =>
    let e := c.step choice l m.container
    ⟨{ m with container := e.memory }, match e.status with
      | .running l => .running (.inserting l p i)
      | .returned (.ok _) => .running (.produce p (i + 1))
      | .returned (.error panic) => .returned (.error panic), e.events⟩
  | .look last, m =>
    ⟨m, if m.taken < plan.total then .running (.removing (c.enter .remove) last)
      else .returned (.ok ()), []⟩
  | .removing l last, m =>
    let e := c.step choice l m.container
    ⟨{ m with container := e.memory }, match e.status with
      | .running l => .running (.removing l last)
      | .returned (.ok (some v)) => .running (.countTaken v last)
      | .returned (.ok none) => .running (.look last)
      | .returned (.error panic) => .returned (.error panic), e.events⟩
  | .countTaken v last, m => ⟨{ m with taken := m.taken + 1 }, .running (.judge v last), []⟩
  | .judge v last, m =>
    let p := plan.producerOf v
    let before := last.getD p (-1)
    ⟨m, if before < v then .running (.look (last.set p v))
      else .returned (.error (.outOfOrder p v before)), []⟩

def algorithm (plan : Plan) (c : Container Memory L Choice) :
    Algorithm (Tally Memory) Role (Label L) Choice (Except Panic Unit) := ⟨enter plan, step plan c⟩

/-- Producers first, then as many consumers. -/
def crew (plan : Plan) (c : Container Memory L Choice) (m : Memory) :
    Crew (Tally Memory) (Label L) (Except Panic Unit) :=
  Crew.start (algorithm plan c) { container := m }
    ((List.range plan.producers.toNat).map (fun p => .producer (UInt64.ofNat p)) ++
      List.replicate plan.producers.toNat .consumer)

end SharedMemory.ProducerOrder
