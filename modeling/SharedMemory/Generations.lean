import SharedMemory.Barrier
import SharedMemory.Interleaving

/-!
# Participants that meet at a barrier again and again

Each participant begins its `g`-th wait by counting itself as arrived, and on return notes whether it
led the generation and whether somebody was still missing.
-/
namespace SharedMemory.Generations

variable {Memory Label : Type}

structure Participant where
  waits : Nat
  token : SenseToken := {}

/-- `early` counts the waits that returned before all parties had begun theirs. -/
structure Tally (Memory : Type) where
  barrier : Memory
  arrived : Nat := 0
  leaders : List Nat
  early : Nat := 0

inductive Position (Label : Type)
  | begin (generation : Nat) (p : Participant)
  | waiting (generation : Nat) (p : Participant) (l : Label)
  | check (generation : Nat) (p : Participant) (led : Bool)

def step (barrier : Algorithm Memory SenseToken Label Unit Bool) (parties : Nat) :
    Position Label → Tally Memory → Effect (Tally Memory) (Position Label) Unit
  | .begin g p, m =>
    if g < p.waits then
      ⟨{ m with arrived := m.arrived + 1 }, .running (.waiting g p (barrier.enter p.token)), []⟩
    else ⟨m, .returned (), []⟩
  | .waiting g p l, m =>
    let e := barrier.step () l m.barrier
    ⟨{ m with barrier := e.memory }, match e.status with
      | .running l => .running (.waiting g p l)
      | .returned led => .running (.check g { p with token := p.token.flip } led), e.events⟩
  | .check g p led, m =>
    ⟨{ m with
        leaders := if led then m.leaders.modify g (· + 1) else m.leaders
        early := if m.arrived < (g + 1) * parties then m.early + 1 else m.early },
      .running (.begin (g + 1) p), []⟩

def algorithm (barrier : Algorithm Memory SenseToken Label Unit Bool) (parties : Nat) :
    Algorithm (Tally Memory) Participant (Position Label) Unit Unit where
  enter p := .begin 0 p
  step _ := step barrier parties

/-- What `parties` participants with fresh tokens note when they step in rounds. -/
def tally (barrier : Algorithm Memory SenseToken Label Unit Bool) (m : Memory)
    (parties generations : Nat) : Tally Memory :=
  let alg := algorithm barrier parties
  (Crew.rounds alg (fun _ _ => ()) (8 * generations + 8)
    (Crew.start alg { barrier := m, leaders := List.replicate generations 0 }
      (List.replicate parties { waits := generations }))).memory

end SharedMemory.Generations
