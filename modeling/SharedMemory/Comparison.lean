import SharedMemory.Container

/-!
# A container beside a list, in one thread

Requests are served by the container and by a reference store side by side, and every removal is
compared. At the end the reference is drained, and the container has to be empty as well.
-/
namespace SharedMemory.Comparison

variable {Memory L Choice : Type}

/-- Enough steps for one call that nobody disturbs. -/
def patience : Nat := 64

/-- `none` if the call does not return. -/
def serve? (c : Container Memory L Choice) (choose : L → Memory → Choice) (r : Request) (m : Memory) :
    Memory × Option Reply :=
  let run := c.call choose patience r m
  (run.memory, run.status.answer?)

def requireEqual (label : Option String) (left right : Option Value) : Except Panic Unit :=
  if left = right then .ok ()
  else .error (.mismatch label (DebugText.ofOption left) (DebugText.ofOption right))

/-- One removal against what it should find. -/
def removal (c : Container Memory L Choice) (choose : L → Memory → Choice) (label : Option String)
    (wanted : Option Value) (m : Memory) : Memory × Option (Except Panic Unit) :=
  let (m, reply) := serve? c choose .remove m
  (m, reply.map fun reply => reply.bind fun found => requireEqual label found wanted)

def drain (c : Container Memory L Choice) (choose : L → Memory → Choice) :
    List Value → Memory → Memory × Option (Except Panic Unit)
  | [], m => removal c choose none none m
  | v :: left, m =>
    match removal c choose none (some v) m with
    | (m, some (.ok ())) => drain c choose left m
    | stopped => stopped

def run (c : Container Memory L Choice) (choose : L → Memory → Choice) (d : Discipline) :
    List Request → Store → Memory → Memory × Option (Except Panic Unit)
  | [], reference, m => drain c choose reference.toList m
  | .insert v :: rest, reference, m =>
    match serve? c choose (.insert v) m with
    | (m, some (.ok _)) => run c choose d rest (reference.insert d v) m
    | (m, reply) => (m, reply.map fun reply => reply.bind fun _ => .ok ())
  | .remove :: rest, reference, m =>
    let (wanted, reference) := reference.remove
    match removal c choose none wanted m with
    | (m, some (.ok ())) => run c choose d rest reference m
    | stopped => stopped

/-- A fixed course of coin flips: each inserts a value below a thousand or removes. -/
def coins (steps : Nat) : List Request :=
  let next (seed : UInt64) := seed * 6364136223846793005 + 1442695040888963407
  let rec go : Nat → UInt64 → List Request
    | 0, _ => []
    | n + 1, seed =>
      let flip := next seed
      let value := next flip
      (if flip >>> 63 = 0 then .insert ((value >>> 33) % 1000).toInt64 else .remove) :: go n value
  go steps 1

end SharedMemory.Comparison
