import SharedMemory.EliminationStack
import SharedMemory.FlatCombining
import SharedMemory.LockedStore
import SharedMemory.MichaelScottQueue
import SharedMemory.TreiberStack

/-!
# Containers as their clients use them

A client inserts and removes and does not expect failure, so whatever goes wrong inside a container
is a panic in the client's thread. The atomic container serves a request in one step; it is what the
others are compared with.
-/
namespace SharedMemory

abbrev Reply := Except Panic (Option Value)

abbrev Container (Memory Label Choice : Type) := Algorithm Memory Request Label Choice Reply

namespace Container

def atomic (d : Discipline) : Container (List Value) Request Unit where
  enter := id
  step _ r values := let (found, values) := d.serve r values; ⟨values, .returned (.ok found), []⟩

def treiberStack :
    Container TreiberStack.Memory (AttemptStack.Position TreiberStack.Item TreiberStack.Label) Unit :=
  TreiberStack.attempts.retrying.via
    (fun | .insert v => .push v | .remove => .pop)
    (fun | .popped found => .ok found | _ => .ok none)

def locked (kind : LockKind) (d : Discipline) :
    Container (LockedStore.Memory kind)
      (SectionLabel kind.Label kind.Token Store LockedStore.Answer) Unit :=
  (LockedStore.algorithm kind d).via .request (fun | some (.found v) => .ok v | _ => .ok none)

def michaelScottQueue : Container MichaelScottQueue.Memory MichaelScottQueue.Label Unit :=
  MichaelScottQueue.algorithm.via
    (fun | .insert v => .enqueue v | .remove => .dequeue)
    (fun | .dequeued found => .ok found | .crashed => .error .nullNode | _ => .ok none)

def elimination {Inner Item L : Type} (stack : AttemptStack Inner Item L) :
    Container (EliminationStack.Memory Inner) (EliminationStack.Label Item L)
      EliminationArray.Choice :=
  (EliminationStack.algorithm stack).via id
    (fun | .found v => .ok v | .broken word expected => .error (.wrongWord word expected))

def combining (d : Discipline) : Container FlatCombining.Memory FlatCombining.Label Bool :=
  (FlatCombining.algorithm d).via .submit
    (fun | .served (.ok v) => .ok v | .served (.error e) => .error (.error e) | _ => .ok none)

end Container

end SharedMemory
