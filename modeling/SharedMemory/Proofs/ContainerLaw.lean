import Mathlib.Logic.Function.Basic
import SharedMemory.Container

/-!
# What a client may expect of a container

However many threads call a container at once, every call takes effect at one of its own steps, and by
their effects the calls are served one after another. `Container.Law` says so for one container, without
naming the threads' clients: they make any requests, in any order.
-/
namespace SharedMemory.Container

variable {Memory Label Choice : Type}

/-- One step of a call with the request `r`, while the container holds `values`. `fixed` is the reply of a
call that has taken effect and has still to return. A removal that has taken no value may say so, even if
one has been inserted since it looked. -/
inductive Outcome (d : Discipline) (fixed : Label → Option (Option Value)) (r : Request) (l : Label)
    (values : List Value) : Status Label Reply → List Value → Prop
  | goes (l' : Label) (same : fixed l' = fixed l) : Outcome d fixed r l values (.running l') values
  | fixes (l' : Label) (pending : fixed l = none) (settled : fixed l' = some (d.serve r values).1) :
      Outcome d fixed r l values (.running l') (d.serve r values).2
  | serves (pending : fixed l = none) :
      Outcome d fixed r l values (.returned (.ok (d.serve r values).1)) (d.serve r values).2
  | misses (pending : fixed l = none) (removal : r = .remove) :
      Outcome d fixed r l values (.returned (.ok none)) values
  | done (found : Option Value) (settled : fixed l = some found) :
      Outcome d fixed r l values (.returned (.ok found)) values

def callAfter (r : Request) : Status Label Reply → Option (Request × Label)
  | .running l => some (r, l)
  | .returned _ => none

/-- `Good` is an invariant of the memory and of the calls that the threads are in. -/
structure Law (d : Discipline) (c : Container Memory Label Choice) where
  contents : Memory → List Value
  fixed : Label → Option (Option Value)
  Good : (Nat → Option (Request × Label)) → Memory → Prop
  enter : ∀ {calls m i} (r : Request), Good calls m → calls i = none →
    fixed (c.enter r) = none ∧ Good (Function.update calls i (some (r, c.enter r))) m
  step : ∀ {calls m i r l} (choice : Choice), Good calls m → calls i = some (r, l) →
    Outcome d fixed r l (contents m) (c.step choice l m).status (contents (c.step choice l m).memory) ∧
      Good (Function.update calls i (callAfter r (c.step choice l m).status)) (c.step choice l m).memory

structure Law.Fresh {d : Discipline} {c : Container Memory Label Choice} (law : Law d c) (m : Memory) :
    Prop where
  good : law.Good (fun _ => none) m
  empty : law.contents m = []

/-- The container that serves at once. -/
def atomicLaw (d : Discipline) : Law d (atomic d) where
  contents := id
  fixed _ := none
  Good calls _ := ∀ i r l, calls i = some (r, l) → l = r
  enter {calls _ _} r good _ := by
    refine ⟨rfl, (Function.forall_update_iff calls fun _ call => ∀ r l, call = some (r, l) → l = r).mpr
      ⟨?_, fun j _ => good j⟩⟩
    rintro r' l ⟨⟩
    rfl
  step {calls m i r l} _ good here := by
    obtain rfl := good i r l here
    refine ⟨.serves rfl,
      (Function.forall_update_iff calls fun _ call => ∀ r l, call = some (r, l) → l = r).mpr
        ⟨?_, fun j _ => good j⟩⟩
    rintro r' l' ⟨⟩

theorem atomicLaw_fresh (d : Discipline) : (atomicLaw d).Fresh [] := ⟨nofun, rfl⟩

end SharedMemory.Container
