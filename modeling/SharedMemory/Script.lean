import SharedMemory.BarrierSession
import SharedMemory.ContainerSession
import SharedMemory.GuardSession
import SharedMemory.NodeSession
import SharedMemory.SideSession

/-!
# Scripts

A script makes objects and drives them step by step. A refused step changes nothing that later steps
can see, and a step on an object that could not be made is refused.
-/
namespace SharedMemory.Script

inductive Spec
  | treiber | michaelScott
  | lockedStack (kind : LockKind) | lockedQueue (kind : LockKind)
  | combining (d : Discipline) (config : Option LogConfig)
  | eliminatingTreiber (config : Option EliminationConfig)
  | eliminatingLocked (kind : LockKind) (config : Option EliminationConfig)
  | array (config : Option EliminationConfig)
  | guarded (kind : LockKind) (data : List Value)
  | nodes (locks pool : Nat)
  | sides
  | barrier (parties : UInt64)

inductive Object
  | container (s : ContainerSession.Session)
  | array (s : ArraySession.Session)
  | guarded (kind : LockKind) (s : GuardSession.Session kind)
  | nodes (s : NodeSession.Session)
  | sides (s : SideSession.Session)
  | barrier (s : BarrierSession.Session)

inductive Step
  | container (step : ContainerSession.Step)
  | array (step : ArraySession.Step)
  | guarded (step : GuardSession.Step)
  | nodes (step : NodeSession.Step)
  | sides (step : SideSession.Step)
  | barrier (step : BarrierSession.Step)

abbrev Made (α : Type) : Type := Except Refusal α × List Event

/-- A stack over an elimination array; only a configuration given to it is checked and reported. -/
def makeEliminating (now : Instant) (config : Option EliminationConfig)
    (make : EliminationConfig → Object) : Made Object :=
  match config with
  | none => (.ok (make {}), [])
  | some config =>
    match config.validate now with
    | .ok () => (.ok (make config), [.stackConfigured config.slots config.timeout.toMicros])
    | .error e => (.error (.error e), [])

/-- A container that keeps a log; without a configuration the default one is used unchecked. -/
def makeCombining (d : Discipline) (config : Option LogConfig) : Except Refusal Object :=
  match config with
  | none => .ok (.container (.combining d (.ofConfig {})))
  | some config =>
    match config.validate with
    | .ok () => .ok (.container (.combining d (.ofConfig config)))
    | .error e => .error (.error e)

def Spec.make (now : Instant) : Spec → Made Object
  | .treiber => (.ok (.container (.treiber {})), [])
  | .michaelScott => (.ok (.container (.michaelScott {})), [])
  | .lockedStack kind => (.ok (.container (.lockedStack kind ⟨LockedStore.empty kind, 0⟩)), [])
  | .lockedQueue kind => (.ok (.container (.lockedQueue kind (LockedStore.empty kind))), [])
  | .combining d config => (makeCombining d config, [])
  | .eliminatingTreiber config =>
    makeEliminating now config fun config =>
      .container (.eliminatingTreiber config ⟨⟨{}, 0⟩, .ofConfig config⟩)
  | .eliminatingLocked kind config =>
    match kind.attempt? with
    | none => (.error .badInput, [])
    | some entry =>
      makeEliminating now config fun config =>
        .container (.eliminatingLocked kind entry config
          ⟨⟨LockedStore.empty kind, 0⟩, .ofConfig config⟩)
  | .array config =>
    (match ArraySession.new (config.getD {}) now with
      | .ok s => .ok (.array s)
      | .error e => .error (.error e), [])
  | .guarded kind data => (.ok (.guarded kind (GuardSession.new kind data)), [])
  | .nodes locks pool => (.ok (.nodes (NodeSession.new locks pool)), [])
  | .sides => (.ok (.sides {}), [])
  | .barrier parties =>
    let (made, events) := BarrierSession.new parties
    (match made with
      | .ok s => .ok (.barrier s)
      | .error e => .error (.error e), events)

namespace Object

def perform (now : Instant) (o : Object) (step : Step) : Object × Response :=
  match o, step with
  | .container s, .container step => let (s, response) := s.perform now step; (.container s, response)
  | .array s, .array step => let (s, response) := s.perform now step; (.array s, response)
  | .guarded kind s, .guarded step => let (s, a) := s.perform step; (.guarded kind s, ⟨a, []⟩)
  | .nodes s, .nodes step => let (s, a) := s.perform step; (.nodes s, ⟨a, []⟩)
  | .sides s, .sides step => let (s, a) := s.perform step; (.sides s, ⟨a, []⟩)
  | .barrier s, .barrier step => let (s, a) := s.perform step; (.barrier s, ⟨a, []⟩)
  | o, _ => (o, ⟨.refused .unsupported, []⟩)

/-- An object that is gone refuses every step for that reason. -/
def refuse (o : Object) (r : Refusal) : Response :=
  match o with
  | .guarded _ s => ⟨.refused (if s.memory.isNone then .gone else r), []⟩
  | _ => ⟨.refused r, []⟩

end Object

def makeAll (now : Instant) (specs : List (Except Refusal Spec)) :
    Array (Option Object) × List Response :=
  let made := specs.map fun spec =>
    match spec with
    | .ok spec => spec.make now
    | .error r => (.error r, [])
  ((made.map fun m => m.1.toOption).toArray,
    made.map fun m => ⟨match m.1 with | .ok _ => .ok | .error r => .refused r, m.2⟩)

/-- A step names its object by its place; a step that cannot be read comes with the reason. -/
def performAll (now : Instant) :
    List (Nat × Except Refusal Step) → Array (Option Object) → List Response
  | [], _ => []
  | (on, step) :: rest, objects =>
    match objects[on]?, step with
    | none, _ => ⟨.refused .badInput, []⟩ :: performAll now rest objects
    | some none, _ => ⟨.refused .noObject, []⟩ :: performAll now rest objects
    | some (some o), .error r => o.refuse r :: performAll now rest objects
    | some (some o), .ok step =>
      let (o, response) := o.perform now step
      response :: performAll now rest (objects.setIfInBounds on (some o))

def run (now : Instant) (specs : List (Except Refusal Spec))
    (steps : List (Nat × Except Refusal Step)) : List Response × List Response :=
  let (objects, made) := makeAll now specs
  (made, performAll now steps objects)

end SharedMemory.Script
