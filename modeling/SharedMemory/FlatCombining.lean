import SharedMemory.Algorithm
import SharedMemory.Config
import SharedMemory.Store

/-!
# Flat combining

Every request reserves the next record of a log of fixed capacity and publishes itself there. The
thread that holds the mutex applies published records in log order to a private container, up to the
first record that is not published, and wakes the sleepers if it applied any. A thread whose record
lies behind such a gap sleeps; the owner of the gap combines next. Waking is counted in `signals`: a
sleeper remembers the count at which it fell asleep and may wake as soon as the count has changed,
or for no reason at all.
-/
namespace SharedMemory.FlatCombining

inductive RecordState | vacant | pending | doneSome | doneNone deriving DecidableEq

def RecordState.code : RecordState → Nat
  | .vacant => 0
  | .pending => 1
  | .doneSome => 2
  | .doneNone => 3

inductive Kind | insert | remove deriving DecidableEq

def Kind.code : Kind → Nat
  | .insert => 0
  | .remove => 1

structure Record where
  state : RecordState := .vacant
  kind : Kind := .insert
  value : Value := 0
  result : Value := 0
  deriving DecidableEq

namespace Record

def request (r : Record) : Request :=
  match r.kind with
  | .insert => .insert r.value
  | .remove => .remove

/-- The result is written only if there is one. -/
def complete (r : Record) : Option Value → Record
  | some v => { r with state := .doneSome, result := v }
  | none => { r with state := .doneNone }

/-- `none` while the request has not been applied. -/
def outcome? (r : Record) : Option (Option Value) :=
  match r.state with
  | .doneSome => some (some r.result)
  | .doneNone => some none
  | _ => none

def isDone (r : Record) : Bool := r.outcome?.isSome

end Record

/-- What a record publishes for a request. A removal publishes the value zero. -/
def kindOf : Request → Kind
  | .insert _ => .insert
  | .remove => .remove

def valueOf : Request → Value
  | .insert v => v
  | .remove => 0

/-- `next` counts reservations, those beyond the capacity included. -/
structure Memory where
  log : Array Record
  next : UInt64 := 0
  mutex : Bool := false
  store : Store := {}
  watermark : Nat := 0
  signals : Nat := 0
  deriving DecidableEq

namespace Memory

def ofConfig (config : LogConfig) : Memory := { log := Array.replicate config.capacity.toNat {} }

def record (m : Memory) (i : Nat) : Record := m.log.getD i {}

def modifyRecord (m : Memory) (i : Nat) (f : Record → Record) : Memory :=
  { m with log := m.log.modify i f }

def capacity (m : Memory) : UInt64 := UInt64.ofNat m.log.size

/-- Requests the log can still take. -/
def remaining (m : Memory) : Nat := m.log.size - m.next.toNat

/-- Whether the record at the watermark is published; beyond the log's end none is. -/
def ready (m : Memory) : Bool := (m.record m.watermark).state = .pending

/-- Applies the record at the watermark. -/
def applyNext (d : Discipline) (m : Memory) : Memory :=
  let (found, store) := m.store.serve d (m.record m.watermark).request
  { m with log := m.log.modify m.watermark (·.complete found), store,
           watermark := m.watermark + 1 }

/-- At most `n` further records. -/
def applyUpTo (d : Discipline) : Nat → Memory → Memory
  | 0, m => m
  | n + 1, m => if m.ready then applyUpTo d n (m.applyNext d) else m

/-- A whole pass. Every record is applied at most once, so the log's length bounds it. -/
def pass (d : Discipline) (m : Memory) : Memory × List Event :=
  let after := m.applyUpTo d (m.log.size - m.watermark)
  if after.watermark = m.watermark then (after, [])
  else ({ after with signals := after.signals + 1 }, [.passApplied m.watermark after.watermark])

end Memory

inductive Call | submit (r : Request) | isEmpty deriving DecidableEq

inductive Label
  | reserve (r : Request)
  | writeKind (i : Nat) (r : Request)
  | writeValue (i : Nat) (r : Request)
  | publish (i : Nat)
  | lock (i : Nat)
  | check (i : Nat)
  | combine (i start : Nat)
  | recheck (i : Nat)
  | asleep (i signals : Nat)
  | unlock (result : Option Value)
  | lookLock | look | lookUnlock (empty : Bool)
  deriving DecidableEq

inductive Answer | served (result : Except Error (Option Value)) | emptiness (empty : Bool)

/-- The choice says whether a sleeper wakes for no reason. -/
def step (d : Discipline) (spurious : Bool) : Label → Memory → Effect Memory Label Answer
  | .reserve r, m =>
    let i := m.next.toNat
    let reserved := { m with next := m.next + 1 }
    if i < m.log.size then ⟨reserved, .running (.writeKind i r), []⟩
    else
      ⟨reserved, .returned (.served (.error (.logFull m.capacity))), [.logExhausted m.capacity]⟩
  | .writeKind i r, m =>
    ⟨m.modifyRecord i ({ · with kind := kindOf r }), .running (.writeValue i r), []⟩
  | .writeValue i r, m =>
    ⟨m.modifyRecord i ({ · with value := valueOf r }), .running (.publish i), []⟩
  | .publish i, m => ⟨m.modifyRecord i ({ · with state := .pending }), .running (.lock i), []⟩
  | .lock i, m =>
    if m.mutex then ⟨m, .running (.lock i), []⟩
    else ⟨{ m with mutex := true }, .running (.check i), []⟩
  | .check i, m =>
    ⟨m, .running (match (m.record i).outcome? with
      | some result => .unlock result
      | none => .combine i m.watermark), []⟩
  | .combine i start, m =>
    if m.ready then ⟨m.applyNext d, .running (.combine i start), []⟩
    else if m.watermark = start then ⟨m, .running (.recheck i), []⟩
    else
      ⟨{ m with signals := m.signals + 1 }, .running (.recheck i), [.passApplied start m.watermark]⟩
  | .recheck i, m =>
    match (m.record i).outcome? with
    | some result => ⟨m, .running (.unlock result), []⟩
    | none => ⟨{ m with mutex := false }, .running (.asleep i m.signals), []⟩
  | .asleep i signals, m =>
    ⟨m, .running (if spurious ∨ m.signals ≠ signals then .lock i else .asleep i signals), []⟩
  | .unlock result, m => ⟨{ m with mutex := false }, .returned (.served (.ok result)), []⟩
  | .lookLock, m =>
    if m.mutex then ⟨m, .running .lookLock, []⟩
    else ⟨{ m with mutex := true }, .running .look, []⟩
  | .look, m => ⟨m, .running (.lookUnlock m.store.isEmpty), []⟩
  | .lookUnlock empty, m => ⟨{ m with mutex := false }, .returned (.emptiness empty), []⟩

def algorithm (d : Discipline) : Algorithm Memory Call Label Bool Answer where
  enter
    | .submit r => .reserve r
    | .isEmpty => .lookLock
  step := step d

end SharedMemory.FlatCombining
