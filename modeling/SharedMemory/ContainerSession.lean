import SharedMemory.ArraySession
import SharedMemory.Program
import SharedMemory.Workload

/-!
# A stack or queue driven from one thread

Every step runs to its end before the next begins. Steps that bring in other threads, such as pushers
and poppers that can only meet in the elimination array, run those threads in rounds until all of
them have returned.
-/
namespace SharedMemory.ContainerSession

inductive Step
  | insert (v : Value) | remove | removeOrMark | insertAll (vs : List Value) | removeMany (count : Nat)
  | isEmpty | size | capacity | remaining | log
  | attemptInsert (v : Value) | attemptRemove | itemValue (v : Value) | disturb (refusals : Int)
  | reset | freeSlots | config | report
  | exchangePush (v : Value) | exchangePop | meet (v : Value)
  | pair (vs : List Value) | pairMany (pairs : Nat) (vs : List Value)

abbrev Eliminating (Inner : Type) : Type := EliminationStack.Memory (Disturbed Inner)

/-- A lock that can be attempted comes with the label at which an attempt begins. -/
inductive Session
  | treiber (m : TreiberStack.Memory)
  | lockedStack (kind : LockKind) (m : Disturbed (LockedStore.Memory kind))
  | lockedQueue (kind : LockKind) (m : LockedStore.Memory kind)
  | michaelScott (m : MichaelScottQueue.Memory)
  | combining (d : Discipline) (m : FlatCombining.Memory)
  | eliminatingTreiber (config : EliminationConfig) (m : Eliminating TreiberStack.Memory)
  | eliminatingLocked (kind : LockKind) (entry : kind.Label) (config : EliminationConfig)
      (m : Eliminating (LockedStore.Memory kind))

/-- Logs beyond this size are not listed. -/
def listedCapacity : Nat := 2000

/-! ## Single attempts -/

section
variable {Memory Item L : Type} (stack : AttemptStack Memory Item L)

def attemptCall (c : AttemptStack.Call Item) (m : Memory) :
    Memory × Option (AttemptStack.Answer Item) :=
  let r := stack.retrying.call (fun _ _ => ()) Comparison.patience c m
  (r.memory, r.status.answer?)

def attemptInsert (v : Value) (m : Memory) : Memory × Answer :=
  match attemptCall stack (.prepare v) m with
  | (m, some (.prepared item)) =>
    match attemptCall stack (.attemptPush item) m with
    | (m, some .pushed) => (m, .ok)
    | (m, some (.handedBack item)) => (stack.discard item m, .handedBack (stack.value item))
    | (m, _) => (m, .refused .wouldBlock)
  | (m, _) => (m, .refused .wouldBlock)

def attemptRemove (m : Memory) : Memory × Answer :=
  match attemptCall stack .attemptPop m with
  | (m, some (.popped found)) => (m, .found found)
  | (m, some .interfered) => (m, .interfered)
  | (m, _) => (m, .refused .wouldBlock)

def itemValue (v : Value) (m : Memory) : Memory × Answer :=
  match attemptCall stack (.prepare v) m with
  | (m, some (.prepared item)) => (stack.discard item m, .value (stack.value item))
  | (m, _) => (m, .refused .wouldBlock)

def look (m : Memory) : Memory × Answer :=
  match attemptCall stack .isEmpty m with
  | (m, some (.emptiness empty)) => (m, .flag empty)
  | (m, _) => (m, .refused .wouldBlock)

end

/-! ## Elimination stacks -/

section
variable {Inner Item L : Type} (stack : AttemptStack Inner Item L)

/-- Each refused attempt costs one visit to the array. -/
def visits (m : Eliminating Inner) : Nat := m.inner.refusals.toNat + 2

def serveEliminating (r : Request) (m : Eliminating Inner) :
    Eliminating Inner × Option Reply × List Event :=
  let run := (Container.elimination stack.disturbed).call
    (EliminationStack.choose EliminationArray.impatient) (visits m * Comparison.patience) r m
  (run.memory, run.status.answer?, run.trace.reverse)

def patientChoice (l : ProgramLabel Request (EliminationStack.Label Item (DisturbedLabel L)) Reply)
    (m : Eliminating Inner) : EliminationArray.Choice :=
  match l.inside with
  | some l => EliminationStack.choose EliminationArray.patient l m
  | none => ⟨0, false⟩

/-- Pushers of the same values and as many poppers, while no attempt on the inner stack succeeds. -/
def pairUp (pairs : Nat) (vs : List Value) (m : Eliminating Inner) :
    Eliminating Inner × Option (List (List (Option Value))) × List Event :=
  let alg := (Container.elimination stack.disturbed).program
  let refusing := { m with inner := { m.inner with refusals := -1 } }
  let crew := (Crew.start alg refusing (List.replicate pairs (vs.map .insert) ++
    List.replicate pairs (vs.map fun _ => .remove))).rounds alg patientChoice
      (Comparison.patience * (pairs * vs.length + 1))
  ({ crew.memory with inner := { crew.memory.inner with refusals := m.inner.refusals } },
    crew.answers?.map fun answers =>
      (answers.drop pairs).map (·.map fun reply => (reply.toOption).join),
    crew.trace.reverse)

def onArray (f : EliminationArray.Memory → EliminationArray.Memory × Response)
    (m : Eliminating Inner) : Eliminating Inner × Response :=
  let (array, response) := f m.array
  ({ m with array }, response)

/-- The steps that only elimination stacks have. -/
def performEliminating (config : EliminationConfig) (now : Instant) (step : Step)
    (m : Eliminating Inner) : Eliminating Inner × Response :=
  match step with
  | .disturb refusals => ({ m with inner := { m.inner with refusals } }, ⟨.ok, []⟩)
  | .reset => onArray (fun a => (a.reset, ⟨.ok, []⟩)) m
  | .freeSlots => (m, ⟨.number m.array.freeSlots, []⟩)
  | .config => (m, ⟨.config config, []⟩)
  | .report => (m, ⟨.slots (EliminationArray.report m.array), []⟩)
  | .exchangePush v => onArray (EliminationArray.exchange config now (.push v)) m
  | .exchangePop => onArray (EliminationArray.exchange config now .pop) m
  | .meet v => onArray (EliminationArray.meet v) m
  | .pair vs =>
    let (m, popped, events) := pairUp stack 1 vs m
    (m, ⟨(popped.map fun popped => Answer.founds popped.flatten).getD (.refused .wouldBlock), events⟩)
  | .pairMany pairs vs =>
    let (m, popped, events) := pairUp stack pairs vs m
    (m, ⟨(popped.map fun popped => Answer.values (Value.sort (popped.flatten.filterMap id))).getD
      (.refused .wouldBlock), events⟩)
  | _ => (m, ⟨.refused .unsupported, []⟩)

end

/-! ## Locked stores -/

def callLocked (kind : LockKind) (d : Discipline) (c : LockedStore.Call)
    (m : LockedStore.Memory kind) : LockedStore.Memory kind × Answer :=
  let r := (LockedStore.algorithm kind d).call (fun _ _ => ()) Comparison.patience c m
  (r.memory, match r.status.answer?.join with
    | some (.size n) => .number n
    | some (.emptiness empty) => .flag empty
    | some (.found v) => .found v
    | none => .refused .wouldBlock)

def performLockedStack (kind : LockKind) (m : Disturbed (LockedStore.Memory kind)) (step : Step) :
    Disturbed (LockedStore.Memory kind) × Answer :=
  match step, kind.attempt? with
  | .isEmpty, _ =>
    let (inner, a) := callLocked kind .lifo .isEmpty m.memory
    ({ m with memory := inner }, a)
  | .size, _ =>
    let (inner, a) := callLocked kind .lifo .size m.memory
    ({ m with memory := inner }, a)
  | .attemptInsert v, some entry => attemptInsert (LockedStore.attempts kind entry).disturbed v m
  | .attemptRemove, some entry => attemptRemove (LockedStore.attempts kind entry).disturbed m
  | .itemValue v, some entry => itemValue (LockedStore.attempts kind entry).disturbed v m
  | .disturb refusals, some _ => ({ m with refusals }, .ok)
  | _, _ => (m, .refused .unsupported)

def performLockedQueue (kind : LockKind) (m : LockedStore.Memory kind) (step : Step) :
    LockedStore.Memory kind × Answer :=
  match step with
  | .isEmpty => callLocked kind .fifo .isEmpty m
  | .size => callLocked kind .fifo .size m
  | _ => (m, .refused .unsupported)

/-! ## Lock-free containers -/

def performTreiber (m : TreiberStack.Memory) : Step → TreiberStack.Memory × Answer
  | .isEmpty => look TreiberStack.attempts m
  | .attemptInsert v => attemptInsert TreiberStack.attempts v m
  | .attemptRemove => attemptRemove TreiberStack.attempts m
  | .itemValue v => itemValue TreiberStack.attempts v m
  | _ => (m, .refused .unsupported)

def performMichaelScott (m : MichaelScottQueue.Memory) : Step → MichaelScottQueue.Memory × Answer
  | .isEmpty =>
    let r := MichaelScottQueue.algorithm.call (fun _ _ => ()) Comparison.patience .isEmpty m
    (r.memory, match r.status with
      | .returned (.emptiness empty) => .flag empty
      | _ => .refused .wouldBlock)
  | _ => (m, .refused .unsupported)

/-! ## Flat combining -/

def callCombining (d : Discipline) (c : FlatCombining.Call) (m : FlatCombining.Memory)
    (served : Option Value → Answer) : FlatCombining.Memory × Response :=
  let r := (FlatCombining.algorithm d).call (fun _ _ => false) Comparison.patience c m
  (r.memory, ⟨.ofReturn (fun
    | .served (.ok found) => served found
    | .served (.error e) => .refused (.error e)
    | .emptiness empty => .flag empty) r.status, r.trace.reverse⟩)

def logReport (d : Discipline) (m : FlatCombining.Memory) : LogReport where
  next := m.next
  records := m.log.toList.take m.next.toNat
  watermark := m.watermark
  container := m.store.inOrder d

def performCombining (d : Discipline) (m : FlatCombining.Memory) :
    Step → FlatCombining.Memory × Response
  | .isEmpty => callCombining d .isEmpty m .found
  | .attemptInsert v => callCombining d (.submit (.insert v)) m fun _ => .ok
  | .attemptRemove => callCombining d (.submit .remove) m .found
  | .capacity => (m, ⟨.number m.capacity.toNat, []⟩)
  | .remaining => (m, ⟨.number m.remaining, []⟩)
  | .log =>
    (m, ⟨if m.log.size ≤ listedCapacity then .log (logReport d m) else .refused .unsupported, []⟩)
  | _ => (m, ⟨.refused .unsupported, []⟩)

/-! ## All containers -/

/-- One request, served by a container whose threads make the choice `idle`. -/
def serveBy {M L C : Type} (c : Container M L C) (idle : C) (r : Request) (m : M) :
    M × Option Reply × List Event :=
  let run := c.call (fun _ _ => idle) Comparison.patience r m
  (run.memory, run.status.answer?, run.trace.reverse)

namespace Session

def discipline : Session → Discipline
  | .treiber _ | .lockedStack .. | .eliminatingTreiber .. | .eliminatingLocked .. => .lifo
  | .lockedQueue .. | .michaelScott _ => .fifo
  | .combining d _ => d

def serve (r : Request) : Session → Session × Option Reply × List Event
  | .treiber m => let (m, out) := serveBy Container.treiberStack () r m; (.treiber m, out)
  | .lockedStack kind m =>
    let (inner, out) := serveBy (Container.locked kind .lifo) () r m.memory
    (.lockedStack kind { m with memory := inner }, out)
  | .lockedQueue kind m =>
    let (m, out) := serveBy (Container.locked kind .fifo) () r m
    (.lockedQueue kind m, out)
  | .michaelScott m => let (m, out) := serveBy Container.michaelScottQueue () r m; (.michaelScott m, out)
  | .combining d m => let (m, out) := serveBy (Container.combining d) false r m; (.combining d m, out)
  | .eliminatingTreiber config m =>
    let (m, out) := serveEliminating TreiberStack.attempts r m
    (.eliminatingTreiber config m, out)
  | .eliminatingLocked kind entry config m =>
    let (m, out) := serveEliminating (LockedStore.attempts kind entry) r m
    (.eliminatingLocked kind entry config m, out)

def answer (f : Option Value → Answer) : Option Reply → Answer
  | some (.ok found) => f found
  | some (.error p) => .refused (.panic p)
  | none => .refused .wouldBlock

/-- Stops at the first value that is not taken. The events are listed newest first. -/
def insertAll : List Value → Session → List Event → Session × Response
  | [], s, trace => (s, ⟨.ok, trace.reverse⟩)
  | v :: vs, s, trace =>
    match s.serve (.insert v) with
    | (s, some (.ok _), events) => insertAll vs s (events.reverse ++ trace)
    | (s, reply, events) => (s, ⟨answer .found reply, trace.reverse ++ events⟩)

/-- Stops at the first removal that panics. What was found is listed newest first. -/
def removeMany : Nat → Session → List (Option Value) → List Event → Session × Response
  | 0, s, found, trace => (s, ⟨.founds found.reverse, trace.reverse⟩)
  | n + 1, s, found, trace =>
    match s.serve .remove with
    | (s, some (.ok v), events) => removeMany n s (v :: found) (events.reverse ++ trace)
    | (s, reply, events) => (s, ⟨answer .found reply, trace.reverse ++ events⟩)

def performOwn (now : Instant) (step : Step) : Session → Session × Response
  | .treiber m => let (m, a) := performTreiber m step; (.treiber m, ⟨a, []⟩)
  | .lockedStack kind m => let (m, a) := performLockedStack kind m step; (.lockedStack kind m, ⟨a, []⟩)
  | .lockedQueue kind m => let (m, a) := performLockedQueue kind m step; (.lockedQueue kind m, ⟨a, []⟩)
  | .michaelScott m => let (m, a) := performMichaelScott m step; (.michaelScott m, ⟨a, []⟩)
  | .combining d m => let (m, response) := performCombining d m step; (.combining d m, response)
  | .eliminatingTreiber config m =>
    let (m, response) := performEliminating TreiberStack.attempts config now step m
    (.eliminatingTreiber config m, response)
  | .eliminatingLocked kind entry config m =>
    let (m, response) := performEliminating (LockedStore.attempts kind entry) config now step m
    (.eliminatingLocked kind entry config m, response)

def perform (now : Instant) (s : Session) : Step → Session × Response
  | .insert v =>
    let (s, reply, events) := s.serve (.insert v)
    (s, ⟨answer (fun _ => .ok) reply, events⟩)
  | .remove =>
    let (s, reply, events) := s.serve .remove
    (s, ⟨answer .found reply, events⟩)
  | .removeOrMark =>
    let (s, reply, events) := s.serve .remove
    (s, ⟨answer (fun found => .value (Value.orMark found)) reply, events⟩)
  | .insertAll vs => s.insertAll vs []
  | .removeMany count => s.removeMany count [] []
  | step => s.performOwn now step

def work (plan : Workload.Plan) : Session → Session × Workload.Result
  | .treiber m =>
    let (m, r) := Workload.run Container.treiberStack (fun _ _ => ()) () .lifo m plan
    (.treiber m, r)
  | .lockedStack kind m =>
    let (inner, r) := Workload.run (Container.locked kind .lifo) (fun _ _ => ()) () .lifo m.memory plan
    (.lockedStack kind { m with memory := inner }, r)
  | .lockedQueue kind m =>
    let (m, r) := Workload.run (Container.locked kind .fifo) (fun _ _ => ()) () .fifo m plan
    (.lockedQueue kind m, r)
  | .michaelScott m =>
    let (m, r) := Workload.run Container.michaelScottQueue (fun _ _ => ()) () .fifo m plan
    (.michaelScott m, r)
  | .combining d m =>
    let (m, r) := Workload.run (Container.combining d) (fun _ _ => false) false d m plan
    (.combining d m, r)
  | .eliminatingTreiber config m =>
    let (m, r) := Workload.run (Container.elimination TreiberStack.attempts.disturbed)
      (EliminationStack.choose EliminationArray.patient) ⟨0, false⟩ .lifo m plan
    (.eliminatingTreiber config m, r)
  | .eliminatingLocked kind entry config m =>
    let (m, r) := Workload.run (Container.elimination (LockedStore.attempts kind entry).disturbed)
      (EliminationStack.choose EliminationArray.patient) ⟨0, false⟩ .lifo m plan
    (.eliminatingLocked kind entry config m, r)

end Session

/-- How a workload left a log: `done` counts the records that have been applied. -/
structure LogSummary where
  next : UInt64
  watermark : Nat
  left : Nat
  done : Nat

structure WorkReport where
  result : Except Refusal (Option Observation)
  conserved : Option (Except Panic Unit)
  log : Option LogSummary

def logSummary (m : FlatCombining.Memory) : LogSummary where
  next := m.next
  watermark := m.watermark
  left := m.store.size
  done := m.log.countP FlatCombining.Record.isDone

/-- The course of a sequential workload is left to chance, so its log is not reported. -/
def Session.logSummary? (plan : Workload.Plan) : Session → Option LogSummary
  | .combining _ m =>
    match plan with
    | .sequential _ => none
    | _ => if m.log.size ≤ listedCapacity then some (logSummary m) else none
  | _ => none

def resultOf : Workload.Result → Except Refusal (Option Observation)
  | none => .error .wouldBlock
  | some (.error p) => .error (.panic p)
  | some (.ok o) => .ok o

/-- The order of producers is checked on queues only. -/
def Session.carryOut (s : Session) (plan : Workload.Plan) :
    Session × Except Refusal (Option Observation) :=
  match plan, s.discipline with
  | .producerOrder .., .lifo => (s, .error .unsupported)
  | _, _ => let (s, r) := s.work plan; (s, resultOf r)

def conservedBy (plan : Workload.Plan) :
    Except Refusal (Option Observation) → Option (Except Panic Unit)
  | .ok (some o) =>
    plan.conserves?.map fun (pairs, values) => o.checkConserved (UInt64.ofNat pairs) values
  | _ => none

/-- The preloaded values are inserted first; a plan begins only if all of them are. -/
def Session.workReport (s : Session) (preload : List Value) (plan : Workload.Plan) : WorkReport :=
  let (s, result) : Session × Except Refusal (Option Observation) :=
    match s.insertAll preload [] with
    | (s, ⟨.refused r, _⟩) => (s, .error r)
    | (s, _) => s.carryOut plan
  ⟨result, conservedBy plan result, s.logSummary? plan⟩

end SharedMemory.ContainerSession
