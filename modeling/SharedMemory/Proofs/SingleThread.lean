import SharedMemory.Script
import SharedMemory.Proofs.SoloAttempts
import SharedMemory.Proofs.SoloContainers

/-!
# A container that one thread uses is a list

Whatever a container is built of, a thread that has it to itself gets the answers of a list. Each kind
has its own invariant between calls; `Rests` names it, each step keeps it, and a run follows by
induction on its steps. A log is filled in order, one record and one pass a request, and an elimination
array stays as it was made. Any lock will do that a thread can take and give back while it is alone.
-/
namespace SharedMemory.ContainerSession

open FlatCombining (Record finished)

/-- What a thread asks of a container. -/
inductive Act | insert (v : Value) | remove | removeOrMark | isEmpty | reset
  deriving DecidableEq

namespace Act

def step : Act → Step
  | .insert v => .insert v
  | .remove => .remove
  | .removeOrMark => .removeOrMark
  | .isEmpty => .isEmpty
  | .reset => .reset

def request? : Act → Option Request
  | .insert v => some (.insert v)
  | .remove | .removeOrMark => some .remove
  | .isEmpty | .reset => none

end Act

/-- A list in the place of a container, with a record of each request it has served. -/
structure Ledger where
  values : List Value := []
  records : List Record := []

namespace Ledger

def serve (d : Discipline) (l : Ledger) (r : Request) : Ledger :=
  ⟨(d.serve r l.values).2, l.records ++ [finished r (d.serve r l.values).1]⟩

def after (d : Discipline) (l : Ledger) (act : Act) : Ledger := act.request?.elim l (l.serve d)

def answer (l : Ledger) : Act → Answer
  | .insert _ | .reset => .ok
  | .remove => .found (Discipline.remove l.values).1
  | .removeOrMark => .value (Value.orMark (Discipline.remove l.values).1)
  | .isEmpty => .flag l.values.isEmpty

/-- The pass that a log tells of when a request takes its next record. -/
def told (logs : Bool) (l : Ledger) (act : Act) : List Event :=
  if logs ∧ act.request?.isSome then [.passApplied l.records.length (l.records.length + 1)] else []

def answers (d : Discipline) : Ledger → List Act → List Answer
  | _, [] => []
  | l, act :: acts => l.answer act :: answers d (l.after d act) acts

def allTold (logs : Bool) (d : Discipline) : Ledger → List Act → List (List Event)
  | _, [] => []
  | l, act :: acts => l.told logs act :: allTold logs d (l.after d act) acts

def afterAll (d : Discipline) (l : Ledger) (acts : List Act) : Ledger := acts.foldl (after d) l

end Ledger

def requests (acts : List Act) : Nat := (acts.filterMap Act.request?).length

theorem requests_cons (act : Act) (acts : List Act) :
    requests (act :: acts) = act.request?.toList.length + requests acts := by
  cases h : act.request? <;> simp [requests, h, Nat.add_comm]

namespace Ledger

theorem length_records_after (d : Discipline) (l : Ledger) (act : Act) :
    (l.after d act).records.length = l.records.length + act.request?.toList.length := by
  cases h : act.request? <;> simp [after, h, serve]

theorem length_records_afterAll (d : Discipline) (l : Ledger) (acts : List Act) :
    (l.afterAll d acts).records.length = l.records.length + requests acts := by
  induction acts generalizing l with
  | nil => rfl
  | cons act acts ih =>
    rw [afterAll, List.foldl_cons, ← afterAll, ih, length_records_after, requests_cons, Nat.add_assoc]

end Ledger

namespace Session

def log? : Session → Option (List Record)
  | .combining _ m => some m.log.toList
  | _ => none

def array? : Session → Option EliminationArray.Memory
  | .eliminatingTreiber _ m | .eliminatingLocked _ _ _ m => some m.array
  | _ => none

/-- Elimination stacks cannot be asked whether they are empty, and only they can be reset. -/
def offers (s : Session) : Act → Bool
  | .isEmpty => s.array?.isNone
  | .reset => s.array?.isSome
  | .insert _ | .remove | .removeOrMark => true

/-- All steps in order, each answered before the next. -/
def performAll (now : Instant) : List Step → Session → Session × List Response
  | [], s => (s, [])
  | step :: steps, s =>
    let (s, response) := s.perform now step
    let (s, responses) := performAll now steps s
    (s, response :: responses)

/-- What a container keeps through all that its thread does. -/
structure Alike (s s' : Session) : Prop where
  discipline : s'.discipline = s.discipline
  array : s'.array? = s.array?
  capacity : s'.log?.map List.length = s.log?.map List.length

theorem Alike.trans {s s' s'' : Session} (h : Alike s s') (h' : Alike s' s'') : Alike s s'' :=
  ⟨h'.discipline.trans h.discipline, h'.array.trans h.array, h'.capacity.trans h.capacity⟩

theorem Alike.logs {s s' : Session} (h : Alike s s') : s'.log?.isSome = s.log?.isSome := by
  simpa using congrArg Option.isSome h.capacity

theorem Alike.log_length {s s' : Session} (h : Alike s s') {log : List Record} (logged : log ∈ s'.log?) :
    ∃ log₀ ∈ s.log?, log.length = log₀.length := by
  have same := h.capacity
  rw [Option.mem_def.mp logged, Option.map_some] at same
  obtain ⟨log₀, logged₀, length⟩ := Option.map_eq_some_iff.mp same.symm
  exact ⟨log₀, logged₀, length.symm⟩

theorem Alike.offers {s s' : Session} (h : Alike s s') {act : Act} : s'.offers act = s.offers act := by
  cases act <;> simp [Session.offers, h.array]

end Session

open Session (Alike)

/-- Nobody is at the container, which holds what the list holds. No slot of an array has been used. -/
inductive Rests : Session → Ledger → Prop
  | treiber {m : TreiberStack.Memory} {l : Ledger} (h : TreiberStack.Rests m l.values) :
      Rests (.treiber m) l
  | lockedStack {kind : LockKind} {m : LockedStore.Memory kind} {l : Ledger}
      (h : LockedStore.Rests kind.Idle m l.values) : Rests (.lockedStack kind ⟨m, 0⟩) l
  | lockedQueue {kind : LockKind} {m : LockedStore.Memory kind} {l : Ledger}
      (h : LockedStore.Rests kind.Idle m l.values) : Rests (.lockedQueue kind m) l
  | michaelScott {m : MichaelScottQueue.Memory} {l : Ledger} (h : MichaelScottQueue.Rests m l.values) :
      Rests (.michaelScott m) l
  | combining {d : Discipline} {m : FlatCombining.Memory} {l : Ledger}
      (h : FlatCombining.Rests m l.values l.records) (small : m.log.size < 2 ^ 64) :
      Rests (.combining d m) l
  | eliminatingTreiber {config : EliminationConfig} {m : TreiberStack.Memory} {l : Ledger}
      (h : TreiberStack.Rests m l.values) :
      Rests (.eliminatingTreiber config ⟨⟨m, 0⟩, .ofConfig config⟩) l
  | eliminatingLocked {kind : LockKind} {entry : kind.Label} {config : EliminationConfig}
      {m : LockedStore.Memory kind} {l : Ledger} (here : kind.attempt? = some entry)
      (h : LockedStore.Rests kind.Idle m l.values) :
      Rests (.eliminatingLocked kind entry config ⟨⟨m, 0⟩, .ofConfig config⟩) l

/-! ## One step -/

section Calls

variable {Memory Item L C : Type} {m m' : Memory} {n : Nat} {reply : Reply} {events : List Event}

theorem serveBy_of_returns {c : Container Memory L C} {idle : C} {r : Request}
    (h : Returns (c.solo fun _ _ => idle) n (c.enter r) m m' reply events)
    (enough : n ≤ Comparison.patience) : serveBy c idle r m = (m', some reply, events) := by
  rw [serveBy, call_of_returns h enough, List.reverse_reverse]
  rfl

/-- Two visits to the array are allowed for, and none is made. -/
theorem serveEliminating_of_rests {stack : AttemptStack Memory Item L} {cost : Memory → Nat}
    {Rests : Memory → List Value → Prop} {values : List Value} (h : stack.Sequential cost Rests)
    (rests : Rests m values) (cheap : cost m ≤ 11) (r : Request) (array : EliminationArray.Memory) :
    ∃ m', serveEliminating stack r ⟨⟨m, 0⟩, array⟩ =
        (⟨⟨m', 0⟩, array⟩, some (.ok (Discipline.lifo.serve r values).1), []) ∧
      Rests m' (Discipline.lifo.serve r values).2 := by
  have start : (⟨m, 0⟩ : Disturbed Memory).refusals = 0 ∧ Rests m values := ⟨rfl, rests⟩
  obtain ⟨⟨m', _⟩, run, rfl, rests⟩ := EliminationStack.serves
    (EliminationStack.choose EliminationArray.impatient) h.disturbed start r array
  refine ⟨m', ?_, rests⟩
  have enough : cost m + 1 + 1 ≤ visits (⟨⟨m, 0⟩, array⟩ : Eliminating Memory) * Comparison.patience := by
    simp only [visits, Comparison.patience]
    omega
  rw [serveEliminating, Container.elimination, call_of_returns (run.via id _) enough]
  rfl

theorem callLocked_of_rests {kind : LockKind} {m : LockedStore.Memory kind} {values : List Value}
    (h : LockedStore.Rests kind.Idle m values) (d : Discipline) :
    ∃ m', callLocked kind d .isEmpty m = (m', .flag values.isEmpty) ∧
      LockedStore.Rests kind.Idle m' values := by
  obtain ⟨m', run, rests⟩ := h.looks (h.idle.cycles (.inl rfl)) d
  refine ⟨m', ?_, rests⟩
  rw [callLocked, LockedStore.under_kind, call_of_returns run (by decide)]
  rfl

end Calls

variable {s : Session} {l : Ledger} {now : Instant}

theorem Rests.serves (h : Rests s l) (r : Request)
    (room : ∀ log ∈ s.log?, l.records.length < log.length) :
    ∃ s', s.serve r = (s', some (.ok (s.discipline.serve r l.values).1),
        if s.log?.isSome then [.passApplied l.records.length (l.records.length + 1)] else []) ∧
      Rests s' (l.serve s.discipline r) ∧ Alike s s' := by
  cases h with
  | treiber h =>
    obtain ⟨m', run, rests⟩ := h.serves r
    refine ⟨.treiber m', ?_, .treiber rests, rfl, rfl, rfl⟩
    rw [Session.serve, serveBy_of_returns run (by decide)]
    rfl
  | @lockedStack kind m _ h =>
    obtain ⟨m', run, rests⟩ := h.serves (h.idle.cycles (.inl rfl)) .lifo r
    refine ⟨.lockedStack kind ⟨m', 0⟩, ?_, .lockedStack rests, rfl, rfl, rfl⟩
    rw [Session.serve, LockedStore.container_kind, serveBy_of_returns run (by decide)]
    rfl
  | @lockedQueue kind m _ h =>
    obtain ⟨m', run, rests⟩ := h.serves (h.idle.cycles (.inl rfl)) .fifo r
    refine ⟨.lockedQueue kind m', ?_, .lockedQueue rests, rfl, rfl, rfl⟩
    rw [Session.serve, LockedStore.container_kind, serveBy_of_returns run (by decide)]
    rfl
  | michaelScott h =>
    obtain ⟨m', run, rests⟩ := h.serves r
    refine ⟨.michaelScott m', ?_, .michaelScott rests, rfl, rfl, rfl⟩
    rw [Session.serve, serveBy_of_returns run (by decide)]
    rfl
  | @combining d m _ h small =>
    obtain ⟨m', run, rests, size⟩ := h.serves (d := d) r (room _ rfl) small
    refine ⟨.combining d m', ?_, .combining rests (size ▸ small), rfl, rfl, congrArg some ?_⟩
    · rw [Session.serve, serveBy_of_returns run (by decide)]
      rfl
    · exact size
  | @eliminatingTreiber config m _ h =>
    obtain ⟨m', run, rests⟩ := serveEliminating_of_rests TreiberStack.sequential h (by decide) r (.ofConfig config)
    refine ⟨.eliminatingTreiber config ⟨⟨m', 0⟩, .ofConfig config⟩, ?_,
      .eliminatingTreiber rests, rfl, rfl, rfl⟩
    rw [Session.serve, run]
    rfl
  | @eliminatingLocked kind entry config m _ here h =>
    have cycles (m : kind.Memory) (idle : kind.Idle m) : kind.lock.Cycles 4 entry kind.Idle m :=
      idle.cycles (.inr here)
    have attempts : (LockedStore.attempts kind entry).Sequential _ _ := LockedStore.sequential cycles
    obtain ⟨m', run, rests⟩ := serveEliminating_of_rests attempts h (Nat.le_refl _) r (.ofConfig config)
    refine ⟨.eliminatingLocked kind entry config ⟨⟨m', 0⟩, .ofConfig config⟩, ?_,
      .eliminatingLocked here rests, rfl, rfl, rfl⟩
    rw [Session.serve, run]
    rfl

theorem perform_isEmpty (s : Session) : s.perform now .isEmpty = s.performOwn now .isEmpty := rfl

theorem perform_reset (s : Session) : s.perform now .reset = s.performOwn now .reset := rfl

theorem Rests.looks (h : Rests s l) (now : Instant) (offered : s.offers .isEmpty) :
    ∃ s', s.perform now .isEmpty = (s', ⟨.flag l.values.isEmpty, []⟩) ∧ Rests s' l ∧ Alike s s' := by
  cases h with
  | @treiber m _ h =>
    have run : look TreiberStack.attempts m = (m, .flag l.values.isEmpty) := by
      rw [look, attemptCall, call_of_returns h.looks (by decide)]
      rfl
    refine ⟨.treiber m, ?_, .treiber h, rfl, rfl, rfl⟩
    rw [perform_isEmpty, Session.performOwn, performTreiber, run]
  | @lockedStack kind m _ h =>
    obtain ⟨m', run, rests⟩ := callLocked_of_rests h .lifo
    refine ⟨.lockedStack kind ⟨m', 0⟩, ?_, .lockedStack rests, rfl, rfl, rfl⟩
    rw [perform_isEmpty, Session.performOwn, performLockedStack, run]
  | @lockedQueue kind m _ h =>
    obtain ⟨m', run, rests⟩ := callLocked_of_rests h .fifo
    refine ⟨.lockedQueue kind m', ?_, .lockedQueue rests, rfl, rfl, rfl⟩
    rw [perform_isEmpty, Session.performOwn, performLockedQueue, run]
  | @michaelScott m _ h =>
    refine ⟨.michaelScott m, ?_, .michaelScott h, rfl, rfl, rfl⟩
    rw [perform_isEmpty, Session.performOwn, performMichaelScott, call_of_returns h.looks (by decide)]
  | @combining d m _ h small =>
    obtain ⟨m', run, rests, size⟩ := h.looks (d := d)
    refine ⟨.combining d m', ?_, .combining rests (size ▸ small), rfl, rfl, congrArg some ?_⟩
    · rw [perform_isEmpty, Session.performOwn, performCombining, callCombining,
        call_of_returns run (by decide)]
      rfl
    · exact size
  | eliminatingTreiber => cases offered
  | eliminatingLocked => cases offered

/-- An array that was never used is as a reset leaves it. -/
theorem reset_ofConfig (config : EliminationConfig) :
    (EliminationArray.Memory.ofConfig config).reset = .ofConfig config := by
  simp [EliminationArray.Memory.reset, EliminationArray.Memory.ofConfig]

theorem Rests.resets (h : Rests s l) (offered : s.offers .reset) :
    s.perform now .reset = (s, ⟨.ok, []⟩) := by
  cases h with
  | eliminatingTreiber =>
    rw [perform_reset, Session.performOwn, performEliminating, onArray, reset_ofConfig]
  | eliminatingLocked =>
    rw [perform_reset, Session.performOwn, performEliminating, onArray, reset_ofConfig]
  | treiber | lockedStack | lockedQueue | michaelScott | combining => cases offered

/-- A container answers every step as the list does, and goes on to hold what the list holds. -/
theorem Rests.step (h : Rests s l) (now : Instant) {act : Act} (offered : s.offers act)
    (room : ∀ log ∈ s.log?, l.records.length + act.request?.toList.length ≤ log.length) :
    ∃ s', s.perform now act.step = (s', ⟨l.answer act, l.told s.log?.isSome act⟩) ∧
      Rests s' (l.after s.discipline act) ∧ Alike s s' := by
  cases act with
  | insert v =>
    obtain ⟨s', run, rests, alike⟩ := h.serves (.insert v) room
    refine ⟨s', ?_, rests, alike⟩
    rw [Act.step, Session.perform, run]
    simp [Session.answer, Ledger.answer, Ledger.told, Act.request?]
  | remove | removeOrMark =>
    obtain ⟨s', run, rests, alike⟩ := h.serves .remove room
    refine ⟨s', ?_, rests, alike⟩
    rw [Act.step, Session.perform, run]
    simp [Session.answer, Ledger.answer, Ledger.told, Act.request?, Discipline.serve]
  | isEmpty =>
    obtain ⟨s', run, rests, alike⟩ := h.looks now offered
    refine ⟨s', ?_, rests, alike⟩
    rw [Act.step, run]
    simp [Ledger.answer, Ledger.told, Act.request?]
  | reset =>
    refine ⟨s, ?_, h, rfl, rfl, rfl⟩
    rw [Act.step, h.resets offered]
    simp [Ledger.answer, Ledger.told, Act.request?]

/-! ## A whole run -/

theorem Rests.run (h : Rests s l) (now : Instant) {acts : List Act}
    (offered : ∀ act ∈ acts, s.offers act)
    (room : ∀ log ∈ s.log?, l.records.length + requests acts ≤ log.length) :
    ∃ s' responses, s.performAll now (acts.map Act.step) = (s', responses) ∧
      responses.map (·.answer) = l.answers s.discipline acts ∧
      responses.map (·.events) = l.allTold s.log?.isSome s.discipline acts ∧
      Rests s' (l.afterAll s.discipline acts) ∧ Alike s s' := by
  induction acts generalizing s l with
  | nil => exact ⟨s, [], rfl, rfl, rfl, h, rfl, rfl, rfl⟩
  | cons act acts ih =>
    have first : ∀ log ∈ s.log?, l.records.length + act.request?.toList.length ≤ log.length := by
      intro log logged
      have := room log logged
      rw [requests_cons] at this
      omega
    obtain ⟨s₁, run, rests, alike⟩ := h.step now (offered act List.mem_cons_self) first
    have rest : ∀ log ∈ s₁.log?,
        (l.after s.discipline act).records.length + requests acts ≤ log.length := by
      intro log logged
      obtain ⟨log₀, logged₀, same⟩ := alike.log_length logged
      have := room log₀ logged₀
      rw [requests_cons] at this
      rw [Ledger.length_records_after, same]
      omega
    obtain ⟨s', responses, runs, answers, events, rests, same⟩ :=
      ih rests (fun act' h' => alike.offers.trans (offered act' (.tail _ h'))) rest
    refine ⟨s', ⟨l.answer act, l.told s.log?.isSome act⟩ :: responses, ?_, ?_, ?_, ?_, alike.trans same⟩
    · rw [List.map_cons, Session.performAll, run]
      simp only [runs]
    · rw [List.map_cons, answers, alike.discipline, Ledger.answers]
    · rw [List.map_cons, events, alike.discipline, alike.logs, Ledger.allTold]
    · rw [alike.discipline] at rests
      exact rests

theorem Rests.log_eq (h : Rests s l) {log : List Record} (logged : s.log? = some log)
    (inside : l.records.length ≤ log.length) :
    log = l.records ++ List.replicate (log.length - l.records.length) ({} : Record) := by
  cases h with
  | @combining _ m _ h =>
    obtain rfl : m.log.toList = log := Option.some.inj logged
    rw [Array.length_toList] at inside ⊢
    exact h.log_eq inside
  | treiber | lockedStack | lockedQueue | michaelScott | eliminatingTreiber | eliminatingLocked =>
    cases logged

/-- The records of the requests have taken the first places of a log that was vacant. -/
theorem Rests.log_filled {s' : Session} {d : Discipline} {acts : List Act} (fresh : Rests s {})
    (rests : Rests s' (Ledger.afterAll d {} acts)) (alike : Alike s s')
    (room : ∀ log ∈ s.log?, requests acts ≤ log.length) :
    s'.log? = s.log?.map fun log => (Ledger.afterAll d {} acts).records ++ log.drop (requests acts) := by
  have capacity := alike.capacity
  cases logged : s.log? with
  | none => simpa [logged] using capacity
  | some log =>
    rw [logged, Option.map_some] at capacity
    obtain ⟨log', logged', same⟩ := Option.map_eq_some_iff.mp capacity
    have count : (Ledger.afterAll d {} acts).records.length = requests acts := by
      simpa using Ledger.length_records_afterAll d {} acts
    have inside : (Ledger.afterAll d {} acts).records.length ≤ log'.length := by
      rw [count, same]
      exact room log logged
    have before := fresh.log_eq logged (Nat.zero_le _)
    have filled := rests.log_eq logged' inside
    rw [logged', Option.map_some, Option.some_inj]
    calc log' = _ ++ List.replicate (log'.length - _) ({} : Record) := filled
      _ = _ ++ List.replicate (log.length - requests acts) {} := by rw [same, count]
      _ = _ ++ log.drop (requests acts) := by
        rw [before]
        simp

theorem Rests.free (h : Rests s l) : ∀ array ∈ s.array?, array.freeSlots = array.slots.size := by
  have unused (config : EliminationConfig) : (EliminationArray.Memory.ofConfig config).freeSlots =
      (EliminationArray.Memory.ofConfig config).slots.size := by
    have tag : SlotWord.hasTag 0 .free = true := by decide
    simp [EliminationArray.Memory.freeSlots, EliminationArray.Memory.count,
      EliminationArray.Memory.ofConfig, Array.countP_replicate, tag]
  intro array touched
  cases h with
  | eliminatingTreiber | eliminatingLocked =>
    cases touched
    exact unused _
  | treiber | lockedStack | lockedQueue | michaelScott | combining => cases touched

theorem of_makeEliminating {config : Option EliminationConfig} {make : EliminationConfig → Script.Object}
    {o : Script.Object} (made : (Script.makeEliminating now config make).1 = .ok o) :
    ∃ config, o = make config := by
  cases config with
  | none => exact ⟨{}, (Except.ok.inj made).symm⟩
  | some config =>
    simp only [Script.makeEliminating] at made
    split at made
    · exact ⟨config, (Except.ok.inj made).symm⟩
    · cases made

theorem of_makeCombining {d : Discipline} {config : Option LogConfig} {o : Script.Object}
    (made : Script.makeCombining d config = .ok o) :
    ∃ config, o = .container (.combining d (.ofConfig config)) := by
  cases config with
  | none => exact ⟨{}, (Except.ok.inj made).symm⟩
  | some config =>
    simp only [Script.makeCombining] at made
    split at made
    · exact ⟨config, (Except.ok.inj made).symm⟩
    · cases made

theorem rests_of_make {spec : Script.Spec} (made : (spec.make now).1 = .ok (.container s)) :
    Rests s {} := by
  cases spec with
  | treiber =>
    cases made
    exact .treiber TreiberStack.good_start
  | michaelScott =>
    cases made
    exact .michaelScott MichaelScottQueue.rests_empty
  | lockedStack kind =>
    cases made
    exact .lockedStack ⟨kind.idle_free, rfl⟩
  | lockedQueue kind =>
    cases made
    exact .lockedQueue ⟨kind.idle_free, rfl⟩
  | combining d config =>
    obtain ⟨config, same⟩ := of_makeCombining made
    cases same
    refine .combining (FlatCombining.rests_ofConfig config) ?_
    rw [FlatCombining.Memory.ofConfig, Array.size_replicate]
    exact config.capacity.toNat_lt
  | eliminatingTreiber config =>
    obtain ⟨config, same⟩ := of_makeEliminating made
    cases same
    exact .eliminatingTreiber TreiberStack.good_start
  | eliminatingLocked kind config =>
    simp only [Script.Spec.make] at made
    split at made
    · cases made
    · next entry here =>
      obtain ⟨config, same⟩ := of_makeEliminating made
      cases same
      exact .eliminatingLocked here ⟨kind.idle_free, rfl⟩
  | array config =>
    simp only [Script.Spec.make] at made
    split at made <;> cases made
  | barrier parties =>
    simp only [Script.Spec.make] at made
    split at made <;> cases made
  | guarded | nodes | sides => cases made

/-- The steps of a script whose only object is a container. -/
theorem performAll_container (now : Instant) (acts : List Act) (s : Session) :
    Script.performAll now (acts.map fun act => (0, .ok (.container act.step))) #[some (.container s)] =
      (s.performAll now (acts.map Act.step)).2 := by
  induction acts generalizing s with
  | nil => rfl
  | cons act acts ih =>
    exact congrArg (List.cons (s.perform now act.step).2) (ih (s.perform now act.step).1)

/-! ## Under any lock -/

section AnyLock

/-- A thread makes its calls one after the other, and each returns. -/
inductive Performed {M : Type} (Does : Act → M → M → Response → Prop) : List Act → M → M → List Response → Prop
  | nil {m : M} : Performed Does [] m m []
  | cons {act : Act} {acts : List Act} {m m' m'' : M} {response : Response} {responses : List Response}
      (first : Does act m m' response) (rest : Performed Does acts m' m'' responses) :
      Performed Does (act :: acts) m m'' (response :: responses)

variable {LockMemory L Token C : Type} (lock : Lock LockMemory L Token) (acquire attempt : L)

def Act.replied : Act → Option Value → Answer
  | .remove, found => .found found
  | .removeOrMark, found => .value (Value.orMark found)
  | .insert _, _ | .isEmpty, _ | .reset, _ => .ok

/-- An act upon a stack or queue under the lock, whose call returns. -/
inductive UnderLock (d : Discipline) :
    Act → Guarded LockMemory Store → Guarded LockMemory Store → Response → Prop
  | request {act : Act} {r : Request} {n : Nat} {m m' : Guarded LockMemory Store} {found : Option Value}
      {events : List Event} (asks : act.request? = some r)
      (returns : Returns ((Container.under lock acquire d).solo fun _ _ => ()) n
        ((Container.under lock acquire d).enter r) m m' (.ok found) events) :
      UnderLock d act m m' ⟨act.replied found, events⟩
  | isEmpty {n : Nat} {m m' : Guarded LockMemory Store} {empty : Bool} {events : List Event}
      (returns : Returns ((LockedStore.under lock acquire d).solo fun _ _ => ()) n
        ((LockedStore.under lock acquire d).enter .isEmpty) m m' (some (.emptiness empty)) events) :
      UnderLock d .isEmpty m m' ⟨.flag empty, events⟩

/-- An act upon an elimination stack over a stack under the lock. -/
inductive Eliminates
    (choose : EliminationStack.Label Value (SectionLabel L Token Store AttemptAnswer) →
      EliminationStack.Memory (Guarded LockMemory Store) → EliminationArray.Choice) :
    Act → EliminationStack.Memory (Guarded LockMemory Store) →
      EliminationStack.Memory (Guarded LockMemory Store) → Response → Prop
  | request {act : Act} {r : Request} {n : Nat} {m m' : EliminationStack.Memory (Guarded LockMemory Store)}
      {found : Option Value} {events : List Event} (asks : act.request? = some r)
      (returns : Returns
        ((Container.elimination (LockedStore.attemptsUnder lock acquire attempt)).solo choose) n
        ((Container.elimination (LockedStore.attemptsUnder lock acquire attempt)).enter r) m m' (.ok found)
        events) :
      Eliminates choose act m m' ⟨act.replied found, events⟩
  | reset {m : EliminationStack.Memory (Guarded LockMemory Store)} :
      Eliminates choose .reset m { m with array := m.array.reset } ⟨.ok, []⟩

/-- What every act keeps, with the answer of the list, a run keeps. -/
theorem exists_performed {M : Type} {Does : Act → M → M → Response → Prop} {R : M → Ledger → Prop}
    {d : Discipline} {acts : List Act}
    (step : ∀ act ∈ acts, ∀ m l, R m l → ∃ m', Does act m m' ⟨l.answer act, []⟩ ∧ R m' (l.after d act))
    {m : M} {l : Ledger} (h : R m l) :
    ∃ m', Performed Does acts m m' ((l.answers d acts).map (⟨·, []⟩)) ∧ R m' (l.afterAll d acts) := by
  induction acts generalizing m l with
  | nil => exact ⟨m, .nil, h⟩
  | cons act acts ih =>
    obtain ⟨m₁, first, kept⟩ := step act List.mem_cons_self m l h
    obtain ⟨m', rest, kept⟩ := ih (fun act mem => step act (.tail _ mem)) kept
    exact ⟨m', .cons first rest, kept⟩

theorem answer_of_request {act : Act} {r : Request} (asks : act.request? = some r) (d : Discipline) :
    l.answer act = act.replied (d.serve r l.values).1 ∧ (l.after d act).values = (d.serve r l.values).2 := by
  cases act <;> cases asks <;> exact ⟨rfl, rfl⟩

variable {lock acquire attempt} {free : LockMemory} {Idle : LockMemory → Prop} {cost : LockMemory → Nat}

theorem performed_under (idle : Idle free) (cycles : ∀ m, Idle m → lock.Cycles (cost m) acquire Idle m)
    (d : Discipline) {acts : List Act} (offered : ∀ act ∈ acts, act ≠ .reset) :
    ∃ m', Performed (UnderLock lock acquire d) acts ⟨free, {}⟩ m'
      ((Ledger.answers d {} acts).map (⟨·, []⟩)) := by
  have step (act : Act) (mem : act ∈ acts) (m : Guarded LockMemory Store) (l : Ledger)
      (rests : LockedStore.Rests Idle m l.values) : ∃ m', UnderLock lock acquire d act m m' ⟨l.answer act, []⟩ ∧
        LockedStore.Rests Idle m' (l.after d act).values := by
    cases asks : act.request? with
    | some r =>
      obtain ⟨answer, values⟩ := answer_of_request (l := l) asks d
      obtain ⟨m', returns, rests⟩ := rests.serves (cycles _ rests.idle) d r
      rw [answer, values]
      exact ⟨m', .request asks returns, rests⟩
    | none =>
      obtain ⟨m', returns, rests⟩ := rests.looks (cycles _ rests.idle) d
      cases act with
      | isEmpty => exact ⟨m', .isEmpty returns, rests⟩
      | reset => exact absurd rfl (offered _ mem)
      | insert | remove | removeOrMark => cases asks
  obtain ⟨m', run, _⟩ := exists_performed step (m := ⟨free, {}⟩) (l := {}) ⟨idle, rfl⟩
  exact ⟨m', run⟩

theorem performed_eliminating (idle : Idle free)
    (cycles : ∀ m, Idle m → lock.Cycles (cost m) attempt Idle m) (config : EliminationConfig)
    (choose : EliminationStack.Label Value (SectionLabel L Token Store AttemptAnswer) →
      EliminationStack.Memory (Guarded LockMemory Store) → EliminationArray.Choice)
    {acts : List Act} (offered : ∀ act ∈ acts, act ≠ .isEmpty) :
    ∃ m', Performed (Eliminates lock acquire attempt choose) acts ⟨⟨free, {}⟩, .ofConfig config⟩ m'
        ((Ledger.answers .lifo {} acts).map (⟨·, []⟩)) ∧ m'.array = .ofConfig config := by
  have step (act : Act) (mem : act ∈ acts) (m : EliminationStack.Memory (Guarded LockMemory Store))
      (l : Ledger) (rests : LockedStore.Rests Idle m.inner l.values ∧ m.array = .ofConfig config) :
      ∃ m', Eliminates lock acquire attempt choose act m m' ⟨l.answer act, []⟩ ∧
        LockedStore.Rests Idle m'.inner (l.after .lifo act).values ∧ m'.array = .ofConfig config := by
    obtain ⟨inner, array⟩ := m
    obtain ⟨rests, rfl⟩ := rests
    cases asks : act.request? with
    | some r =>
      obtain ⟨answer, values⟩ := answer_of_request (l := l) asks .lifo
      obtain ⟨inner', run, rests⟩ := EliminationStack.serves choose (LockedStore.sequential cycles) rests r
        (.ofConfig config)
      rw [answer, values]
      exact ⟨⟨inner', _⟩, .request asks (run.via id _), rests, rfl⟩
    | none =>
      cases act with
      | isEmpty => exact absurd rfl (offered _ mem)
      | reset => exact ⟨_, .reset, rests, reset_ofConfig config⟩
      | insert | remove | removeOrMark => cases asks
  obtain ⟨m', run, _, array⟩ := exists_performed step (m := ⟨⟨free, {}⟩, .ofConfig config⟩) (l := {})
    ⟨⟨idle, rfl⟩, rfl⟩
  exact ⟨m', run, array⟩

end AnyLock

/-- The answers of a fresh container to a single thread are those of a list, whatever the container is
built of, as long as its log, if it keeps one, has room for all requests. Each request has then left its
record in the log and told of one pass; an elimination array has not been touched. A blocking lock is not
looked into: any lock will do that a thread gets and gives back while no other is there. -/
theorem agrees_with_list :
    (∀ (now : Instant) (s : Session) (spec : Script.Spec) (acts : List Act),
      (spec.make now).1 = .ok (.container s) → (∀ act ∈ acts, s.offers act) →
        (∀ log ∈ s.log?, requests acts ≤ log.length) →
          ∃ s' responses, s.performAll now (acts.map Act.step) = (s', responses) ∧
            (Script.run now [.ok spec] (acts.map fun act => (0, .ok (.container act.step)))).2 = responses ∧
            responses.map (·.answer) = Ledger.answers s.discipline {} acts ∧
            responses.map (·.events) = Ledger.allTold s.log?.isSome s.discipline {} acts ∧
            s'.log? = s.log?.map (fun log =>
              (Ledger.afterAll s.discipline {} acts).records ++ log.drop (requests acts)) ∧
            s'.array? = s.array? ∧ ∀ array ∈ s'.array?, array.freeSlots = array.slots.size) ∧
      ∀ {Memory Label Token : Type} (mutex : Lock Memory Label Token) (free : Memory)
        (acquire attempt : Label) (Idle : Memory → Prop) (cost : Memory → Nat), Idle free →
          (∀ m, Idle m → mutex.Cycles (cost m) acquire Idle m) →
            (∀ m, Idle m → mutex.Cycles (cost m) attempt Idle m) →
        (∀ (d : Discipline) (acts : List Act), (∀ act ∈ acts, act ≠ .reset) →
          ∃ m', Performed (UnderLock mutex acquire d) acts ⟨free, {}⟩ m'
            ((Ledger.answers d {} acts).map (⟨·, []⟩))) ∧
        ∀ (config : EliminationConfig) choose (acts : List Act), (∀ act ∈ acts, act ≠ .isEmpty) →
          ∃ m', Performed (Eliminates mutex acquire attempt choose) acts ⟨⟨free, {}⟩, .ofConfig config⟩ m'
              ((Ledger.answers .lifo {} acts).map (⟨·, []⟩)) ∧ m'.array = .ofConfig config := by
  refine ⟨fun now s spec acts made offered room => ?_,
    fun mutex free acquire attempt Idle cost idle acquires attempts =>
      ⟨fun d acts => performed_under idle acquires d,
        fun config choose acts => performed_eliminating idle attempts config choose⟩⟩
  have fresh := rests_of_make made
  have enough : ∀ log ∈ s.log?, ({} : Ledger).records.length + requests acts ≤ log.length := by
    intro log logged
    rw [List.length_nil, Nat.zero_add]
    exact room log logged
  obtain ⟨s', responses, run, answers, events, rests, alike⟩ := fresh.run now offered enough
  refine ⟨s', responses, run, ?_, answers, events, ?_, alike.array, rests.free⟩
  · have objects : (Script.makeAll now [.ok spec]).1 = #[some (.container s)] := by
      simp [Script.makeAll, made, Except.toOption]
    calc (Script.run now [.ok spec] _).2
        = Script.performAll now _ (Script.makeAll now [.ok spec]).1 := rfl
      _ = responses := by rw [objects, performAll_container, run]
  · exact fresh.log_filled rests alike room

/-- Three of four acts at a combined stack take a record, and its log has three. A stack under a flag, and
an elimination stack over it, give the same answers, as the flag is free whenever a call begins. -/
theorem agrees_on_a_full_log :
    (∀ m, m = false → TestAndSet.lock.Cycles 1 .seize (· = false) m) ∧
    (∀ m, m = false → TestAndSet.lock.Cycles 1 .attempt (· = false) m) ∧
    (∃ s' responses, Session.performAll .nominal [.insert 7, .removeOrMark, .isEmpty, .remove]
        (.combining .lifo (.ofConfig ⟨3⟩)) = (s', responses) ∧
      responses.map (·.answer) = [.ok, .value 7, .flag true, .found none] ∧
      responses.map (·.events) = [[.passApplied 0 1], [.passApplied 1 2], [], [.passApplied 2 3]] ∧
      s'.log? = some
        [⟨.doneNone, .insert, 7, 0⟩, ⟨.doneSome, .remove, 0, 7⟩, ⟨.doneNone, .remove, 0, 0⟩]) ∧
    (∃ m', Performed (UnderLock TestAndSet.lock .seize .lifo) [.insert 7, .removeOrMark, .isEmpty, .remove]
      ⟨false, {}⟩ m' [⟨.ok, []⟩, ⟨.value 7, []⟩, ⟨.flag true, []⟩, ⟨.found none, []⟩]) ∧
    ∃ m', Performed (Eliminates TestAndSet.lock .seize .attempt fun _ _ => ⟨0, false⟩)
        [.insert 7, .removeOrMark, .reset, .remove] ⟨⟨false, {}⟩, .ofConfig {}⟩ m'
        [⟨.ok, []⟩, ⟨.value 7, []⟩, ⟨.ok, []⟩, ⟨.found none, []⟩] ∧ m'.array = .ofConfig {} := by
  have acquires (m : Bool) (free : m = false) : TestAndSet.lock.Cycles 1 .seize (· = false) m := by
    subst free
    exact ⟨true, (), false, .now rfl, .now rfl, rfl⟩
  have attempts (m : Bool) (free : m = false) : TestAndSet.lock.Cycles 1 .attempt (· = false) m := by
    subst free
    exact ⟨true, (), false, .now rfl, .now rfl, rfl⟩
  obtain ⟨sessions, locks⟩ := agrees_with_list
  obtain ⟨stores, eliminating⟩ := locks TestAndSet.lock false .seize .attempt (· = false) (fun _ => 1) rfl
    acquires attempts
  refine ⟨acquires, attempts, ?_, stores .lifo _ (by decide), eliminating {} _ _ (by decide)⟩
  have made : ((Script.Spec.combining .lifo (some ⟨3⟩)).make .nominal).1 =
      .ok (.container (.combining .lifo (.ofConfig ⟨3⟩))) := rfl
  have offered : ∀ act ∈ [Act.insert 7, .removeOrMark, .isEmpty, .remove],
      (Session.combining .lifo (.ofConfig ⟨3⟩)).offers act := by decide
  obtain ⟨s', responses, run, _, answers, events, log, _, _⟩ :=
    sessions _ _ _ _ made offered (by decide)
  exact ⟨s', responses, run, answers, events, log⟩

end SharedMemory.ContainerSession
