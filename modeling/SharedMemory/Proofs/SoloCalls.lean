import SharedMemory.Container

/-!
# Calls that nobody disturbs

`Returns` bounds the steps of a call that one thread makes alone and names all that it leaves: memory,
answer and events. Locks, attempts and containers are run through it alike. A lock that nobody holds is
taken at once and left so that it can be taken again, whatever it keeps of the acquisition.
-/
namespace SharedMemory

section Returns

variable {Memory Label Answer Memory' Label' Answer' : Type}

/-- The step at a label leads to the answer within so many steps. -/
inductive Returns (step : Label → Memory → Effect Memory Label Answer) :
    Nat → Label → Memory → Memory → Answer → List Event → Prop
  | now {n : Nat} {l : Label} {m m' : Memory} {a : Answer} {events : List Event}
      (gives : step l m = ⟨m', .returned a, events⟩) : Returns step (n + 1) l m m' a events
  | later {n : Nat} {l l' : Label} {m m' m'' : Memory} {a : Answer} {events more : List Event}
      (goes : step l m = ⟨m', .running l', events⟩) (rest : Returns step n l' m' m'' a more) :
      Returns step (n + 1) l m m'' a (events ++ more)

variable {step : Label → Memory → Effect Memory Label Answer} {n k : Nat} {l l' : Label}
  {m m' m'' : Memory} {a : Answer} {events : List Event}

theorem Returns.silent (goes : step l m = ⟨m', .running l', []⟩)
    (rest : Returns step n l' m' m'' a events) : Returns step (n + 1) l m m'' a events :=
  .later goes rest

theorem Returns.mono (h : Returns step n l m m' a events) (hn : n ≤ k) :
    Returns step k l m m' a events := by
  induction h generalizing k with
  | now gives =>
    obtain ⟨k, rfl⟩ := Nat.exists_eq_add_of_lt hn
    exact .now gives
  | later goes _ ih =>
    obtain ⟨k, rfl⟩ := Nat.exists_eq_add_of_lt hn
    exact .later goes (ih (Nat.le_add_right _ _))

/-- A run goes on in the same way within a larger machine. -/
theorem Returns.lift {step' : Label' → Memory' → Effect Memory' Label' Answer'}
    (run : Returns step n l m m' a events) (place : Label → Label') (within : Memory → Memory')
    (b : Answer')
    (goes : ∀ {l m l' m' events}, step l m = ⟨m', .running l', events⟩ →
      step' (place l) (within m) = ⟨within m', .running (place l'), events⟩)
    (gives : ∀ {l m m' events}, step l m = ⟨m', .returned a, events⟩ →
      step' (place l) (within m) = ⟨within m', .returned b, events⟩) :
    Returns step' n (place l) (within m) (within m') b events := by
  induction run with
  | now last => exact .now (gives last)
  | later first _ ih => exact .later (goes first) (ih gives)

def Algorithm.solo {Call Choice : Type} (alg : Algorithm Memory Call Label Choice Answer)
    (choose : Label → Memory → Choice) (l : Label) (m : Memory) : Effect Memory Label Answer :=
  alg.step (choose l m) l m

/-- Steps that tell nothing. -/
def quiet (step : Label → Memory → Memory × Status Label Answer) (l : Label) (m : Memory) :
    Effect Memory Label Answer :=
  ⟨(step l m).1, (step l m).2, []⟩

theorem step_of_quiet {step : Label → Memory → Memory × Status Label Answer} {s : Status Label Answer}
    (h : quiet step l m = ⟨m', s, events⟩) : step l m = (m', s) ∧ events = [] := by
  obtain ⟨memory, status, told⟩ := Effect.mk.inj h
  exact ⟨Prod.ext memory status, told.symm⟩

section Call

variable {Call Choice : Type} {alg : Algorithm Memory Call Label Choice Answer}
  {choose : Label → Memory → Choice}

theorem tick_running (alg : Algorithm Memory Call Label Choice Answer) (choose : Label → Memory → Choice)
    (m : Memory) (l : Label) (trace : List Event) :
    alg.tick choose ⟨m, .running l, trace⟩ = ⟨(alg.solo choose l m).memory, (alg.solo choose l m).status,
      (alg.solo choose l m).events.reverse ++ trace⟩ := rfl

theorem advance_of_returns (h : Returns (alg.solo choose) n l m m' a events) (trace : List Event) :
    alg.advance choose n ⟨m, .running l, trace⟩ = ⟨m', .returned a, events.reverse ++ trace⟩ := by
  induction h generalizing trace with
  | now gives => rw [Algorithm.advance_succ, tick_running, gives, Algorithm.advance_returned]
  | later goes _ ih =>
    rw [Algorithm.advance_succ, tick_running, goes, ih, List.reverse_append, List.append_assoc]

/-- The budget of a call is enough if it is no smaller than the bound. -/
theorem call_of_returns {c : Call} (h : Returns (alg.solo choose) n (alg.enter c) m m' a events)
    {budget : Nat} (enough : n ≤ budget) :
    alg.call choose budget c m = ⟨m', .returned a, events.reverse⟩ := by
  rw [Algorithm.call, advance_of_returns (h.mono enough), List.append_nil]

theorem Returns.via {Call' : Type} (h : Returns (alg.solo choose) n l m m' a events)
    (ask : Call' → Call) (reply : Answer → Answer') :
    Returns ((alg.via ask reply).solo choose) n l m m' (reply a) events := by
  have told (l : Label) (m : Memory) : (alg.via ask reply).solo choose l m =
      ⟨(alg.solo choose l m).memory, (alg.solo choose l m).status.mapAnswer reply,
        (alg.solo choose l m).events⟩ := rfl
  refine h.lift id id (reply a) (fun goes => ?_) (fun gives => ?_)
  · rw [id, id, told, goes]
    rfl
  · rw [id, id, told, gives]
    rfl

end Call

end Returns

namespace Section

variable {Data Result : Type}

/-- The steps of a section, up to where it gives the lock back. -/
def steps : Section Data Result → Data → Nat
  | .leave _, _ => 1
  | .read next, data => (next data).steps data + 1
  | .write data next, _ => next.steps data + 1

end Section

namespace Lock

variable {Memory Label Token Data Result : Type} {lock : Lock Memory Label Token} {n k : Nat}
  {l : Label} {m m' m'' : Memory} {token : Token} {events more : List Event} {data : Data}
  {body : Section Data Result}

theorem returns_entering {after : Guarded Memory Data} {found : Option Result}
    (acquires : Returns (quiet lock.step) n l m m' (.acquired token) events)
    (rest : Returns lock.guardedStep k (.inside token body) ⟨m', data⟩ after found []) :
    Returns lock.guardedStep (k + n) (.entering l body) ⟨m, data⟩ after found [] := by
  generalize ha : LockAnswer.acquired token = answer at acquires
  induction acquires with
  | now gives =>
    subst ha
    refine .silent ?_ (rest.mono (Nat.le_add_right _ _))
    simp [guardedStep, step_of_quiet gives]
  | later goes _ ih =>
    refine .silent ?_ (ih rest ha)
    simp [guardedStep, step_of_quiet goes]

theorem returns_leaving (released : Returns (quiet lock.step) n l m m' .released events) (data : Data)
    (result : Result) :
    Returns lock.guardedStep n (.leaving l result) ⟨m, data⟩ ⟨m', data⟩ (some result) events := by
  refine released.lift (fun l => SectionLabel.leaving l result) (fun m => Guarded.mk m data) (some result)
    (fun goes => ?_) (fun gives => ?_)
  · simp [guardedStep, step_of_quiet goes]
  · simp [guardedStep, step_of_quiet gives]

theorem returns_inside (token : Token) (body : Section Data Result)
    (released : Returns (quiet lock.step) n (lock.release token) m m' .released events) (data : Data) :
    Returns lock.guardedStep (n + body.steps data) (.inside token body) ⟨m, data⟩
      ⟨m', (body.run data).1⟩ (some (body.run data).2) events := by
  induction body generalizing data with
  | leave result => exact .silent rfl (returns_leaving released data result)
  | read next ih => exact .silent rfl (ih data data)
  | write data' next ih => exact .silent rfl (ih data')

/-- A thread that is alone takes the lock from `entry` on and gives it back, each within `n` steps, and
the lock is `Idle`. -/
def Cycles (lock : Lock Memory Label Token) (n : Nat) (entry : Label) (Idle : Memory → Prop)
    (m : Memory) : Prop :=
  ∃ m' token m'', Returns (quiet lock.step) n entry m m' (.acquired token) [] ∧
    Returns (quiet lock.step) n (lock.release token) m' m'' .released [] ∧ Idle m''

theorem Cycles.returns {entry : Label} {Idle : Memory → Prop} (h : lock.Cycles n entry Idle m)
    (body : Section Data Result) (data : Data) :
    ∃ m', Returns lock.guardedStep (body.steps data + 2 * n) (.entering entry body) ⟨m, data⟩
      ⟨m', (body.run data).1⟩ (some (body.run data).2) [] ∧ Idle m' := by
  obtain ⟨_, token, m', acquires, released, idle⟩ := h
  have run := returns_entering acquires (returns_inside token body released data)
  exact ⟨m', run.mono (by omega), idle⟩

end Lock

theorem TestAndSet.cycles {entry : Label} (h : entry = .seize ∨ entry = .attempt) :
    lock.Cycles 4 entry (· = false) false := by
  rcases h with rfl | rfl <;> exact ⟨true, (), false, .now rfl, .now rfl, rfl⟩

theorem TestThenSet.cycles {entry : Label} (h : entry = .watch ∨ entry = .peek) :
    lock.Cycles 4 entry (· = false) false := by
  rcases h with rfl | rfl <;> exact ⟨true, (), false, .silent rfl (.now rfl), .now rfl, rfl⟩

/-- The ticket that is drawn is the one being served. -/
theorem TicketLock.cycles {entry : Label} (h : entry = .draw ∨ entry = .look) (ticket : UInt64) :
    lock.Cycles 4 entry (fun m => m.nextTicket = m.nowServing) ⟨ticket, ticket⟩ := by
  refine ⟨⟨ticket, ticket + 1⟩, ticket, ⟨ticket + 1, ticket + 1⟩, ?_, .now rfl, rfl⟩
  rcases h with rfl | rfl
  · have served : quiet lock.step (.wait ticket) ⟨ticket, ticket + 1⟩ =
        ⟨⟨ticket, ticket + 1⟩, .returned (.acquired ticket), []⟩ := by
      simp [quiet, lock, step]
    exact .silent rfl (.now served)
  · have next : quiet lock.step (.attempt ticket) ⟨ticket, ticket⟩ =
        ⟨⟨ticket, ticket + 1⟩, .returned (.acquired ticket), []⟩ := by
      simp [quiet, lock, step]
    exact .silent rfl (.now next)

namespace QueueLock

/-- The node that an acquisition allocates finds no other before it and none behind it. -/
theorem cycles {m : Memory} (some_lock : 0 < m.tails.length) (free : m.tail 0 = none) :
    onOwnNodes.Cycles 4 (.allocate 0) (fun m => 0 < m.tails.length ∧ m.tail 0 = none) m := by
  let g : Guard := ⟨0, m.nodes.size⟩
  let raised := (Memory.setNext { m with nodes := m.nodes.push {} } g.node none).setLocked g.node true
  let taken := raised.setTail 0 (some g.node)
  have swaps : quiet onOwnNodes.step (.within (.swap g) g) raised =
      ⟨taken, .returned (.acquired g), []⟩ := by
    have nobody : raised.tail 0 = none := by
      simp only [raised, Memory.tail_setLocked, Memory.tail_setNext]
      exact free
    simp [quiet, onOwnNodes, ownStep, step, g, nobody, taken]
  have looks : quiet onOwnNodes.step (.within (.look g) g) taken =
      ⟨taken, .running (.within (.clear g) g), []⟩ := by
    have last : (taken.node g.node).next = none := by
      simp only [taken, raised, Memory.node_setTail, Memory.node_setLocked, Memory.node_setNext, g]
      split
      · simp
      · rename_i beyond
        simp [Memory.setNext] at beyond
    simp [quiet, onOwnNodes, ownStep, step, last]
  have clears : quiet onOwnNodes.step (.within (.clear g) g) taken =
      ⟨taken.setTail 0 none, .running (.free g.node), []⟩ := by
    have own : taken.tail 0 = some g.node := Memory.tail_setTail_self (m := raised) some_lock _
    simp [quiet, onOwnNodes, ownStep, step, g, own]
  refine ⟨taken, g, { taken.setTail 0 none with freed := g.node :: taken.freed }, ?_, ?_, ?_⟩
  · exact .silent rfl (.silent rfl (.silent rfl (.now swaps)))
  · exact .silent looks (.silent clears (.now rfl))
  · have lengths : taken.tails.length = m.tails.length := by simp [taken, raised, Memory.setTail,
      Memory.setLocked, Memory.setNext]
    refine ⟨?_, Memory.tail_setTail_self (m := taken) (lengths ▸ some_lock) none⟩
    simpa [Memory.setTail, lengths] using some_lock

end QueueLock

namespace LockKind

def Idle : (kind : LockKind) → kind.Memory → Prop
  | .testAndSet, locked | .testThenSet, locked | .blocking, locked => locked = false
  | .ticket, m => m.nextTicket = m.nowServing
  | .queue, m => 0 < m.tails.length ∧ m.tail 0 = none

def Enters (kind : LockKind) (entry : kind.Label) : Prop :=
  entry = kind.acquire ∨ kind.attempt? = some entry

variable {kind : LockKind} {entry : kind.Label} {m : kind.Memory}

theorem idle_free (kind : LockKind) : kind.Idle kind.free := by
  cases kind with
  | testAndSet | testThenSet | blocking | ticket => rfl
  | queue => exact ⟨Nat.one_pos, rfl⟩

/-- A lock at rest is taken at once, and is at rest again when it is given back. -/
theorem Idle.cycles (idle : kind.Idle m) (enters : kind.Enters entry) :
    kind.lock.Cycles 4 entry kind.Idle m := by
  cases kind with
  | testAndSet | blocking =>
    obtain rfl : m = false := idle
    exact TestAndSet.cycles (enters.imp id fun same => (Option.some.inj same).symm)
  | testThenSet =>
    obtain rfl : m = false := idle
    exact TestThenSet.cycles (enters.imp id fun same => (Option.some.inj same).symm)
  | ticket =>
    obtain ⟨ticket, next⟩ := m
    obtain rfl : next = ticket := idle
    exact TicketLock.cycles (enters.imp id fun same => (Option.some.inj same).symm) next
  | queue =>
    obtain rfl | same := enters
    · exact QueueLock.cycles idle.1 idle.2
    · cases same

end LockKind

/-- A store answers as the list it holds. -/
theorem Store.serves {s : Store} {values : List Value} (h : s.toList = values) (d : Discipline)
    (r : Request) :
    (s.serve d r).1 = (d.serve r values).1 ∧ (s.serve d r).2.toList = (d.serve r values).2 := by
  rw [← h]
  exact Prod.mk.inj (s.serve_eq d r)

/-! ## A store under any lock -/

section AnyLock

variable {LockMemory L Token : Type}

def LockedStore.under (lock : Lock LockMemory L Token) (acquire : L) (d : Discipline) :
    Algorithm (Guarded LockMemory Store) LockedStore.Call (SectionLabel L Token Store LockedStore.Answer) Unit
      (Option LockedStore.Answer) :=
  lock.guarding.via (fun c => (acquire, LockedStore.body d c)) id

def Container.under (lock : Lock LockMemory L Token) (acquire : L) (d : Discipline) :
    Container (Guarded LockMemory Store) (SectionLabel L Token Store LockedStore.Answer) Unit :=
  (LockedStore.under lock acquire d).via .request (fun | some (.found v) => .ok v | _ => .ok none)

namespace LockedStore

theorem under_kind (kind : LockKind) (d : Discipline) :
    algorithm kind d = under kind.lock kind.acquire d := rfl

theorem container_kind (kind : LockKind) (d : Discipline) :
    Container.locked kind d = Container.under kind.lock kind.acquire d := rfl

/-- Nobody is at the lock, and the store holds the values. -/
structure Rests (Idle : LockMemory → Prop) (m : Guarded LockMemory Store) (values : List Value) : Prop where
  idle : Idle m.lock
  holds : m.data.toList = values

variable {lock : Lock LockMemory L Token} {acquire : L} {Idle : LockMemory → Prop} {n : Nat}
  {m : Guarded LockMemory Store} {values : List Value}

theorem returns_under (cycles : lock.Cycles n acquire Idle m.lock) (d : Discipline) (c : Call) :
    ∃ m', Returns ((under lock acquire d).solo fun _ _ => ()) ((body d c).steps m.data + 2 * n)
        ((under lock acquire d).enter c) m m' (some ((body d c).run m.data).2) [] ∧
      Rests Idle m' ((body d c).run m.data).1.toList := by
  obtain ⟨left, returns, idle⟩ := cycles.returns (body d c) m.data
  have guarded : Returns (lock.guarding.solo fun _ _ => ()) ((body d c).steps m.data + 2 * n)
      (.entering acquire (body d c)) m ⟨left, ((body d c).run m.data).1⟩
      (some ((body d c).run m.data).2) [] := returns
  exact ⟨_, guarded.via _ id, idle, rfl⟩

theorem Rests.serves (h : Rests Idle m values) (cycles : lock.Cycles n acquire Idle m.lock) (d : Discipline)
    (r : Request) :
    ∃ m', Returns ((Container.under lock acquire d).solo fun _ _ => ()) (3 + 2 * n)
        ((Container.under lock acquire d).enter r) m m' (.ok (d.serve r values).1) [] ∧
      Rests Idle m' (d.serve r values).2 := by
  obtain ⟨m', returns, rests⟩ := returns_under cycles d (.request r)
  obtain ⟨found, left⟩ := Store.serves h.holds d r
  refine ⟨m', ?_, ?_⟩
  · rw [← found]
    exact returns.via .request _
  · rw [← left]
    exact rests

theorem Rests.looks (h : Rests Idle m values) (cycles : lock.Cycles n acquire Idle m.lock) (d : Discipline) :
    ∃ m', Returns ((under lock acquire d).solo fun _ _ => ()) (2 + 2 * n)
        ((under lock acquire d).enter .isEmpty) m m' (some (.emptiness values.isEmpty)) [] ∧
      Rests Idle m' values := by
  obtain ⟨m', returns, rests⟩ := returns_under cycles d .isEmpty
  have empty : m.data.isEmpty = values.isEmpty := by rw [Store.isEmpty_eq, h.holds]
  refine ⟨m', ?_, ?_⟩
  · rw [← empty]
    exact returns
  · rw [← h.holds]
    exact rests

end LockedStore

end AnyLock

end SharedMemory
