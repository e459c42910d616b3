import SharedMemory.Proofs.LockedLaw
import SharedMemory.Proofs.SoloCalls
import SharedMemory.Proofs.TreiberClients

/-!
# Stacks that serve a thread at its first attempt

A thread that is alone is never refused. What it attempts is served as a list serves it, and clients
that try again, or that would turn to an elimination array, have no reason to.
-/
namespace SharedMemory

namespace AttemptStack

variable {Memory Item Label : Type} {stack : AttemptStack Memory Item Label}
  {Rests : Memory → List Value → Prop} {cost : Memory → Nat} {n : Nat} {l : Label} {m m' : Memory}
  {carried : Option Item} {a : AttemptAnswer} {values : List Value} {events : List Event}

/-! A push carries an item, and a pop carries none. -/

def asking (stack : AttemptStack Memory Item Label) : Option Item → Request
  | some item => .insert (stack.value item)
  | none => .remove

/-- Where a thread begins that carries this. -/
def entry (stack : AttemptStack Memory Item Label) : Option Item → Label
  | some item => stack.push item
  | none => stack.pop

/-- What a thread has to do before it attempts a request, and what it carries then. -/
def ready (stack : AttemptStack Memory Item Label) (m : Memory) : Request → Memory × Option Item
  | .insert v => ((stack.prepare v m).1, some (stack.prepare v m).2)
  | .remove => (m, none)

def Phase.attempting : Option Item → Label → Phase Item Label
  | some item, l => .pushing item l
  | none, l => .popping l

/-- As long as a thread is alone, the stack holds values between its attempts, and each attempt is served
within so many steps. -/
structure Sequential (stack : AttemptStack Memory Item Label) (cost : Memory → Nat)
    (Rests : Memory → List Value → Prop) : Prop where
  serves : ∀ {m values} (r : Request), Rests m values → ∃ m',
    Returns (quiet stack.step) (cost m) (stack.entry (stack.ready m r).2) (stack.ready m r).1 m'
      (respond r values).1 [] ∧ Rests m' (respond r values).2

section Law

variable (law : Law stack)

theorem Law.attempting {phases : Nat → Phase Item Label} {i : Nat} (good : law.Good phases m values)
    (here : phases i = .attempting carried l) :
    ∃ values' phase, Outcome law.fixed (stack.asking carried) l values (stack.step l m).2 values' ∧
      law.Good (Function.update phases i phase) (stack.step l m).1 values' ∧
      (∀ l', (stack.step l m).2 = .running l' → phase = .attempting carried l') ∧
      ∀ a, (stack.step l m).2 = .returned a → a ≠ .contended → phase = .idle := by
  cases carried with
  | some item =>
    obtain ⟨values', outcome, good⟩ := law.pushing good here
    refine ⟨values', _, outcome, good, fun l' goes => by rw [goes]; rfl, fun a gives served => ?_⟩
    rw [gives]
    cases a with
    | contended => exact absurd rfl served
    | pushed | popped | emptiness => rfl
  | none =>
    obtain ⟨values', outcome, good⟩ := law.popping good here
    exact ⟨values', _, outcome, good, fun l' goes => by rw [goes]; rfl, fun a gives _ => by rw [gives]; rfl⟩

variable (carried) (atOnce : ∀ l, law.fixed l = none)
include atOnce

/-- A whole attempt at a stack whose attempts take effect as they return. -/
theorem Law.returns (run : Returns (quiet stack.step) n l m m' a events)
    (good : law.Good (Function.update (fun _ => .idle) 0 (.attempting carried l)) m values)
    (served : a ≠ .contended) :
    a = (respond (stack.asking carried) values).1 ∧
      law.Good (fun _ => .idle) m' (respond (stack.asking carried) values).2 := by
  induction run with
  | now gives =>
    obtain ⟨step, -⟩ := step_of_quiet gives
    obtain ⟨values', phase, outcome, good, -, left⟩ := law.attempting good (Function.update_self _ _ _)
    rw [step, Function.update_idem] at good
    rw [step] at outcome left
    rw [left _ rfl served, Function.update_eq_self 0 fun _ : Nat => Phase.idle] at good
    cases outcome with
    | serves => exact ⟨rfl, good⟩
    | refused => exact absurd rfl served
    | done past settled => cases (atOnce _).symm.trans settled
  | later goes _ ih =>
    obtain ⟨step, -⟩ := step_of_quiet goes
    obtain ⟨values', phase, outcome, good, on, -⟩ := law.attempting good (Function.update_self _ _ _)
    rw [step, Function.update_idem] at good
    rw [step] at outcome on
    rw [on _ rfl] at good
    cases outcome with
    | goes => exact ih good served
    | fixes l' pending settled => cases (atOnce _).symm.trans settled

end Law

section Retrying

variable {choose : Position Item Label → Memory → Unit}

def Position.attempting : Option Item → Label → Position Item Label
  | some item, l => .pushing item true l
  | none, l => .popping true l

def Answer.ofServed : AttemptAnswer → Answer Item
  | .pushed => .pushed
  | .popped found => .popped found
  | .emptiness _ | .contended => .interfered

theorem returns_retrying (carried : Option Item) (values : List Value)
    (run : Returns (quiet stack.step) n l m m' (respond (stack.asking carried) values).1 events) :
    Returns (stack.retrying.solo choose) n (.attempting carried l) m m'
      (.ofServed (respond (stack.asking carried) values).1) events := by
  refine run.lift (Position.attempting carried) id _ (fun goes => ?_) (fun gives => ?_)
  · obtain ⟨step, rfl⟩ := step_of_quiet goes
    cases carried <;> simp [Algorithm.solo, retrying, retryStep, Position.attempting, step, afterPush, afterPop]
  · obtain ⟨step, rfl⟩ := step_of_quiet gives
    cases carried <;> simp [Algorithm.solo, retrying, retryStep, Position.attempting, step, asking, respond,
      afterPush, afterPop, Answer.ofServed]

variable (choose)

def calling : Request → Call Item
  | .insert v => .push v
  | .remove => .pop

theorem Sequential.retrying (h : Sequential stack cost Rests) (rests : Rests m values) (r : Request) :
    ∃ m', Returns (stack.retrying.solo choose) (cost m + 1) (stack.enter (calling r)) m m'
        (.ofServed (respond r values).1) [] ∧ Rests m' (respond r values).2 := by
  obtain ⟨m', run, rests⟩ := h.serves r rests
  refine ⟨m', ?_, rests⟩
  cases r with
  | insert v => exact .silent rfl (returns_retrying (some _) values run)
  | remove => exact (returns_retrying none values run).mono (Nat.le_succ _)

end Retrying

/-- Nothing disturbs the stack as long as no attempts are to be refused. -/
theorem Sequential.disturbed (h : Sequential stack cost Rests) :
    Sequential stack.disturbed (fun m => cost m.memory + 1)
      fun m values => m.refusals = 0 ∧ Rests m.memory values := by
  constructor
  rintro ⟨m, refusals⟩ values r ⟨rfl, rests⟩
  obtain ⟨m', run, rests⟩ := h.serves r rests
  refine ⟨⟨m', 0⟩, ?_, rfl, rests⟩
  have through : Returns (quiet stack.disturbed.step) (cost m) (.through (stack.entry (stack.ready m r).2))
      ⟨(stack.ready m r).1, 0⟩ ⟨m', 0⟩ (respond r values).1 [] := by
    refine run.lift DisturbedLabel.through (fun m => Disturbed.mk m 0) _ (fun goes => ?_) (fun gives => ?_)
    · simp [quiet, AttemptStack.disturbed, disturbedStep, step_of_quiet goes]
    · simp [quiet, AttemptStack.disturbed, disturbedStep, step_of_quiet gives]
  cases r <;> exact .silent rfl through

end AttemptStack

namespace EliminationStack

open AttemptStack (Sequential respond)

variable {Inner Item L : Type} {stack : AttemptStack Inner Item L} {Rests : Inner → List Value → Prop}
  {cost : Inner → Nat} {n : Nat} {l : L} {inner inner' : Inner} {values : List Value}
  {events : List Event} {choose : Label Item L → Memory Inner → EliminationArray.Choice}

def Label.attempting : Option Item → L → Label Item L
  | some item, l => .pushing item l
  | none, l => .popping l

theorem returns_attempting (carried : Option Item) (values : List Value) (array : EliminationArray.Memory)
    (run : Returns (quiet stack.step) n l inner inner' (respond (stack.asking carried) values).1 events) :
    Returns ((algorithm stack).solo choose) n (.attempting carried l) ⟨inner, array⟩ ⟨inner', array⟩
      (.found (Discipline.lifo.serve (stack.asking carried) values).1) events := by
  refine run.lift (Label.attempting carried) (fun inner => Memory.mk inner array) _ (fun goes => ?_)
    (fun gives => ?_)
  · obtain ⟨step, rfl⟩ := step_of_quiet goes
    cases carried <;> simp [Algorithm.solo, algorithm, EliminationStack.step, Label.attempting, pushAttempt,
      popAttempt, step]
  · obtain ⟨step, rfl⟩ := step_of_quiet gives
    cases carried <;> simp [Algorithm.solo, algorithm, EliminationStack.step, Label.attempting, pushAttempt,
      popAttempt, step, AttemptStack.asking, respond, Discipline.serve]

variable (choose) in
/-- A request is served by the inner stack, and the array stays as it is. -/
theorem serves (h : Sequential stack cost Rests) (rests : Rests inner values) (r : Request)
    (array : EliminationArray.Memory) :
    ∃ inner', Returns ((algorithm stack).solo choose) (cost inner + 1) ((algorithm stack).enter r)
        ⟨inner, array⟩ ⟨inner', array⟩ (.found (Discipline.lifo.serve r values).1) [] ∧
      Rests inner' (Discipline.lifo.serve r values).2 := by
  obtain ⟨inner', run, rests⟩ := h.serves r rests
  cases r with
  | insert v => exact ⟨inner', .silent rfl (returns_attempting (some _) values array run), rests⟩
  | remove => exact ⟨inner', (returns_attempting none values array run).mono (Nat.le_succ _), rests⟩

end EliminationStack

namespace TreiberStack

open AttemptStack (Sequential)

variable {m : Memory} {values : List Value}

/-- Nobody is at the stack, and it holds the values. -/
abbrev Rests (m : Memory) (values : List Value) : Prop := Good (fun _ => .idle) m values

/-- Nobody swings the head in between. -/
theorem push_returns (m : Memory) (node : Nat) :
    ∃ m', Returns (quiet step) 3 (.pushLoad node) m m' .pushed [] := by
  let linked : Memory := { m with nodes := m.nodes.modify node fun n => { n with next := m.head } }
  have swings : quiet step (.pushSwing node m.head) linked =
      ⟨{ linked with head := some node }, .returned .pushed, []⟩ := by
    simp [quiet, step, linked]
  exact ⟨_, .silent rfl (.silent rfl (.now swings))⟩

theorem pop_returns (m : Memory) :
    ∃ m' found, Returns (quiet step) 3 .popLoad m m' (.popped found) [] := by
  cases head : m.head with
  | none =>
    have empty : quiet step .popLoad m = ⟨m, .returned (.popped none), []⟩ := by
      simp [quiet, step, head]
    exact ⟨_, _, .now empty⟩
  | some seen =>
    have loads : quiet step .popLoad m = ⟨m, .running (.popNext seen), []⟩ := by
      simp [quiet, step, head]
    have swings : quiet step (.popSwing seen (m.next seen)) m =
        ⟨{ m with head := m.next seen, retired := seen :: m.retired },
          .returned (.popped (some (m.value seen))), []⟩ := by
      simp [quiet, step, head]
    exact ⟨_, _, .silent loads (.silent rfl (.now swings))⟩

theorem sequential : Sequential attempts (fun _ => 3) Rests := by
  constructor
  intro m values r rests
  cases r with
  | insert v =>
    have held := (law.prepare (i := 0) v rests rfl).2
    obtain ⟨_, pushing⟩ := law.push held (Function.update_self _ _ _)
    rw [Function.update_idem] at pushing
    obtain ⟨m', run⟩ := push_returns (prepare v m).1 (prepare v m).2.node
    exact ⟨m', run, (law.returns (some _) (fun _ => rfl) run pushing nofun).2⟩
  | remove =>
    obtain ⟨_, popping⟩ := law.pop (i := 0) rests rfl
    obtain ⟨m', found, run⟩ := pop_returns m
    obtain ⟨answer, rests⟩ := law.returns none (fun _ => rfl) run popping nofun
    rw [answer] at run
    exact ⟨m', run, rests⟩

variable {choose : AttemptStack.Position Item Label → Memory → Unit}

theorem Rests.serves (h : Rests m values) (r : Request) :
    ∃ m', Returns (Container.treiberStack.solo choose) 4 (Container.treiberStack.enter r) m m'
        (.ok (Discipline.lifo.serve r values).1) [] ∧ Rests m' (Discipline.lifo.serve r values).2 := by
  obtain ⟨m', run, rests⟩ := sequential.retrying choose h r
  cases r with
  | insert v | remove => exact ⟨m', run.via _ _, rests⟩

theorem Rests.looks (h : Rests m values) :
    Returns (attempts.retrying.solo choose) 1 (attempts.enter .isEmpty) m m
      (.emptiness values.isEmpty) [] := by
  rw [h.isEmpty_eq]
  exact .now rfl

end TreiberStack

namespace LockedStore

open AttemptStack (Sequential respond)

variable {LockMemory L Token : Type} {lock : Lock LockMemory L Token} {acquire entry : L}
  {Idle : LockMemory → Prop} {cost : LockMemory → Nat} {n : Nat}
  {l : SectionLabel L Token Store AttemptAnswer} {m m' : Guarded LockMemory Store}
  {found : Option AttemptAnswer} {events : List Event}

theorem returns_attempt (run : Returns lock.guardedStep n l m m' found events) :
    Returns (quiet (attemptStep lock)) n l m m' (found.getD .contended) events := by
  have told (l : SectionLabel L Token Store AttemptAnswer) (m : Guarded LockMemory Store) :
      (lock.guardedStep l m).events = [] := by
    cases l with
    | entering | leaving => rfl
    | inside token body => cases body <;> rfl
  refine run.lift id id _ (fun goes => ?_) (fun gives => ?_)
  · obtain rfl := (congrArg Effect.events goes).symm.trans (told _ _)
    simp [quiet, attemptStep, goes, Status.mapAnswer]
  · obtain rfl := (congrArg Effect.events gives).symm.trans (told _ _)
    simp [quiet, attemptStep, gives, Status.mapAnswer]

theorem sequential (cycles : ∀ m, Idle m → lock.Cycles (cost m) entry Idle m) :
    Sequential (attemptsUnder lock acquire entry) (fun m => 3 + 2 * cost m.lock) (Rests Idle) := by
  constructor
  intro m values r rests
  obtain ⟨left, run, idle⟩ := (cycles _ rests.idle).returns (.update (served r)) m.data
  obtain ⟨answer, contents⟩ := served_eq r m.data
  rw [rests.holds] at answer contents
  refine ⟨⟨left, (served r m.data).1⟩, ?_, idle, contents⟩
  have attempt := returns_attempt run
  rw [Section.run_update, Option.getD_some, answer] at attempt
  cases r with
  | insert v | remove => exact attempt

end LockedStore

end SharedMemory
