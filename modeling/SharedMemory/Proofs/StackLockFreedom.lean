import SharedMemory.Proofs.QueueLockFreedom
import SharedMemory.Proofs.TreiberOrder

/-!
# The lock-free stack makes progress

A push or a pop reads the head once in an iteration of its loop, and swings it if it is still the same.
So only a swing can spoil an iteration, and each is the last step of its own operation.
-/
namespace SharedMemory.TreiberStack

open AttemptStack

/-- A compare-and-swap on the head that links a node or unlinks one. -/
inductive Swap
  | push (node : Nat)
  | pop (seen : Nat)
  deriving DecidableEq

def Label.swapped? (m : Memory) : Label → Option Swap
  | .pushSwing node seen => if m.head = seen then some (.push node) else none
  | .popSwing seen _ => if m.head = some seen then some (.pop seen) else none
  | _ => none

def swapped? (m : Memory) : Position Item Label → Option Swap
  | .prepare _ _ => none
  | .pushing _ _ l | .popping _ l | .looking l => l.swapped? m

def begins : Position Item Label → Bool
  | .pushing _ _ (.pushLoad _) | .popping _ .popLoad => true
  | _ => false

/-- The head that the thread has read is still the head. -/
def Label.fresh (m : Memory) : Label → Bool
  | .pushLink _ seen | .pushSwing _ seen => m.head = seen
  | .popNext seen | .popSwing seen _ => m.head = some seen
  | .pushLoad _ | .popLoad | .look => true

/-- The steps to the end of the iteration. A look is part of no iteration. -/
def Label.distance : Label → Nat
  | .look => 4
  | .pushLoad _ | .popLoad => 3
  | .pushLink _ _ | .popNext _ => 2
  | .pushSwing _ _ | .popSwing _ _ => 1

def Label.weight (m : Memory) (l : Label) : Nat := l.distance + if l.fresh m then 0 else 3

def weight (m : Memory) : Position Item Label → Nat
  | .prepare _ _ => 4
  | .pushing _ _ l | .popping _ l | .looking l => l.weight m

section Weight

variable {m : Memory} {l : Label}

theorem Label.weight_le (m : Memory) (l : Label) : l.weight m ≤ 7 := by
  have : l.distance ≤ 4 := by cases l <;> simp [distance]
  unfold weight
  split <;> omega

theorem head_step (quiet : l.swapped? m = none) : (step l m).1.head = m.head := by
  cases l with
  | pushSwing node seen =>
    have stale : m.head ≠ seen := by simpa [Label.swapped?] using quiet
    simp [step, stale]
  | popSwing seen next =>
    have stale : m.head ≠ some seen := by simpa [Label.swapped?] using quiet
    simp [step, stale]
  | _ => rfl

theorem head_retryStep {p : Position Item Label} (quiet : swapped? m p = none) :
    (attempts.retryStep p m).memory.head = m.head := by
  cases p with
  | prepare => rfl
  | pushing | popping | looking => exact head_step quiet

theorem weight_of_head {m' : Memory} (head : m'.head = m.head) (p : Position Item Label) :
    weight m' p = weight m p := by
  have fresh : ∀ l : Label, l.fresh m' = l.fresh m := by
    intro l
    cases l <;> simp only [Label.fresh, head]
  cases p <;> simp only [weight, Label.weight, fresh]

/-- A step that swings nothing leads on, finds the stack empty, or fails with an old head. -/
theorem weight_step (quiet : l.swapped? m = none) :
    match (step l m).2 with
    | .running l' => l'.weight m < l.weight m
    | .returned (.popped _) => True
    | .returned _ => 3 < l.weight m := by
  cases l with
  | pushLoad node => simp [step, Label.weight, Label.fresh, Label.distance]
  | pushLink node seen => simp [step, Label.weight, Label.fresh, Label.distance]
  | pushSwing node seen =>
    have stale : m.head ≠ seen := by simpa [Label.swapped?] using quiet
    simp [step, Label.weight, Label.fresh, Label.distance, stale]
  | popLoad =>
    cases head : m.head <;> simp [step, Label.weight, Label.fresh, Label.distance, head]
  | popNext seen => simp [step, Label.weight, Label.fresh, Label.distance]
  | popSwing seen next =>
    have stale : m.head ≠ some seen := by simpa [Label.swapped?] using quiet
    simp [step, Label.weight, Label.fresh, Label.distance, stale]
  | look => simp [step, Label.weight, Label.fresh, Label.distance]

theorem weight_falls {p p' : Position Item Label} (quiet : swapped? m p = none)
    (goes : (attempts.retryStep p m).status = .running p') : weight m p' < weight m p := by
  cases p with
  | prepare v untilServed =>
    cases untilServed <;> cases goes
    simp [weight, attempts, Label.weight, Label.fresh, Label.distance]
  | pushing item untilServed l =>
    have falls := weight_step (l := l) quiet
    change attempts.afterPush item untilServed (step l m).2 = _ at goes
    rcases hs : (step l m).2 with l' | a
    · rw [hs] at goes falls
      cases goes
      exact falls
    · rw [hs] at goes falls
      cases a <;> cases untilServed <;> cases goes
      exact falls
  | popping untilServed l =>
    have falls := weight_step (l := l) quiet
    change attempts.afterPop untilServed (step l m).2 = _ at goes
    rcases hs : (step l m).2 with l' | a
    · rw [hs] at goes falls
      cases goes
      exact falls
    · rw [hs] at goes falls
      cases a <;> cases untilServed <;> cases goes <;> exact falls
  | looking l =>
    have falls := weight_step (l := l) quiet
    simp only [AttemptStack.retryStep] at goes
    split at goes
    · next l' hs =>
      cases goes
      rwa [show (step l m).2 = .running l' from hs] at falls
    · cases goes
    · cases goes

def ranking : Ranking attempts.retrying swapped? begins where
  weight := weight
  most := 7
  full := 3
  weight_le m p := by
    cases p with
    | prepare => simp [weight]
    | pushing _ _ l | popping _ l | looking l => exact l.weight_le m
  weight_begins m p h := by
    unfold begins at h
    split at h
    · rfl
    · rfl
    · cases h
  still quiet _ p := weight_of_head (head_retryStep quiet) p
  falls quiet _ _ goes := weight_falls quiet goes

end Weight

section Counts

variable {programs : List (List (Call Item))} {schedule : List (Turn Unit)}

/-- Pushes are at the labels of a push and pops at those of a pop. -/
def Proper : Position Item Label → Prop
  | .prepare _ _ => True
  | .pushing _ _ (.pushLoad _) | .pushing _ _ (.pushLink _ _) | .pushing _ _ (.pushSwing _ _) => True
  | .popping _ .popLoad | .popping _ (.popNext _) | .popping _ (.popSwing _ _) => True
  | .looking .look => True
  | _ => False

theorem proper_step {p p' : Position Item Label} {m : Memory} (proper : Proper p)
    (goes : (attempts.retryStep p m).status = .running p') : Proper p' := by
  unfold Proper at proper
  split at proper
  · next v untilServed =>
    cases untilServed <;> cases goes
    trivial
  · cases goes
    trivial
  · cases goes
    trivial
  · next item untilServed node seen =>
    simp only [AttemptStack.retryStep, attempts, step] at goes
    split at goes
    · cases goes
    · cases untilServed <;> cases goes
      trivial
  · next untilServed =>
    simp only [AttemptStack.retryStep, attempts, step] at goes
    split at goes <;> cases goes
    trivial
  · cases goes
    trivial
  · next untilServed seen link =>
    simp only [AttemptStack.retryStep, attempts, step] at goes
    split at goes
    · cases goes
    · cases untilServed <;> cases goes
      trivial
  · cases goes
  · exact absurd proper id

theorem proper_after {i : Nat} {p : Position Item Label}
    (here : (after programs schedule).label i = some p) : Proper p :=
  attempts.retrying.label_after {} programs (fun c => by cases c <;> trivial)
    (fun _ _ _ _ proper goes => proper_step proper goes) here

/-- The head is swung at the end of a push or of a pop. -/
theorem position_of_swapped {p : Position Item Label} {m : Memory} {w : Swap} (proper : Proper p)
    (swap : swapped? m p = some w) :
    (∃ item untilServed node, w = .push node ∧ p = .pushing item untilServed (.pushSwing node m.head)) ∨
      ∃ untilServed seen link, w = .pop seen ∧ p = .popping untilServed (.popSwing seen link) ∧
        m.head = some seen := by
  unfold Proper at proper
  split at proper
  · cases swap
  · cases swap
  · cases swap
  · next item untilServed node seen =>
    simp only [swapped?, Label.swapped?] at swap
    split at swap
    · next head =>
      cases swap
      exact .inl ⟨item, untilServed, node, rfl, by rw [head]⟩
    · cases swap
  · cases swap
  · cases swap
  · next untilServed seen link =>
    simp only [swapped?, Label.swapped?] at swap
    split at swap
    · next head =>
      cases swap
      exact .inr ⟨untilServed, seen, link, rfl, rfl, head⟩
    · cases swap
  · cases swap
  · exact absurd proper id

/-- A swing is the last step of its operation. -/
theorem returned_of_swapped {p p' : Position Item Label} {m : Memory} {w : Swap} (proper : Proper p)
    (swap : swapped? m p = some w) : (attempts.retryStep p m).status ≠ .running p' := by
  rcases position_of_swapped proper swap with ⟨_, _, _, _, rfl⟩ | ⟨_, _, _, _, rfl, head⟩
  · simp [AttemptStack.retryStep, attempts, step, AttemptStack.afterPush]
  · simp [AttemptStack.retryStep, attempts, step, AttemptStack.afterPop, head]

def Swap.pushes : Swap → Bool
  | .push _ => true
  | .pop _ => false

def Swap.pops : Swap → Bool
  | .pop _ => true
  | .push _ => false

def pushes : Call Item → Bool
  | .push _ | .attemptPush _ => true
  | _ => false

def pops : Call Item → Bool
  | .pop | .attemptPop => true
  | _ => false

/-- There are no more swings of a kind than calls that may end in one. -/
theorem countP_swings_le {some_swap : Swap → Bool} {kind : Call Item → Bool}
    (due : ∀ m p w, Proper p → swapped? m p = some w → some_swap w → kind (callAt p))
    (programs : List (List (Call Item))) (schedule : List (Turn Unit)) :
    (attempts.retrying.notes {} programs swapped? schedule).countP some_swap ≤
      programs.flatten.countP kind := by
  refine countP_notes_le (fun _ => False) (fun _ _ _ _ _ h => h) ?_ ?_ schedule
  · rintro schedule i p _ p' here (impossible | ⟨w, swap, _⟩) goes
    · exact impossible
    · exact returned_of_swapped (proper_after here) swap goes
  · intro schedule i p w here swap of_kind
    exact ⟨_, (called programs schedule here).1, due _ p w (proper_after here) swap of_kind⟩

/-- A call that ends in a swing is of the same kind. -/
theorem kind_of_swapped {p : Position Item Label} {m : Memory} {w : Swap} (proper : Proper p)
    (swap : swapped? m p = some w) : pushes (callAt p) = w.pushes ∧ pops (callAt p) = w.pops := by
  rcases position_of_swapped proper swap with
    ⟨_, untilServed, _, rfl, rfl⟩ | ⟨untilServed, _, _, rfl, rfl, _⟩
  · cases untilServed <;> exact ⟨rfl, rfl⟩
  · cases untilServed <;> exact ⟨rfl, rfl⟩

theorem length_swings_le (programs : List (List (Call Item))) (schedule : List (Turn Unit)) :
    (attempts.retrying.notes {} programs swapped? schedule).length ≤
      programs.flatten.countP pushes + programs.flatten.countP pops := by
  have kinds : ∀ ws : List Swap, ws.length = ws.countP Swap.pushes + ws.countP Swap.pops := by
    intro ws
    induction ws with
    | nil => rfl
    | cons w ws ih => cases w <;> simp [List.countP_cons, Swap.pushes, Swap.pops] <;> omega
  rw [kinds]
  refine Nat.add_le_add (countP_swings_le (fun _ _ _ proper swap push => ?_) programs schedule)
    (countP_swings_le (fun _ _ _ proper swap pop => ?_) programs schedule)
  · rwa [(kind_of_swapped proper swap).1]
  · rwa [(kind_of_swapped proper swap).2]

end Counts

section Alone

variable {choose : Position Item Label → Memory → Unit} {m : Memory} {item : Item} {untilServed : Bool}

theorem settles_push (m : Memory) (item : Item) (untilServed : Bool) (node : Nat) :
    Settles attempts.retrying begins choose 1 m (.pushing item untilServed (.pushLoad node)) := by
  refine .step (j := 0) (.pushing item untilServed (.pushLink node m.head)) rfl ?_ (Nat.le_refl _)
  refine .step (j := 0) (.pushing item untilServed (.pushSwing node m.head)) rfl ?_ (Nat.le_refl _)
  refine .last (a := .pushed) ?_ (Nat.le_refl _)
  simp [retrying, retryStep, attempts, step, AttemptStack.afterPush]

theorem settles_pop (m : Memory) (untilServed : Bool) :
    Settles attempts.retrying begins choose 1 m (.popping untilServed .popLoad) := by
  cases head : m.head with
  | none =>
    refine .last (a := .popped none) ?_ (Nat.le_refl _)
    simp [retrying, retryStep, attempts, step, AttemptStack.afterPop, head]
  | some seen =>
    refine .step (j := 0) (.popping untilServed (.popNext seen)) ?_ ?_ (Nat.le_refl _)
    · simp [retrying, retryStep, attempts, step, AttemptStack.afterPop, head]
    refine .step (j := 0) (.popping untilServed (.popSwing seen (m.next seen))) rfl ?_
      (Nat.le_refl _)
    refine .last (a := .popped (some (m.value seen))) ?_ (Nat.le_refl _)
    simp [retrying, retryStep, attempts, step, AttemptStack.afterPop, head]

/-- A push that had read the head before is served, or is sent back once. -/
theorem settles_pushSwing (m : Memory) (item : Item) (untilServed : Bool) (node : Nat)
    (seen : Option Nat) :
    Settles attempts.retrying begins choose 1 m (.pushing item untilServed (.pushSwing node seen)) := by
  by_cases head : m.head = seen
  · refine .last (a := .pushed) ?_ (Nat.zero_le _)
    simp [retrying, retryStep, attempts, step, AttemptStack.afterPush, head]
  cases untilServed with
  | false =>
    refine .last (a := .handedBack item) ?_ (Nat.zero_le _)
    simp [retrying, retryStep, attempts, step, AttemptStack.afterPush, head]
  | true =>
    refine .step (j := 1) (.pushing item true (.pushLoad item.node)) ?_ (settles_push _ _ _ _)
      (Nat.le_refl _)
    simp [retrying, retryStep, attempts, step, AttemptStack.afterPush, head]

theorem settles_popSwing (m : Memory) (untilServed : Bool) (seen : Nat) (link : Option Nat) :
    Settles attempts.retrying begins choose 1 m (.popping untilServed (.popSwing seen link)) := by
  by_cases head : m.head = some seen
  · refine .last (a := .popped (some (m.value seen))) ?_ (Nat.zero_le _)
    simp [retrying, retryStep, attempts, step, AttemptStack.afterPop, head]
  cases untilServed with
  | false =>
    refine .last (a := .interfered) ?_ (Nat.zero_le _)
    simp [retrying, retryStep, attempts, step, AttemptStack.afterPop, head]
  | true =>
    refine .step (j := 1) (.popping true .popLoad) ?_ (settles_pop _ _) (Nat.le_refl _)
    simp [retrying, retryStep, attempts, step, AttemptStack.afterPop, head]

theorem settles {p : Position Item Label} (proper : Proper p) (m : Memory) :
    Settles attempts.retrying begins choose 1 m p := by
  unfold Proper at proper
  split at proper
  · next v untilServed =>
    cases untilServed with
    | false => exact .last (a := .prepared ⟨m.nodes.size, v⟩) rfl (Nat.zero_le _)
    | true => exact .step (j := 1) _ rfl (settles_push _ _ _ _) (Nat.le_refl _)
  · exact settles_push m _ _ _
  · exact .step (j := 1) _ rfl (settles_pushSwing _ _ _ _ _) (Nat.le_refl _)
  · exact settles_pushSwing m _ _ _ _
  · exact settles_pop m _
  · exact .step (j := 1) _ rfl (settles_popSwing _ _ _ _) (Nat.le_refl _)
  · exact settles_popSwing m _ _ _
  · exact .last (a := .emptiness m.head.isNone) rfl (Nat.zero_le _)
  · exact absurd proper id

end Alone

theorem lockFree (programs : List (List (Call Item))) :
    LockFree attempts.retrying {} swapped? begins 1 programs := by
  refine ranking.lockFree _ (length_swings_le programs) ?_
  rintro schedule p (⟨i, here⟩ | ⟨c, rfl⟩) choose
  · exact settles (proper_after here) _
  · exact settles (by cases c <;> trivial) _

end SharedMemory.TreiberStack

namespace SharedMemory

/-- Whatever the programs, no run of the queue or of the stack is infinite and no iteration of a loop
is spoiled but by a swap that succeeds. There are no more links and no more moves of the tail than
enqueues, no more moves of the head than dequeues, and no more swings of a stack's head than pushes and
pops. A lone call of the queue returns within two iterations, one of the stack within one. -/
theorem queue_and_stack_lock_free :
    (∀ programs : List (List MichaelScottQueue.Call),
      LockFree MichaelScottQueue.algorithm {} MichaelScottQueue.swapped? MichaelScottQueue.begins 2
          programs ∧
        ∀ schedule,
          (MichaelScottQueue.swaps programs schedule).countP MichaelScottQueue.Swap.links ≤
              programs.flatten.countP MichaelScottQueue.Call.enqueues ∧
            (MichaelScottQueue.swaps programs schedule).countP MichaelScottQueue.Swap.movesTail ≤
              programs.flatten.countP MichaelScottQueue.Call.enqueues ∧
            (MichaelScottQueue.swaps programs schedule).countP MichaelScottQueue.Swap.movesHead ≤
              programs.flatten.countP MichaelScottQueue.Call.dequeues) ∧
      ∀ programs : List (List (AttemptStack.Call TreiberStack.Item)),
        LockFree TreiberStack.attempts.retrying {} TreiberStack.swapped? TreiberStack.begins 1
            programs ∧
          ∀ schedule,
            (TreiberStack.attempts.retrying.notes {} programs TreiberStack.swapped? schedule).length ≤
              programs.flatten.countP TreiberStack.pushes +
                programs.flatten.countP TreiberStack.pops := by
  refine ⟨fun programs => ⟨MichaelScottQueue.lockFree programs, fun schedule => ?_⟩,
    fun programs => ⟨TreiberStack.lockFree programs, TreiberStack.length_swings_le programs⟩⟩
  have links := MichaelScottQueue.countP_links_le programs schedule
  have tails := MichaelScottQueue.countP_movesTail_le programs schedule
  exact ⟨links, Nat.le_trans tails links, MichaelScottQueue.countP_movesHead_le programs schedule⟩

end SharedMemory
