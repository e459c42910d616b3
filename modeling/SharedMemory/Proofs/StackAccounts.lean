import SharedMemory.Proofs.NodeAccounts
import SharedMemory.Proofs.StackLockFreedom

/-!
# The accounts of the lock-free stack

A push gives its node away when it swings the head to it, and a pop retires the node that it swings the
head past.
-/
namespace SharedMemory.TreiberStack

open AttemptStack (Call Position Answer Phase)

def Memory.books (m : Memory) : NodeBooks := ⟨m.nodes.size, m.next, m.head, m.linked, m.retired, m.discarded⟩

section Step

variable {phases : Nat → Phase Item Label} {m : Memory} {values : List Value} {i : Nat} {item : Item}
  {l : Label} {link : Option Nat} {nodes : List Nat}

theorem Chain.frees (h : Chain m link nodes) : Frees m.next link nodes := by
  induction nodes generalizing link with
  | nil =>
    obtain rfl : link = none := h
    exact .done
  | cons node nodes ih =>
    obtain ⟨rfl, _, rest⟩ := h
    exact .free (ih rest)

theorem Good.walk (h : Good phases m values) : Frees m.books.next m.books.head m.books.reachable := by
  obtain ⟨nodes, holds⟩ := h.holds
  have walk := holds.chain.frees
  rwa [← holds.chain.linked_eq] at walk

theorem Good.linked_eq_of_frame (h : Good phases m values) {m' : Memory} (head : m'.head = m.head)
    (size : m.nodes.size ≤ m'.nodes.size)
    (next : ∀ n < m.nodes.size, (∀ j, node? (phases j) ≠ some n) → m'.next n = m.next n) :
    m'.linked = m.linked := by
  obtain ⟨nodes, holds⟩ := h.holds
  have chain : Chain m' m'.head nodes := by
    rw [head]
    refine holds.chain.frame size fun n hn => ?_
    exact next n (holds.chain.allocated n hn) fun j mine => holds.nobody j n mine hn
  exact chain.linked_eq.trans holds.chain.linked_eq.symm

theorem Good.settled_prepare (h : Good phases m values) (v : Value) :
    (TreiberStack.prepare v m).1.books.settled = m.books.settled := by
  have linked : (TreiberStack.prepare v m).1.linked = m.linked := by
    refine h.linked_eq_of_frame rfl (by simp [TreiberStack.prepare]) fun n hn _ => ?_
    simp [TreiberStack.prepare, Memory.next, Array.getElem?_push, Nat.ne_of_lt hn]
  exact congrArg (· ++ m.retired ++ m.discarded) linked

theorem Good.settled_discard (h : Good phases m values) (item : Item) :
    (attempts.discard item m).books.settled.Perm (item.node :: m.books.settled) := by
  have linked : (attempts.discard item m).linked = m.linked :=
    h.linked_eq_of_frame rfl (Nat.le_refl _) fun _ _ _ => rfl
  simp only [Memory.books, NodeBooks.settled, linked]
  exact List.perm_middle

/-- An attempt to push gives its node away if it swings the head. -/
theorem Good.settled_pushing (h : Good phases m values) (here : phases i = .pushing item l) :
    (step l m).2 ≠ .returned .pushed ∧ (step l m).1.books.settled = m.books.settled ∨
      (step l m).2 = .returned .pushed ∧
        (step l m).1.books.settled = item.node :: m.books.settled := by
  have stands := h.stands i
  rw [here] at stands
  obtain ⟨nodes, holds⟩ := h.holds
  cases l with
  | pushLoad node => exact .inl ⟨by simp [step], rfl⟩
  | pushLink node seen =>
    obtain ⟨_, rfl⟩ := stands
    have same : (step (.pushLink item.node seen) m).1.linked = m.linked := by
      refine h.linked_eq_of_frame rfl (by simp [step]) fun n _ nobody => ?_
      have other : item.node ≠ n := fun same => nobody i (by rw [here, ← same]; rfl)
      simp [step, Memory.next, Array.getElem?_modify, other]
    refine .inl ⟨by simp [step], ?_⟩
    exact congrArg (· ++ m.retired ++ m.discarded) same
  | pushSwing node seen =>
    obtain ⟨carries, rfl, behind⟩ := stands
    by_cases met : m.head = seen
    · subst met
      have chain : Chain { m with head := some item.node } (some item.node) (item.node :: nodes) := by
        refine ⟨rfl, carries.allocated, ?_⟩
        have rest : Chain { m with head := some item.node } m.head nodes :=
          holds.chain.frame (Nat.le_refl _) fun _ _ => rfl
        rw [← behind] at rest
        exact rest
      have linked : Memory.linked { m with head := some item.node } = item.node :: m.linked :=
        chain.linked_eq.trans (congrArg _ holds.chain.linked_eq.symm)
      refine .inr ⟨by simp [step], ?_⟩
      simp only [step, if_true]
      exact congrArg (· ++ m.retired ++ m.discarded) linked
    · exact .inl ⟨by simp [step, met], by simp [step, met]⟩
  | _ => exact absurd stands id

/-- An attempt to pop retires what it unlinks. -/
theorem Good.settled_popping (h : Good phases m values) (here : phases i = .popping l) :
    (step l m).1.books.settled.Perm m.books.settled := by
  have stands := h.stands i
  rw [here] at stands
  obtain ⟨nodes, holds⟩ := h.holds
  cases l with
  | popLoad | popNext => exact .refl _
  | popSwing seen link =>
    by_cases met : m.head = some seen
    swap
    · simp only [step, met, if_false]
      exact .refl _
    obtain ⟨_, rfl⟩ := stands
    have chain := holds.chain
    rw [met] at chain
    cases nodes with
    | nil => cases chain
    | cons node rest =>
      obtain ⟨first, _, behind⟩ := chain
      cases first
      have linked : Memory.linked { m with head := m.next seen, retired := seen :: m.retired } = rest :=
        Chain.linked_eq (behind.frame (Nat.le_refl _) fun _ _ => rfl)
      simp only [step, met, if_true, Memory.books, NodeBooks.settled, linked, holds.chain.linked_eq]
      rw [List.append_assoc, List.append_assoc]
      exact List.perm_middle
  | _ => exact absurd stands id

end Step

section Run

variable {programs : List (List (Call Item))} {t : Turn Unit} {earlier schedule : List (Turn Unit)}
  {v v' : View Memory (Position Item Label) (Answer Item)} {phases : Nat → Phase Item Label} {i : Nat}
  {item : Item} {untilServed : Bool} {l : Label} {m' : Memory}

def HasNode (programs : List (List (Call Item))) (v : View Memory (Position Item Label) (Answer Item))
    (i n : Nat) : Prop :=
  n ∈ (items programs v i).map Item.node

theorem holds_congr (others : ∀ j, j ≠ i → items programs v' j = items programs v j)
    (own : items programs v' i = items programs v i) (j n : Nat) :
    HasNode programs v' j n ↔ HasNode programs v j n := by
  by_cases hj : j = i
  · rw [HasNode, HasNode, hj, own]
  · rw [HasNode, HasNode, others j hj]

/-- A push that is served takes its item out of the hands of its thread. -/
theorem Seated.holds_pushed (h : Seated programs v phases)
    (others : ∀ j, j ≠ i → items programs v' j = items programs v j)
    (own : (items programs v i).Perm (item :: items programs v' i)) (j n : Nat) :
    HasNode programs v' j n ↔ HasNode programs v j n ∧ n ≠ item.node := by
  have nodes := own.map Item.node
  have fresh := (List.nodup_cons.mp (nodes.nodup_iff.mp (h.distinct i))).1
  by_cases hj : j = i
  · subst hj
    rw [HasNode, HasNode, nodes.mem_iff, List.map_cons, List.mem_cons]
    constructor
    · intro mem
      exact ⟨.inr mem, fun same => fresh (same ▸ mem)⟩
    · rintro ⟨same | mem, other⟩
      · exact absurd same other
      · exact mem
  · rw [HasNode, HasNode, others j hj, iff_self_and]
    rintro mem rfl
    exact hj (h.apart j i _ mem (nodes.mem_iff.mpr List.mem_cons_self))

theorem items_others (turn : v.Step attempts.retrying programs i () v') {j : Nat} (hj : j ≠ i) :
    items programs v' j = items programs v j := by
  obtain ⟨label, _⟩ := turn.others hj
  have answers : v'.answers j = v.answers j := by cases turn <;> simp [hj]
  rw [items, items, label, answers]

theorem items_served (here : v.label i = some (.pushing item untilServed l))
    (mine : item ∈ items programs v i)
    (next : (callsOf programs i)[(v.answers i).length]? =
      some (callAt (.pushing item untilServed l : Position Item Label))) :
    (items programs v i).Perm (item :: items programs (v.answer i m' .pushed []) i) := by
  rw [items_answer next]
  rw [items, here] at mine ⊢
  cases untilServed with
  | true => exact .refl _
  | false => exact List.perm_cons_erase mine

theorem balanced_pushing (sits : Sits programs v phases)
    (balanced : v.memory.books.Balanced (HasNode programs v))
    (turn : v.Step attempts.retrying programs i () v')
    (here : v.label i = some (.pushing item untilServed l))
    (next : (callsOf programs i)[(v.answers i).length]? =
      some (callAt (.pushing item untilServed l : Position Item Label)))
    (walk : Frees v'.memory.books.next v'.memory.books.head v'.memory.books.reachable) :
    v'.memory.books.Balanced (HasNode programs v') := by
  have mine := sits.seated.pushes i item untilServed l here
  have party : phases (holder item.node) = .pushing item l := by
    rw [sits.seated.holds i item mine, here, itemPhase_pushing]
  have others : ∀ j, j ≠ i → items programs v' j = items programs v j := fun j hj => items_others turn hj
  have settled := sits.good.settled_pushing party
  obtain ⟨_, outcome, _⟩ := sits.good.pushing party
  have size := size_step l v.memory
  have hv : v' = v.take i ⟨(step l v.memory).1,
    attempts.afterPush item untilServed (step l v.memory).2, []⟩ := turn.take here
  generalize step l v.memory = r at settled outcome size hv
  obtain ⟨m', s⟩ := r
  cases outcome with
  | goes l' =>
    obtain rfl : v' = v.move i m' (.pushing item untilServed l') [] := hv
    obtain ⟨_, settled⟩ := settled.resolve_right (by simp)
    refine balanced.same walk (.of_eq settled) size (holds_congr others ?_)
    rw [items_move, items, here]
    cases untilServed <;> rfl
  | serves =>
    obtain rfl : v' = v.answer i m' .pushed [] := hv
    obtain ⟨_, settled⟩ := settled.resolve_left fun h => h.1 rfl
    refine balanced.settle (List.mem_map_of_mem mine) walk (.of_eq settled) size ?_
    exact sits.seated.holds_pushed others (items_served here mine next)
  | refused =>
    obtain ⟨_, settled⟩ := settled.resolve_right (by simp)
    cases untilServed with
    | true =>
      obtain rfl : v' = v.move i m' (.pushing item true (.pushLoad item.node)) [] := hv
      refine balanced.same walk (.of_eq settled) size (holds_congr others ?_)
      rw [items_move, items, here]
      rfl
    | false =>
      obtain rfl : v' = v.answer i m' (.handedBack item) [] := hv
      refine balanced.same walk (.of_eq settled) size (holds_congr others ?_)
      rw [items_answer next, items, here]
      rfl
  | fixes _ _ fixed => cases fixed
  | done _ fixed => cases fixed

theorem items_popping (here : v.label i = some (.popping untilServed l))
    (next : (callsOf programs i)[(v.answers i).length]? =
      some (callAt (.popping untilServed l : Position Item Label)))
    (m' : Memory) (s : Status Label AttemptAnswer) :
    items programs (v.take i ⟨m', attempts.afterPop untilServed s, []⟩) i = items programs v i := by
  have own : items programs v i = hand (callsOf programs i) (v.answers i) := by
    rw [items, here]
    rfl
  have answered : ∀ a, (∀ held : List Item, keep held (callAt (.popping untilServed l), a) = held) →
      items programs (v.answer i m' a []) i = items programs v i := by
    intro a kept
    rw [items_answer next, kept, own]
  have moved : ∀ l', items programs (v.move i m' (.popping untilServed l') []) i =
      items programs v i := by
    intro l'
    rw [items_move, own]
    rfl
  rcases s with l' | a
  · exact moved l'
  · cases untilServed with
    | true =>
      cases a with
      | popped found => exact answered (.popped found) fun _ => rfl
      | _ => exact moved .popLoad
    | false =>
      cases a with
      | popped found => exact answered (.popped found) fun _ => rfl
      | _ => exact answered .interfered fun _ => rfl

theorem balanced_popping (sits : Sits programs v phases)
    (balanced : v.memory.books.Balanced (HasNode programs v))
    (turn : v.Step attempts.retrying programs i () v')
    (here : v.label i = some (.popping untilServed l))
    (next : (callsOf programs i)[(v.answers i).length]? =
      some (callAt (.popping untilServed l : Position Item Label)))
    (walk : Frees v'.memory.books.next v'.memory.books.head v'.memory.books.reachable) :
    v'.memory.books.Balanced (HasNode programs v') := by
  have party : phases (popper i) = .popping l := by
    rw [sits.seated.pops, here]
    rfl
  have others : ∀ j, j ≠ i → items programs v' j = items programs v j := fun j hj => items_others turn hj
  have hv : v' = v.take i ⟨(step l v.memory).1,
    attempts.afterPop untilServed (step l v.memory).2, []⟩ := turn.take here
  have memory : v'.memory = (step l v.memory).1 := by rw [hv, View.memory_take]
  have own : items programs v' i = items programs v i := hv ▸ items_popping here next _ _
  rw [memory] at walk ⊢
  exact balanced.same walk (sits.good.settled_popping party) (size_step l v.memory)
    (holds_congr others own)

theorem items_prepared {value : Value} (here : v.label i = some (.prepare value untilServed))
    (next : (callsOf programs i)[(v.answers i).length]? =
      some (callAt (.prepare value untilServed : Position Item Label))) :
    items programs (v.take i (attempts.retryStep (.prepare value untilServed) v.memory)) i =
      ⟨v.memory.nodes.size, value⟩ :: items programs v i := by
  have own : items programs v i = hand (callsOf programs i) (v.answers i) := by
    rw [items, here]
    rfl
  rw [own]
  cases untilServed with
  | true => exact items_move ..
  | false => exact items_answer next ..

theorem balanced_preparing {value : Value} (sits : Sits programs v phases)
    (balanced : v.memory.books.Balanced (HasNode programs v))
    (turn : v.Step attempts.retrying programs i () v')
    (here : v.label i = some (.prepare value untilServed))
    (next : (callsOf programs i)[(v.answers i).length]? =
      some (callAt (.prepare value untilServed : Position Item Label)))
    (walk : Frees v'.memory.books.next v'.memory.books.head v'.memory.books.reachable) :
    v'.memory.books.Balanced (HasNode programs v') := by
  have hv := turn.take here
  have own : items programs v' i = _ := hv ▸ items_prepared here next
  have memory : v'.memory = (prepare value v.memory).1 := by
    rw [hv, View.memory_take]
    rfl
  rw [memory] at walk ⊢
  refine balanced.grow i walk (.of_eq (sits.good.settled_prepare value)) (by simp [Memory.books, prepare])
    fun j n => ?_
  by_cases hj : j = i
  · rw [HasNode, HasNode, hj, own, List.map_cons, List.mem_cons]
    simp [or_comm, Memory.books]
  · rw [HasNode, HasNode, items_others turn hj]
    simp [hj]

/-- A turn that changes neither the memory nor what its thread has. -/
theorem balanced_still (balanced : v.memory.books.Balanced (HasNode programs v))
    (turn : v.Step attempts.retrying programs i () v') (memory : v'.memory = v.memory)
    (own : items programs v' i = items programs v i) :
    v'.memory.books.Balanced (HasNode programs v') := by
  rw [memory]
  exact balanced.same balanced.walk (.refl _) rfl (holds_congr (fun j hj => items_others turn hj) own)

theorem balanced_turn (own : owning programs (t :: earlier))
    (balanced : (after programs earlier).memory.books.Balanced (HasNode programs (after programs earlier))) :
    (after programs (t :: earlier)).memory.books.Balanced
      (HasNode programs (after programs (t :: earlier))) := by
  obtain ⟨phases, sits⟩ := exists_sits earlier (owning_of_suffix (List.suffix_cons t earlier) own)
  obtain ⟨phases', sits'⟩ := exists_sits (t :: earlier) own
  have walk := sits'.good.walk
  have turn := turn programs t earlier
  have called := fun p => called programs earlier (i := t.thread) (l := p)
  generalize after programs (t :: earlier) = v', after programs earlier = v at *
  rcases turn.rest_or_enter_or_take with ⟨_, rfl⟩ | ⟨c, outside, _, hv⟩ | ⟨p, here, hv⟩
  · exact balanced
  · exact balanced_still balanced turn (hv ▸ rfl) (hv ▸ items_enter outside)
  · obtain ⟨next, looks⟩ := called p here
    have next : (callsOf programs t.thread)[(v.answers t.thread).length]? = some (callAt p) := next
    cases p with
    | prepare => exact balanced_preparing sits balanced turn here next walk
    | pushing => exact balanced_pushing sits balanced turn here next walk
    | popping => exact balanced_popping sits balanced turn here next walk
    | looking l =>
      obtain rfl : l = .look := looks
      obtain rfl : v' = v.answer t.thread v.memory (.emptiness v.memory.head.isNone) [] := hv
      refine balanced_still balanced turn rfl ?_
      rw [items_answer next, items, here]
      rfl

theorem balanced_after (schedule : List (Turn Unit)) (own : owning programs schedule) :
    (after programs schedule).memory.books.Balanced (HasNode programs (after programs schedule)) := by
  induction schedule with
  | nil =>
    rw [after, Algorithm.viewAfter_nil]
    exact .of_nobody .done (.refl _) fun i n => by simp [HasNode, items_start]
  | cons t earlier ih => exact balanced_turn own (ih (owning_of_suffix (List.suffix_cons t earlier) own))

/-- The node that a step unlinks: it swings the head past it. -/
def Label.unlinked? (m : Memory) (l : Label) : Option Nat :=
  match l.swapped? m with
  | some (.pop seen) => some seen
  | _ => none

def unlinked? (m : Memory) : Position Item Label → Option Nat
  | .prepare _ _ => none
  | .pushing _ _ l | .popping _ l | .looking l => l.unlinked? m

theorem retired_step (l : Label) (m : Memory) :
    (step l m).1.retired = (l.unlinked? m).toList ++ m.retired ∧
      (step l m).1.discarded = m.discarded := by
  cases l with
  | pushSwing _ seen =>
    by_cases met : m.head = seen <;> simp [step, met, Label.unlinked?, Label.swapped?]
  | popSwing seen _ =>
    by_cases met : m.head = some seen <;> simp [step, met, Label.unlinked?, Label.swapped?]
  | _ => exact ⟨rfl, rfl⟩

/-- What is retired are the nodes that steps have swung the head past. -/
theorem retired_after (programs : List (List (Call Item))) (schedule : List (Turn Unit)) :
    (after programs schedule).memory.retired =
      attempts.retrying.notes {} programs unlinked? schedule := by
  refine attempts.retrying.notes_eq {} programs Memory.retired rfl (fun _ p m => ?_) schedule
  cases p with
  | prepare => rfl
  | pushing _ _ l | popping _ l | looking l => exact (retired_step l m).1

theorem discarded_after (programs : List (List (Call Item))) (schedule : List (Turn Unit)) :
    (after programs schedule).memory.discarded = [] := by
  refine attempts.retrying.memory_after {} programs (P := fun m => m.discarded = []) rfl
    (fun _ p m none => ?_) schedule
  cases p with
  | prepare => exact none
  | pushing _ _ l | popping _ l | looking l => exact (retired_step l m).2.trans none

/-- All threads are between two calls and have no request left to push. -/
def Finished (programs : List (List (Call Item))) (v : View Memory (Position Item Label) (Answer Item)) :
    Prop := ∀ i, v.label i = none ∧ hand (callsOf programs i) (v.answers i) = []

/-- Only a call that prepares a request leaves one with the thread. -/
theorem hand_eq_nil {calls : List (Call Item)} (none : ∀ value, .prepare value ∉ calls)
    (answers : List (Answer Item)) : hand calls answers = [] := by
  induction calls generalizing answers with
  | nil => rfl
  | cons c calls ih =>
    cases answers with
    | nil => rfl
    | cons a answers =>
      have kept : keep [] (c, a) = [] := by
        cases c with
        | prepare value => exact absurd List.mem_cons_self (none value)
        | attemptPush => cases a <;> rfl
        | _ => rfl
      rw [hand, List.zip_cons_cons, List.foldl_cons, kept]
      exact ih (fun value mem => none value (List.mem_cons_of_mem _ mem)) answers

/-- Threads that prepare no requests are finished once they are between two calls. -/
theorem finished_of_idle {v : View Memory (Position Item Label) (Answer Item)}
    (none : ∀ i value, .prepare value ∉ callsOf programs i) (idle : ∀ i, v.label i = .none) :
    Finished programs v := fun i => ⟨idle i, hand_eq_nil (none i) _⟩

theorem accounted (schedule : List (Turn Unit)) (own : owning programs schedule) :
    (after programs schedule).memory.books.Accounted (HasNode programs (after programs schedule))
      (attempts.retrying.notes {} programs unlinked? schedule) []
      (Finished programs (after programs schedule)) := by
  refine (balanced_after schedule own).accounted (retired_after programs schedule)
    (discarded_after programs schedule) fun finished i n => ?_
  obtain ⟨idle, spent⟩ := finished i
  simp [HasNode, items, idle, spent, carried]

end Run

end SharedMemory.TreiberStack
