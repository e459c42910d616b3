import Mathlib.Logic.Equiv.Basic
import SharedMemory.Proofs.TreiberAttempts

/-!
# Requests of one value are interchangeable

A push that was handed back to its thread carries the link that it was given in the failed attempt. Nobody
reads that link: the next attempt writes it again, and only a push that is served makes it known. So it
makes no difference whether a thread attempts the push again or one that is new. `Alike` relates two runs
that differ only in which of two items is which.
-/
namespace SharedMemory

section Resume

variable {Memory Call Label Choice Answer : Type}

/-- The threads go on from a view on, with programs that may have been changed. -/
def View.resume (alg : Algorithm Memory Call Label Choice Answer) (programs : List (List Call))
    (v : View Memory Label Answer) : List (Turn Choice) → View Memory Label Answer
  | [] => v
  | t :: earlier => (v.resume alg programs earlier).turn alg programs t.thread t.choice

end Resume

namespace AttemptStack

variable {Item Item' L L' : Type}

def Call.map (f : Item → Item') : AttemptStack.Call Item → AttemptStack.Call Item'
  | .push v => .push v
  | .pop => .pop
  | .isEmpty => .isEmpty
  | .prepare v => .prepare v
  | .attemptPush item => .attemptPush (f item)
  | .attemptPop => .attemptPop

def Answer.map (f : Item → Item') : AttemptStack.Answer Item → AttemptStack.Answer Item'
  | .pushed => .pushed
  | .popped found => .popped found
  | .emptiness empty => .emptiness empty
  | .prepared item => .prepared (f item)
  | .handedBack item => .handedBack (f item)
  | .interfered => .interfered

def Position.map (f : Item → Item') (g : L → L') : Position Item L → Position Item' L'
  | .prepare v untilServed => .prepare v untilServed
  | .pushing item untilServed l => .pushing (f item) untilServed (g l)
  | .popping untilServed l => .popping untilServed (g l)
  | .looking l => .looking (g l)

end AttemptStack

namespace TreiberStack

open AttemptStack (Call Position Phase)

section Names

variable (σ : Equiv.Perm Nat)

def Item.rename (item : Item) : Item := { item with node := σ item.node }

def Label.rename : Label → Label
  | .pushLoad node => .pushLoad (σ node)
  | .pushLink node seen => .pushLink (σ node) (seen.map σ)
  | .pushSwing node seen => .pushSwing (σ node) (seen.map σ)
  | .popLoad => .popLoad
  | .popNext seen => .popNext (σ seen)
  | .popSwing seen next => .popSwing (σ seen) (next.map σ)
  | .look => .look

abbrev renamePosition : Position Item Label → Position Item Label :=
  Position.map (Item.rename σ) (Label.rename σ)

abbrev renameAnswer : AttemptStack.Answer Item → AttemptStack.Answer Item :=
  AttemptStack.Answer.map (Item.rename σ)

/-- A memory in which nodes have other names. Links of loose nodes may differ. -/
structure Copies (loose : Nat → Prop) (m m' : Memory) : Prop where
  fixed : ∀ n, m.nodes.size ≤ n → σ n = n
  size : m'.nodes.size = m.nodes.size
  head : m'.head = m.head.map σ
  value : ∀ n, m'.value (σ n) = m.value n
  next : ∀ n, loose n ∨ m'.next (σ n) = (m.next n).map σ

end Names

section Copies

variable {σ : Equiv.Perm Nat} {loose : Nat → Prop} {m m' : Memory}

theorem value_prepare (v : Value) (m : Memory) (n : Nat) :
    (prepare v m).1.value n = if n = m.nodes.size then v else m.value n := by
  simp only [prepare, Memory.value, Array.getElem?_push]
  split <;> rfl

theorem next_prepare (v : Value) (m : Memory) (n : Nat) :
    (prepare v m).1.next n = if n = m.nodes.size then none else m.next n := by
  simp only [prepare, Memory.next, Array.getElem?_push]
  split <;> rfl

theorem next_modify (m : Memory) (node : Nat) (link : Option Nat) (n : Nat) :
    ({ m with nodes := m.nodes.modify node fun x => { x with next := link } } : Memory).next n =
      if n = node ∧ node < m.nodes.size then link else m.next n := by
  simp only [Memory.next, Array.getElem?_modify]
  by_cases same : node = n
  · subst same
    by_cases inside : node < m.nodes.size <;> simp [inside]
  · simp [same, Ne.symm same]

theorem map_eq_map_iff (x y : Option Nat) : x.map σ = y.map σ ↔ x = y :=
  (Option.map_injective σ.injective).eq_iff

theorem Copies.prepare (h : Copies σ loose m m') (v : Value) :
    Copies σ loose (prepare v m).1 (prepare v m').1 ∧
      (TreiberStack.prepare v m').2 = (TreiberStack.prepare v m).2.rename σ := by
  have last := h.fixed m.nodes.size (Nat.le_refl _)
  have iff (n : Nat) : σ n = m'.nodes.size ↔ n = m.nodes.size := by
    rw [h.size]
    nth_rewrite 1 [← last]
    exact σ.injective.eq_iff
  refine ⟨⟨fun n beyond => h.fixed n ?_, ?_, h.head, fun n => ?_, fun n => ?_⟩, ?_⟩
  · simp only [TreiberStack.prepare, Array.size_push] at beyond
    omega
  · simp [TreiberStack.prepare, h.size]
  · simp only [value_prepare, iff, h.value]
  · simp only [next_prepare, iff]
    split
    · exact .inr rfl
    · exact h.next n
  · simp [TreiberStack.prepare, Item.rename, h.size, last]

theorem Copies.mono {loose' : Nat → Prop} (h : Copies σ loose m m') (le : ∀ n, loose n → loose' n) :
    Copies σ loose' m m' :=
  { h with next := fun n => (h.next n).imp_left (le n) }

theorem Copies.inside (h : Copies σ loose m m') {node : Nat} (inside : node < m.nodes.size) :
    σ node < m'.nodes.size := by
  by_contra beyond
  have same := h.fixed (σ node) (by rw [← h.size]; exact Nat.le_of_not_lt beyond)
  rw [σ.injective same, h.size] at beyond
  exact beyond inside

/-- The link behind a node is the same in both memories once it is written. -/
theorem Copies.link (h : Copies σ loose m m') {node : Nat} (inside : node < m.nodes.size)
    (seen : Option Nat) :
    Copies σ (fun n => loose n ∧ n ≠ node)
      { m with nodes := m.nodes.modify node fun x => { x with next := seen } }
      { m' with nodes := m'.nodes.modify (σ node) fun x => { x with next := seen.map σ } } := by
  refine ⟨?_, by simp [h.size], h.head, fun n => ?_, fun n => ?_⟩
  · simpa using h.fixed
  · rw [value_modify, value_modify, h.value]
  · simp only [next_modify, σ.injective.eq_iff, h.inside inside, inside, and_true]
    split
    · exact .inr rfl
    · next other => exact (h.next n).imp_left fun loose => ⟨loose, other⟩

/-- A step is the same under other names, if it follows no link that may differ. -/
theorem Copies.step (h : Copies σ loose m m') (k : Label)
    (reads : ∀ seen, k = .popNext seen → ¬ loose seen)
    (links : ∀ node seen, k = .pushLink node seen → node < m.nodes.size) :
    (step (k.rename σ) m').2 = (step k m).2.map (Label.rename σ) id ∧
      Copies σ (fun n => loose n ∧ ∀ seen, k ≠ .pushLink n seen) (step k m).1 (step (k.rename σ) m').1 := by
  -- Only the step that links a node settles a link that may differ.
  have keep (unlinking : ∀ n seen, k ≠ .pushLink n seen) (n : Nat) (differs : loose n) :
      loose n ∧ ∀ seen, k ≠ .pushLink n seen :=
    ⟨differs, unlinking n⟩
  cases k with
  | pushLoad node =>
    refine ⟨?_, h.mono (keep fun _ _ same => by cases same)⟩
    simp [TreiberStack.step, Label.rename, Status.map, h.head]
  | pushLink node seen =>
    refine ⟨rfl, (h.link (links node seen rfl) seen).mono ?_⟩
    rintro n ⟨loose, other⟩
    exact ⟨loose, fun seen' same => other (by cases same; rfl)⟩
  | pushSwing node seen =>
    have met : (m'.head = seen.map σ) ↔ m.head = seen := by rw [h.head, map_eq_map_iff]
    simp only [TreiberStack.step, Label.rename, met]
    split
    · refine ⟨rfl, ?_⟩
      exact { h with
        head := rfl
        next := fun n => (h.next n).imp_left (keep (fun _ _ same => by cases same) n) }
    · exact ⟨rfl, h.mono (keep fun _ _ same => by cases same)⟩
  | popLoad =>
    refine ⟨?_, h.mono (keep fun _ _ same => by cases same)⟩
    cases head : m.head <;> simp [TreiberStack.step, Label.rename, Status.map, h.head, head]
  | popNext seen =>
    refine ⟨?_, h.mono (keep fun _ _ same => by cases same)⟩
    have same := (h.next seen).resolve_left (reads seen rfl)
    simp [TreiberStack.step, Label.rename, Status.map, same]
  | popSwing seen next =>
    have met : (m'.head = some (σ seen)) ↔ m.head = some seen := by
      rw [h.head, ← Option.map_some, map_eq_map_iff]
    simp only [TreiberStack.step, Label.rename, met]
    split
    · refine ⟨by simp [Status.map, h.value], ?_⟩
      exact { h with
        head := rfl
        next := fun n => (h.next n).imp_left (keep (fun _ _ same => by cases same) n) }
    · exact ⟨rfl, h.mono (keep fun _ _ same => by cases same)⟩
  | look =>
    refine ⟨?_, h.mono (keep fun _ _ same => by cases same)⟩
    simp [TreiberStack.step, Label.rename, Status.map, h.head]

theorem Copies.retryStep (h : Copies σ loose m m') {l : Position Item Label} (looks : Looks l)
    (reads : ∀ seen, within? l = some (.popNext seen) → ¬ loose seen)
    (links : ∀ node seen, within? l = some (.pushLink node seen) → node < m.nodes.size) :
    (attempts.retryStep (renamePosition σ l) m').status =
        (attempts.retryStep l m).status.map (renamePosition σ) (renameAnswer σ) ∧
      Copies σ (fun n => loose n ∧ ∀ seen, within? l ≠ some (.pushLink n seen))
        (attempts.retryStep l m).memory (attempts.retryStep (renamePosition σ l) m').memory := by
  cases l with
  | prepare v untilServed =>
    obtain ⟨copies, item⟩ := h.prepare v
    constructor
    · cases untilServed with
      | false =>
        exact congrArg (fun x =>
          (.returned (.prepared x) : Status (Position Item Label) (AttemptStack.Answer Item))) item
      | true =>
        exact congrArg (fun x => (.running (.pushing x true (attempts.push x)) :
          Status (Position Item Label) (AttemptStack.Answer Item))) item
    · exact copies.mono fun n loose => ⟨loose, nofun⟩
  | pushing item untilServed k =>
    obtain ⟨status, copies⟩ := h.step k (fun seen same => reads seen (congrArg some same))
      fun node seen same => links node seen (congrArg some same)
    constructor
    · change attempts.afterPush (item.rename σ) untilServed (TreiberStack.step (k.rename σ) m').2 =
        (attempts.afterPush item untilServed (TreiberStack.step k m).2).map _ _
      rw [status]
      generalize (TreiberStack.step k m).2 = s
      rcases s with k' | a
      · rfl
      · cases a <;> cases untilServed <;> rfl
    · exact copies.mono fun n ⟨loose, other⟩ => ⟨loose, fun seen same => other seen (Option.some.inj same)⟩
  | popping untilServed k =>
    obtain ⟨status, copies⟩ := h.step k (fun seen same => reads seen (congrArg some same))
      fun node seen same => links node seen (congrArg some same)
    constructor
    · change attempts.afterPop untilServed (TreiberStack.step (k.rename σ) m').2 =
        (attempts.afterPop untilServed (TreiberStack.step k m).2).map _ _
      rw [status]
      generalize (TreiberStack.step k m).2 = s
      rcases s with k' | a
      · rfl
      · cases a <;> cases untilServed <;> rfl
    · exact copies.mono fun n ⟨loose, other⟩ => ⟨loose, fun seen same => other seen (Option.some.inj same)⟩
  | looking k =>
    obtain rfl : k = .look := looks
    obtain ⟨status, copies⟩ := h.step .look nofun nofun
    refine ⟨?_, copies.mono fun n ⟨loose, _⟩ => ⟨loose, nofun⟩⟩
    simp [AttemptStack.retryStep, attempts, TreiberStack.step, Label.rename, Status.map, h.head,
      Position.map, AttemptStack.Answer.map]

end Copies

def Unlinked (programs : List (List (Call Item)))
    (v : View Memory (Position Item Label) (AttemptStack.Answer Item))
    (n : Nat) : Prop :=
  ∃ i, ∃ item ∈ items programs v i, item.node = n ∧
    ∀ untilServed node seen, v.label i ≠ some (.pushing item untilServed (.pushSwing node seen))

section Unlinked

variable {programs : List (List (Call Item))}
  {v v' : View Memory (Position Item Label) (AttemptStack.Answer Item)}
  {phases : Nat → Phase Item Label} {i n : Nat} {l : Position Item Label}

/-- A node that is not linked yet belongs to the thread that has its item. -/
theorem Unlinked.owned (h : Unlinked programs v n) (sits : Sits programs v phases) :
    ∃ s, node? (phases s) = some n := by
  obtain ⟨i, item, has, rfl, _⟩ := h
  refine ⟨holder item.node, ?_⟩
  rw [sits.seated.holds i item has]
  unfold itemPhase
  split
  · split <;> rfl
  · rfl

theorem carried_step {l' : Position Item Label} {m : Memory}
    (goes : (attempts.retryStep l m).status = .running l') : carried (some l) ⊆ carried (some l') := by
  cases l with
  | prepare | looking => exact List.nil_subset _
  | popping => exact List.nil_subset _
  | pushing item untilServed k =>
    change attempts.afterPush item untilServed (step k m).2 = _ at goes
    generalize (step k m).2 = s at goes
    rcases s with k' | a
    · cases goes
      cases untilServed <;> exact List.Subset.refl _
    · cases a <;> cases untilServed <;> cases goes
      exact List.Subset.refl _

/-- A push is about to swing once it has written its link. -/
theorem swing_step {m : Memory} {item : Item} {untilServed : Bool} {node : Nat} {seen : Option Nat}
    (goes : (attempts.retryStep l m).status = .running (.pushing item untilServed (.pushSwing node seen))) :
    l = .pushing item untilServed (.pushLink node seen) := by
  cases l with
  | prepare v again => cases again <;> cases goes
  | looking k =>
    simp only [AttemptStack.retryStep] at goes
    split at goes <;> cases goes
  | popping again k =>
    change attempts.afterPop again (step k m).2 = _ at goes
    generalize (step k m).2 = s at goes
    rcases s with k' | a
    · cases goes
    · cases a <;> cases again <;> cases goes
  | pushing item' again k =>
    change attempts.afterPush item' again (step k m).2 = _ at goes
    cases status : (step k m).2 with
    | returned a =>
      rw [status] at goes
      cases a <;> cases again <;> cases goes
    | running k' =>
      rw [status] at goes
      cases goes
      cases k with
      | pushLink =>
        cases status
        rfl
      | popLoad => cases head : m.head <;> simp [step, head] at status
      | pushSwing | popSwing =>
        simp only [step] at status
        split at status <;> cases status
      | pushLoad | popNext | look => cases status

theorem items_answered (sits : Sits programs v phases) (here : v.label i = some l)
    (next : (callsOf programs i)[(v.answers i).length]? = some (callAt l)) {a : AttemptStack.Answer Item}
    (gives : (attempts.retryStep l v.memory).status = .returned a) {item : Item}
    (has : item ∈ items programs v i)
    (apart : ∀ untilServed node seen, v.label i ≠ some (.pushing item untilServed (.pushSwing node seen)))
    (m : Memory) (events : List Event) : item ∈ items programs (v.answer i m a events) i := by
  rw [items, here] at has
  rw [items_answer next]
  cases l with
  | prepare v untilServed =>
    cases untilServed <;> cases gives
    exact List.mem_cons_of_mem _ has
  | looking k =>
    simp only [AttemptStack.retryStep] at gives
    split at gives <;> cases gives <;> exact has
  | popping untilServed k =>
    cases untilServed <;> exact has
  | pushing item' untilServed k =>
    have mine := sits.seated.pushes i item' untilServed k here
    have stands := sits.good.stands (holder item'.node)
    rw [sits.seated.holds i item' mine, here, itemPhase_pushing] at stands
    change attempts.afterPush item' untilServed (step k v.memory).2 = _ at gives
    cases k with
    | pushLoad | pushLink => cases gives
    | pushSwing node seen =>
      have other : item ≠ item' := fun same => apart untilServed node seen (same ▸ here)
      by_cases met : v.memory.head = seen
      · simp only [step, if_pos met] at gives
        cases gives
        cases untilServed with
        | true => exact (List.mem_cons.mp has).resolve_left other
        | false => exact (List.mem_erase_of_ne other).mpr has
      · simp only [step, if_neg met] at gives
        cases untilServed <;> cases gives
        exact has
    | popLoad | popNext | popSwing | look => exact absurd stands id

theorem Unlinked.turn (h : Unlinked programs v n) (sits : Sits programs v phases) {choice : Unit}
    (turn : v.Step attempts.retrying programs i choice v')
    (next : ∀ l, v.label i = some l → (callsOf programs i)[(v.answers i).length]? = some (callAt l)) :
    Unlinked programs v' n ∨ ∃ l seen, v.label i = some l ∧ within? l = some (.pushLink n seen) := by
  obtain ⟨j, item, has, rfl, apart⟩ := h
  by_cases other : j ≠ i
  · refine .inl ⟨j, item, ?_, rfl, ?_⟩
    · rw [items] at has ⊢
      cases turn <;> simpa [other] using has
    · rw [(turn.others other).1]
      exact apart
  obtain rfl := Decidable.not_not.mp other
  cases turn with
  | rest => exact .inl ⟨j, item, has, rfl, apart⟩
  | enter c outside =>
    refine .inl ⟨j, item, ?_, rfl, ?_⟩
    · rw [show attempts.retrying.enter c = attempts.enter c from rfl, items_enter outside]
      exact has
    · intro untilServed node seen now
      rw [View.label_enter, Function.update_self] at now
      cases c <;> cases now
  | move l l' here goes =>
    have kept : item ∈ items programs (v.move j (attempts.retrying.step choice l v.memory).memory l'
        (attempts.retrying.step choice l v.memory).events) j := by
      rw [items, here, List.mem_append] at has
      rw [items_move, List.mem_append]
      exact has.imp_left fun mem => carried_step goes mem
    by_cases swings : ∃ untilServed node seen, l' = .pushing item untilServed (.pushSwing node seen)
    · obtain ⟨untilServed, node, seen, rfl⟩ := swings
      obtain rfl := swing_step goes
      have stands := sits.good.stands (holder item.node)
      rw [sits.seated.holds j item has, here, itemPhase_pushing] at stands
      refine .inr ⟨_, seen, here, ?_⟩
      rw [within?, stands.2]
    · refine .inl ⟨j, item, kept, rfl, fun untilServed node seen now => swings ?_⟩
      rw [View.label_move, Function.update_self] at now
      exact ⟨untilServed, node, seen, Option.some.inj now⟩
  | answer l a here gives =>
    refine .inl ⟨j, item, items_answered sits here (next l here) gives has apart _ _, rfl, ?_⟩
    simp

end Unlinked

theorem mem_keep {had : List Item} {c : Call Item} {a : AttemptStack.Answer Item} {item : Item}
    (h : item ∈ keep had (c, a)) : item ∈ had ∨ ∃ v, c = .prepare v ∧ a = .prepared item := by
  unfold keep at h
  split at h
  · next v item' same =>
    cases same
    rcases List.mem_cons.mp h with rfl | before
    · exact .inr ⟨v, rfl, rfl⟩
    · exact .inl before
  · exact .inl (List.mem_of_mem_erase h)
  · exact .inl h

/-- A push carries the item it has carried before, or one that it has just prepared. -/
theorem carried_new {l l' : Position Item Label} {m : Memory} {item : Item}
    (goes : (attempts.retryStep l m).status = .running l') (carries : item ∈ carried (some l')) :
    item ∈ carried (some l) ∨ m.nodes.size ≤ item.node := by
  cases l with
  | prepare v untilServed =>
    cases untilServed <;> cases goes
    rw [List.mem_singleton.mp carries]
    exact .inr (Nat.le_refl _)
  | looking k =>
    simp only [AttemptStack.retryStep] at goes
    split at goes <;> cases goes
    cases carries
  | popping untilServed k =>
    change attempts.afterPop untilServed (step k m).2 = _ at goes
    generalize (step k m).2 = s at goes
    rcases s with k' | a
    · cases goes
      cases carries
    · cases a <;> cases untilServed <;> cases goes
      all_goals cases carries
  | pushing item' untilServed k =>
    change attempts.afterPush item' untilServed (step k m).2 = _ at goes
    generalize (step k m).2 = s at goes
    rcases s with k' | a
    · cases goes
      cases untilServed <;> exact .inl carries
    · cases a <;> cases untilServed <;> cases goes
      exact .inl carries

/-- A thread gets items by preparing them only. -/
theorem items_step {programs : List (List (Call Item))}
    {v v' : View Memory (Position Item Label) (AttemptStack.Answer Item)} {i j : Nat}
    {choice : Unit} {item : Item}
    (turn : v.Step attempts.retrying programs i choice v')
    (next : ∀ l, v.label i = some l → (callsOf programs i)[(v.answers i).length]? = some (callAt l))
    (has : item ∈ items programs v' j) : item ∈ items programs v j ∨ v.memory.nodes.size ≤ item.node := by
  by_cases other : j ≠ i
  · left
    rw [items] at has ⊢
    cases turn <;> simpa [other] using has
  obtain rfl := Decidable.not_not.mp other
  cases turn with
  | rest => exact .inl has
  | enter c outside =>
    rw [show attempts.retrying.enter c = attempts.enter c from rfl, items_enter outside] at has
    exact .inl has
  | move l l' here goes =>
    rw [items_move, List.mem_append] at has
    rw [items, here, List.mem_append]
    rcases has with carries | keeps
    · rcases carried_new goes carries with before | fresh
      · exact .inl (.inl before)
      · exact .inr fresh
    · exact .inl (.inr keeps)
  | answer l a here gives =>
    rw [items_answer (next l here)] at has
    rw [items, here, List.mem_append]
    rcases mem_keep has with keeps | ⟨v, called, rfl⟩
    · exact .inl (.inr keeps)
    · cases l with
      | prepare v' untilServed =>
        cases untilServed <;> cases gives
        exact .inr (Nat.le_refl _)
      | pushing item' untilServed k => cases untilServed <;> cases called
      | popping untilServed k => cases untilServed <;> cases called
      | looking => cases called

/-- Two runs with the same threads, in which nodes have other names. Only a link that has still to be
written in an attempt may differ. -/
structure Alike (σ : Equiv.Perm Nat) (programs : List (List (Call Item)))
    (v v' : View Memory (Position Item Label) (AttemptStack.Answer Item)) : Prop where
  copies : Copies σ (Unlinked programs v) v.memory v'.memory
  label : ∀ j, v'.label j = (v.label j).map (renamePosition σ)
  answers : ∀ j, (v'.answers j).map (AttemptStack.Answer.map Item.value) =
    (v.answers j).map (AttemptStack.Answer.map Item.value)

section Alike

variable {σ : Equiv.Perm Nat} {programs programs' : List (List (Call Item))}
  {v' : View Memory (Position Item Label) (AttemptStack.Answer Item)} {phases : Nat → Phase Item Label}
  {t : Turn Unit} {earlier schedule : List (Turn Unit)} {i : Nat}

theorem Copies.chain {loose : Nat → Prop} {m m' : Memory} (h : Copies σ loose m m') {link : Option Nat}
    {nodes : List Nat} (chain : Chain m link nodes) (tight : ∀ n ∈ nodes, ¬ loose n) :
    Chain m' (link.map σ) (nodes.map σ) := by
  induction nodes generalizing link with
  | nil =>
    obtain rfl : link = none := chain
    rfl
  | cons node nodes ih =>
    obtain ⟨rfl, inside, rest⟩ := chain
    refine ⟨rfl, h.inside inside, ?_⟩
    rw [(h.next node).resolve_left (tight node List.mem_cons_self)]
    exact ih rest fun n hn => tight n (List.mem_cons_of_mem node hn)

theorem Alike.toList_eq {v : View Memory (Position Item Label) (AttemptStack.Answer Item)}
    (h : Alike σ programs v v')
    (sits : Sits programs v phases) : v'.memory.toList = v.memory.toList := by
  obtain ⟨nodes, holds⟩ := sits.good.holds
  have tight : ∀ n ∈ nodes, ¬ Unlinked programs v n := by
    intro n mem unlinked
    obtain ⟨s, owned⟩ := unlinked.owned sits
    exact holds.nobody s n owned mem
  have chain := h.copies.chain holds.chain tight
  rw [← h.copies.head] at chain
  rw [Memory.toList, chain.linked_eq, ← holds.values, List.map_map]
  exact List.map_congr_left fun n _ => h.copies.value n

/-- Nobody follows a link that has still to be written. -/
theorem Sits.reads {v : View Memory (Position Item Label) (AttemptStack.Answer Item)}
    (sits : Sits programs v phases)
    {l : Position Item Label} (here : v.label i = some l) {seen : Nat}
    (reads : within? l = some (.popNext seen)) : ¬ Unlinked programs v seen := by
  intro unlinked
  obtain ⟨s, owned⟩ := unlinked.owned sits
  cases l with
  | prepare | looking => cases reads
  | popping untilServed k =>
    obtain rfl := Option.some.inj reads
    have stands := sits.good.stands (popper i)
    rw [sits.seated.pops, here] at stands
    exact stands.nobody s owned
  | pushing item untilServed k =>
    obtain rfl := Option.some.inj reads
    have mine := sits.seated.pushes i item untilServed _ here
    have stands := sits.good.stands (holder item.node)
    rw [sits.seated.holds i item mine, here, itemPhase_pushing] at stands
    exact absurd stands id

theorem Sits.links {v : View Memory (Position Item Label) (AttemptStack.Answer Item)}
    (sits : Sits programs v phases)
    {l : Position Item Label} (here : v.label i = some l) {node : Nat} {seen : Option Nat}
    (links : within? l = some (.pushLink node seen)) : node < v.memory.nodes.size := by
  cases l with
  | prepare | looking => cases links
  | popping untilServed k =>
    obtain rfl := Option.some.inj links
    have stands := sits.good.stands (popper i)
    rw [sits.seated.pops, here] at stands
    exact absurd stands id
  | pushing item untilServed k =>
    obtain rfl := Option.some.inj links
    have mine := sits.seated.pushes i item untilServed _ here
    have stands := sits.good.stands (holder item.node)
    rw [sits.seated.holds i item mine, here, itemPhase_pushing] at stands
    rw [stands.2]
    exact stands.1.allocated

theorem Alike.inside (own : owning programs (t :: earlier))
    (h : Alike σ programs (after programs earlier) v') {l : Position Item Label}
    (here : (after programs earlier).label t.thread = some l) :
    Alike σ programs (after programs (t :: earlier))
      (v'.turn attempts.retrying programs' t.thread t.choice) := by
  obtain ⟨phases, sits⟩ := exists_sits earlier (owning_of_suffix (List.suffix_cons t earlier) own)
  have turn := TreiberStack.turn programs t earlier
  have unlinked (n : Nat) (loose : Unlinked programs (after programs earlier) n) :=
    loose.turn sits turn fun l here => (called programs earlier here).1
  obtain ⟨status, copies⟩ := h.copies.retryStep (called programs earlier here).2
    (fun seen reads => sits.reads here reads) fun node seen links => sits.links here links
  have still (n : Nat) (before : Unlinked programs (after programs earlier) n ∧
      ∀ seen, within? l ≠ some (.pushLink n seen)) : Unlinked programs (after programs (t :: earlier)) n := by
    obtain ⟨loose, other⟩ := before
    refine (unlinked n loose).resolve_right ?_
    rintro ⟨l', seen, here', links⟩
    cases here.symm.trans here'
    exact other seen links
  have copies := copies.mono still
  have here' : v'.label t.thread = some (renamePosition σ l) := by rw [h.label, here]; rfl
  have hv := after_inside here
  rw [View.turn_inside here']
  change Alike σ programs _ (v'.take t.thread (attempts.retryStep (renamePosition σ l) v'.memory))
  cases goes : (attempts.retryStep l (after programs earlier).memory).status with
  | running l' =>
    rw [goes] at status
    rw [View.take_running goes] at hv
    rw [View.take_running status]
    refine ⟨?_, fun j => ?_, fun j => ?_⟩
    · rw [View.memory_move]
      rw [hv] at copies ⊢
      exact copies
    · rw [hv, View.label_move, View.label_move]
      by_cases same : j = t.thread
      · rw [same, Function.update_self, Function.update_self]
        rfl
      · rw [Function.update_of_ne same, Function.update_of_ne same, h.label]
    · rw [hv, View.answers_move, View.answers_move, h.answers]
  | returned a =>
    rw [goes] at status
    rw [View.take_returned goes] at hv
    rw [View.take_returned status]
    refine ⟨?_, fun j => ?_, fun j => ?_⟩
    · rw [View.memory_answer]
      rw [hv] at copies ⊢
      exact copies
    · rw [hv, View.label_answer, View.label_answer]
      by_cases same : j = t.thread
      · rw [same, Function.update_self, Function.update_self]
        rfl
      · rw [Function.update_of_ne same, Function.update_of_ne same, h.label]
    · rw [hv, View.answers_answer, View.answers_answer]
      by_cases same : j = t.thread
      · rw [same, Function.update_self, Function.update_self, List.map_append, List.map_append, h.answers]
        cases a <;> rfl
      · rw [Function.update_of_ne same, Function.update_of_ne same, h.answers]

/-- A turn of a thread whose next call is the same but for the names. -/
theorem Alike.turn (own : owning programs (t :: earlier))
    (h : Alike σ programs (after programs earlier) v')
    (next : (after programs earlier).label t.thread = none →
      (callsOf programs' t.thread)[(v'.answers t.thread).length]? =
        ((callsOf programs t.thread)[((after programs earlier).answers t.thread).length]?).map
          (Call.map (Item.rename σ))) :
    Alike σ programs (after programs (t :: earlier))
      (v'.turn attempts.retrying programs' t.thread t.choice) := by
  cases here : (after programs earlier).label t.thread with
  | some l => exact h.inside own here
  | none =>
    have here' : v'.label t.thread = none := by rw [h.label, here]; rfl
    have calls := next here
    have hv := attempts.retrying.viewAfter_turn {} programs t earlier
    rw [View.turn, here] at hv
    rw [View.turn, here', calls]
    cases called : (callsOf programs t.thread)[((after programs earlier).answers t.thread).length]? with
    | none =>
      rw [called] at hv
      rw [after, hv]
      exact h
    | some c =>
      rw [called] at hv
      have entered : attempts.retrying.enter (c.map (Item.rename σ)) =
          renamePosition σ (attempts.retrying.enter c) := by cases c <;> rfl
      obtain ⟨phases, sits⟩ := exists_sits earlier (owning_of_suffix (List.suffix_cons t earlier) own)
      have turn := TreiberStack.turn programs t earlier
      have loose : ∀ n, Unlinked programs (after programs earlier) n →
          Unlinked programs (after programs (t :: earlier)) n := by
        intro n unlinked
        refine (unlinked.turn sits turn fun l at_l => ?_).resolve_right ?_
        · cases here.symm.trans at_l
        · rintro ⟨l, _, at_l, _⟩
          cases here.symm.trans at_l
      have copies := h.copies.mono loose
      rw [after, hv] at copies ⊢
      refine ⟨copies, fun j => ?_, h.answers⟩
      rw [Option.map_some, View.label_enter, View.label_enter, entered]
      by_cases same : j = t.thread
      · rw [same, Function.update_self, Function.update_self]
        rfl
      · rw [Function.update_of_ne same, Function.update_of_ne same, h.label]

end Alike

/-- A thread at this label has seen an address. -/
def Knows (y : Nat) : Label → Prop
  | .pushLink _ seen | .pushSwing _ seen => seen = some y
  | .popNext seen => seen = y
  | .popSwing seen next => seen = y ∨ next = some y
  | _ => False

/-- The node is allocated, and nobody has an item for it. -/
structure Released (programs : List (List (Call Item)))
    (v : View Memory (Position Item Label) (AttemptStack.Answer Item)) (y : Nat) : Prop where
  allocated : y < v.memory.nodes.size
  nobody : ∀ j, ∀ item ∈ items programs v j, item.node ≠ y

/-- Only nodes that nobody has an item for have ever been seen by others. -/
structure Secret (programs : List (List (Call Item)))
    (v : View Memory (Position Item Label) (AttemptStack.Answer Item)) : Prop where
  links : ∀ x y, v.memory.next x = some y → Released programs v y
  known : ∀ j l k y, v.label j = some l → within? l = some k → Knows y k → Released programs v y

section Secret

variable {programs : List (List (Call Item))}
  {v v' : View Memory (Position Item Label) (AttemptStack.Answer Item)}
  {phases : Nat → Phase Item Label} {m : Memory} {k k' : Label} {y : Nat} {t : Turn Unit}
  {earlier : List (Turn Unit)} {i : Nat} {l l' : Position Item Label}

theorem knows_step (goes : (step k m).2 = .running k') (knows : Knows y k') :
    Knows y k ∨ m.head = some y ∨ ∃ x, m.next x = some y := by
  cases k with
  | pushLoad =>
    cases goes
    exact .inr (.inl knows)
  | pushLink =>
    cases goes
    exact .inl knows
  | popLoad =>
    cases head : m.head with
    | none => simp [step, head] at goes
    | some top =>
      simp only [step, head] at goes
      cases goes
      exact .inr (.inl (congrArg some knows))
  | popNext seen =>
    cases goes
    rcases knows with same | behind
    · exact .inl same
    · exact .inr (.inr ⟨seen, behind⟩)
  | pushSwing | popSwing =>
    simp only [step] at goes
    split at goes <;> cases goes
  | look => cases goes

theorem next_step {x : Nat} (link : (step k m).1.next x = some y) : m.next x = some y ∨ Knows y k := by
  cases k with
  | pushLink node seen =>
    rw [step, next_modify] at link
    split at link
    · exact .inr link
    · exact .inl link
  | pushSwing | popSwing =>
    simp only [step] at link
    split at link <;> exact .inl link
  | pushLoad | popLoad | popNext | look => exact .inl link

theorem Released.turn (h : Released programs v y) {choice : Unit}
    (turn : v.Step attempts.retrying programs i choice v')
    (next : ∀ l, v.label i = some l → (callsOf programs i)[(v.answers i).length]? = some (callAt l))
    (size : v.memory.nodes.size ≤ v'.memory.nodes.size) : Released programs v' y := by
  refine ⟨Nat.lt_of_lt_of_le h.allocated size, fun j item has same => ?_⟩
  rcases items_step turn next has with before | fresh
  · exact h.nobody j item before same
  · have := h.allocated
    omega

theorem Sits.released_head (sits : Sits programs v phases) (head : v.memory.head = some y) :
    Released programs v y := by
  obtain ⟨nodes, holds⟩ := sits.good.holds
  have mem : y ∈ nodes := by
    have chain := holds.chain
    rw [head] at chain
    cases nodes with
    | nil => cases chain
    | cons node nodes =>
      cases chain.1
      exact List.mem_cons_self
  refine ⟨holds.chain.allocated y mem, fun j item has same => ?_⟩
  refine holds.nobody (holder item.node) y ?_ mem
  rw [sits.seated.holds j item has, ← same]
  unfold itemPhase
  split
  · split <;> rfl
  · rfl

/-- What a thread has seen, it knew, or it has just read it. -/
theorem knows_retryStep (goes : (attempts.retryStep l m).status = .running l')
    (at_k : within? l' = some k') (knows : Knows y k') :
    (∃ k, within? l = some k ∧ Knows y k) ∨ m.head = some y ∨ ∃ x, m.next x = some y := by
  cases l with
  | prepare v untilServed =>
    cases untilServed <;> cases goes
    cases at_k
    exact absurd knows id
  | looking k =>
    simp only [AttemptStack.retryStep] at goes
    split at goes <;> cases goes
    cases at_k
  | pushing item untilServed k =>
    change attempts.afterPush item untilServed (step k m).2 = _ at goes
    cases status : (step k m).2 with
    | running next =>
      rw [status] at goes
      cases goes
      cases at_k
      exact (knows_step status knows).imp_left fun before => ⟨k, rfl, before⟩
    | returned a =>
      rw [status] at goes
      cases a <;> cases untilServed <;> cases goes
      cases at_k
      exact absurd knows id
  | popping untilServed k =>
    change attempts.afterPop untilServed (step k m).2 = _ at goes
    cases status : (step k m).2 with
    | running next =>
      rw [status] at goes
      cases goes
      cases at_k
      exact (knows_step status knows).imp_left fun before => ⟨k, rfl, before⟩
    | returned a =>
      rw [status] at goes
      cases a <;> cases untilServed <;> cases goes
      all_goals
        cases at_k
        exact absurd knows id

theorem next_retryStep {x : Nat} (looks : Looks l) (link : (attempts.retryStep l m).memory.next x = some y) :
    m.next x = some y ∨ ∃ k, within? l = some k ∧ Knows y k := by
  cases l with
  | prepare v untilServed =>
    change (prepare v m).1.next x = _ at link
    rw [next_prepare] at link
    split at link
    · cases link
    · exact .inl link
  | looking k =>
    obtain rfl : k = .look := looks
    exact .inl link
  | pushing item untilServed k | popping untilServed k =>
    exact (next_step link).imp_right fun knows => ⟨k, rfl, knows⟩

theorem size_retryStep (l : Position Item Label) (m : Memory) :
    m.nodes.size ≤ (attempts.retryStep l m).memory.nodes.size := by
  cases l with
  | prepare v untilServed =>
    change _ ≤ (m.nodes.push _).size
    simp
  | pushing item untilServed k | popping untilServed k | looking k => exact (size_step k m).ge

theorem secret (own : owning programs earlier) : Secret programs (after programs earlier) := by
  induction earlier with
  | nil =>
    constructor
    · intro x y link
      simp [after, Algorithm.viewAfter_nil, View.start, Memory.next] at link
    · intro j l k y here
      simp [after, Algorithm.viewAfter_nil, View.start] at here
  | cons t earlier ih =>
    have own := owning_of_suffix (List.suffix_cons t earlier) own
    have before := ih own
    obtain ⟨phases, sits⟩ := exists_sits earlier own
    have step := TreiberStack.turn programs t earlier
    have kept {y : Nat} (h : Released programs (after programs earlier) y)
        (size : (after programs earlier).memory.nodes.size ≤
          (after programs (t :: earlier)).memory.nodes.size) :
        Released programs (after programs (t :: earlier)) y :=
      h.turn step (fun l here => (called programs earlier here).1) size
    rcases step.rest_or_enter_or_take with ⟨_, hv⟩ | ⟨c, outside, _, hv⟩ | ⟨l, here, _⟩
    · rw [hv]
      exact before
    · have size : (after programs earlier).memory.nodes.size ≤
          (after programs (t :: earlier)).memory.nodes.size := by rw [hv, View.memory_enter]
      constructor
      · intro x y link
        refine kept (before.links x y ?_) size
        rwa [hv, View.memory_enter] at link
      · intro j l k y at_l at_k knows
        rw [hv, View.label_enter] at at_l
        by_cases same : j = t.thread
        · rw [same, Function.update_self] at at_l
          cases at_l
          cases c <;> cases at_k <;> exact absurd knows id
        · rw [Function.update_of_ne same] at at_l
          exact kept (before.known j l k y at_l at_k knows) size
    · have memory : (after programs (t :: earlier)).memory =
          (attempts.retryStep l (after programs earlier).memory).memory := by
        rw [after_inside here, View.memory_take]
      have size := memory ▸ size_retryStep l (after programs earlier).memory
      constructor
      · intro x y link
        rw [memory] at link
        rcases next_retryStep (called programs earlier here).2 link with old | ⟨k, at_k, knows⟩
        · exact kept (before.links x y old) size
        · exact kept (before.known _ l k y here at_k knows) size
      · intro j l' k' y at_l' at_k' knows
        by_cases same : j = t.thread
        · subst same
          cases status : (attempts.retryStep l (after programs earlier).memory).status with
          | returned a =>
            rw [after_inside here, View.take_returned status, View.label_answer, Function.update_self]
              at at_l'
            cases at_l'
          | running l'' =>
            rw [after_inside here, View.take_running status, View.label_move, Function.update_self]
              at at_l'
            cases at_l'
            rcases knows_retryStep status at_k' knows with ⟨k, at_k, knew⟩ | head | ⟨x, link⟩
            · exact kept (before.known _ l k y here at_k knew) size
            · exact kept (sits.released_head head) size
            · exact kept (before.links x y link) size
        · rw [(step.others same).1] at at_l'
          exact kept (before.known j l' k' y at_l' at_k' knows) size

end Secret

end TreiberStack

end SharedMemory
