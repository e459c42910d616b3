import SharedMemory.Proofs.TreiberClients

/-!
# The lock-free stack serves its operations in the order in which the head is swung

A push is served by the step that swings the head to its node, a pop by the one that swings the head
past the node it read, or that loads the head and finds none. `order` lists the operations as they are
served. An attempt that fails, or an item that is only prepared, has no place in it.
-/
namespace SharedMemory.TreiberStack

open AttemptStack (Call Position Answer Phase Outcome respond)

/-- The sequential stack, top first. A preparation asks nothing of it. -/
def serve : Call Item → List Value → Answer Item × List Value
  | .push v, values => (.pushed, Discipline.lifo.insert v values)
  | .attemptPush item, values => (.pushed, Discipline.lifo.insert item.value values)
  | .pop, values | .attemptPop, values =>
    (.popped (Discipline.remove values).1, (Discipline.remove values).2)
  | .isEmpty, values => (.emptiness values.isEmpty, values)
  | .prepare _, values => (.interfered, values)

/-- The answer that a thread is given if its next step serves it. -/
def served? (m : Memory) : Position Item Label → Option (Answer Item)
  | .pushing _ _ (.pushSwing _ seen) => if m.head = seen then some .pushed else none
  | .popping _ .popLoad => if m.head = none then some (.popped none) else none
  | .popping _ (.popSwing seen _) =>
    if m.head = some seen then some (.popped (some (m.value seen))) else none
  | .looking .look => some (.emptiness m.head.isNone)
  | _ => none

def entryOf (v : View Memory (Position Item Label) (Answer Item)) (i : Nat) :
    Option (Entry (Call Item) (Answer Item)) :=
  (v.label i).bind fun l => (served? v.memory l).map (⟨v.current i, callAt l, ·⟩)

/-- The operations that have been served, in the order of the steps that served them. -/
def order (programs : List (List (Call Item))) :
    List (Turn Unit) → List (Entry (Call Item) (Answer Item))
  | [] => []
  | t :: earlier => order programs earlier ++ (entryOf (after programs earlier) t.thread).toList

/-- The answer to a call that was not served. -/
def Unserved : Answer Item → Prop
  | .prepared _ | .handedBack _ | .interfered => True
  | _ => False

section Step

variable {m : Memory} {item : Item} {untilServed : Bool} {l : Label}

theorem size_step (l : Label) (m : Memory) : (step l m).1.nodes.size = m.nodes.size := by
  cases l with
  | pushLink => simp [step]
  | pushSwing | popSwing =>
    simp only [step]
    split <;> rfl
  | pushLoad | popLoad | popNext | look => rfl

theorem served?_pushing (m : Memory) (item : Item) (untilServed : Bool) (l : Label) :
    served? m (.pushing item untilServed l) =
      if (step l m).2 = .returned .pushed then some .pushed else none := by
  cases l with
  | pushSwing | popSwing =>
    simp only [served?, step]
    split <;> simp
  | popLoad => cases head : m.head <;> simp [served?, step, head]
  | pushLoad | pushLink | popNext | look => rfl

def found? : Status Label AttemptAnswer → Option (Answer Item)
  | .returned (.popped found) => some (.popped found)
  | _ => none

theorem served?_popping (m : Memory) (untilServed : Bool) (l : Label) :
    served? m (.popping untilServed l) = found? (step l m).2 := by
  cases l with
  | pushSwing _ seen => by_cases met : m.head = seen <;> simp [served?, step, met, found?]
  | popSwing seen _ =>
    by_cases met : m.head = some seen <;> simp [served?, step, met, found?]
  | popLoad => cases head : m.head <;> simp [served?, step, head, found?]
  | pushLoad | pushLink | popNext | look => rfl

theorem answer_of_served {m : Memory} {l : Position Item Label} {a : Answer Item}
    (h : served? m l = some a) : (attempts.retryStep l m).status = .returned a := by
  cases l with
  | prepare => cases h
  | pushing item untilServed l =>
    rw [served?_pushing] at h
    split at h
    · next pushed =>
      cases h
      change attempts.afterPush item untilServed (step l m).2 = _
      rw [pushed]
      rfl
    · cases h
  | popping untilServed l =>
    rw [served?_popping] at h
    change attempts.afterPop untilServed (step l m).2 = _
    unfold found? at h
    split at h
    · next found popped =>
      cases h
      rw [popped]
      rfl
    · cases h
  | looking l =>
    cases l with
    | look =>
      cases h
      rfl
    | _ => cases h

end Step

section Turns

variable {programs : List (List (Call Item))} {v v' : View Memory (Position Item Label) (Answer Item)}
  {phases : Nat → Phase Item Label} {i : Nat} {item : Item} {untilServed : Bool} {l : Label}

/-- The parties keep the law of attempts with the values that are in the chain. -/
structure Sits (programs : List (List (Call Item)))
    (v : View Memory (Position Item Label) (Answer Item)) (phases : Nat → Phase Item Label) : Prop where
  good : Good phases v.memory v.memory.toList
  seated : Seated programs v phases

/-- What a turn of thread `i` does to the stack is what it does to the sequential one, and whom it
answers without serving has no place in the order. -/
structure Accounts (v v' : View Memory (Position Item Label) (Answer Item)) (i : Nat) : Prop where
  unserved : entryOf v i = none → v'.memory.toList = v.memory.toList
  served : ∀ e, entryOf v i = some e → serve e.call v.memory.toList = (e.answer, v'.memory.toList)
  answered : ∀ a, v'.answer? (v.current i) = some a →
    Unserved a ∨ ∃ e, entryOf v i = some e ∧ e.answer = a

theorem Accounts.moved {m' : Memory} {l : Position Item Label} {events : List Event}
    (unserved : entryOf v i = none) (contents : m'.toList = v.memory.toList) :
    Accounts v (v.move i m' l events) i where
  unserved _ := contents
  served e he := by
    rw [unserved] at he
    cases he
  answered a gives := absurd gives (View.unanswered_of_answers (View.answers_move v i m' l events) a rfl)

theorem Accounts.declined {m' : Memory} {a : Answer Item} {events : List Event}
    (unserved : entryOf v i = none) (contents : m'.toList = v.memory.toList) (refusal : Unserved a) :
    Accounts v (v.answer i m' a events) i where
  unserved _ := contents
  served e he := by
    rw [unserved] at he
    cases he
  answered a' gives := by
    rw [View.answer?_answer] at gives
    cases gives
    exact .inl refusal

theorem Accounts.answer {m' : Memory} {c : Call Item} {a : Answer Item} {events : List Event}
    (served : entryOf v i = some ⟨v.current i, c, a⟩)
    (serves : serve c v.memory.toList = (a, m'.toList)) : Accounts v (v.answer i m' a events) i where
  unserved he := by
    rw [served] at he
    cases he
  served e he := by
    cases served.symm.trans he
    exact serves
  answered a' gives := by
    rw [View.answer?_answer] at gives
    cases gives
    exact .inr ⟨_, served, rfl⟩

theorem Good.sits {values : List Value} (good : Good phases v.memory values)
    (seated : Seated programs v phases) : Sits programs v phases := by
  refine ⟨?_, seated⟩
  rw [good.toList_eq]
  exact good

theorem items_move (m : Memory) (l : Position Item Label) (events : List Event) :
    items programs (v.move i m l events) i =
      carried (some l) ++ hand (callsOf programs i) (v.answers i) := by
  simp [items]

theorem items_answer {c : Call Item}
    (next : (callsOf programs i)[(v.answers i).length]? = some c) (m : Memory) (a : Answer Item)
    (events : List Event) :
    items programs (v.answer i m a events) i =
      keep (hand (callsOf programs i) (v.answers i)) (c, a) := by
  simp [items, carried, hand_concat next]

/-- A turn of a thread inside an attempt to push, which goes on or is taken up again. -/
theorem Seated.pushing (h : Seated programs v phases) {l' : Label} {m' : Memory} {events : List Event}
    (here : v.label i = some (.pushing item untilServed l))
    (size : m'.nodes.size = v.memory.nodes.size) :
    Seated programs (v.move i m' (.pushing item untilServed l') events)
      (Function.update phases (holder item.node) (.pushing item l')) := by
  have own : items programs (v.move i m' (.pushing item untilServed l') events) i =
      items programs v i := by
    rw [items_move, items, here]
    cases untilServed <;> rfl
  apply h.hold (i := i)
  · intro j hj
    simp [hj]
  · rw [View.memory_move, size]
  · exact .inl (h.pushes i item untilServed l here)
  · intro item' mem
    exact .inr (own ▸ mem)
  · rw [own]
    exact h.distinct i
  · simp [here, popPhase]
  · simp
  · intro item' other
    rw [here, View.label_move, Function.update_self, itemPhase_other other, itemPhase_other other]
  · intro item' b k now
    rw [own]
    rw [View.label_move, Function.update_self] at now
    cases now
    exact h.pushes i item untilServed l here

/-- An attempt to push that is answered leaves the thread with some of its items. -/
theorem Seated.pushed (h : Seated programs v phases) {m' : Memory} {a : Answer Item}
    {events : List Event} {p : Phase Item Label}
    (here : v.label i = some (.pushing item untilServed l))
    (size : m'.nodes.size = v.memory.nodes.size)
    (own : (items programs (v.answer i m' a events) i).Sublist (items programs v i))
    (now : item ∈ items programs (v.answer i m' a events) i → p = .holding item) :
    Seated programs (v.answer i m' a events) (Function.update phases (holder item.node) p) := by
  apply h.hold (i := i)
  · intro j hj
    simp [hj]
  · rw [View.memory_answer, size]
  · exact .inl (h.pushes i item untilServed l here)
  · intro item' mem
    exact .inr (own.subset mem)
  · exact (h.distinct i).sublist (own.map Item.node)
  · simp [here, popPhase]
  · intro mem
    simp [now mem, itemPhase]
  · intro item' other
    rw [here, View.label_answer, Function.update_self, itemPhase_other other]
    rfl
  · simp

/-- A thread whose push is served has its item no longer. -/
theorem Seated.items_pushed (h : Seated programs v phases)
    (here : v.label i = some (.pushing item untilServed l))
    (next : (callsOf programs i)[(v.answers i).length]? = some (callAt (.pushing item untilServed l)))
    (m' : Memory) :
    (items programs (v.answer i m' .pushed []) i).Sublist (items programs v i) ∧
      item ∉ items programs (v.answer i m' .pushed []) i := by
  have distinct := (h.distinct i).of_map
  rw [items, here] at distinct
  rw [items_answer next, items, here]
  cases untilServed with
  | true => exact ⟨List.sublist_cons_self _ _, (List.nodup_cons.mp distinct).1⟩
  | false => exact ⟨List.erase_sublist, distinct.not_mem_erase⟩

theorem Sits.pushing (h : Sits programs v phases)
    (here : v.label i = some (.pushing item untilServed l))
    (next : (callsOf programs i)[(v.answers i).length]? = some (callAt (.pushing item untilServed l)))
    (hv : v' = v.take i (attempts.retryStep (.pushing item untilServed l) v.memory)) :
    ∃ phases', Sits programs v' phases' ∧ Accounts v v' i := by
  have mine := h.seated.pushes i item untilServed l here
  have party : phases (holder item.node) = .pushing item l := by
    rw [h.seated.holds i item mine, here, itemPhase_pushing]
  obtain ⟨values', outcome, good⟩ := h.good.pushing party
  have size := size_step l v.memory
  have entry : entryOf v i = if (step l v.memory).2 = .returned .pushed
      then some ⟨v.current i, callAt (.pushing item untilServed l), .pushed⟩ else none := by
    rw [entryOf, here, Option.bind_some, served?_pushing]
    split <;> rfl
  change v' = v.take i ⟨(step l v.memory).1, attempts.afterPush item untilServed (step l v.memory).2,
    []⟩ at hv
  generalize step l v.memory = r at outcome good size entry hv
  obtain ⟨m', s⟩ := r
  cases outcome with
  | goes l' =>
    obtain rfl : v' = v.move i m' (.pushing item untilServed l') [] := hv
    have unserved : entryOf v i = none := by simp [entry]
    exact ⟨_, good.sits (h.seated.pushing here size), .moved unserved good.toList_eq⟩
  | serves =>
    obtain rfl : v' = v.answer i m' .pushed [] := hv
    obtain ⟨own, gone⟩ := h.seated.items_pushed here next m'
    refine ⟨_, good.sits (h.seated.pushed here size own fun mem => absurd mem gone), ?_⟩
    apply Accounts.answer (entry.trans (if_pos rfl))
    rw [good.toList_eq]
    cases untilServed <;> rfl
  | refused =>
    have contents : m'.toList = v.memory.toList := good.toList_eq
    have unserved : entryOf v i = none := by simp [entry]
    cases untilServed with
    | true =>
      obtain rfl : v' = v.move i m' (.pushing item true (.pushLoad item.node)) [] := hv
      have again := (law.push good (Function.update_self _ _ _)).2
      rw [Function.update_idem] at again
      exact ⟨_, Good.sits again (h.seated.pushing here size), .moved unserved contents⟩
    | false =>
      obtain rfl : v' = v.answer i m' (.handedBack item) [] := hv
      have own : items programs (v.answer i m' (.handedBack item) []) i = items programs v i := by
        rw [items_answer next, items, here]
        rfl
      have seated := h.seated.pushed here size (by rw [own]) fun _ => rfl
      exact ⟨_, good.sits seated, .declined unserved contents trivial⟩
  | fixes _ _ settled => cases settled
  | done _ settled => cases settled

theorem Seated.popping (h : Seated programs v phases) {l' : Label} {m' : Memory}
    {events : List Event} (here : v.label i = some (.popping untilServed l))
    (size : m'.nodes.size = v.memory.nodes.size) :
    Seated programs (v.move i m' (.popping untilServed l') events)
      (Function.update phases (popper i) (.popping l')) := by
  have party : popPhase ((v.move i m' (.popping untilServed l') events).label i) = .popping l' := by
    simp [popPhase]
  rw [← party]
  apply h.pop (i := i)
  · intro j hj
    simp [hj]
  · rw [View.memory_move, size]
  · rw [items_move, items, here]
    rfl
  · simp [here, itemPhase]
  · simp

theorem Seated.popped (h : Seated programs v phases) {m' : Memory} {a : Answer Item}
    {events : List Event} (here : v.label i = some (.popping untilServed l))
    (next : (callsOf programs i)[(v.answers i).length]? =
      some (callAt (.popping untilServed l : Position Item Label)))
    (size : m'.nodes.size = v.memory.nodes.size) :
    Seated programs (v.answer i m' a events) (Function.update phases (popper i) .idle) := by
  have party : popPhase ((v.answer i m' a events).label i) = .idle := by simp [popPhase]
  rw [← party]
  apply h.pop (i := i)
  · intro j hj
    simp [hj]
  · rw [View.memory_answer, size]
  · rw [items_answer next, items, here]
    cases untilServed <;> rfl
  · simp [here, itemPhase]
  · simp

theorem Sits.popping (h : Sits programs v phases)
    (here : v.label i = some (.popping untilServed l))
    (next : (callsOf programs i)[(v.answers i).length]? =
      some (callAt (.popping untilServed l : Position Item Label)))
    (hv : v' = v.take i (attempts.retryStep (.popping untilServed l) v.memory)) :
    ∃ phases', Sits programs v' phases' ∧ Accounts v v' i := by
  have party : phases (popper i) = .popping l := by
    rw [h.seated.pops, here]
    rfl
  obtain ⟨values', outcome, good⟩ := h.good.popping party
  have size := size_step l v.memory
  have entry : entryOf v i =
      (found? (step l v.memory).2).map (⟨v.current i, callAt (.popping untilServed l), ·⟩) := by
    rw [entryOf, here, Option.bind_some, served?_popping]
  change v' = v.take i ⟨(step l v.memory).1, attempts.afterPop untilServed (step l v.memory).2, []⟩
    at hv
  generalize step l v.memory = r at outcome good size entry hv
  obtain ⟨m', s⟩ := r
  cases outcome with
  | goes l' =>
    obtain rfl : v' = v.move i m' (.popping untilServed l') [] := hv
    exact ⟨_, good.sits (h.seated.popping here size), .moved entry good.toList_eq⟩
  | serves =>
    obtain rfl : v' = v.answer i m' (.popped (Discipline.remove v.memory.toList).1) [] := hv
    refine ⟨_, good.sits (h.seated.popped here next size), ?_⟩
    apply Accounts.answer entry
    rw [good.toList_eq]
    cases untilServed <;> rfl
  | refused =>
    have contents : m'.toList = v.memory.toList := good.toList_eq
    cases untilServed with
    | true =>
      obtain rfl : v' = v.move i m' (.popping true .popLoad) [] := hv
      have again := (law.pop good (Function.update_self _ _ _)).2
      rw [Function.update_idem] at again
      exact ⟨_, Good.sits again (h.seated.popping here size), .moved entry contents⟩
    | false =>
      obtain rfl : v' = v.answer i m' .interfered [] := hv
      exact ⟨_, good.sits (h.seated.popped here next size), .declined entry contents trivial⟩
  | fixes _ _ settled => cases settled
  | done _ settled => cases settled

/-- The item that a thread prepares has a node of its own. -/
theorem Seated.prepared (h : Seated programs v phases) {value : Value}
    (v' : View Memory (Position Item Label) (Answer Item))
    (here : v.label i = some (.prepare value untilServed))
    (size : item.node = v.memory.nodes.size)
    (grown : v'.memory.nodes.size = v.memory.nodes.size + 1)
    (others : ∀ j, j ≠ i → v'.label j = v.label j ∧ v'.answers j = v.answers j)
    (own : items programs v' i = item :: items programs v i)
    (now : v'.label i = none ∨ v'.label i = some (.pushing item true (.pushLoad item.node))) :
    Seated programs v' (Function.update phases (holder item.node) (itemPhase item (v'.label i))) := by
  apply h.hold others
  · omega
  · exact .inr (by omega)
  · intro item' mem
    rw [own] at mem
    exact List.mem_cons.mp mem
  · rw [own, List.map_cons, List.nodup_cons]
    refine ⟨fun mem => ?_, h.distinct i⟩
    obtain ⟨item', mem', same⟩ := List.mem_map.mp mem
    have old := h.allocated mem'
    omega
  · rcases now with now | now <;> simp [now, here, popPhase]
  · exact fun _ => rfl
  · intro item' other
    rcases now with now | now
    · simp [now, here, itemPhase]
    · rw [now, itemPhase_other other, here]
      rfl
  · intro item' b l mine
    rcases now with now | now
    · rw [now] at mine
      cases mine
    · rw [now] at mine
      cases mine
      rw [own]
      exact List.mem_cons_self

theorem Sits.preparing (h : Sits programs v phases) {value : Value}
    (here : v.label i = some (.prepare value untilServed))
    (next : (callsOf programs i)[(v.answers i).length]? =
      some (callAt (.prepare value untilServed : Position Item Label)))
    (hv : v' = v.take i (attempts.retryStep (.prepare value untilServed) v.memory)) :
    ∃ phases', Sits programs v' phases' ∧ Accounts v v' i := by
  have vacant := h.seated.vacant _ (Nat.le_refl _)
  have good : Good (Function.update phases (holder (prepare value v.memory).2.node)
      (.holding (prepare value v.memory).2)) (prepare value v.memory).1 v.memory.toList :=
    (law.prepare value h.good vacant).2
  have unserved : entryOf v i = none := by simp [entryOf, here, served?]
  have size : (prepare value v.memory).2.node = v.memory.nodes.size := rfl
  have grown : (prepare value v.memory).1.nodes.size = v.memory.nodes.size + 1 := by simp [prepare]
  have contents : (prepare value v.memory).1.toList = v.memory.toList := good.toList_eq
  change v' = v.take i ⟨(prepare value v.memory).1, if untilServed
    then .running (.pushing (prepare value v.memory).2 true (.pushLoad (prepare value v.memory).2.node))
    else .returned (.prepared (prepare value v.memory).2), []⟩ at hv
  generalize prepare value v.memory = r at good size grown contents hv
  obtain ⟨m', item⟩ := r
  cases untilServed with
  | true =>
    obtain rfl : v' = v.move i m' (.pushing item true (.pushLoad item.node)) [] := hv
    have again := (law.push good (Function.update_self _ _ _)).2
    rw [Function.update_idem] at again
    have own : items programs (v.move i m' (.pushing item true (.pushLoad item.node)) []) i =
        item :: items programs v i := by
      rw [items_move, items, here]
      rfl
    have seated := h.seated.prepared (v.move i m' (.pushing item true (.pushLoad item.node)) []) here
      size grown (fun j hj => by simp [hj]) own (.inr (by simp))
    rw [View.label_move, Function.update_self, itemPhase_pushing] at seated
    exact ⟨_, Good.sits again seated, .moved unserved contents⟩
  | false =>
    obtain rfl : v' = v.answer i m' (.prepared item) [] := hv
    have own : items programs (v.answer i m' (.prepared item) []) i = item :: items programs v i := by
      rw [items_answer next, items, here]
      rfl
    have seated := h.seated.prepared (v.answer i m' (.prepared item) []) here size grown
      (fun j hj => by simp [hj]) own (.inl (by simp))
    rw [View.label_answer, Function.update_self] at seated
    exact ⟨_, good.sits seated, .declined unserved contents trivial⟩

theorem Good.isEmpty_toList {values : List Value} (good : Good phases v.memory values) :
    v.memory.toList.isEmpty = v.memory.head.isNone := by
  rw [good.toList_eq]
  exact good.isEmpty_eq

theorem Sits.looking (h : Sits programs v phases) (here : v.label i = some (.looking .look))
    (next : (callsOf programs i)[(v.answers i).length]? =
      some (callAt (.looking .look : Position Item Label)))
    (hv : v' = v.take i (attempts.retryStep (.looking .look) v.memory)) :
    Sits programs v' phases ∧ Accounts v v' i := by
  obtain rfl : v' = v.answer i v.memory (.emptiness v.memory.head.isNone) [] := hv
  have served : entryOf v i = some ⟨v.current i, .isEmpty, .emptiness v.memory.head.isNone⟩ := by
    simp [entryOf, here, served?, callAt]
  refine ⟨⟨h.good, ?_⟩, .answer served ?_⟩
  · apply h.seated.still (i := i)
    · intro j hj
      simp [hj]
    · rfl
    · rw [items_answer next, items, here]
      rfl
    · simp [here, popPhase]
    · simp [here, itemPhase]
    · simp
  · rw [← h.good.isEmpty_toList]
    rfl

theorem items_enter {c : Call Item} (outside : v.label i = none) :
    items programs (v.enter i (attempts.enter c)) i = items programs v i := by
  rw [items, items, outside, View.label_enter, Function.update_self]
  cases c <;> rfl

theorem Seated.pick (h : Seated programs v phases) (outside : v.label i = none)
    (mine : item ∈ items programs v i) :
    Seated programs (v.enter i (attempts.enter (.attemptPush item)))
      (Function.update phases (holder item.node) (.pushing item (.pushLoad item.node))) := by
  have own : items programs (v.enter i (attempts.enter (.attemptPush item))) i = items programs v i :=
    items_enter outside
  have now : (v.enter i (attempts.enter (.attemptPush item))).label i =
      some (.pushing item false (.pushLoad item.node)) := by simp; rfl
  apply h.hold (i := i)
  · exact fun j hj => ⟨by simp [hj], rfl⟩
  · exact Nat.le_refl _
  · exact .inl mine
  · intro item' mem
    exact .inr (own ▸ mem)
  · rw [own]
    exact h.distinct i
  · rw [now, outside]
    rfl
  · intro _
    rw [now, itemPhase_pushing]
  · intro item' other
    rw [now, outside]
    exact itemPhase_other other false _
  · intro item' b l here
    rw [now] at here
    cases here
    rw [own]
    exact mine

theorem Sits.enter (h : Sits programs v phases) {c : Call Item} (outside : v.label i = none)
    (has : ∀ item, c = .attemptPush item → item ∈ hand (callsOf programs i) (v.answers i)) :
    ∃ phases', Sits programs (v.enter i (attempts.enter c)) phases' := by
  have others : ∀ j, j ≠ i → (v.enter i (attempts.enter c)).label j = v.label j ∧
      (v.enter i (attempts.enter c)).answers j = v.answers j :=
    fun j hj => ⟨by simp [hj], rfl⟩
  have now : (v.enter i (attempts.enter c)).label i = some (attempts.enter c) := by simp
  have own : items programs (v.enter i (attempts.enter c)) i = items programs v i := items_enter outside
  cases c with
  | push | prepare | isEmpty =>
    refine ⟨phases, h.good, h.seated.still others rfl own ?_ ?_ ?_⟩
    · rw [now, outside]
      rfl
    · rw [now, outside]
      exact fun _ => rfl
    · intro item untilServed l here
      rw [now] at here
      cases here
  | pop | attemptPop =>
    have idle : phases (popper i) = .idle := by
      rw [h.seated.pops, outside]
      rfl
    have seated := h.seated.pop others rfl own (by rw [now, outside]; exact fun _ => rfl) <| by
      intro item untilServed l here
      rw [now] at here
      cases here
    rw [now] at seated
    exact ⟨_, Good.sits (law.pop h.good idle).2 seated⟩
  | attemptPush item =>
    have mine : item ∈ items programs v i := by
      rw [items, outside]
      exact has item rfl
    have party : phases (holder item.node) = .holding item := by
      rw [h.seated.holds i item mine, outside]
      rfl
    exact ⟨_, Good.sits (law.push h.good party).2 (h.seated.pick outside mine)⟩

theorem Accounts.outside (outside : v.label i = none) (memory : v'.memory = v.memory)
    (answers : v'.answers = v.answers) : Accounts v v' i where
  unserved _ := by rw [memory]
  served e he := by simp [entryOf, outside] at he
  answered a gives := absurd gives (View.unanswered_of_answers answers a rfl)

end Turns

section Run

variable {programs : List (List (Call Item))} {t : Turn Unit} {earlier moment schedule : List (Turn Unit)}
  {phases : Nat → Phase Item Label} {i : Nat} {l l' : Position Item Label}

theorem turn (programs : List (List (Call Item))) (t : Turn Unit) (earlier : List (Turn Unit)) :
    (after programs earlier).Step attempts.retrying programs t.thread t.choice
      (after programs (t :: earlier)) :=
  attempts.retrying.viewAfter_cons {} programs t earlier

/-- The position of a thread that looks is at the head. -/
def Looks : Position Item Label → Prop
  | .looking l => l = .look
  | _ => True

theorem callAt_step {m : Memory} (goes : (attempts.retryStep l m).status = .running l') :
    callAt l' = callAt l ∧ (Looks l → Looks l') := by
  cases l with
  | prepare v untilServed =>
    cases untilServed <;> cases goes
    exact ⟨rfl, id⟩
  | pushing item untilServed l =>
    change attempts.afterPush item untilServed (step l m).2 = _ at goes
    generalize (step l m).2 = s at goes
    rcases s with l | a
    · cases goes
      exact ⟨rfl, id⟩
    · cases a <;> cases untilServed <;> cases goes
      exact ⟨rfl, id⟩
  | popping untilServed l =>
    change attempts.afterPop untilServed (step l m).2 = _ at goes
    generalize (step l m).2 = s at goes
    rcases s with l | a
    · cases goes
      exact ⟨rfl, id⟩
    · cases a <;> cases untilServed <;> cases goes
      all_goals exact ⟨rfl, id⟩
  | looking l =>
    constructor
    · simp only [AttemptStack.retryStep] at goes
      split at goes <;> cases goes
      rfl
    · rintro rfl
      cases goes

/-- The present operation of a thread is the call that led it to its position. -/
theorem called (programs : List (List (Call Item))) (schedule : List (Turn Unit)) {i : Nat}
    {l : Position Item Label} (here : (after programs schedule).label i = some l) :
    ((after programs schedule).current i).call? programs = some (callAt l) ∧ Looks l := by
  induction schedule generalizing i l with
  | nil => simp [after, View.start] at here
  | cons t earlier ih =>
    have turn := turn programs t earlier
    by_cases hi : i = t.thread
    · subst hi
      generalize after programs (t :: earlier) = v' at turn here
      cases turn with
      | rest => exact ih here
      | enter c outside next =>
        rw [View.label_enter, Function.update_self] at here
        cases here
        refine ⟨?_, ?_⟩
        · rw [Operation.call?, View.current, View.answers_enter, next]
          cases c <;> rfl
        · cases c <;> trivial
      | move k k' at_k goes =>
        rw [View.label_move, Function.update_self] at here
        cases here
        obtain ⟨call, looks⟩ := ih at_k
        obtain ⟨same, still⟩ := callAt_step goes
        exact ⟨same ▸ call, still looks⟩
      | answer k a at_k gives => simp at here
    · obtain ⟨label, current⟩ := turn.others hi
      rw [current]
      exact ih (label ▸ here)

/-- A turn of the stack is accounted for. -/
theorem Sits.advance (h : Sits programs (after programs earlier) phases)
    (own : owning programs (t :: earlier)) :
    ∃ phases', Sits programs (after programs (t :: earlier)) phases' ∧
      Accounts (after programs earlier) (after programs (t :: earlier)) t.thread := by
  rcases (turn programs t earlier).rest_or_enter_or_take with
    ⟨outside, hv⟩ | ⟨c, outside, next, hv⟩ | ⟨l, here, hv⟩
  · rw [hv]
    exact ⟨phases, h, .outside outside rfl rfl⟩
  · have has : ∀ item, c = .attemptPush item → item ∈
        hand (callsOf programs t.thread) ((after programs earlier).answers t.thread) := by
      rintro item rfl
      rw [owning, next] at own
      simpa using (Bool.and_eq_true_iff.mp own).2
    obtain ⟨phases', sits⟩ := h.enter outside has
    rw [hv]
    exact ⟨phases', sits, .outside outside rfl rfl⟩
  · obtain ⟨next, looks⟩ := called programs earlier here
    cases l with
    | prepare => exact h.preparing here next hv
    | pushing => exact h.pushing here next hv
    | popping => exact h.popping here next hv
    | looking l =>
      obtain rfl : l = .look := looks
      exact ⟨phases, h.looking here next hv⟩

theorem owning_of_suffix (suffix : moment <:+ schedule) (own : owning programs schedule) :
    owning programs moment := by
  obtain ⟨turns, rfl⟩ := suffix
  induction turns with
  | nil => exact own
  | cons t turns ih =>
    rw [List.cons_append, owning] at own
    exact ih (Bool.and_eq_true_iff.mp own).1

theorem items_start (programs : List (List (Call Item))) (i : Nat) :
    items programs (.start {}) i = [] := by
  simp [items, View.start, carried, hand]

theorem Sits.start (programs : List (List (Call Item))) : Sits programs (.start {}) fun _ => .idle := by
  refine ⟨good_start, fun _ => rfl, ?_, fun _ _ => rfl, ?_, ?_, ?_⟩
  · simp [items_start]
  · intro _ _ _ _ here
    cases here
  · simp [items_start]
  · simp [items_start]

theorem exists_sits (schedule : List (Turn Unit)) (own : owning programs schedule) :
    ∃ phases, Sits programs (after programs schedule) phases := by
  induction schedule with
  | nil =>
    rw [after, Algorithm.viewAfter_nil]
    exact ⟨_, .start programs⟩
  | cons t earlier ih =>
    obtain ⟨phases, h⟩ := ih (owning_of_suffix (List.suffix_cons t earlier) own)
    obtain ⟨phases', h', _⟩ := h.advance own
    exact ⟨phases', h'⟩

theorem accounts (own : owning programs (t :: earlier)) :
    Accounts (after programs earlier) (after programs (t :: earlier)) t.thread := by
  obtain ⟨phases, h⟩ := exists_sits earlier (owning_of_suffix (List.suffix_cons t earlier) own)
  obtain ⟨_, _, account⟩ := h.advance own
  exact account

/-- The answer of an operation in the order is no refusal. -/
theorem served_of_served? {m : Memory} {l : Position Item Label} {a : Answer Item}
    (h : served? m l = some a) : ¬ Unserved a := by
  unfold served? at h
  split at h
  · split at h <;> cases h
    exact id
  · split at h <;> cases h
    exact id
  · split at h <;> cases h
    exact id
  · cases h
    exact id
  · cases h

theorem entryOf_eq_some {v : View Memory (Position Item Label) (Answer Item)}
    {e : Entry (Call Item) (Answer Item)} (h : entryOf v i = some e) :
    e.operation = v.current i ∧ ∃ l, v.label i = some l ∧ e.call = callAt l ∧
      served? v.memory l = some e.answer := by
  obtain ⟨l, here, h⟩ := Option.bind_eq_some_iff.mp h
  obtain ⟨a, served, rfl⟩ := Option.map_eq_some_iff.mp h
  exact ⟨rfl, l, here, rfl, served⟩

/-- An operation is answered by the step that serves it. -/
theorem answer?_of_entry {e : Entry (Call Item) (Answer Item)}
    (h : entryOf (after programs earlier) t.thread = some e) :
    (after programs (t :: earlier)).answer? e.operation = some e.answer := by
  obtain ⟨same, l, here, _, served⟩ := entryOf_eq_some h
  have hv : after programs (t :: earlier) = _ := (turn programs t earlier).take here
  rw [hv, View.take, show (attempts.retrying.step t.choice l _).status = _ from
    answer_of_served served, same]
  exact View.answer?_answer _ _ _ _ _

theorem mem_order_cons {e : Entry (Call Item) (Answer Item)} :
    e ∈ order programs (t :: earlier) ↔
      e ∈ order programs earlier ∨ entryOf (after programs earlier) t.thread = some e := by
  rw [order, List.mem_append, Option.mem_toList]

theorem answered_of_mem {e : Entry (Call Item) (Answer Item)} (he : e ∈ order programs schedule) :
    (after programs schedule).answer? e.operation = some e.answer := by
  induction schedule with
  | nil => cases he
  | cons t earlier ih =>
    rcases mem_order_cons.mp he with he | new
    · exact (turn programs t earlier).answer?_kept (ih he)
    · exact answer?_of_entry new

theorem fresh_of_entry {e f : Entry (Call Item) (Answer Item)}
    (h : entryOf (after programs earlier) t.thread = some e) (hf : f ∈ order programs earlier) :
    f.operation ≠ e.operation := by
  intro same
  have old := answered_of_mem hf
  rw [same, (entryOf_eq_some h).1, View.answer?_current] at old
  cases old

theorem distinct_order (programs : List (List (Call Item))) (schedule : List (Turn Unit)) :
    ((order programs schedule).map Entry.operation).Nodup := by
  induction schedule with
  | nil => exact List.nodup_nil
  | cons t earlier ih =>
    rw [order, List.map_append, List.nodup_append]
    refine ⟨ih, ?_, ?_⟩
    · cases entryOf (after programs earlier) t.thread <;> simp
    · rintro _ ho _ hn rfl
      obtain ⟨f, hf, same⟩ := List.mem_map.mp ho
      obtain ⟨e, he, rfl⟩ := List.mem_map.mp hn
      exact fresh_of_entry (Option.mem_toList.mp he) hf same

/-- The order respects real time. -/
theorem inTime_order (programs : List (List (Call Item))) (schedule : List (Turn Unit)) :
    (order programs schedule).Pairwise fun e f =>
      ¬ Precedes attempts.retrying {} programs schedule f.operation e.operation := by
  have begun : ∀ {schedule e}, e ∈ order programs schedule →
      (after programs schedule).Begun e.operation :=
    fun he => .inl (List.getElem?_eq_some_iff.mp (answered_of_mem he)).1
  induction schedule with
  | nil => exact List.Pairwise.nil
  | cons t earlier ih =>
    rw [order, List.pairwise_append]
    refine ⟨?_, ?_, ?_⟩
    · apply ih.imp_of_mem
      intro e f he _ apart
      exact not_precedes_cons (begun (mem_order_cons.mpr (.inl he))) apart
    · cases entryOf (after programs earlier) t.thread <;> simp
    · intro e he f hf
      have new := Option.mem_toList.mp hf
      apply not_precedes_cons (begun (mem_order_cons.mpr (.inl he)))
      intro before
      have old := before.answered
      rw [(entryOf_eq_some new).1] at old
      simp [View.Answered, View.current] at old

theorem called_order (programs : List (List (Call Item))) (schedule : List (Turn Unit)) :
    ∀ e ∈ order programs schedule, e.operation.call? programs = some e.call := by
  induction schedule with
  | nil => nofun
  | cons t earlier ih =>
    intro e he
    rcases mem_order_cons.mp he with he | new
    · exact ih e he
    · obtain ⟨same, l, here, call, _⟩ := entryOf_eq_some new
      rw [same, call]
      exact (called programs earlier here).1

theorem served_order (programs : List (List (Call Item))) (schedule : List (Turn Unit)) :
    ∀ e ∈ order programs schedule, ¬ Unserved e.answer := by
  induction schedule with
  | nil => nofun
  | cons t earlier ih =>
    intro e he
    rcases mem_order_cons.mp he with he | new
    · exact ih e he
    · obtain ⟨_, _, _, _, served⟩ := entryOf_eq_some new
      exact served_of_served? served

/-- Every operation that is answered and not refused is in the order. -/
theorem mem_order_of_answer (own : owning programs schedule) {o : Operation} {a : Answer Item}
    (gives : (after programs schedule).answer? o = some a) :
    Unserved a ∨ o ∈ (order programs schedule).map Entry.operation := by
  induction schedule with
  | nil => simp [after, View.start, View.answer?] at gives
  | cons t earlier ih =>
    have later : o ∈ (order programs earlier).map Entry.operation →
        o ∈ (order programs (t :: earlier)).map Entry.operation := by
      intro ho
      obtain ⟨e, he, rfl⟩ := List.mem_map.mp ho
      exact List.mem_map_of_mem (mem_order_cons.mpr (.inl he))
    rcases (turn programs t earlier).answer? gives with old | ⟨rfl, _⟩
    · exact (ih (owning_of_suffix (List.suffix_cons t earlier) own) old).imp_right later
    · rcases (accounts own).answered a gives with refusal | ⟨e, he, _⟩
      · exact .inl refusal
      · refine .inr (List.mem_map.mpr ⟨e, mem_order_cons.mpr (.inr he), ?_⟩)
        exact (entryOf_eq_some he).1

theorem legal_order (own : owning programs schedule) :
    Legal serve [] (order programs schedule) (after programs schedule).memory.toList := by
  induction schedule with
  | nil => rfl
  | cons t earlier ih =>
    have before := ih (owning_of_suffix (List.suffix_cons t earlier) own)
    have account := accounts own
    rw [order]
    refine legal_append.mpr ⟨_, before, ?_⟩
    cases he : entryOf (after programs earlier) t.thread with
    | none => exact (account.unserved he).symm
    | some e =>
      have serves := account.served e he
      refine ⟨congrArg Prod.fst serves, ?_⟩
      exact congrArg Prod.snd serves

end Run

section Linear

variable (programs : List (List (Call Item)))

/-- What the chain, the order and the answers are like after a schedule. -/
structure Linear (schedule : List (Turn Unit)) : Prop where
  /-- From the head on, finitely many nodes are linked, and none twice. -/
  acyclic : Chain (after programs schedule).memory (after programs schedule).memory.head
      (after programs schedule).memory.linked ∧
    (after programs schedule).memory.linked.Nodup
  legal : Legal serve [] (order programs schedule) (after programs schedule).memory.toList
  distinct : ((order programs schedule).map Entry.operation).Nodup
  called : ∀ e ∈ order programs schedule, e.operation.call? programs = some e.call
  answered : ∀ e ∈ order programs schedule,
    (after programs schedule).answer? e.operation = some e.answer
  unserved : ∀ o a, (after programs schedule).answer? o = some a →
    (Unserved a ↔ o ∉ (order programs schedule).map Entry.operation)
  inTime : (order programs schedule).Pairwise fun e f =>
    ¬ Precedes attempts.retrying {} programs schedule f.operation e.operation
  /-- The step that serves an operation answers it as the stack of that moment does; all other steps
  leave the stack alone. -/
  instant : ∀ t moment, t :: moment <:+ schedule →
    match entryOf (after programs moment) t.thread with
    | some e => serve e.call (after programs moment).memory.toList =
        (e.answer, (after programs (t :: moment)).memory.toList)
    | none => (after programs (t :: moment)).memory.toList = (after programs moment).memory.toList

theorem treiber_linearizable (schedule : List (Turn Unit)) (own : owning programs schedule) :
    Linear programs schedule := by
  obtain ⟨phases, h⟩ := exists_sits schedule own
  obtain ⟨nodes, holds⟩ := h.good.holds
  constructor
  · rw [holds.chain.linked_eq]
    exact ⟨holds.chain, holds.chain.nodup⟩
  · exact legal_order own
  · exact distinct_order programs schedule
  · exact called_order programs schedule
  · exact fun e he => answered_of_mem he
  · intro o a gives
    refine ⟨fun refusal mem => ?_, (mem_order_of_answer own gives).resolve_right⟩
    obtain ⟨e, he, rfl⟩ := List.mem_map.mp mem
    have same := (answered_of_mem he).symm.trans gives
    exact served_order programs schedule e he (Option.some.inj same ▸ refusal)
  · exact inTime_order programs schedule
  · intro t moment suffix
    have account := accounts (owning_of_suffix suffix own)
    split
    · next e he => exact account.served e he
    · next he => exact account.unserved he

/-- Thread 1 pushes between the load and the swing of thread 0, whose item is handed back to it. It
succeeds at the second attempt, and thread 1 pops that item. -/
def disturbedPush : List (Turn Unit) :=
  ([0, 0, 0, 0, 1, 1, 1, 1, 1, 0, 0, 0, 0, 0, 0, 1, 1, 1, 1].map fun i => ⟨i, ()⟩).reverse

abbrev disturbedPrograms : List (List (Call Item)) :=
  [[.prepare 5, .attemptPush ⟨0, 5⟩, .attemptPush ⟨0, 5⟩], [.push 7, .pop]]

theorem linear_while_disturbed :
    owning disturbedPrograms disturbedPush ∧ Linear disturbedPrograms disturbedPush :=
  ⟨by decide, treiber_linearizable _ _ (by decide)⟩

example :
    let v := after disturbedPrograms disturbedPush
    v.answers 0 = [.prepared ⟨0, 5⟩, .handedBack ⟨0, 5⟩, .pushed] ∧
      v.answers 1 = [.pushed, .popped (some 5)] ∧ v.memory.toList = [7] :=
  ⟨rfl, rfl, rfl⟩

end Linear

end SharedMemory.TreiberStack
