import SharedMemory.Proofs.AttemptTurns
import SharedMemory.Proofs.TreiberOrder

/-!
# Single attempts at the lock-free stack

An attempt that is refused has had no effect, and another thread has moved the head between the load of
the head and the swap that failed. So a thread that is alone is served, wherever the others have stopped.
-/
namespace SharedMemory.TreiberStack

open AttemptStack (Call Position Phase Outcome)

def Refused (item : Item) (a : AttemptStack.Answer Item) : Prop := a = .handedBack item ∨ a = .interfered

/-- What the stack was like when the call was answered, and what it was like afterwards. -/
def told (c : Call Item) : AttemptStack.Answer Item → Option (List Value → List Value → Prop)
  | .prepared _ | .handedBack _ | .interfered => none
  | a => some fun before now => serve c before = (a, now)

def seen? : Label → Option (Option Nat)
  | .pushLink _ seen | .pushSwing _ seen => some seen
  | .popNext seen | .popSwing seen _ => some (some seen)
  | _ => none

def within? : Position Item Label → Option Label
  | .pushing _ _ l | .popping _ l => some l
  | _ => none

def expected? (l : Position Item Label) : Option (Option Nat) := (within? l).bind seen?

section Attempts

variable (programs : List (List (Call Item))) (schedule : List (Turn Unit))

/-- While the operation had seen the head and had still to swap it, another thread changed it. -/
def Disturbed (o : Operation) : Prop :=
  ∃ t moment, t :: moment <:+ schedule ∧ t.thread ≠ o.thread ∧
    (∃ l, (after programs moment).StandsAt o l ∧ (expected? l).isSome) ∧
    (after programs (t :: moment)).memory.head ≠ (after programs moment).memory.head

end Attempts

section Run

variable {programs : List (List (Call Item))} {t : Turn Unit} {earlier schedule : List (Turn Unit)}
  {o : Operation} {l l' : Position Item Label} {a : AttemptStack.Answer Item} {i : Nat}

theorem settles_told (own : owning programs schedule) :
    attempts.retrying.Settles {} programs Memory.toList (fun _ => none) told schedule where
  enter _ := rfl
  goes t moment l l' suffix here goes := by
    refine .inl ⟨rfl, (accounts (owning_of_suffix suffix own)).unserved ?_⟩
    cases served : served? (after programs moment).memory l with
    | none => simp [entryOf, here, served]
    | some a => cases (answer_of_served served).symm.trans goes
  gives t moment l c a suffix here call gives := by
    have account := accounts (owning_of_suffix suffix own)
    cases he : entryOf (after programs moment) t.thread with
    | none =>
      have answered : (after programs (t :: moment)).answer? ((after programs moment).current t.thread) =
          some a := by
        have hv : after programs (t :: moment) = _ := (turn programs t moment).take here
        rw [hv, View.take_returned gives, View.answer?_answer]
      have refusal : Unserved a := by
        refine (account.answered a answered).resolve_right ?_
        rintro ⟨e, some_entry, _⟩
        cases he.symm.trans some_entry
      refine .inl ⟨?_, account.unserved he⟩
      cases a with
      | prepared | handedBack | interfered => rfl
      | pushed | popped | emptiness => exact absurd refusal id
    | some e =>
      obtain ⟨_, l', here', at_call, served⟩ := entryOf_eq_some he
      cases here.symm.trans here'
      have same : e.answer = a := by
        cases (answer_of_served served).symm.trans gives
        rfl
      have calls : e.call = c := at_call.trans
        (Option.some.inj ((called programs moment here).1.symm.trans call))
      have serves := account.served e he
      rw [same, calls] at serves
      have served := served_of_served? served
      rw [same] at served
      refine .inr ⟨rfl, fun before now => serve c before = (a, now), ?_, serves⟩
      cases a with
      | prepared | handedBack | interfered => exact absurd trivial served
      | pushed | popped | emptiness => rfl

theorem after_inside (here : (after programs earlier).label t.thread = some l) :
    after programs (t :: earlier) =
      (after programs earlier).take t.thread (attempts.retryStep l (after programs earlier).memory) :=
  (turn programs t earlier).take here

theorem Disturbed.later (h : Disturbed programs earlier o) : Disturbed programs (t :: earlier) o := by
  obtain ⟨t', moment, suffix, other, during, moved⟩ := h
  exact ⟨t', moment, suffix.trans (List.suffix_cons t earlier), other, during, moved⟩

/-- A thread goes on with the head that it has just seen, or with the one that it has seen before. -/
theorem seen_step {k k' : Label} {m : Memory} {seen : Option Nat} (goes : (step k m).2 = .running k')
    (now : seen? k' = some seen) :
    (step k m).1.head = seen ∨ seen? k = some seen ∧ (step k m).1.head = m.head := by
  cases k with
  | pushLoad =>
    cases goes
    exact .inl (Option.some.inj now)
  | popLoad =>
    cases head : m.head with
    | none =>
      simp only [step, head] at goes
      cases goes
    | some top =>
      simp only [step, head] at goes
      cases goes
      exact .inl (head.trans (Option.some.inj now))
  | pushLink | popNext =>
    cases goes
    exact .inr ⟨now, rfl⟩
  | pushSwing | popSwing =>
    simp only [step] at goes
    split at goes <;> cases goes
  | look => cases goes

/-- A swap that fails has not found the head that the thread has seen. -/
theorem seen_refused {k : Label} {m : Memory} (gives : (step k m).2 = .returned .contended) :
    ∃ seen, seen? k = some seen ∧ m.head ≠ seen := by
  cases k with
  | pushSwing node seen =>
    refine ⟨seen, rfl, fun met => ?_⟩
    simp [step, met] at gives
  | popSwing seen next =>
    refine ⟨some seen, rfl, fun met => ?_⟩
    simp [step, met] at gives
  | popLoad => cases head : m.head <;> simp [step, head] at gives
  | pushLoad | pushLink | popNext | look => cases gives

theorem expected_step {m : Memory} {seen : Option Nat}
    (goes : (attempts.retryStep l m).status = .running l') (now : expected? l' = some seen) :
    (attempts.retryStep l m).memory.head = seen ∨
      expected? l = some seen ∧ (attempts.retryStep l m).memory.head = m.head := by
  cases l with
  | prepare v untilServed =>
    cases untilServed <;> cases goes
    cases now
  | looking k =>
    simp only [AttemptStack.retryStep] at goes
    split at goes <;> cases goes
    cases now
  | pushing item untilServed k =>
    change attempts.afterPush item untilServed (step k m).2 = _ at goes
    cases status : (step k m).2 with
    | running k' =>
      rw [status] at goes
      cases goes
      exact seen_step status now
    | returned a =>
      rw [status] at goes
      cases a <;> cases untilServed <;> cases goes
      cases now
  | popping untilServed k =>
    change attempts.afterPop untilServed (step k m).2 = _ at goes
    cases status : (step k m).2 with
    | running k' =>
      rw [status] at goes
      cases goes
      exact seen_step status now
    | returned a =>
      rw [status] at goes
      cases a <;> cases untilServed <;> cases goes
      all_goals cases now

/-- An attempt that is refused has not found the head that it expected. -/
theorem expected_refused {m : Memory} {phases : Nat → Phase Item Label} {item : Item}
    (gives : (attempts.retryStep l m).status = .returned a) (refused : Refused item a) (looks : Looks l)
    (pops : ∀ untilServed k, l = .popping untilServed k → Stands phases m (.popping k)) :
    ∃ seen, expected? l = some seen ∧ m.head ≠ seen := by
  cases l with
  | prepare v untilServed =>
    cases untilServed <;> cases gives
    rcases refused with same | same <;> cases same
  | looking k =>
    obtain rfl : k = .look := looks
    cases gives
    rcases refused with same | same <;> cases same
  | pushing item' untilServed k =>
    change attempts.afterPush item' untilServed (step k m).2 = _ at gives
    cases status : (step k m).2 with
    | running k' =>
      rw [status] at gives
      cases gives
    | returned answer =>
      rw [status] at gives
      cases answer with
      | contended => exact seen_refused status
      | pushed | popped | emptiness =>
        cases gives
        rcases refused with same | same <;> cases same
  | popping untilServed k =>
    have stands := pops untilServed k rfl
    change attempts.afterPop untilServed (step k m).2 = _ at gives
    cases status : (step k m).2 with
    | running k' =>
      rw [status] at gives
      cases gives
    | returned answer =>
      rw [status] at gives
      cases answer with
      | contended => exact seen_refused status
      | popped =>
        cases gives
        rcases refused with same | same <;> cases same
      | pushed | emptiness =>
        cases k with
        | popLoad => cases head : m.head <;> simp [step, head] at status
        | popNext => cases status
        | popSwing =>
          simp only [step] at status
          split at status <;> cases status
        | pushLoad | pushLink | pushSwing | look => exact absurd stands id

/-- A thread that waits to find a head again finds it, or it has been changed in the meantime. -/
theorem expects (programs : List (List (Call Item))) (schedule : List (Turn Unit)) {seen : Option Nat}
    (here : (after programs schedule).label i = some l) (expects : expected? l = some seen) :
    (after programs schedule).memory.head = seen ∨
      Disturbed programs schedule ((after programs schedule).current i) := by
  induction schedule generalizing i l with
  | nil => simp [after, View.start] at here
  | cons t earlier ih =>
    have turn := turn programs t earlier
    by_cases same : i = t.thread
    · subst same
      rcases turn.rest_or_enter_or_take with ⟨outside, hv⟩ | ⟨c, _, _, hv⟩ | ⟨k, at_k, _⟩
      · rw [hv, outside] at here
        cases here
      · rw [hv, View.label_enter, Function.update_self] at here
        cases here
        cases c <;> cases expects
      · have hv := after_inside at_k
        cases status : (attempts.retryStep k (after programs earlier).memory).status with
        | returned a =>
          rw [hv, View.take_returned status, View.label_answer, Function.update_self] at here
          cases here
        | running k' =>
          rw [View.take_running status] at hv
          rw [hv, View.label_move, Function.update_self] at here
          cases here
          have same : (after programs (t :: earlier)).current t.thread =
              (after programs earlier).current t.thread := by rw [hv]; rfl
          rw [same, hv, View.memory_move]
          rcases expected_step status expects with seen | ⟨before, head⟩
          · exact .inl seen
          · exact (ih at_k before).imp head.trans Disturbed.later
    · obtain ⟨label, current⟩ := turn.others same
      rw [label] at here
      rw [current]
      rcases ih here expects with before | disturbed
      · by_cases moved : (after programs (t :: earlier)).memory.head = (after programs earlier).memory.head
        · exact .inl (moved.trans before)
        · exact .inr ⟨t, earlier, List.suffix_rfl, Ne.symm same, ⟨l, ⟨rfl, here⟩, by simp [expects]⟩, moved⟩
      · exact .inr disturbed.later

theorem disturbed_of_refused (own : owning programs schedule) {item : Item}
    (gave : (after programs schedule).answer? o = some a) (refused : Refused item a) :
    Disturbed programs schedule o := by
  induction schedule with
  | nil => simp [after, View.start, View.answer?] at gave
  | cons t earlier ih =>
    have before := owning_of_suffix (List.suffix_cons t earlier) own
    rcases (turn programs t earlier).answer? gave with old | ⟨rfl, l, here, gives⟩
    · exact (ih before old).later
    · obtain ⟨phases, sits⟩ := exists_sits earlier before
      have pops : ∀ untilServed k, l = .popping untilServed k →
          Stands phases (after programs earlier).memory (.popping k) := by
        rintro untilServed k rfl
        have stands := sits.good.stands (popper t.thread)
        rwa [sits.seated.pops, here] at stands
      obtain ⟨seen, expected, missed⟩ := expected_refused gives refused (called programs earlier here).2 pops
      exact ((expects programs earlier here expected).resolve_left missed).later

theorem carries_of_items (own : owning programs schedule) {item : Item}
    (has : item ∈ items programs (after programs schedule) i) :
    Carries (after programs schedule).memory item := by
  obtain ⟨phases, sits⟩ := exists_sits schedule own
  have stands := sits.good.stands (holder item.node)
  rw [sits.seated.holds i item has] at stands
  generalize (after programs schedule).label i = position at stands
  unfold itemPhase at stands
  split at stands
  · next k =>
    split at stands
    · cases k with
      | pushLoad | pushLink | pushSwing => exact stands.1
      | popLoad | popNext | popSwing | look => exact absurd stands id
    · exact stands
  · exact stands

theorem handedBack_eq (gave : (after programs schedule).answer? o = some a) {item : Item}
    (call : o.call? programs = some (.attemptPush item)) : a = .pushed ∨ a = .handedBack item := by
  induction schedule with
  | nil => simp [after, View.start, View.answer?] at gave
  | cons t earlier ih =>
    rcases (turn programs t earlier).answer? gave with old | ⟨rfl, l, here, gives⟩
    · exact ih old
    · have at_call := (called programs earlier here).1.symm.trans call
      cases l with
      | prepare v untilServed => cases untilServed <;> cases at_call
      | popping untilServed k => cases untilServed <;> cases at_call
      | looking => cases at_call
      | pushing item' untilServed k =>
        cases untilServed <;> cases at_call
        change attempts.afterPush item false (step k _).2 = _ at gives
        generalize (step k (after programs earlier).memory).2 = s at gives
        rcases s with k' | answer
        · cases gives
        · cases answer <;> cases gives
          all_goals simp

section Alone

theorem goes_on (own : owning programs (⟨i, ()⟩ :: schedule))
    (here : (after programs schedule).label i = some l)
    (goes : (attempts.retryStep l (after programs schedule).memory).status = .running l') :
    let later := after programs (⟨i, ()⟩ :: schedule)
    later.label i = some l' ∧
      later.memory = (attempts.retryStep l (after programs schedule).memory).memory ∧
      later.current i = (after programs schedule).current i ∧
      later.memory.toList = (after programs schedule).memory.toList ∧
      owning programs (⟨i, ()⟩ :: ⟨i, ()⟩ :: schedule) := by
  have hv := after_inside (t := ⟨i, ()⟩) here
  have still := (settles_told own).goes ⟨i, ()⟩ schedule l l' List.suffix_rfl here goes
  rw [View.take_running goes] at hv
  refine ⟨by simp [hv], by rw [hv, View.memory_move], by rw [hv]; rfl, ?_, ?_⟩
  · rcases still with ⟨_, still⟩ | ⟨_, does, none_settled, _⟩
    · exact still
    · cases none_settled
  · rw [owning, Bool.and_eq_true]
    refine ⟨own, ?_⟩
    rw [owning, Bool.and_eq_true] at own
    rw [hv, View.answers_move]
    exact own.2

theorem is_served (own : owning programs (⟨i, ()⟩ :: schedule))
    (here : (after programs schedule).label i = some l)
    (served : served? (after programs schedule).memory l = some a) :
    let later := after programs (⟨i, ()⟩ :: schedule)
    later.answer? ((after programs schedule).current i) = some a ∧
      serve (callAt l) (after programs schedule).memory.toList = (a, later.memory.toList) := by
  have entry : entryOf (after programs schedule) i =
      some ⟨(after programs schedule).current i, callAt l, a⟩ := by
    simp [entryOf, here, served]
  exact ⟨answer?_of_entry (t := ⟨i, ()⟩) entry, (accounts own).served _ entry⟩

theorem begins_alone (own : owning programs (⟨i, ()⟩ :: schedule)) {c : Call Item}
    (outside : (after programs schedule).label i = none)
    (next : ((after programs schedule).current i).call? programs = some c) :
    let later := after programs (⟨i, ()⟩ :: schedule)
    later.label i = some (attempts.enter c) ∧ later.memory = (after programs schedule).memory ∧
      later.current i = (after programs schedule).current i ∧
      owning programs (⟨i, ()⟩ :: ⟨i, ()⟩ :: schedule) := by
  have hv : after programs (⟨i, ()⟩ :: schedule) = (after programs schedule).enter i (attempts.enter c) :=
    Algorithm.viewAfter_enter outside next
  refine ⟨by simp [hv], by rw [hv, View.memory_enter], by rw [hv]; rfl, ?_⟩
  rw [owning, Bool.and_eq_true]
  refine ⟨own, ?_⟩
  rw [owning, Bool.and_eq_true] at own
  rw [hv, View.answers_enter]
  exact own.2

/-- Wherever the other threads have stopped, an attempt of a thread that goes on alone is served. -/
theorem served_alone (own : owning programs (⟨i, ()⟩ :: schedule)) {c : Call Item}
    (outside : (after programs schedule).label i = none)
    (next : ((after programs schedule).current i).call? programs = some c)
    (attempt : (∃ item, c = .attemptPush item) ∨ c = .attemptPop) :
    ∃ n ≤ 4, let later := after programs (List.replicate n ⟨i, ()⟩ ++ schedule)
      later.answer? ((after programs schedule).current i) =
          some (serve c (after programs schedule).memory.toList).1 ∧
        later.memory.toList = (serve c (after programs schedule).memory.toList).2 := by
  obtain ⟨entered, memory, current, own⟩ := begins_alone own outside next
  rcases attempt with ⟨item, rfl⟩ | rfl
  · obtain ⟨linking, loaded, current', contents, own⟩ := goes_on own entered rfl
    obtain ⟨swinging, linked, current'', contents', own⟩ := goes_on own linking rfl
    have found : served? (after programs (⟨i, ()⟩ :: ⟨i, ()⟩ :: ⟨i, ()⟩ :: schedule)).memory
        (.pushing item false (.pushSwing item.node (after programs (⟨i, ()⟩ :: schedule)).memory.head)) =
          some .pushed := by
      rw [linked, loaded]
      exact if_pos rfl
    obtain ⟨answered, served⟩ := is_served own swinging found
    rw [contents', contents, memory] at served
    refine ⟨4, Nat.le_refl 4, ?_, ?_⟩
    · rw [current'', current', current] at answered
      exact answered.trans (congrArg some (congrArg Prod.fst served).symm)
    · exact (congrArg Prod.snd served).symm
  · cases head : (after programs (⟨i, ()⟩ :: schedule)).memory.head with
    | none =>
      have found : served? (after programs (⟨i, ()⟩ :: schedule)).memory (.popping false .popLoad) =
          some (.popped none) := if_pos head
      obtain ⟨answered, served⟩ := is_served own entered found
      rw [memory] at served
      rw [current] at answered
      exact ⟨2, by decide, answered.trans (congrArg some (congrArg Prod.fst served).symm),
        (congrArg Prod.snd served).symm⟩
    | some top =>
      have loads : (attempts.retryStep (attempts.enter .attemptPop)
          (after programs (⟨i, ()⟩ :: schedule)).memory).status = .running (.popping false (.popNext top)) := by
        simp [AttemptStack.retryStep, AttemptStack.enter, AttemptStack.afterPop, attempts, step, head]
      obtain ⟨reading, loaded, current', contents, own⟩ := goes_on own entered loads
      obtain ⟨swinging, read, current'', contents', own⟩ := goes_on own reading rfl
      have found : served? (after programs (⟨i, ()⟩ :: ⟨i, ()⟩ :: ⟨i, ()⟩ :: schedule)).memory
          (.popping false (.popSwing top ((after programs (⟨i, ()⟩ :: ⟨i, ()⟩ :: schedule)).memory.next top))) =
            some (.popped (some ((after programs (⟨i, ()⟩ :: ⟨i, ()⟩ :: ⟨i, ()⟩ :: schedule)).memory.value
              top))) := by
        refine if_pos ?_
        rw [read, loaded]
        exact head
      obtain ⟨answered, served⟩ := is_served own swinging found
      rw [contents', contents, memory] at served
      refine ⟨4, Nat.le_refl 4, ?_, ?_⟩
      · rw [current'', current', current] at answered
        exact answered.trans (congrArg some (congrArg Prod.fst served).symm)
      · exact (congrArg Prod.snd served).symm

end Alone

end Run

section Attempted

variable (programs : List (List (Call Item))) (schedule : List (Turn Unit))

/-- What single attempts are like after a schedule. -/
structure Attempted : Prop where
  /-- An operation that is not served has left the stack as the other threads made it. -/
  harmless : ∀ o c a, o.call? programs = some c → (after programs schedule).answer? o = some a →
    Unserved a → attempts.retrying.Untouched {} programs Memory.toList schedule o
  /-- Any other operation is served at one of its turns, and has left the stack alone at all others. -/
  atomic : ∀ o c a, o.call? programs = some c → (after programs schedule).answer? o = some a →
    ¬ Unserved a → attempts.retrying.Acted {} programs Memory.toList
      (fun before now => serve c before = (a, now)) schedule o
  handsBack : ∀ o item a, o.call? programs = some (.attemptPush item) →
    (after programs schedule).answer? o = some a → a = .pushed ∨ a = .handedBack item
  /-- The request of a push carries its value as long as it is not served. -/
  carries : ∀ i, ∀ item ∈ items programs (after programs schedule) i,
    Carries (after programs schedule).memory item
  disturbed : ∀ o item a, (after programs schedule).answer? o = some a → Refused item a →
    Disturbed programs schedule o
  alone : ∀ i c, (after programs schedule).label i = none →
    ((after programs schedule).current i).call? programs = some c →
      (∃ item, c = .attemptPush item) ∨ c = .attemptPop → owning programs (⟨i, ()⟩ :: schedule) →
        ∃ n ≤ 4, let later := after programs (List.replicate n ⟨i, ()⟩ ++ schedule)
          later.answer? ((after programs schedule).current i) =
              some (serve c (after programs schedule).memory.toList).1 ∧
            later.memory.toList = (serve c (after programs schedule).memory.toList).2
  /-- A pop that is served finds nothing just if the stack is empty. -/
  empty : ∀ values, (serve .attemptPop values).1 = .popped none ↔ values = []

variable {programs schedule}

theorem attempted (own : owning programs schedule) : Attempted programs schedule where
  harmless o c a call gave unserved := by
    have did := (settles_told own).progress.past o c a call gave
    cases a with
    | prepared | handedBack | interfered => exact did
    | pushed | popped | emptiness => exact absurd unserved id
  atomic o c a call gave served := by
    have did := (settles_told own).progress.past o c a call gave
    cases a with
    | prepared | handedBack | interfered => exact absurd trivial served
    | pushed | popped | emptiness => exact did
  handsBack o item a call gave := handedBack_eq gave call
  carries i item has := carries_of_items own has
  disturbed o item a gave refused := disturbed_of_refused own gave refused
  alone i c outside next attempt own := served_alone own outside next attempt
  empty values := by cases values <;> simp [serve, Discipline.remove]

end Attempted

end SharedMemory.TreiberStack
