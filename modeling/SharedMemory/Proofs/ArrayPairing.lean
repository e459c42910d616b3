import SharedMemory.Proofs.LinearOrder
import SharedMemory.Proofs.SlotClaims

/-!
# Exchanges in the elimination array come in pairs

A pop that takes an offer and the push that made it become a pair at that very step, with the value of
the push. The push may learn of it later; once nobody is inside the array, everybody has.
-/
namespace SharedMemory.EliminationArray

def Label.call (l : Label) : Call :=
  match l.value? with
  | some v => .push v
  | none => .pop

/-- A push and a pop that met. -/
structure Pair where
  push : Operation
  pop : Operation
  value : Value

def pushEliminations (trace : List Event) : List Value :=
  trace.filterMap fun
    | .pushEliminated v => some v
    | _ => none

def popEliminations (trace : List Event) : List Value :=
  trace.filterMap fun
    | .popEliminated v => some v
    | _ => none

abbrev after (config : EliminationConfig) (programs : List (List Call)) (schedule : List (Turn Choice)) :
    View Memory Label Answer :=
  algorithm.viewAfter (.ofConfig config) programs schedule

def scene (config : EliminationConfig) (programs : List (List Call)) (schedule : List (Turn Choice)) :
    Scene :=
  ⟨(after config programs schedule).memory, (after config programs schedule).label⟩

/-- A push whose value was taken, whether it is answered yet or not. -/
def Eliminated (v : View Memory Label Answer) (o : Operation) : Prop :=
  v.answer? o = some (.pushed true) ∨ ∃ l, v.StandsAt o l ∧ Taken v.memory l

def Active (v : View Memory Label Answer) (o : Operation) : Prop := ∃ l, v.StandsAt o l

/-- What holds of the pairs made so far and of the pushes that were told of it. -/
structure Paired (config : EliminationConfig) (programs : List (List Call))
    (schedule : List (Turn Choice)) (pairs : List Pair) (told : List (Operation × Value)) : Prop where
  called : ∀ i l, (after config programs schedule).label i = some l →
    ((after config programs schedule).current i).call? programs = some l.call
  pushes : (pairs.map Pair.push).Nodup
  pops : (pairs.map Pair.pop).Nodup
  pushed : ∀ o, o ∈ pairs.map Pair.push ↔ Eliminated (after config programs schedule) o
  value : ∀ p ∈ pairs, p.push.call? programs = some (.push p.value)
  popped : ∀ o v, (∃ p ∈ pairs, p.pop = o ∧ p.value = v) ↔
    (after config programs schedule).answer? o = some (.popped (some v))
  overlap : ∀ p ∈ pairs, ∃ moment, moment <:+ schedule ∧
    Active (after config programs moment) p.push ∧ Active (after config programs moment) p.pop
  distinct : (told.map Prod.fst).Nodup
  answered : ∀ o, o ∈ told.map Prod.fst ↔
    (after config programs schedule).answer? o = some (.pushed true)
  offered : ∀ p ∈ told, p.1.call? programs = some (.push p.2)
  pushEvents : pushEliminations (after config programs schedule).trace = told.map Prod.snd
  popEvents : popEliminations (after config programs schedule).trace = pairs.map Pair.value

variable {config : EliminationConfig} {programs : List (List Call)} {t : Turn Choice}
  {earlier schedule : List (Turn Choice)} {pairs : List Pair} {told : List (Operation × Value)}

theorem Paired.start (config : EliminationConfig) (programs : List (List Call)) :
    Paired config programs [] [] [] where
  called i l h := by simp [after, View.start] at h
  pushes := List.nodup_nil
  pops := List.nodup_nil
  pushed o := by simp [after, View.start, Eliminated, View.answer?, View.StandsAt]
  value := by simp
  popped o v := by simp [after, View.start, View.answer?]
  overlap := by simp
  distinct := List.nodup_nil
  answered o := by simp [after, View.start, View.answer?]
  offered := by simp
  pushEvents := rfl
  popEvents := rfl

theorem turn (config : EliminationConfig) (programs : List (List Call)) (t : Turn Choice)
    (earlier : List (Turn Choice)) :
    (after config programs earlier).Step algorithm programs t.thread t.choice
      (after config programs (t :: earlier)) :=
  algorithm.viewAfter_cons (.ofConfig config) programs t earlier

theorem scene_turn (config : EliminationConfig) (programs : List (List Call)) (t : Turn Choice)
    (earlier : List (Turn Choice)) :
    (scene config programs earlier).Step t.thread t.choice (scene config programs (t :: earlier)) := by
  have step := turn config programs t earlier
  change Scene.Step _ _ ⟨(after config programs earlier).memory, (after config programs earlier).label⟩
    ⟨(after config programs (t :: earlier)).memory, (after config programs (t :: earlier)).label⟩
  generalize after config programs (t :: earlier) = v' at step ⊢
  cases step with
  | rest outside => exact .rest outside
  | enter c outside next => exact .enter c outside
  | move l l' here goes => exact .move l l' here goes
  | answer l a here gives => exact .leave l a here gives

theorem sound (slots : config.slots ≠ 0) (programs : List (List Call)) (schedule : List (Turn Choice)) :
    Sound (scene config programs schedule) (claimsSince (scene config programs) schedule) := by
  apply Sound.run _ (scene_turn config programs)
  have start : scene config programs [] = ⟨.ofConfig config, fun _ => none⟩ := by
    simp [scene, after, View.start]
  rw [start]
  exact .start slots _

section View

variable {v v' : View Memory Label Answer} {i : Nat} {choice : Choice} {o : Operation}

theorem eliminated_current : Eliminated v (v.current i) ↔ ∃ l, v.label i = some l ∧ Taken v.memory l := by
  simp only [Eliminated, View.answer?_current, reduceCtorEq, false_or, View.StandsAt]
  simp [View.current]

/-- Operations other than the present one of the thread that moves are eliminated only by a pop that
takes what they offer. -/
theorem eliminated_other (step : v.Step algorithm programs i choice v') (ho : o ≠ v.current i)
    (same : ∀ l, v.StandsAt o l → (Taken v'.memory l ↔ Taken v.memory l)) :
    Eliminated v' o ↔ Eliminated v o := by
  rw [Eliminated, Eliminated, step.answer?_other ho]
  apply or_congr Iff.rfl
  constructor
  · intro ⟨l, stands, taken⟩
    rw [step.standsAt_other ho] at stands
    exact ⟨l, stands, (same l stands).mp taken⟩
  · intro ⟨l, stands, taken⟩
    exact ⟨l, (step.standsAt_other ho l).mpr stands, (same l stands).mpr taken⟩

end View

theorem Label.call_of_value {l : Label} {v : Value} (h : l.value? = some v) : l.call = .push v := by
  rw [Label.call, h]

theorem called_later (slots : config.slots ≠ 0)
    (called : ∀ i l, (after config programs earlier).label i = some l →
      ((after config programs earlier).current i).call? programs = some l.call)
    (i : Nat) (l : Label) (here : (after config programs (t :: earlier)).label i = some l) :
    ((after config programs (t :: earlier)).current i).call? programs = some l.call := by
  have step := turn config programs t earlier
  by_cases hi : i = t.thread
  · subst hi
    have sound := sound slots programs earlier
    generalize after config programs (t :: earlier) = v' at step here ⊢
    cases step with
    | rest outside =>
      rw [outside] at here
      cases here
    | enter c outside next =>
      rw [View.label_enter, Function.update_self] at here
      cases here
      rw [Operation.call?, View.current, View.answers_enter, next]
      cases c <;> rfl
    | move k k' at_k goes =>
      rw [View.label_move, Function.update_self] at here
      cases here
      obtain ⟨_, value, _⟩ := sound.running at_k goes
      have call : l.call = k.call := by rw [Label.call, Label.call, value]
      rw [call]
      exact called _ k at_k
    | answer k a at_k gives =>
      rw [View.label_answer, Function.update_self] at here
      cases here
  · obtain ⟨label, current⟩ := step.others hi
    rw [label] at here
    rw [current]
    exact called i l here

theorem overlap_later (h : Paired config programs earlier pairs told) (t : Turn Choice) :
    ∀ p ∈ pairs, ∃ moment, moment <:+ t :: earlier ∧
      Active (after config programs moment) p.push ∧ Active (after config programs moment) p.pop := by
  intro p hp
  obtain ⟨moment, suffix, active⟩ := h.overlap p hp
  exact ⟨moment, suffix.trans (List.suffix_cons t earlier), active⟩

theorem Paired.quiet (h : Paired config programs earlier pairs told) (slots : config.slots ≠ 0)
    (same : ∀ o, Eliminated (after config programs (t :: earlier)) o ↔
      Eliminated (after config programs earlier) o)
    (answers : ∀ o a, a = .pushed true ∨ (∃ v, a = .popped (some v)) →
      ((after config programs (t :: earlier)).answer? o = some a ↔
        (after config programs earlier).answer? o = some a))
    (pushEvents : pushEliminations (after config programs (t :: earlier)).trace =
      pushEliminations (after config programs earlier).trace)
    (popEvents : popEliminations (after config programs (t :: earlier)).trace =
      popEliminations (after config programs earlier).trace) :
    Paired config programs (t :: earlier) pairs told where
  called := called_later slots h.called
  pushes := h.pushes
  pops := h.pops
  pushed o := by rw [h.pushed, same]
  value := h.value
  popped o v := by rw [h.popped, answers o _ (.inr ⟨v, rfl⟩)]
  overlap := overlap_later h t
  distinct := h.distinct
  answered o := by rw [h.answered, answers o _ (.inl rfl)]
  offered := h.offered
  pushEvents := pushEvents.trans h.pushEvents
  popEvents := popEvents.trans h.popEvents

theorem Paired.tell (h : Paired config programs earlier pairs told) (slots : config.slots ≠ 0)
    {l : Label} {m' : Memory} {v : Value}
    (here : (after config programs earlier).label t.thread = some l) (value : l.value? = some v)
    (hv : after config programs (t :: earlier) = (after config programs earlier).answer t.thread m'
      (.pushed true) [.pushEliminated v])
    (same : ∀ o, Eliminated (after config programs (t :: earlier)) o ↔
      Eliminated (after config programs earlier) o) :
    Paired config programs (t :: earlier) pairs
      (((after config programs earlier).current t.thread, v) :: told) := by
  have step := turn config programs t earlier
  have unanswered : (after config programs earlier).answer?
      ((after config programs earlier).current t.thread) = none := View.answer?_current
  have gives : (after config programs (t :: earlier)).answer?
      ((after config programs earlier).current t.thread) = some (.pushed true) := by
    rw [hv, View.answer?_answer]
  constructor
  · exact called_later slots h.called
  · exact h.pushes
  · exact h.pops
  · intro o
    rw [h.pushed, same]
  · exact h.value
  · intro o v'
    rw [h.popped]
    by_cases ho : o = (after config programs earlier).current t.thread
    · rw [ho, unanswered, gives]
      simp
    · rw [step.answer?_other ho]
  · exact overlap_later h t
  · rw [List.map_cons, List.nodup_cons]
    refine ⟨?_, h.distinct⟩
    rw [h.answered, unanswered]
    nofun
  · intro o
    rw [List.map_cons, List.mem_cons, h.answered]
    by_cases ho : o = (after config programs earlier).current t.thread
    · rw [ho, gives]
      simp
    · rw [step.answer?_other ho]
      simp [ho]
  · intro p hp
    rcases List.mem_cons.mp hp with same | hp
    · rw [same, ← Label.call_of_value value]
      exact h.called _ l here
    · exact h.offered p hp
  · rw [hv, List.map_cons, ← h.pushEvents]
    rfl
  · rw [hv, ← h.popEvents]
    rfl

theorem eliminated_spared (slots : config.slots ≠ 0) {l : Label} {o : Operation}
    (here : (after config programs earlier).label t.thread = some l)
    (lost : ¬ Wins (after config programs earlier).memory l)
    (memory : (after config programs (t :: earlier)).memory =
      (EliminationArray.step t.choice l (after config programs earlier).memory).memory)
    (ho : o ≠ (after config programs earlier).current t.thread) :
    Eliminated (after config programs (t :: earlier)) o ↔
      Eliminated (after config programs earlier) o := by
  apply eliminated_other (turn config programs t earlier) ho
  intro k ⟨index, at_k⟩
  have thread : o.thread ≠ t.thread := by
    intro same
    apply ho
    rw [View.current_thread index, same]
  rw [memory]
  exact (sound slots programs earlier).spared here t.choice lost thread at_k

theorem eliminated_entered {c : Call}
    (outside : (after config programs earlier).label t.thread = none)
    (hv : after config programs (t :: earlier) =
      (after config programs earlier).enter t.thread (algorithm.enter c)) (o : Operation) :
    Eliminated (after config programs (t :: earlier)) o ↔
      Eliminated (after config programs earlier) o := by
  by_cases ho : o = (after config programs earlier).current t.thread
  · have current : (after config programs earlier).current t.thread =
        (after config programs (t :: earlier)).current t.thread := by
      rw [hv]
      rfl
    rw [ho, eliminated_current, current, eliminated_current, hv, outside]
    refine iff_of_false ?_ (by simp)
    intro ⟨l, here, taken⟩
    rw [View.label_enter, Function.update_self] at here
    cases here
    cases c <;> exact taken
  · apply eliminated_other (turn config programs t earlier) ho
    intro l _
    rw [hv, View.memory_enter]

theorem eliminated_moved (slots : config.slots ≠ 0) {l l' : Label}
    (here : (after config programs earlier).label t.thread = some l)
    (goes : (EliminationArray.step t.choice l (after config programs earlier).memory).status =
      .running l')
    (hv : after config programs (t :: earlier) = (after config programs earlier).move t.thread
      (EliminationArray.step t.choice l (after config programs earlier).memory).memory l'
      (EliminationArray.step t.choice l (after config programs earlier).memory).events)
    (o : Operation) : Eliminated (after config programs (t :: earlier)) o ↔
      Eliminated (after config programs earlier) o := by
  obtain ⟨taken, _, lost, _⟩ := (sound slots programs earlier).running here goes
  by_cases ho : o = (after config programs earlier).current t.thread
  · have current : (after config programs earlier).current t.thread =
        (after config programs (t :: earlier)).current t.thread := by
      rw [hv]
      rfl
    rw [ho, eliminated_current, current, eliminated_current, hv, here]
    simp only [View.label_move, Function.update_self, View.memory_move, Option.some.injEq,
      exists_eq_left']
    exact taken
  · exact eliminated_spared slots here lost (congrArg View.memory hv) ho

theorem eliminated_answered (slots : config.slots ≠ 0) {l : Label} {a : Answer}
    (here : (after config programs earlier).label t.thread = some l)
    (lost : ¬ Wins (after config programs earlier).memory l)
    (told : a = .pushed true ↔ Taken (after config programs earlier).memory l)
    (hv : after config programs (t :: earlier) = (after config programs earlier).answer t.thread
      (EliminationArray.step t.choice l (after config programs earlier).memory).memory a
      (EliminationArray.step t.choice l (after config programs earlier).memory).events)
    (o : Operation) : Eliminated (after config programs (t :: earlier)) o ↔
      Eliminated (after config programs earlier) o := by
  by_cases ho : o = (after config programs earlier).current t.thread
  · have outside : ∀ k, ¬ (after config programs (t :: earlier)).StandsAt
        ((after config programs earlier).current t.thread) k := by
      intro k ⟨_, at_k⟩
      rw [hv, View.label_answer, View.current, Function.update_self] at at_k
      cases at_k
    rw [ho, eliminated_current, here, Eliminated]
    simp only [outside, false_and, exists_false, or_false, Option.some.injEq, exists_eq_left']
    rw [hv, View.answer?_answer, Option.some_inj]
    exact told
  · exact eliminated_spared slots here lost (congrArg View.memory hv) ho

/-- By taking an offer, a pop eliminates the push that made it, and no other. -/
theorem eliminated_met {j : Nat} {k l : Label} {a : Answer} {events : List Event} {m' : Memory}
    (here : (after config programs earlier).label t.thread = some k)
    (unoffered : ¬ Taken (after config programs earlier).memory k)
    (hj : j ≠ t.thread) (at_l : (after config programs earlier).label j = some l)
    (taken : Taken m' l)
    (others : ∀ j' l', j' ≠ j → (after config programs earlier).label j' = some l' →
      (Taken m' l' ↔ Taken (after config programs earlier).memory l'))
    (not_pushed : a ≠ .pushed true)
    (hv : after config programs (t :: earlier) =
      (after config programs earlier).answer t.thread m' a events) (o : Operation) :
    Eliminated (after config programs (t :: earlier)) o ↔
      o = (after config programs earlier).current j ∨
        Eliminated (after config programs earlier) o := by
  have step := turn config programs t earlier
  have memory := congrArg View.memory hv
  have apart : (after config programs earlier).current t.thread ≠
      (after config programs earlier).current j :=
    fun same => hj (congrArg Operation.thread same).symm
  by_cases ho : o = (after config programs earlier).current t.thread
  · have outside : ∀ k, ¬ (after config programs (t :: earlier)).StandsAt
        ((after config programs earlier).current t.thread) k := by
      rintro k ⟨_, at_k⟩
      rw [hv, View.label_answer, View.current, Function.update_self] at at_k
      cases at_k
    have gives : (after config programs (t :: earlier)).answer?
        ((after config programs earlier).current t.thread) = some a := by
      rw [hv, View.answer?_answer]
    rw [ho, eliminated_current, here, Eliminated, gives]
    simp [outside, apart, not_pushed, unoffered]
  · by_cases hoj : o = (after config programs earlier).current j
    · refine iff_of_true (.inr ⟨l, ?_, ?_⟩) (.inl hoj)
      · rw [step.standsAt_other ho, hoj]
        exact ⟨rfl, at_l⟩
      · rw [memory]
        exact taken
    · rw [or_iff_right hoj]
      apply eliminated_other step ho
      rintro k ⟨index, at_k⟩
      rw [memory]
      apply others o.thread k _ at_k
      intro same
      apply hoj
      rw [View.current_thread index, same]

/-- A pop takes an offer: the two are a pair. -/
theorem Paired.meet (h : Paired config programs earlier pairs told) (slots : config.slots ≠ 0)
    (few : FewClaims (scene config programs) (t :: earlier)) {s : Nat} {seen : SlotWord} {v : Value}
    (here : (after config programs earlier).label t.thread = some (.popTake s seen v))
    (met : ((after config programs earlier).memory.slot s).word = seen)
    (hv : after config programs (t :: earlier) = (after config programs earlier).answer t.thread
      ((after config programs earlier).memory.setWord s (seen.withTag .taken)) (.popped (some v))
      [.popEliminated v]) :
    ∃ pairs', Paired config programs (t :: earlier) pairs' told := by
  have step := turn config programs t earlier
  obtain ⟨j, l, c, hj, at_l, waits, untaken, taken, others⟩ := (sound slots programs earlier).met here
    met (few earlier (List.suffix_cons t earlier) _ s seen v here)
  have unanswered : (after config programs earlier).answer?
      ((after config programs earlier).current t.thread) = none := View.answer?_current
  have gives : (after config programs (t :: earlier)).answer?
      ((after config programs earlier).current t.thread) = some (.popped (some v)) := by
    rw [hv, View.answer?_answer]
  have pushed := eliminated_met here id hj at_l taken others (by nofun) hv
  refine ⟨⟨(after config programs earlier).current j,
    (after config programs earlier).current t.thread, v⟩ :: pairs, ?_⟩
  constructor
  · exact called_later slots h.called
  · rw [List.map_cons, List.nodup_cons, h.pushed, eliminated_current]
    refine ⟨?_, h.pushes⟩
    intro ⟨k, at_k, taken_k⟩
    have same : l = k := Option.some.inj (at_l.symm.trans at_k)
    exact untaken (same ▸ taken_k)
  · rw [List.map_cons, List.nodup_cons]
    refine ⟨?_, h.pops⟩
    intro mem
    obtain ⟨p, hp, same⟩ := List.mem_map.mp mem
    have answered := (h.popped p.pop p.value).mp ⟨p, hp, rfl, rfl⟩
    rw [same, unanswered] at answered
    cases answered
  · intro o
    rw [List.map_cons, List.mem_cons, h.pushed, pushed]
  · intro p hp
    rcases List.mem_cons.mp hp with same | hp
    · rw [same, ← Label.call_of_value waits.value?]
      exact h.called j l at_l
    · exact h.value p hp
  · intro o v'
    simp only [List.mem_cons, or_and_right, exists_or, exists_eq_left]
    rw [h.popped]
    by_cases ho : o = (after config programs earlier).current t.thread
    · rw [ho, unanswered, gives]
      simp
    · rw [step.answer?_other ho]
      simp [Ne.symm ho]
  · intro p hp
    rcases List.mem_cons.mp hp with same | hp
    · rw [same]
      exact ⟨earlier, List.suffix_cons t earlier, ⟨l, rfl, at_l⟩, ⟨_, rfl, here⟩⟩
    · exact overlap_later h t p hp
  · exact h.distinct
  · intro o
    rw [h.answered]
    by_cases ho : o = (after config programs earlier).current t.thread
    · rw [ho, unanswered, gives]
      simp
    · rw [step.answer?_other ho]
  · exact h.offered
  · rw [hv, ← h.pushEvents]
    rfl
  · rw [hv, List.map_cons, ← h.popEvents]
    rfl

theorem Paired.answer (h : Paired config programs earlier pairs told) (slots : config.slots ≠ 0)
    (few : FewClaims (scene config programs) (t :: earlier)) {l : Label} {a : Answer}
    (here : (after config programs earlier).label t.thread = some l)
    (gives : (EliminationArray.step t.choice l (after config programs earlier).memory).status =
      .returned a)
    (hv : after config programs (t :: earlier) = (after config programs earlier).answer t.thread
      (EliminationArray.step t.choice l (after config programs earlier).memory).memory a
      (EliminationArray.step t.choice l (after config programs earlier).memory).events) :
    ∃ pairs' told', Paired config programs (t :: earlier) pairs' told' := by
  have step := turn config programs t earlier
  have outcome : Outcome (after config programs earlier).memory l
      (EliminationArray.step t.choice l (after config programs earlier).memory).memory
      (EliminationArray.step t.choice l (after config programs earlier).memory).status
      (EliminationArray.step t.choice l (after config programs earlier).memory).events :=
    (sound slots programs earlier).outcome here t.choice
  have same := fun lost told => eliminated_answered slots here lost told hv
  have dull : a ≠ .pushed true → (∀ v, a ≠ .popped (some v)) →
      ∀ o b, b = .pushed true ∨ (∃ v, b = .popped (some v)) →
        ((after config programs (t :: earlier)).answer? o = some b ↔
          (after config programs earlier).answer? o = some b) := by
    intro not_pushed not_popped o b hb
    by_cases ho : o = (after config programs earlier).current t.thread
    · rw [ho, hv, View.answer?_answer, View.answer?_current]
      refine iff_of_false ?_ nofun
      intro heq
      rcases hb with rfl | ⟨v, rfl⟩
      · exact not_pushed (Option.some.inj heq)
      · exact not_popped v (Option.some.inj heq)
    · rw [step.answer?_other ho]
  rw [gives] at outcome
  generalize (EliminationArray.step t.choice l (after config programs earlier).memory).memory = m'
    at outcome hv
  generalize (EliminationArray.step t.choice l (after config programs earlier).memory).events = events
    at outcome hv
  cases outcome with
  | eliminated _ v value taken =>
    exact ⟨pairs, _, h.tell slots here value hv
      (same (not_wins_of_value value) (iff_of_true rfl taken))⟩
  | withdrawn _ v value untaken _ silent =>
    refine ⟨pairs, told, h.quiet slots (same (not_wins_of_value value) (iff_of_false nofun untaken))
      (dull nofun nofun) ?_ ?_⟩
    · rcases silent with rfl | rfl <;> rw [hv] <;> rfl
    · rcases silent with rfl | rfl <;> rw [hv] <;> rfl
  | missed value lost =>
    have untaken : ¬ Taken (after config programs earlier).memory l := by
      intro taken
      cases l <;> first | exact taken | cases value
    refine ⟨pairs, told, h.quiet slots (same lost (iff_of_false nofun untaken))
      (dull nofun nofun) ?_ ?_⟩
    · rw [hv]
      rfl
    · rw [hv]
      rfl
  | met s seen v at_take met =>
    subst at_take
    obtain ⟨pairs', h'⟩ := h.meet slots few here met hv
    exact ⟨pairs', told, h'⟩

theorem exists_paired (slots : config.slots ≠ 0) (programs : List (List Call))
    (schedule : List (Turn Choice)) (few : FewClaims (scene config programs) schedule) :
    ∃ pairs told, Paired config programs schedule pairs told := by
  induction schedule with
  | nil => exact ⟨[], [], .start config programs⟩
  | cons t earlier ih =>
    obtain ⟨pairs, told, h⟩ := ih few.earlier
    have turn := turn config programs t earlier
    generalize hv : after config programs (t :: earlier) = v' at turn
    cases turn with
    | rest outside =>
      refine ⟨pairs, told, h.quiet slots ?_ ?_ ?_ ?_⟩
      · intro o
        rw [hv]
      · intro o a _
        rw [hv]
      · rw [hv]
      · rw [hv]
    | enter c outside next =>
      refine ⟨pairs, told, h.quiet slots (eliminated_entered outside hv) ?_ ?_ ?_⟩
      · intro o a _
        rw [hv]
        rfl
      · rw [hv, View.trace_enter]
      · rw [hv, View.trace_enter]
    | move l l' here goes =>
      have silent : (EliminationArray.step t.choice l (after config programs earlier).memory).events =
          [] := ((sound slots programs earlier).running here goes).2.2.2
      refine ⟨pairs, told, h.quiet slots (eliminated_moved slots here goes hv) ?_ ?_ ?_⟩
      · intro o a _
        rw [hv]
        rfl
      · rw [hv, View.trace_move]
        exact congrArg (fun events => pushEliminations (events.reverse ++ _)) silent
      · rw [hv, View.trace_move]
        exact congrArg (fun events => popEliminations (events.reverse ++ _)) silent
    | answer l a here gives => exact h.answer slots few here gives hv

/-- The pushes that were eliminated and the pops that found a value are paired off. Partners carry one
value and were in progress together, and as many events of either kind name each value. -/
structure Exchanges (config : EliminationConfig) (programs : List (List Call))
    (schedule : List (Turn Choice)) (pairs : List Pair) : Prop where
  pushes : (pairs.map Pair.push).Nodup
  pops : (pairs.map Pair.pop).Nodup
  pushed : ∀ o, o ∈ pairs.map Pair.push ↔
    (after config programs schedule).answer? o = some (.pushed true)
  popped : ∀ o, o ∈ pairs.map Pair.pop ↔
    ∃ v, (after config programs schedule).answer? o = some (.popped (some v))
  refused : ∀ o, (after config programs schedule).answer? o = some (.pushed false) →
    o ∉ pairs.map Pair.push
  value : ∀ p ∈ pairs, p.push.call? programs = some (.push p.value) ∧
    (after config programs schedule).answer? p.pop = some (.popped (some p.value))
  overlap : ∀ p ∈ pairs, ∃ moment, moment <:+ schedule ∧
    Active (after config programs moment) p.push ∧ Active (after config programs moment) p.pop
  events : (pushEliminations (after config programs schedule).trace).Perm
    (popEliminations (after config programs schedule).trace)

def pushedBy (programs : List (List Call)) (o : Operation) : Value :=
  match o.call? programs with
  | some (.push v) => v
  | _ => 0

theorem pushedBy_eq {o : Operation} {v : Value} (h : o.call? programs = some (.push v)) :
    pushedBy programs o = v := by
  rw [pushedBy, h]

/-- Once no call is in progress, each push of a pair was told so, and none else. -/
theorem Paired.perm (h : Paired config programs schedule pairs told)
    (pushed : ∀ o, o ∈ pairs.map Pair.push ↔
      (after config programs schedule).answer? o = some (.pushed true)) :
    (told.map Prod.snd).Perm (pairs.map Pair.value) := by
  have keys : (told.map Prod.fst).Perm (pairs.map Pair.push) := by
    rw [List.perm_ext_iff_of_nodup h.distinct h.pushes]
    intro o
    rw [h.answered, pushed]
  have values := keys.map (pushedBy programs)
  have left : (told.map Prod.fst).map (pushedBy programs) = told.map Prod.snd := by
    rw [List.map_map]
    exact List.map_congr_left fun p hp => pushedBy_eq (h.offered p hp)
  have right : (pairs.map Pair.push).map (pushedBy programs) = pairs.map Pair.value := by
    rw [List.map_map]
    exact List.map_congr_left fun p hp => pushedBy_eq (h.value p hp)
  rwa [left, right] at values

/-- However the threads interleave, whatever slots they look at and whenever their deadlines pass: once
no call is in progress, the eliminated pushes and the successful pops are in one-to-one
correspondence. -/
theorem exact_pairing (config : EliminationConfig) (slots : config.slots ≠ 0)
    (programs : List (List Call)) (schedule : List (Turn Choice))
    (few : FewClaims (scene config programs) schedule)
    (quiet : ∀ i, (after config programs schedule).label i = none) :
    ∃ pairs, Exchanges config programs schedule pairs := by
  obtain ⟨pairs, told, h⟩ := exists_paired slots programs schedule few
  have pushed : ∀ o, o ∈ pairs.map Pair.push ↔
      (after config programs schedule).answer? o = some (.pushed true) := by
    intro o
    rw [h.pushed, Eliminated]
    simp [View.StandsAt, quiet]
  refine ⟨pairs, h.pushes, h.pops, pushed, ?_, ?_, ?_, h.overlap, ?_⟩
  · intro o
    constructor
    · intro mem
      obtain ⟨p, hp, same⟩ := List.mem_map.mp mem
      exact ⟨p.value, (h.popped o p.value).mp ⟨p, hp, same, rfl⟩⟩
    · rintro ⟨v, gives⟩
      obtain ⟨p, hp, same, _⟩ := (h.popped o v).mpr gives
      exact List.mem_map.mpr ⟨p, hp, same⟩
  · intro o gives mem
    rw [pushed, gives] at mem
    cases mem
  · intro p hp
    exact ⟨h.value p hp, (h.popped p.pop p.value).mp ⟨p, hp, rfl, rfl⟩⟩
  · rw [h.pushEvents, h.popEvents]
    exact h.perm pushed

/-- Thread 0 offers, thread 1 takes the offer, thread 0 notices. -/
def meeting : List (Turn Choice) :=
  ([0, 0, 0, 0, 0, 1, 1, 1, 1, 0, 0, 0].map fun i => ⟨i, 0, false⟩).reverse

theorem quiet_after_meeting (i : Nat) :
    (after { slots := 1 } [[.push 7], [.pop]] meeting).label i = none := by
  have threads : ((Crew.start algorithm.program (.ofConfig { slots := 1 }) [[.push 7], [.pop]]).after
      algorithm.program meeting).threads =
      [.running ⟨none, [], [.pushed true]⟩, .running ⟨none, [], [.popped (some 7)]⟩] := rfl
  simp only [Algorithm.viewAfter, ProgramCrew.view, threads]
  rcases i with _ | _ | i
  all_goals rfl

theorem exchange_of_meeting :
    ∃ pairs, Exchanges { slots := 1 } [[.push 7], [.pop]] meeting pairs :=
  exact_pairing { slots := 1 } (by decide) [[.push 7], [.pop]] meeting (.of_length (by decide) _)
    quiet_after_meeting

end SharedMemory.EliminationArray
