import SharedMemory.Proofs.EliminationPairs
import SharedMemory.Proofs.LockedLaw
import SharedMemory.Proofs.TreiberLaw

/-!
# The elimination-backoff stack is linearizable

An attempt at the inner stack takes effect as the law of that stack says. A push and a pop that meet
in the array take effect at one step, the push just before the pop, and leave the sequential stack as
they found it.
-/
namespace SharedMemory.EliminationStack

open EliminationArray (Scene Sound FewClaims Taken Wins Waits Pair claimsSince)

variable {Inner Item L : Type}

def serve (r : Request) (values : List Value) : Answer × List Value :=
  (.found (Discipline.lifo.serve r values).1, (Discipline.lifo.serve r values).2)

def reply : AttemptAnswer → Answer
  | .popped found => .found found
  | _ => .found none

theorem respond_eq (r : Request) (values : List Value) :
    reply (AttemptStack.respond r values).1 = (serve r values).1 ∧
      (AttemptStack.respond r values).2 = (serve r values).2 := by
  cases r <;> exact ⟨rfl, rfl⟩

def phase : Option (Label Item L) → AttemptStack.Phase Item L
  | some (.pushing item l) => .pushing item l
  | some (.offering item _) => .holding item
  | some (.popping l) => .popping l
  | _ => .idle

variable (stack : AttemptStack Inner Item L)

def attempt? : Label Item L → Option (Request × L)
  | .pushing item l => some (.insert (stack.value item), l)
  | .popping l => some (.remove, l)
  | _ => none

def request : Label Item L → Request
  | .prepare v => .insert v
  | .pushing item _ | .offering item _ => .insert (stack.value item)
  | .popping _ | .seeking _ => .remove

/-- Whether an operation that stands at a label has taken effect. -/
def Effective (fixed : L → Option AttemptAnswer) (m : Memory Inner) : Label Item L → Prop
  | .pushing _ l | .popping l => fixed l ≠ none
  | .offering _ l => Taken m.array l
  | .prepare _ | .seeking _ => False

/-- A push offers its own value, and a pop offers none. -/
def Suits : Label Item L → Prop
  | .offering item l => l.value? = some (stack.value item)
  | .seeking l => l.value? = none
  | _ => True

/-- What is known of an operation that stands at a label. -/
structure Stands (fixed : L → Option AttemptAnswer) (programs : List (List Request))
    (order : List (Entry Request Answer)) (o : Operation) (l : Label Item L) : Prop where
  called : o.call? programs = some (request stack l)
  suits : Suits stack l
  settled : ∀ r k a, attempt? stack l = some (r, k) → fixed k = some a →
    ∀ e ∈ order, e.operation = o → reply a = e.answer

variable {stack} (law : AttemptStack.Law stack) (config : EliminationConfig)
  (programs : List (List Request))

/-- The inner stack keeps its law with `values`, which is where the linear order leads. -/
structure Served (schedule : List (Turn EliminationArray.Choice))
    (order : List (Entry Request Answer)) (values : List Value) : Prop where
  inner : law.Good (phase ∘ (after stack law.start config programs schedule).label)
    (after stack law.start config programs schedule).memory.inner values
  stands : ∀ i l, (after stack law.start config programs schedule).label i = some l →
    Stands stack law.fixed programs order
      ((after stack law.start config programs schedule).current i) l
  linear : Linearization serve [] (algorithm stack) ⟨law.start, .ofConfig config⟩ programs
    (Effective law.fixed) schedule order values

section Label

variable {programs} {fixed : L → Option AttemptAnswer} {order added : List (Entry Request Answer)}
  {o : Operation} {l : Label Item L} {r : Request} {k : L} {m m' : Memory Inner}

theorem request_of_attempt (h : attempt? stack l = some (r, k)) : request stack l = r := by
  cases l <;> cases h <;> rfl

theorem suits_of_attempt (h : attempt? stack l = some (r, k)) : Suits stack l := by
  cases l <;> cases h <;> trivial

theorem effective_of_attempt (h : attempt? stack l = some (r, k)) :
    Effective fixed m l ↔ fixed k ≠ none := by
  cases l <;> cases h <;> rfl

theorem not_effective_of_attempt (h : attempt? stack l = some (r, k)) (pending : fixed k = none) :
    ¬ Effective fixed m l := by
  rw [effective_of_attempt h, not_not]
  exact pending

/-- Who waits in the array for a value to be taken is a push, and the value is its own. -/
theorem offering_of_waits {q : EliminationArray.Label} {s : Nat} {c : SlotWord} {v : Value}
    (suits : Suits stack l) (inside : inArray l = some q) (waits : Waits v s c q) :
    ∃ item, l = .offering item q ∧ stack.value item = v := by
  cases l with
  | offering item q' =>
    cases inside
    exact ⟨item, rfl, Option.some.inj (suits.symm.trans waits.value?)⟩
  | seeking q' =>
    cases inside
    cases suits.symm.trans waits.value?
  | prepare | pushing | popping => cases inside

theorem effective_congr (same : ∀ k, inArray l = some k → (Taken m'.array k ↔ Taken m.array k)) :
    Effective fixed m' l ↔ Effective fixed m l := by
  cases l with
  | offering item k => exact same k rfl
  | _ => exact Iff.rfl

theorem effective_inner (inner : Inner) :
    Effective fixed { m with inner := inner } l ↔ Effective fixed m l :=
  effective_congr fun _ _ => Iff.rfl

theorem Stands.unsettled (called : o.call? programs = some (request stack l))
    (suits : Suits stack l) (unsettled : ∀ r k, attempt? stack l = some (r, k) → fixed k = none) :
    Stands stack fixed programs order o l := by
  refine ⟨called, suits, ?_⟩
  intro r k a here settled
  rw [unsettled r k here] at settled
  cases settled

/-- What is known of an operation stays so while others are put in order. -/
theorem Stands.append (h : Stands stack fixed programs order o l)
    (others : ∀ e ∈ added, e.operation = o → attempt? stack l = none) :
    Stands stack fixed programs (order ++ added) o l := by
  refine ⟨h.called, h.suits, ?_⟩
  intro r k a here settled e he mine
  rcases List.mem_append.mp he with he | he
  · exact h.settled r k a here settled e he mine
  · rw [others e he mine] at here
    cases here

end Label

section Attempt

open AttemptStack (Outcome respond)

variable {fixed : L → Option AttemptAnswer} {l : Label Item L} {r : Request} {k k' : L}
  {m : Memory Inner} {choice : EliminationArray.Choice}

def resumed (stack : AttemptStack Inner Item L) : Label Item L → Status L AttemptAnswer →
    Option (Label Item L)
  | .pushing item _, .running l => some (.pushing item l)
  | .pushing item _, .returned .contended => some (.offering item (.pushProbe (stack.value item)))
  | .popping _, .running l => some (.popping l)
  | .popping _, .returned .contended => some (.seeking .popProbe)
  | _, _ => none

theorem phase_resumed_pushing (item : Item) (k : L) (s : Status L AttemptAnswer) :
    phase (resumed stack (.pushing item k) s) = .afterPush item s := by
  cases s with
  | running => rfl
  | returned a => cases a <;> rfl

theorem phase_resumed_popping (k : L) (s : Status L AttemptAnswer) :
    phase (resumed stack (.popping k) s) = .afterPop s := by
  cases s with
  | running => rfl
  | returned a => cases a <;> rfl

/-- The law of the inner stack, for pushes and pops alike. -/
theorem attempt_good {phases : Nat → AttemptStack.Phase Item L} {inner : Inner}
    {values : List Value} {i : Nat} (good : law.Good phases inner values)
    (here : phases i = phase (some l)) (at_k : attempt? stack l = some (r, k)) :
    ∃ values', Outcome law.fixed r k values (stack.step k inner).2 values' ∧
      law.Good (Function.update phases i (phase (resumed stack l (stack.step k inner).2)))
        (stack.step k inner).1 values' := by
  cases l with
  | pushing item l =>
    cases at_k
    rw [phase_resumed_pushing]
    exact law.pushing good here
  | popping l =>
    cases at_k
    rw [phase_resumed_popping]
    exact law.popping good here
  | _ => cases at_k

theorem step_running (at_k : attempt? stack l = some (r, k))
    (goes : (stack.step k m.inner).2 = .running k') :
    ∃ l', resumed stack l (.running k') = some l' ∧ attempt? stack l' = some (r, k') ∧
      (algorithm stack).step choice l m =
        ⟨{ m with inner := (stack.step k m.inner).1 }, .running l', []⟩ := by
  cases l with
  | pushing item l =>
    cases at_k
    exact ⟨_, rfl, rfl, by simp [algorithm, step, pushAttempt, goes]⟩
  | popping l =>
    cases at_k
    exact ⟨_, rfl, rfl, by simp [algorithm, step, popAttempt, goes]⟩
  | _ => cases at_k

theorem step_refused (at_k : attempt? stack l = some (r, k))
    (gives : (stack.step k m.inner).2 = .returned .contended) :
    ∃ l', resumed stack l (.returned .contended) = some l' ∧ request stack l' = r ∧
      Suits stack l' ∧ attempt? stack l' = none ∧ (∀ m : Memory Inner, ¬ Effective fixed m l') ∧
      (algorithm stack).step choice l m =
        ⟨{ m with inner := (stack.step k m.inner).1 }, .running l', []⟩ := by
  cases l with
  | pushing item l =>
    cases at_k
    exact ⟨_, rfl, rfl, rfl, rfl, fun _ => id, by simp [algorithm, step, pushAttempt, gives]⟩
  | popping l =>
    cases at_k
    exact ⟨_, rfl, rfl, rfl, rfl, fun _ => id, by simp [algorithm, step, popAttempt, gives]⟩
  | _ => cases at_k

theorem step_served {past : List Value} (at_k : attempt? stack l = some (r, k))
    (gives : (stack.step k m.inner).2 = .returned (respond r past).1) :
    resumed stack l (.returned (respond r past).1) = none ∧
      (algorithm stack).step choice l m =
        ⟨{ m with inner := (stack.step k m.inner).1 }, .returned (serve r past).1, []⟩ := by
  cases l with
  | pushing item l =>
    cases at_k
    rw [respond] at gives ⊢
    exact ⟨rfl, by simp [algorithm, step, pushAttempt, gives, serve, Discipline.serve]⟩
  | popping l =>
    cases at_k
    rw [respond] at gives ⊢
    exact ⟨rfl, by simp [algorithm, step, popAttempt, gives, serve, Discipline.serve]⟩
  | _ => cases at_k

end Attempt

section Exchange

variable {choice : EliminationArray.Choice} {item : Item} {k k' : EliminationArray.Label}
  {m : Memory Inner}

theorem offer_running
    (goes : (EliminationArray.step choice k m.array).status = .running k') :
    offer stack choice item k m = ⟨⟨m.inner, (EliminationArray.step choice k m.array).memory⟩,
      .running (.offering item k'), (EliminationArray.step choice k m.array).events⟩ := by
  simp [offer, goes]

theorem offer_eliminated
    (gives : (EliminationArray.step choice k m.array).status = .returned (.pushed true)) :
    offer stack choice item k m =
      ⟨⟨stack.discard item m.inner, (EliminationArray.step choice k m.array).memory⟩,
        .returned (.found none), (EliminationArray.step choice k m.array).events⟩ := by
  simp [offer, gives]

theorem offer_withdrawn
    (gives : (EliminationArray.step choice k m.array).status = .returned (.pushed false)) :
    offer stack choice item k m = ⟨⟨m.inner, (EliminationArray.step choice k m.array).memory⟩,
      .running (.pushing item (stack.push item)),
      (EliminationArray.step choice k m.array).events⟩ := by
  simp [offer, gives]

theorem seek_running
    (goes : (EliminationArray.step choice k m.array).status = .running k') :
    seek stack choice k m = ⟨⟨m.inner, (EliminationArray.step choice k m.array).memory⟩,
      .running (.seeking k'), (EliminationArray.step choice k m.array).events⟩ := by
  simp [seek, goes]

theorem seek_missed
    (gives : (EliminationArray.step choice k m.array).status = .returned (.popped none)) :
    seek stack choice k m = ⟨⟨m.inner, (EliminationArray.step choice k m.array).memory⟩,
      .running (.popping stack.pop), (EliminationArray.step choice k m.array).events⟩ := by
  simp [seek, gives]

theorem seek_met {s : Nat} {seen : SlotWord} {v : Value} (met : (m.array.slot s).word = seen) :
    seek stack choice (.popTake s seen v) m =
      ⟨⟨m.inner, m.array.setWord s (seen.withTag .taken)⟩, .returned (.found (some v)),
        [.popEliminated v]⟩ := by
  simp [seek, EliminationArray.step, met]

end Exchange

section Turn

variable {law config programs} {t : Turn EliminationArray.Choice}
  {earlier : List (Turn EliminationArray.Choice)} {order added : List (Entry Request Answer)}
  {values values' : List Value} {l : Label Item L} {new : Option (Label Item L)}

/-- A turn, after which the thread stands at `new`. -/
theorem Served.later (h : Served law config programs earlier order values)
    (label : (after stack law.start config programs (t :: earlier)).label =
      Function.update (after stack law.start config programs earlier).label t.thread new)
    (inner : law.Good
      (Function.update (phase ∘ (after stack law.start config programs earlier).label) t.thread
        (phase new))
      (after stack law.start config programs (t :: earlier)).memory.inner values')
    (own : ∀ l, new = some l → Stands stack law.fixed programs (order ++ added)
      ((after stack law.start config programs earlier).current t.thread) l)
    (others : ∀ e ∈ added, ∀ j l, j ≠ t.thread →
      (after stack law.start config programs earlier).label j = some l →
      e.operation = (after stack law.start config programs earlier).current j →
      attempt? stack l = none)
    (linear : Linearization serve [] (algorithm stack) ⟨law.start, .ofConfig config⟩ programs
      (Effective law.fixed) (t :: earlier) (order ++ added) values') :
    Served law config programs (t :: earlier) (order ++ added) values' := by
  have step := turn stack law.start config programs t earlier
  refine ⟨?_, ?_, linear⟩
  · rw [label, Function.comp_update]
    exact inner
  · intro j l here
    by_cases hj : j = t.thread
    · subst hj
      have answers := step.answers_of_label here
      rw [label, Function.update_self] at here
      rw [View.current, answers]
      exact own l here
    · obtain ⟨same, current⟩ := step.others hj
      rw [same] at here
      rw [current]
      exact (h.stands j l here).append fun e he mine => others e he j l hj here mine

theorem Served.keep (h : Served law config programs earlier order values)
    (label : (after stack law.start config programs (t :: earlier)).label =
      Function.update (after stack law.start config programs earlier).label t.thread new)
    (inner : law.Good
      (Function.update (phase ∘ (after stack law.start config programs earlier).label) t.thread
        (phase new))
      (after stack law.start config programs (t :: earlier)).memory.inner values)
    (own : ∀ l, new = some l → Stands stack law.fixed programs order
      ((after stack law.start config programs earlier).current t.thread) l)
    (linear : Linearization serve [] (algorithm stack) ⟨law.start, .ofConfig config⟩ programs
      (Effective law.fixed) (t :: earlier) order values) :
    ∃ added values', Served law config programs (t :: earlier) (order ++ added) values' := by
  refine ⟨[], values, h.later label inner ?_ ?_ ?_⟩
  · rw [List.append_nil]
    exact own
  · nofun
  · rw [List.append_nil]
    exact linear

/-- No other thread stands at the operation that is put in order. -/
theorem alone_in_order {v : View (Memory Inner) (Label Item L) Answer} {i : Nat}
    {e : Entry Request Answer} (mine : e.operation = v.current i) :
    ∀ f ∈ [e], ∀ j l, j ≠ i → v.label j = some l → f.operation = v.current j →
      attempt? stack l = none := by
  intro f hf j l hj _ theirs
  rw [List.mem_singleton.mp hf, mine] at theirs
  exact absurd (congrArg Operation.thread theirs).symm hj

theorem Served.fresh (h : Served law config programs earlier order values)
    (here : (after stack law.start config programs earlier).label t.thread = some l)
    (ineffective :
      ¬ Effective law.fixed (after stack law.start config programs earlier).memory l) :
    ∀ e ∈ order, e.operation ≠ (after stack law.start config programs earlier).current t.thread := by
  intro e he same
  have covered := (h.linear.covers _).mp (List.mem_map_of_mem he)
  rw [same] at covered
  exact View.not_covers_current here ineffective covered

theorem Served.attempt (h : Served law config programs earlier order values) {r : Request} {k : L}
    (here : (after stack law.start config programs earlier).label t.thread = some l)
    (at_k : attempt? stack l = some (r, k)) :
    ∃ added values', Served law config programs (t :: earlier) (order ++ added) values' := by
  have hv := (turn stack law.start config programs t earlier).take here
  have called := (h.stands t.thread l here).called
  rw [request_of_attempt at_k] at called
  obtain ⟨values', outcome, good⟩ := attempt_good law h.inner (congrArg phase here) at_k
  generalize hs : (stack.step k _).2 = s at outcome good
  have others : ∀ inner' j l', j ≠ t.thread →
      (after stack law.start config programs earlier).label j = some l' →
      (Effective law.fixed
        { (after stack law.start config programs earlier).memory with inner := inner' } l' ↔
        Effective law.fixed (after stack law.start config programs earlier).memory l') :=
    fun _ _ _ _ _ => effective_inner _
  cases outcome with
  | goes k' same =>
    obtain ⟨l', resumes, at_k', effect⟩ := step_running at_k hs
    rw [resumes] at good
    rw [effect] at hv
    change _ = View.move _ _ _ _ _ at hv
    refine h.keep (congrArg View.label hv) (by rw [hv]; exact good) ?_
      (h.linear.move here (others _) ?_ hv)
    · intro _ hl
      cases hl
      refine ⟨by rw [request_of_attempt at_k', called], suits_of_attempt at_k', ?_⟩
      intro r' k'' a at_k'' settled
      rw [at_k'] at at_k''
      cases at_k''
      exact (h.stands t.thread l here).settled r k a at_k (same ▸ settled)
    · rw [effective_of_attempt at_k, effective_of_attempt at_k', same]
  | fixes k' pending settled =>
    obtain ⟨l', resumes, at_k', effect⟩ := step_running at_k hs
    rw [resumes] at good
    rw [effect] at hv
    change _ = View.move _ _ _ _ _ at hv
    obtain ⟨answer, left⟩ := respond_eq r values
    rw [left] at good
    refine ⟨_, _, h.later (congrArg View.label hv) (by rw [hv]; exact good) ?_ (alone_in_order rfl)
      (h.linear.commit here (others _)
        (not_effective_of_attempt at_k pending) ?_ called hv)⟩
    · intro _ hl
      cases hl
      refine ⟨by rw [request_of_attempt at_k', called], suits_of_attempt at_k', ?_⟩
      intro r' k'' a at_k'' settled' e he mine
      rw [at_k'] at at_k''
      cases at_k''
      rcases List.mem_append.mp he with he | he
      · exact absurd mine (h.fresh here (not_effective_of_attempt at_k pending) e he)
      · rw [List.mem_singleton.mp he]
        rw [settled] at settled'
        cases settled'
        exact answer
    · rw [effective_of_attempt at_k', settled]
      nofun
  | serves pending =>
    obtain ⟨resumes, effect⟩ := step_served at_k hs
    rw [resumes] at good
    rw [effect] at hv
    change _ = View.answer _ _ _ _ _ at hv
    rw [(respond_eq r values).2] at good
    refine ⟨_, _, h.later (congrArg View.label hv) (by rw [hv]; exact good) ?_ (alone_in_order rfl)
      (h.linear.answerNow here (others _)
        (not_effective_of_attempt at_k pending) called hv)⟩
    intro _ hl
    cases hl
  | refused pending =>
    obtain ⟨l', resumes, requests, suits, turned, calm, effect⟩ := step_refused at_k hs
    rw [resumes] at good
    rw [effect] at hv
    change _ = View.move _ _ _ _ _ at hv
    refine h.keep (congrArg View.label hv) (by rw [hv]; exact good) ?_
      (h.linear.move here (others _) ?_ hv)
    · intro _ hl
      cases hl
      apply Stands.unsettled (by rw [requests, called]) suits
      intro r' k' at_k'
      rw [turned] at at_k'
      cases at_k'
    · exact iff_of_false (calm _) (not_effective_of_attempt at_k pending)
  | done past settled =>
    obtain ⟨resumes, effect⟩ := step_served at_k hs
    rw [resumes] at good
    rw [effect] at hv
    change _ = View.answer _ _ _ _ _ at hv
    refine h.keep (congrArg View.label hv) (by rw [hv]; exact good) ?_
      (h.linear.report here (others _) ?_ ?_ hv)
    · intro _ hl
      cases hl
    · rw [effective_of_attempt at_k, settled]
      nofun
    · intro e he mine
      rw [← (respond_eq r past).1]
      exact (h.stands t.thread l here).settled r k _ at_k settled e he mine

theorem Served.same_phase (h : Served law config programs earlier order values) {i : Nat}
    (same : phase new = phase ((after stack law.start config programs earlier).label i)) :
    law.Good
      (Function.update (phase ∘ (after stack law.start config programs earlier).label) i
        (phase new))
      (after stack law.start config programs earlier).memory.inner values := by
  rw [same, ← Function.comp_update, Function.update_eq_self]
  exact h.inner

theorem Served.unmoved (h : Served law config programs earlier order values)
    (hv : after stack law.start config programs (t :: earlier) =
      after stack law.start config programs earlier) :
    ∃ added values', Served law config programs (t :: earlier) (order ++ added) values' := by
  refine ⟨[], values, ?_⟩
  rw [List.append_nil]
  refine ⟨?_, ?_, h.linear.unmoved hv⟩
  · rw [hv]
    exact h.inner
  · rw [hv]
    exact h.stands

theorem Served.enter (h : Served law config programs earlier order values) {c : Request}
    (outside : (after stack law.start config programs earlier).label t.thread = none)
    (next : ((after stack law.start config programs earlier).current t.thread).call? programs =
      some c)
    (hv : after stack law.start config programs (t :: earlier) =
      (after stack law.start config programs earlier).enter t.thread ((algorithm stack).enter c)) :
    ∃ added values', Served law config programs (t :: earlier) (order ++ added) values' := by
  cases c with
  | insert v =>
    refine h.keep (congrArg View.label hv) ?_ ?_ (h.linear.enter outside id hv)
    · rw [hv]
      apply h.same_phase
      rw [outside]
      rfl
    · intro _ hl
      cases hl
      exact .unsettled next trivial nofun
  | remove =>
    obtain ⟨pending, good⟩ := law.pop h.inner (congrArg phase outside)
    refine h.keep (congrArg View.label hv) ?_ ?_ (h.linear.enter outside ?_ hv)
    · rw [hv]
      exact good
    · intro _ hl
      cases hl
      refine .unsettled next trivial ?_
      intro r k at_k
      cases at_k
      exact pending
    · exact fun settled => settled pending

theorem Served.prepare (h : Served law config programs earlier order values) {v : Value}
    (here : (after stack law.start config programs earlier).label t.thread = some (.prepare v)) :
    ∃ added values', Served law config programs (t :: earlier) (order ++ added) values' := by
  have hv := (turn stack law.start config programs t earlier).take here
  change _ = View.move _ _ _ _ _ at hv
  have called := (h.stands t.thread _ here).called
  obtain ⟨value, held⟩ := law.prepare v h.inner (congrArg phase here)
  obtain ⟨pending, good⟩ := law.push held (Function.update_self _ _ _)
  rw [Function.update_idem] at good
  refine h.keep (congrArg View.label hv) (by rw [hv]; exact good) ?_
    (h.linear.move here (fun _ _ _ _ => effective_inner _) ?_ hv)
  · intro _ hl
    cases hl
    refine .unsettled (by rw [request, value, called]; rfl) trivial ?_
    intro r k at_k
    cases at_k
    exact pending
  · exact iff_of_false (fun settled => settled pending) id

/-- Whatever a thread does in the array that takes no offer, the others stand as they stood. -/
theorem effective_spared (slots : config.slots ≠ 0) {k : EliminationArray.Label}
    (at_k : (scene stack law.start config programs earlier).label t.thread = some k)
    (lost : ¬ Wins (after stack law.start config programs earlier).memory.array k)
    (inner : Inner) (j : Nat) (l : Label Item L) (hj : j ≠ t.thread)
    (hl : (after stack law.start config programs earlier).label j = some l) :
    Effective law.fixed ⟨inner, (EliminationArray.step t.choice k
        (after stack law.start config programs earlier).memory.array).memory⟩ l ↔
      Effective law.fixed (after stack law.start config programs earlier).memory l := by
  apply effective_congr
  intro k' hk'
  have at_k' : (scene stack law.start config programs earlier).label j = some k' :=
    (scene_label hl).trans hk'
  exact (sound stack law.start programs slots earlier).spared at_k t.choice lost hj at_k'

/-- A push is answered the same wherever it stands in order. -/
theorem insert_answer {v : Value} {final : List Value} {e : Entry Request Answer}
    (legal : Legal serve [] order final) (he : e ∈ order) (call : e.call = .insert v) :
    e.answer = .found none := by
  obtain ⟨between, answer⟩ := legal.answer_of_mem he
  rw [← answer, call]
  rfl

theorem Served.offer (h : Served law config programs earlier order values)
    (slots : config.slots ≠ 0) {item : Item} {k : EliminationArray.Label}
    (here : (after stack law.start config programs earlier).label t.thread =
      some (.offering item k)) :
    ∃ added values', Served law config programs (t :: earlier) (order ++ added) values' := by
  have hv := (turn stack law.start config programs t earlier).take here
  obtain ⟨called, suits, _⟩ := h.stands t.thread _ here
  have at_k : (scene stack law.start config programs earlier).label t.thread = some k :=
    scene_label here
  have outcome := (sound stack law.start programs slots earlier).outcome at_k t.choice
  have others := effective_spared slots at_k (EliminationArray.not_wins_of_value suits)
  change _ = View.take _ _ (EliminationStack.offer stack t.choice item k _) at hv
  rcases outcome.of_push suits with ⟨k', goes, taken, value⟩ | ⟨gives, taken⟩ | ⟨gives, untaken⟩
  · rw [offer_running goes] at hv
    change _ = View.move _ _ _ _ _ at hv
    refine h.keep (congrArg View.label hv) ?_ ?_ (h.linear.move here (others _) ?_ hv)
    · rw [hv]
      apply h.same_phase
      rw [here]
      rfl
    · intro _ hl
      cases hl
      exact .unsettled called value nofun
    · exact taken
  · rw [offer_eliminated gives] at hv
    change _ = View.answer _ _ _ _ _ at hv
    refine h.keep (congrArg View.label hv) ?_ nofun (h.linear.report here (others _) taken ?_ hv)
    · rw [hv]
      exact law.discard h.inner (congrArg phase here)
    · intro e he mine
      have call := h.linear.called e he
      rw [mine, called] at call
      exact (insert_answer h.linear.legal he (Option.some.inj call).symm).symm
  · rw [offer_withdrawn gives] at hv
    change _ = View.move _ _ _ _ _ at hv
    obtain ⟨pending, good⟩ := law.push h.inner (congrArg phase here)
    refine h.keep (congrArg View.label hv) (by rw [hv]; exact good) ?_
      (h.linear.move here (others _) ?_ hv)
    · intro _ hl
      cases hl
      refine .unsettled called trivial ?_
      intro r k at_k
      cases at_k
      exact pending
    · exact iff_of_false (fun settled => settled pending) untaken

theorem Served.seek (h : Served law config programs earlier order values)
    (slots : config.slots ≠ 0) {k : EliminationArray.Label}
    (here : (after stack law.start config programs earlier).label t.thread = some (.seeking k))
    (lost : ¬ Wins (after stack law.start config programs earlier).memory.array k) :
    ∃ added values', Served law config programs (t :: earlier) (order ++ added) values' := by
  have hv := (turn stack law.start config programs t earlier).take here
  obtain ⟨called, suits, _⟩ := h.stands t.thread _ here
  have at_k : (scene stack law.start config programs earlier).label t.thread = some k :=
    scene_label here
  have outcome := (sound stack law.start programs slots earlier).outcome at_k t.choice
  have others := effective_spared slots at_k lost
  change _ = View.take _ _ (EliminationStack.seek stack t.choice k _) at hv
  rcases outcome.of_pop suits lost with ⟨k', goes, value⟩ | gives
  · rw [seek_running goes] at hv
    change _ = View.move _ _ _ _ _ at hv
    refine h.keep (congrArg View.label hv) ?_ ?_ (h.linear.move here (others _) Iff.rfl hv)
    · rw [hv]
      apply h.same_phase
      rw [here]
      rfl
    · intro _ hl
      cases hl
      exact .unsettled called value nofun
  · rw [seek_missed gives] at hv
    change _ = View.move _ _ _ _ _ at hv
    obtain ⟨pending, good⟩ := law.pop h.inner (congrArg phase here)
    refine h.keep (congrArg View.label hv) (by rw [hv]; exact good) ?_
      (h.linear.move here (others _) ?_ hv)
    · intro _ hl
      cases hl
      refine .unsettled called trivial ?_
      intro r k at_k
      cases at_k
      exact pending
    · exact iff_of_false (fun settled => settled pending) id

/-- The pop of a thread takes the offer of another: push and pop take effect together. -/
theorem Served.meet (h : Served law config programs earlier order values) {pairs : List Pair}
    (coupled : Coupled stack law.start config programs earlier order pairs)
    (slots : config.slots ≠ 0) (few : FewClaims (scene stack law.start config programs) (t :: earlier))
    {s : Nat} {seen : SlotWord} {v : Value}
    (here : (after stack law.start config programs earlier).label t.thread =
      some (.seeking (.popTake s seen v)))
    (met : ((after stack law.start config programs earlier).memory.array.slot s).word = seen) :
    ∃ p, Served law config programs (t :: earlier) (order ++ entries p) values ∧
      Coupled stack law.start config programs (t :: earlier) (order ++ entries p) (p :: pairs) := by
  have hv := (turn stack law.start config programs t earlier).take here
  change _ = View.take _ _ (EliminationStack.seek stack t.choice _ _) at hv
  rw [seek_met met] at hv
  change _ = View.answer _ _ _ _ _ at hv
  have called := (h.stands t.thread _ here).called
  have at_take : (scene stack law.start config programs earlier).label t.thread =
      some (.popTake s seen v) := scene_label here
  obtain ⟨j, k, c, hj, at_k, waits, untaken, taken, others⟩ :=
    (sound stack law.start programs slots earlier).met at_take met
      (few earlier (List.suffix_cons t earlier) _ s seen v at_take)
  have array : (scene stack law.start config programs (t :: earlier)).array =
      (scene stack law.start config programs earlier).array.setWord s (seen.withTag .taken) := by
    rw [scene, hv]
    rfl
  obtain ⟨l, there, inside⟩ := Option.bind_eq_some_iff.mp at_k
  obtain ⟨called', suits', _⟩ := h.stands j l there
  obtain ⟨item, rfl, rfl⟩ := offering_of_waits suits' inside waits
  refine ⟨⟨(after stack law.start config programs earlier).current j,
    (after stack law.start config programs earlier).current t.thread, stack.value item⟩, ?_, ?_⟩
  · refine h.later (congrArg View.label hv) ?_ (fun _ moved => by cases moved) ?_
      (h.linear.exchange hj here there ?_ id untaken ?_ called called' hv)
    · rw [hv]
      apply h.same_phase
      rw [here]
      rfl
    · intro e he j' l hj' at_l theirs
      rcases List.mem_pair.mp he with same | same
      · rw [same] at theirs
        obtain rfl : j = j' := congrArg Operation.thread theirs
        rw [there] at at_l
        cases at_l
        rfl
      · rw [same] at theirs
        exact absurd (congrArg Operation.thread theirs).symm hj'
    · intro j' l hj' at_l
      apply effective_congr
      intro k' hk'
      exact others j' k' hj' ((scene_label at_l).trans hk')
    · exact taken
  · rw [← array] at taken others
    exact coupled.meet at_take met hj at_k untaken taken others

end Turn

section Run

variable {config programs} {t : Turn EliminationArray.Choice}
  {earlier : List (Turn EliminationArray.Choice)} {order : List (Entry Request Answer)}
  {values : List Value}

theorem Served.start : Served law config programs [] [] [] where
  inner := by
    rw [after, Algorithm.viewAfter_nil]
    exact law.good_start
  stands i l here := by
    rw [after, Algorithm.viewAfter_nil] at here
    cases here
  linear := .nil

theorem Coupled.start (inner : Inner) : Coupled stack inner config programs [] [] [] where
  pushes o := by simp [Told, Pending, scene, sceneOf, View.start]
  pops o := by simp [Told]
  adjacent := nofun

variable {law}

theorem Served.turn (h : Served law config programs earlier order values) (slots : config.slots ≠ 0)
    (lost : Spares (scene stack law.start config programs earlier) t.thread) :
    ∃ added values', Served law config programs (t :: earlier) (order ++ added) values' := by
  have step := EliminationStack.turn stack law.start config programs t earlier
  cases here : (after stack law.start config programs earlier).label t.thread with
  | none =>
    generalize hv : after stack law.start config programs (t :: earlier) = v' at step
    cases step with
    | rest => exact h.unmoved hv
    | enter c outside next => exact h.enter outside next hv
    | move l l' at_l =>
      rw [here] at at_l
      cases at_l
    | answer l a at_l =>
      rw [here] at at_l
      cases at_l
  | some l =>
    cases l with
    | prepare v => exact h.prepare here
    | pushing item k => exact h.attempt here rfl
    | popping k => exact h.attempt here rfl
    | offering item k => exact h.offer slots here
    | seeking k => exact h.seek slots here (lost k (scene_label here))

theorem exists_served (slots : config.slots ≠ 0) (schedule : List (Turn EliminationArray.Choice))
    (few : FewClaims (scene stack law.start config programs) schedule) :
    ∃ order values pairs, Served law config programs schedule order values ∧
      Coupled stack law.start config programs schedule order pairs := by
  induction schedule with
  | nil => exact ⟨[], [], [], .start law, .start law.start⟩
  | cons t earlier ih =>
    obtain ⟨order, values, pairs, served, coupled⟩ := ih few.earlier
    by_cases lost : Spares (scene stack law.start config programs earlier) t.thread
    · obtain ⟨added, values', served'⟩ := served.turn slots lost
      exact ⟨order ++ added, values', pairs, served', coupled.later slots lost added⟩
    · simp only [Spares, not_forall, not_not] at lost
      obtain ⟨k, at_k, s, seen, v, at_take, met⟩ := lost
      obtain ⟨l, here, inside⟩ := Option.bind_eq_some_iff.mp at_k
      rw [at_take] at inside
      cases l with
      | prepare | pushing | popping => cases inside
      | offering item k' =>
        -- only a pop takes an offer, and a thread that offers is a push
        cases inside
        cases (served.stands t.thread _ here).suits
      | seeking k' =>
        cases inside
        obtain ⟨p, served', coupled'⟩ := served.meet coupled slots few here met
        exact ⟨order ++ entries p, values, p :: pairs, served', coupled'⟩

/-- The operations that are answered or have taken effect are those of an order that respects real
time and in which a sequential stack gives the same answers; a push and a pop that met stand side by
side in it. -/
def Linearizable (stack : AttemptStack Inner Item L) (fixed : L → Option AttemptAnswer) (inner : Inner)
    (config : EliminationConfig) (programs : List (List Request))
    (schedule : List (Turn EliminationArray.Choice)) : Prop :=
  ∃ order values pairs,
    Linearization serve [] (algorithm stack) ⟨inner, .ofConfig config⟩ programs (Effective fixed)
      schedule order values ∧
    Coupled stack inner config programs schedule order pairs

theorem linearizable_of_law (law : AttemptStack.Law stack) (slots : config.slots ≠ 0)
    (schedule : List (Turn EliminationArray.Choice))
    (few : FewClaims (scene stack law.start config programs) schedule) :
    Linearizable stack law.fixed law.start config programs schedule := by
  obtain ⟨order, values, pairs, served, coupled⟩ := exists_served slots schedule few
  exact ⟨order, values, pairs, served.linear, coupled⟩

end Run

/-- However the threads interleave, whatever slots they look at and whenever their deadlines pass, the
elimination-backoff stack is linearizable: over the lock-free stack, and over a store under any lock
that excludes. -/
theorem elimination_linearizable (config : EliminationConfig) (slots : config.slots ≠ 0)
    (programs : List (List Request)) :
    (∀ schedule, FewClaims (scene TreiberStack.attempts {} config programs) schedule →
      Linearizable TreiberStack.attempts (fun _ => none) {} config programs schedule) ∧
    ∀ (LockMemory L Token : Type) (lock : Lock LockMemory L Token) (acquire entry : L)
      (free : LockMemory), lock.Excludes entry free →
      ∀ schedule,
        FewClaims (scene (LockedStore.attemptsUnder lock acquire entry) ⟨free, {}⟩ config programs)
          schedule →
        Linearizable (LockedStore.attemptsUnder lock acquire entry) LockedStore.fixed ⟨free, {}⟩
          config programs schedule := by
  constructor
  · intro schedule few
    exact linearizable_of_law TreiberStack.law slots schedule few
  · intro LockMemory L Token lock acquire entry free excludes schedule few
    exact linearizable_of_law (LockedStore.law acquire excludes) slots schedule few

/-- Turns of these threads, all at the first slot and before the deadline. -/
def turnsOf (threads : List Nat) : List (Turn EliminationArray.Choice) :=
  (threads.map fun i => ⟨i, 0, false⟩).reverse

/-- A push and a pop that thread 2 disturbs at the inner stack. -/
def disturbed : List (Turn EliminationArray.Choice) :=
  turnsOf [2, 2, 2, 2, 2, 0, 0, 0, 0, 1, 1, 1, 2, 2, 2, 2, 2, 0, 0, 0, 0, 0, 1, 1, 1, 1, 0, 0, 0]

example : (after TreiberStack.attempts {} { slots := 1 } [[.insert 7], [.remove], [.insert 5, .insert 6]]
    disturbed).answers 1 = [.found (some 7)] := rfl

/-- A push and a pop while thread 2 holds the lock. -/
def lockedOut : List (Turn EliminationArray.Choice) :=
  turnsOf [2, 2, 2, 2, 0, 0, 0, 0, 0, 0, 0, 1, 1, 1, 1, 1, 0, 0, 0]

theorem linearizable_while_contended :
    Linearizable TreiberStack.attempts (fun _ => none) {} { slots := 1 }
      [[.insert 7], [.remove], [.insert 5, .insert 6]] disturbed ∧
    Linearizable (LockedStore.attemptsUnder TestAndSet.lock .seize .attempt) LockedStore.fixed
      ⟨false, {}⟩ { slots := 1 } [[.insert 7], [.remove], [.insert 5]] lockedOut ∧
    Linearizable (LockedStore.attemptsUnder TestThenSet.lock .watch .peek) LockedStore.fixed
      ⟨false, {}⟩ { slots := 1 } [[.insert 7], [.remove], [.insert 5]] lockedOut :=
  ⟨(elimination_linearizable { slots := 1 } (by decide) _).1 disturbed (.of_length (by decide) _),
    (elimination_linearizable { slots := 1 } (by decide) _).2 _ _ _ TestAndSet.lock .seize .attempt
      false TestAndSet.excludes lockedOut (.of_length (by decide) _),
    (elimination_linearizable { slots := 1 } (by decide) _).2 _ _ _ TestThenSet.lock .watch .peek
      false TestThenSet.excludes lockedOut (.of_length (by decide) _)⟩

end SharedMemory.EliminationStack
