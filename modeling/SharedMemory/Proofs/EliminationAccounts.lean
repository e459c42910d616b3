import SharedMemory.Proofs.EliminationLinearization
import SharedMemory.Proofs.StackAccounts

/-!
# The accounts of the elimination-backoff stack

A push keeps its node while it waits in the array. If a pop takes its offer there, it drops its request
together with the node, whose link may be an old one.
-/
namespace SharedMemory.TreiberStack

open AttemptStack

section Law

variable {phases : Nat → Phase Item Label} {m m' : Memory} {values values' : List Value} {i node : Nat}
  {p : Phase Item Label} {item : Item} {l : Label}

def Possesses (phases : Nat → Phase Item Label) (i n : Nat) : Prop := node? (phases i) = some n

theorem possesses_update (phases : Nat → Phase Item Label) (i : Nat) (p : Phase Item Label) (j n : Nat) :
    Possesses (Function.update phases i p) j n ↔
      if j = i then node? p = some n else Possesses phases j n := by
  by_cases hj : j = i <;> simp [Possesses, hj]

/-- The law of attempts, with balanced accounts. -/
structure Tallied (phases : Nat → Phase Item Label) (m : Memory) (values : List Value) : Prop where
  good : Good phases m values
  balanced : m.books.Balanced (Possesses phases)

theorem Tallied.same (h : Tallied phases m values) (good : Good (Function.update phases i p) m' values')
    (settled : m'.books.settled.Perm m.books.settled) (size : m'.nodes.size = m.nodes.size)
    (node : node? p = node? (phases i)) : Tallied (Function.update phases i p) m' values' := by
  refine ⟨good, h.balanced.same good.walk settled size fun j n => ?_⟩
  rw [possesses_update]
  split
  · next hj => rw [hj, Possesses, node]
  · rfl

theorem Tallied.gives (h : Tallied phases m values) (good : Good (Function.update phases i p) m' values')
    (mine : node? (phases i) = some node) (settled : m'.books.settled.Perm (node :: m.books.settled))
    (size : m'.nodes.size = m.nodes.size) (none : node? p = none) :
    Tallied (Function.update phases i p) m' values' := by
  refine ⟨good, h.balanced.settle mine good.walk settled size fun j n => ?_⟩
  rw [possesses_update]
  split
  · next hj =>
    rw [hj, Possesses, none, mine]
    simp [eq_comm]
  · next hj =>
    rw [iff_self_and]
    rintro theirs rfl
    exact hj (h.good.apart j i n theirs mine)

theorem Tallied.prepare (h : Tallied phases m values) (v : Value) (idle : phases i = .idle) :
    Tallied (Function.update phases i (.holding (prepare v m).2)) (prepare v m).1 values := by
  have good := h.good.prepare (i := i) v
  refine ⟨good, h.balanced.grow i good.walk (.of_eq (h.good.settled_prepare v)) ?_ fun j n => ?_⟩
  · simp [Memory.books, TreiberStack.prepare]
  · rw [possesses_update]
    split
    · next hj =>
      rw [hj, Possesses, idle]
      simp [node?, TreiberStack.prepare, Memory.books, eq_comm]
    · next hj => simp [hj]

theorem Tallied.pushing (h : Tallied phases m values) (here : phases i = .pushing item l) :
    ∃ values', Outcome (fun _ => none) (.insert item.value) l values (step l m).2 values' ∧
      Tallied (Function.update phases i (.afterPush item (step l m).2)) (step l m).1 values' := by
  obtain ⟨values', outcome, good⟩ := h.good.pushing here
  have settled := h.good.settled_pushing here
  have size := size_step l m
  have mine : node? (phases i) = some item.node := by
    rw [here]
    rfl
  refine ⟨values', outcome, ?_⟩
  generalize step l m = r at *
  obtain ⟨m', s⟩ := r
  cases outcome with
  | goes l' =>
    obtain ⟨_, settled⟩ := settled.resolve_right (by simp)
    exact h.same good (.of_eq settled) size mine.symm
  | refused =>
    obtain ⟨_, settled⟩ := settled.resolve_right (by simp)
    exact h.same good (.of_eq settled) size mine.symm
  | serves =>
    obtain ⟨_, settled⟩ := settled.resolve_left fun h => h.1 rfl
    exact h.gives good mine (.of_eq settled) size rfl
  | fixes _ _ fixed => cases fixed
  | done _ fixed => cases fixed

theorem Tallied.popping (h : Tallied phases m values) (here : phases i = .popping l) :
    ∃ values', Outcome (fun _ => none) .remove l values (step l m).2 values' ∧
      Tallied (Function.update phases i (.afterPop (step l m).2)) (step l m).1 values' := by
  obtain ⟨values', outcome, good⟩ := h.good.popping here
  refine ⟨values', outcome, h.same good (h.good.settled_popping here) (size_step l m) ?_⟩
  rw [here]
  cases (step l m).2 <;> rfl

/-- The lock-free stack keeps the law of attempts and its accounts. -/
def accountedLaw : Law attempts where
  start := {}
  fixed _ := none
  Good := Tallied
  good_start := ⟨good_start, .of_nobody .done (.refl _) fun i n => nofun⟩
  prepare v h idle := ⟨rfl, h.prepare v idle⟩
  discard {phases m values i item} h here := by
    refine h.gives (law.discard h.good here) ?_ (h.good.settled_discard item) rfl rfl
    rw [here]
    rfl
  push {phases m values i item} h here := by
    obtain ⟨pending, good⟩ := law.push h.good here
    refine ⟨pending, h.same good (.refl _) rfl ?_⟩
    rw [here]
    rfl
  pop {phases m values i} h here := by
    obtain ⟨pending, good⟩ := law.pop h.good here
    refine ⟨pending, h.same good (.refl _) rfl ?_⟩
    rw [here]
    rfl
  pushing h here := h.pushing here
  popping h here := h.popping here

end Law

end SharedMemory.TreiberStack

namespace SharedMemory.EliminationStack

open EliminationArray (Wins)

variable {Inner Item L : Type} {stack : AttemptStack Inner Item L} (law : AttemptStack.Law stack)
  (config : EliminationConfig) (programs : List (List Request))

/-- What any number of claims leaves intact: the law of the inner stack, and what each thread is in the
array for. -/
structure Lawful (schedule : List (Turn EliminationArray.Choice)) : Prop where
  good : ∃ values, law.Good (phase ∘ (after stack law.start config programs schedule).label)
    (after stack law.start config programs schedule).memory.inner values
  suits : ∀ i l, (after stack law.start config programs schedule).label i = some l → Suits stack l

section Turn

variable {law config programs} {t : Turn EliminationArray.Choice}
  {earlier : List (Turn EliminationArray.Choice)} {values : List Value} {l : Label Item L}
  {new : Option (Label Item L)}

theorem Lawful.later (h : Lawful law config programs earlier)
    (label : (after stack law.start config programs (t :: earlier)).label =
      Function.update (after stack law.start config programs earlier).label t.thread new)
    (good : law.Good
      (Function.update (phase ∘ (after stack law.start config programs earlier).label) t.thread
        (phase new))
      (after stack law.start config programs (t :: earlier)).memory.inner values)
    (own : ∀ l, new = some l → Suits stack l) : Lawful law config programs (t :: earlier) := by
  refine ⟨⟨values, ?_⟩, ?_⟩
  · rw [label, Function.comp_update]
    exact good
  · intro j l here
    rw [label] at here
    by_cases hj : j = t.thread
    · subst hj
      rw [Function.update_self] at here
      exact own l here
    · rw [Function.update_of_ne hj] at here
      exact h.suits j l here

theorem Lawful.stay (h : Lawful law config programs earlier)
    (label : (after stack law.start config programs (t :: earlier)).label =
      Function.update (after stack law.start config programs earlier).label t.thread new)
    (same : phase new = phase ((after stack law.start config programs earlier).label t.thread))
    (inner : (after stack law.start config programs (t :: earlier)).memory.inner =
      (after stack law.start config programs earlier).memory.inner)
    (own : ∀ l, new = some l → Suits stack l) : Lawful law config programs (t :: earlier) := by
  obtain ⟨values, good⟩ := h.good
  have good : law.Good
      (Function.update (phase ∘ (after stack law.start config programs earlier).label) t.thread
        (phase new)) (after stack law.start config programs (t :: earlier)).memory.inner values := by
    rw [same, ← Function.comp_update, Function.update_eq_self, inner]
    exact good
  exact h.later label good own

theorem Lawful.enter (h : Lawful law config programs earlier) {c : Request}
    (outside : (after stack law.start config programs earlier).label t.thread = none)
    (hv : after stack law.start config programs (t :: earlier) =
      (after stack law.start config programs earlier).enter t.thread ((algorithm stack).enter c)) :
    Lawful law config programs (t :: earlier) := by
  cases c with
  | insert v =>
    refine h.stay (congrArg View.label hv) ?_ (by rw [hv]; rfl) ?_
    · rw [outside]
      rfl
    · rintro _ ⟨⟩
      trivial
  | remove =>
    obtain ⟨values, good⟩ := h.good
    refine h.later (congrArg View.label hv) (by rw [hv]; exact (law.pop good (congrArg phase outside)).2) ?_
    rintro _ ⟨⟩
    trivial

theorem Lawful.prepare (h : Lawful law config programs earlier) {v : Value}
    (here : (after stack law.start config programs earlier).label t.thread = some (.prepare v)) :
    Lawful law config programs (t :: earlier) := by
  have hv := (turn stack law.start config programs t earlier).take here
  change _ = View.move _ _ _ _ _ at hv
  obtain ⟨values, good⟩ := h.good
  obtain ⟨_, held⟩ := law.prepare v good (congrArg phase here)
  obtain ⟨_, good⟩ := law.push held (Function.update_self _ _ _)
  rw [Function.update_idem] at good
  refine h.later (congrArg View.label hv) (by rw [hv]; exact good) ?_
  rintro _ ⟨⟩
  trivial

theorem Lawful.attempt (h : Lawful law config programs earlier) {r : Request} {k : L}
    (here : (after stack law.start config programs earlier).label t.thread = some l)
    (at_k : attempt? stack l = some (r, k)) : Lawful law config programs (t :: earlier) := by
  have hv := (turn stack law.start config programs t earlier).take here
  obtain ⟨values, good⟩ := h.good
  obtain ⟨values', outcome, good⟩ := attempt_good law good (congrArg phase here) at_k
  generalize hs : (stack.step k _).2 = s at outcome good
  have moves : ∀ {l'}, resumed stack l s = some l' → Suits stack l' →
      (algorithm stack).step t.choice l (after stack law.start config programs earlier).memory =
        ⟨{ (after stack law.start config programs earlier).memory with
          inner := (stack.step k (after stack law.start config programs earlier).memory.inner).1 },
          .running l', []⟩ → Lawful law config programs (t :: earlier) := by
    intro l' resumes suits effect
    rw [effect] at hv
    rw [resumes] at good
    change _ = View.move _ _ _ _ _ at hv
    refine h.later (congrArg View.label hv) (by rw [hv]; exact good) ?_
    rintro _ ⟨⟩
    exact suits
  have serves : ∀ past, s = .returned (AttemptStack.respond r past).1 →
      Lawful law config programs (t :: earlier) := by
    rintro past rfl
    obtain ⟨resumes, effect⟩ := step_served at_k hs
    rw [effect] at hv
    rw [resumes] at good
    change _ = View.answer _ _ _ _ _ at hv
    exact h.later (congrArg View.label hv) (by rw [hv]; exact good) nofun
  cases outcome with
  | goes k' =>
    obtain ⟨l', resumes, at_k', effect⟩ := step_running at_k hs
    exact moves resumes (suits_of_attempt at_k') effect
  | fixes k' =>
    obtain ⟨l', resumes, at_k', effect⟩ := step_running at_k hs
    exact moves resumes (suits_of_attempt at_k') effect
  | refused =>
    obtain ⟨l', resumes, _, suits, _, _, effect⟩ := @step_refused _ _ _ _ law.fixed _ _ _ _ t.choice at_k hs
    exact moves resumes suits effect
  | serves => exact serves _ rfl
  | done past => exact serves past rfl

theorem Lawful.offer (h : Lawful law config programs earlier) (slots : config.slots ≠ 0) {item : Item}
    {k : EliminationArray.Label}
    (here : (after stack law.start config programs earlier).label t.thread =
      some (.offering item k)) : Lawful law config programs (t :: earlier) := by
  have hv := (turn stack law.start config programs t earlier).take here
  have suits : k.value? = some (stack.value item) := h.suits t.thread _ here
  have outcome := (sound stack law.start programs slots earlier).outcome (scene_label here) t.choice
  change _ = View.take _ _ (EliminationStack.offer stack t.choice item k _) at hv
  obtain ⟨values, good⟩ := h.good
  rcases outcome.of_push suits with ⟨k', goes, _, value⟩ | ⟨gives, _⟩ | ⟨gives, _⟩
  · rw [offer_running goes] at hv
    change _ = View.move _ _ _ _ _ at hv
    refine h.stay (congrArg View.label hv) ?_ (by rw [hv]; rfl) ?_
    · rw [here]
      rfl
    · rintro _ ⟨⟩
      exact value
  · rw [offer_eliminated gives] at hv
    change _ = View.answer _ _ _ _ _ at hv
    exact h.later (congrArg View.label hv) (by rw [hv]; exact law.discard good (congrArg phase here)) nofun
  · rw [offer_withdrawn gives] at hv
    change _ = View.move _ _ _ _ _ at hv
    refine h.later (congrArg View.label hv)
      (by rw [hv]; exact (law.push good (congrArg phase here)).2) ?_
    rintro _ ⟨⟩
    trivial

theorem Lawful.seek (h : Lawful law config programs earlier) (slots : config.slots ≠ 0)
    {k : EliminationArray.Label}
    (here : (after stack law.start config programs earlier).label t.thread = some (.seeking k)) :
    Lawful law config programs (t :: earlier) := by
  have hv := (turn stack law.start config programs t earlier).take here
  have suits : k.value? = none := h.suits t.thread _ here
  have outcome := (sound stack law.start programs slots earlier).outcome (scene_label here) t.choice
  change _ = View.take _ _ (EliminationStack.seek stack t.choice k _) at hv
  by_cases wins : Wins (after stack law.start config programs earlier).memory.array k
  · obtain ⟨s, seen, v, rfl, met⟩ := wins
    rw [seek_met met] at hv
    change _ = View.answer _ _ _ _ _ at hv
    refine h.stay (congrArg View.label hv) ?_ (by rw [hv]; rfl) nofun
    rw [here]
    rfl
  rcases outcome.of_pop suits wins with ⟨k', goes, value⟩ | gives
  · rw [seek_running goes] at hv
    change _ = View.move _ _ _ _ _ at hv
    refine h.stay (congrArg View.label hv) ?_ (by rw [hv]; rfl) ?_
    · rw [here]
      rfl
    · rintro _ ⟨⟩
      exact value
  · rw [seek_missed gives] at hv
    change _ = View.move _ _ _ _ _ at hv
    obtain ⟨values, good⟩ := h.good
    refine h.later (congrArg View.label hv) (by rw [hv]; exact (law.pop good (congrArg phase here)).2) ?_
    rintro _ ⟨⟩
    trivial

theorem lawful_after (slots : config.slots ≠ 0) (schedule : List (Turn EliminationArray.Choice)) :
    Lawful law config programs schedule := by
  induction schedule with
  | nil =>
    refine ⟨⟨[], ?_⟩, fun i l here => ?_⟩
    · rw [after, Algorithm.viewAfter_nil]
      exact law.good_start
    · rw [after, Algorithm.viewAfter_nil] at here
      cases here
  | cons t earlier ih =>
    have step := EliminationStack.turn stack law.start config programs t earlier
    rcases step.rest_or_enter_or_take with ⟨_, hv⟩ | ⟨c, outside, _, hv⟩ | ⟨l, here, _⟩
    · exact ⟨hv ▸ ih.good, hv ▸ ih.suits⟩
    · exact ih.enter outside hv
    · cases l with
      | prepare v => exact ih.prepare here
      | pushing item k => exact ih.attempt here rfl
      | popping k => exact ih.attempt here rfl
      | offering item k => exact ih.offer slots here
      | seeking k => exact ih.seek slots here

end Turn

section Nodes

variable {config programs}

def unlinked? (m : Memory TreiberStack.Memory) : Label TreiberStack.Item TreiberStack.Label → Option Nat
  | .pushing _ l | .popping l => l.unlinked? m.inner
  | .prepare _ | .offering _ _ | .seeking _ => none

/-- The node of the request that a step drops: the thread has found its offer taken and frees its slot. -/
def eliminated? (_ : Memory TreiberStack.Memory) :
    Label TreiberStack.Item TreiberStack.Label → Option Nat
  | .offering item (.pushFree _ _ _) => some item.node
  | _ => none

/-- Only a push whose offer was taken is told that it was eliminated. -/
theorem pushed_iff (choice : EliminationArray.Choice) (k : EliminationArray.Label)
    (m : EliminationArray.Memory) :
    (EliminationArray.step choice k m).status = .returned (.pushed true) ↔
      ∃ v s c, k = .pushFree v s c := by
  cases k with
  | pushFree => simp [EliminationArray.step]
  | _ =>
    simp only [EliminationArray.step, reduceCtorEq, exists_false, iff_false]
    repeat' split
    all_goals simp

theorem inner_offer (choice : EliminationArray.Choice) (item : TreiberStack.Item)
    (k : EliminationArray.Label) (m : Memory TreiberStack.Memory) :
    (offer TreiberStack.attempts choice item k m).memory.inner =
      { m.inner with
        discarded := (eliminated? m (.offering item k)).toList ++ m.inner.discarded } := by
  by_cases frees : ∃ v s c, k = .pushFree v s c
  · rw [offer_eliminated ((pushed_iff choice k m.array).mpr frees)]
    obtain ⟨v, s, c, rfl⟩ := frees
    rfl
  · have silent : eliminated? m (.offering item k) = none := by
      unfold eliminated?
      split
      · next same =>
        cases same
        exact absurd ⟨_, _, _, rfl⟩ frees
      · rfl
    have kept : (offer TreiberStack.attempts choice item k m).memory.inner = m.inner := by
      have gives := (pushed_iff choice k m.array).not.mpr frees
      cases hs : (EliminationArray.step choice k m.array).status with
      | running k' => rw [offer_running hs]
      | returned a =>
        cases a with
        | pushed eliminated =>
          cases eliminated with
          | true => exact absurd hs gives
          | false => rw [offer_withdrawn hs]
        | popped | broken => simp [offer, hs]
    rw [kept, silent]
    rfl

theorem inner_step (choice : EliminationArray.Choice)
    (l : Label TreiberStack.Item TreiberStack.Label) (m : Memory TreiberStack.Memory) :
    (step TreiberStack.attempts choice l m).memory.inner.retired =
        (unlinked? m l).toList ++ m.inner.retired ∧
      (step TreiberStack.attempts choice l m).memory.inner.discarded =
        (eliminated? m l).toList ++ m.inner.discarded := by
  cases l with
  | prepare | seeking => exact ⟨rfl, rfl⟩
  | pushing item k | popping k => exact TreiberStack.retired_step k m.inner
  | offering item k =>
    rw [step, inner_offer]
    exact ⟨rfl, rfl⟩

/-- The threads of an elimination-backoff stack over the lock-free one. -/
abbrev overTreiber (config : EliminationConfig) (programs : List (List Request))
    (schedule : List (Turn EliminationArray.Choice)) :
    View (Memory TreiberStack.Memory) (Label TreiberStack.Item TreiberStack.Label) Answer :=
  after TreiberStack.attempts {} config programs schedule

theorem accounted (slots : config.slots ≠ 0) (schedule : List (Turn EliminationArray.Choice)) :
    (overTreiber config programs schedule).memory.inner.books.Accounted
      (TreiberStack.Possesses (phase ∘ (overTreiber config programs schedule).label))
      ((algorithm TreiberStack.attempts).notes ⟨{}, .ofConfig config⟩ programs unlinked? schedule)
      ((algorithm TreiberStack.attempts).notes ⟨{}, .ofConfig config⟩ programs eliminated? schedule)
      (∀ i, (overTreiber config programs schedule).label i = none) := by
  have lawful : Lawful TreiberStack.accountedLaw config programs schedule := lawful_after slots schedule
  have balanced : (overTreiber config programs schedule).memory.inner.books.Balanced
      (TreiberStack.Possesses (phase ∘ (overTreiber config programs schedule).label)) := by
    obtain ⟨values, good⟩ := lawful.good
    exact good.balanced
  refine balanced.accounted ?_ ?_ fun idle i n => ?_
  · exact (algorithm _).notes_eq ⟨{}, .ofConfig config⟩ programs (fun m => m.inner.retired) rfl
      (fun choice l m => (inner_step choice l m).1) schedule
  · exact (algorithm _).notes_eq ⟨{}, .ofConfig config⟩ programs (fun m => m.inner.discarded) rfl
      (fun choice l m => (inner_step choice l m).2) schedule
  · simp [TreiberStack.Possesses, idle, phase, TreiberStack.node?]

end Nodes

end SharedMemory.EliminationStack
