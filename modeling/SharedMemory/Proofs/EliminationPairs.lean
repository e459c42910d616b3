import SharedMemory.EliminationStack
import SharedMemory.Proofs.ArrayPairing

/-!
# Pushes and pops that meet beside the stack

The threads of an elimination-backoff stack that are inside the array make up a scene of their own,
whatever the inner stack does meanwhile. A push and a pop that meet there stand next to each other in
the order in which a sequential stack would serve them.
-/
namespace SharedMemory.EliminationStack

open EliminationArray (Scene Sound FewClaims Taken Wins Pair claimsSince)

variable {Inner Item L : Type}

def inArray : Label Item L → Option EliminationArray.Label
  | .offering _ l | .seeking l => some l
  | _ => none

def sceneOf (v : View (Memory Inner) (Label Item L) Answer) : Scene :=
  ⟨v.memory.array, fun i => (v.label i).bind inArray⟩

/-- The thread is not about to take an offer. -/
def Spares (scene : Scene) (i : Nat) : Prop :=
  ∀ l, scene.label i = some l → ¬ Wins scene.array l

section View

variable {stack : AttemptStack Inner Item L} {programs : List (List Request)} {i : Nat}
  {choice : EliminationArray.Choice} {v v' : View (Memory Inner) (Label Item L) Answer}

def landing : Status (Label Item L) Answer → Option EliminationArray.Label
  | .running l => inArray l
  | .returned _ => none

theorem inArray_update (label : Nat → Option (Label Item L)) (i : Nat) (new : Option (Label Item L)) :
    (fun j => (Function.update label i new j).bind inArray) =
      Function.update (fun j => (label j).bind inArray) i (new.bind inArray) :=
  Function.comp_update (fun l : Option (Label Item L) => l.bind inArray) label i new

theorem sceneOf_enter (l : Label Item L) :
    sceneOf (v.enter i l) =
      ⟨(sceneOf v).array, Function.update (sceneOf v).label i (inArray l)⟩ := by
  simp only [sceneOf, View.label_enter, inArray_update]
  rfl

theorem sceneOf_take (e : Effect (Memory Inner) (Label Item L) Answer) :
    sceneOf (v.take i e) =
      ⟨e.memory.array, Function.update (sceneOf v).label i (landing e.status)⟩ := by
  cases hs : e.status with
  | running l =>
    simp only [View.take, hs, sceneOf, View.label_move, inArray_update]
    rfl
  | returned a =>
    simp only [View.take, hs, sceneOf, View.label_answer, inArray_update]
    rfl

theorem scene_stay {scene : Scene} (outside : scene.label i = none) :
    scene.Step i choice ⟨scene.array, Function.update scene.label i none⟩ := by
  have same : Function.update scene.label i none = scene.label := by
    rw [← outside, Function.update_eq_self]
  rw [same]
  exact .rest outside

theorem scene_offer (item : Item) (l : EliminationArray.Label)
    (here : v.label i = some (.offering item l)) :
    (sceneOf v).Step i choice (sceneOf (v.take i (offer stack choice item l v.memory))) := by
  have at_l : (sceneOf v).label i = some l := by simp [sceneOf, here, inArray]
  rw [sceneOf_take]
  cases hs : (EliminationArray.step choice l v.memory.array).status with
  | running l' =>
    simp only [offer, hs]
    exact .move l l' at_l hs
  | returned a =>
    have left : landing (offer stack choice item l v.memory).status = none ∧
        (offer stack choice item l v.memory).memory.array =
          (EliminationArray.step choice l v.memory.array).memory := by
      cases a with
      | pushed eliminated => cases eliminated <;> simp [offer, hs, landing, inArray]
      | popped | broken => simp [offer, hs, landing, inArray]
    rw [left.1, left.2]
    exact .leave l a at_l hs

theorem scene_seek (l : EliminationArray.Label) (here : v.label i = some (.seeking l)) :
    (sceneOf v).Step i choice (sceneOf (v.take i (seek stack choice l v.memory))) := by
  have at_l : (sceneOf v).label i = some l := by simp [sceneOf, here, inArray]
  rw [sceneOf_take]
  cases hs : (EliminationArray.step choice l v.memory.array).status with
  | running l' =>
    simp only [seek, hs]
    exact .move l l' at_l hs
  | returned a =>
    have left : landing (seek stack choice l v.memory).status = none := by
      cases a with
      | popped found => cases found <;> simp [seek, hs, landing, inArray]
      | pushed | broken => simp [seek, hs, landing, inArray]
    rw [left]
    exact .leave l a at_l hs

theorem scene_step (h : v.Step (algorithm stack) programs i choice v') :
    (sceneOf v).Step i choice (sceneOf v') := by
  cases here : v.label i with
  | none =>
    have outside : (sceneOf v).label i = none := by simp [sceneOf, here]
    cases h with
    | rest => exact .rest outside
    | enter c =>
      rw [sceneOf_enter]
      cases c <;> exact scene_stay outside
    | move l l' at_l => simp [here] at at_l
    | answer l a at_l => simp [here] at at_l
  | some l =>
    rw [h.take here]
    cases l with
    | prepare v =>
      rw [sceneOf_take]
      exact scene_stay (by simp [sceneOf, here, inArray])
    | pushing item l =>
      have outside : (sceneOf v).label i = none := by simp [sceneOf, here, inArray]
      rw [sceneOf_take]
      simp only [algorithm, step, pushAttempt]
      cases (stack.step l v.memory.inner).2 with
      | running l' => exact scene_stay outside
      | returned a =>
        cases a with
        | contended => exact .enter (.push (stack.value item)) outside
        | _ => exact scene_stay outside
    | popping l =>
      have outside : (sceneOf v).label i = none := by simp [sceneOf, here, inArray]
      rw [sceneOf_take]
      simp only [algorithm, step, popAttempt]
      cases (stack.step l v.memory.inner).2 with
      | running l' => exact scene_stay outside
      | returned a =>
        cases a with
        | popped found => exact scene_stay outside
        | _ => exact .enter .pop outside
    | offering item l => exact scene_offer item l here
    | seeking l => exact scene_seek l here

end View

section Run

variable (stack : AttemptStack Inner Item L) (inner : Inner) (config : EliminationConfig)
  (programs : List (List Request))

abbrev after (schedule : List (Turn EliminationArray.Choice)) :
    View (Memory Inner) (Label Item L) Answer :=
  (algorithm stack).viewAfter ⟨inner, .ofConfig config⟩ programs schedule

def scene (schedule : List (Turn EliminationArray.Choice)) : Scene :=
  sceneOf (after stack inner config programs schedule)

theorem turn (t : Turn EliminationArray.Choice) (earlier : List (Turn EliminationArray.Choice)) :
    (after stack inner config programs earlier).Step (algorithm stack) programs t.thread t.choice
      (after stack inner config programs (t :: earlier)) :=
  (algorithm stack).viewAfter_cons _ programs t earlier

theorem scene_turn (t : Turn EliminationArray.Choice)
    (earlier : List (Turn EliminationArray.Choice)) :
    (scene stack inner config programs earlier).Step t.thread t.choice
      (scene stack inner config programs (t :: earlier)) :=
  scene_step (turn stack inner config programs t earlier)

variable {config} in
theorem sound (slots : config.slots ≠ 0) (schedule : List (Turn EliminationArray.Choice)) :
    Sound (scene stack inner config programs schedule)
      (claimsSince (scene stack inner config programs) schedule) := by
  apply Sound.run _ (scene_turn stack inner config programs)
  have start : scene stack inner config programs [] = ⟨.ofConfig config, fun _ => none⟩ := by
    simp [scene, after, sceneOf, View.start]
  rw [start]
  exact .start slots _

/-- The array gave the operation this answer. -/
def Told (schedule : List (Turn EliminationArray.Choice)) (o : Operation)
    (a : EliminationArray.Answer) : Prop :=
  ∃ t earlier l, t :: earlier <:+ schedule ∧
    o = (after stack inner config programs earlier).current t.thread ∧
    (scene stack inner config programs earlier).label t.thread = some l ∧
    (EliminationArray.step t.choice l (scene stack inner config programs earlier).array).status =
      .returned a

/-- The operation is a push whose value was taken, and it has not learned of it. -/
def Pending (schedule : List (Turn EliminationArray.Choice)) (o : Operation) : Prop :=
  o = (after stack inner config programs schedule).current o.thread ∧
    ∃ l, (scene stack inner config programs schedule).label o.thread = some l ∧
      Taken (scene stack inner config programs schedule).array l

def entries (p : Pair) : List (Entry Request Answer) :=
  [⟨p.push, .insert p.value, .found none⟩, ⟨p.pop, .remove, .found (some p.value)⟩]

/-- The pushes and pops that met in the array are paired off, and partners stand next to each other. -/
structure Coupled (schedule : List (Turn EliminationArray.Choice))
    (order : List (Entry Request Answer)) (pairs : List Pair) : Prop where
  pushes : ∀ o, o ∈ pairs.map Pair.push ↔
    Told stack inner config programs schedule o (.pushed true) ∨
      Pending stack inner config programs schedule o
  pops : ∀ o, o ∈ pairs.map Pair.pop ↔
    ∃ v, Told stack inner config programs schedule o (.popped (some v))
  adjacent : ∀ p ∈ pairs, entries p <:+: order

variable {stack inner config programs} {t : Turn EliminationArray.Choice}
  {earlier : List (Turn EliminationArray.Choice)} {order : List (Entry Request Answer)}
  {pairs : List Pair} {o : Operation} {a : EliminationArray.Answer} {i : Nat}
  {l : EliminationArray.Label}

theorem told_cons : Told stack inner config programs (t :: earlier) o a ↔
    Told stack inner config programs earlier o a ∨
      o = (after stack inner config programs earlier).current t.thread ∧
        ∃ l, (scene stack inner config programs earlier).label t.thread = some l ∧
          (EliminationArray.step t.choice l
            (scene stack inner config programs earlier).array).status = .returned a := by
  simp only [Told, List.suffix_cons_iff]
  constructor
  · intro ⟨t', earlier', l, suffix, same, here, gives⟩
    rcases suffix with suffix | suffix
    · cases suffix
      exact .inr ⟨same, l, here, gives⟩
    · exact .inl ⟨t', earlier', l, suffix, same, here, gives⟩
  · intro h
    rcases h with ⟨t', earlier', l, suffix, same, here, gives⟩ | ⟨same, l, here, gives⟩
    · exact ⟨t', earlier', l, .inr suffix, same, here, gives⟩
    · exact ⟨t, earlier, l, .inl rfl, same, here, gives⟩

theorem scene_label {l : Label Item L}
    (here : (after stack inner config programs earlier).label i = some l) :
    (scene stack inner config programs earlier).label i = inArray l := by
  change (View.label (after stack inner config programs earlier) i).bind inArray = _
  rw [here]
  rfl

/-- A thread shows at its own turns only. -/
theorem scene_other (hi : i ≠ t.thread) :
    (scene stack inner config programs (t :: earlier)).label i =
      (scene stack inner config programs earlier).label i := by
  have label := ((turn stack inner config programs t earlier).others hi).1
  change (View.label (after stack inner config programs (t :: earlier)) i).bind inArray = _
  rw [label]
  rfl

theorem current_of_scene
    (here : (scene stack inner config programs (t :: earlier)).label t.thread = some l) :
    (after stack inner config programs (t :: earlier)).current t.thread =
      (after stack inner config programs earlier).current t.thread := by
  obtain ⟨k, at_k, _⟩ := Option.bind_eq_some_iff.mp here
  have same := (turn stack inner config programs t earlier).answers_of_label at_k
  rw [View.current, View.current, same]

/-- Other threads wait for a partner as before, if the turn takes nothing from them. -/
theorem pending_other (ho : o.thread ≠ t.thread)
    (same : ∀ l, o = (after stack inner config programs earlier).current o.thread →
      (scene stack inner config programs earlier).label o.thread = some l →
      (Taken (scene stack inner config programs (t :: earlier)).array l ↔
        Taken (scene stack inner config programs earlier).array l)) :
    Pending stack inner config programs (t :: earlier) o ↔
      Pending stack inner config programs earlier o := by
  have current := ((turn stack inner config programs t earlier).others ho).2
  rw [Pending, Pending, current, scene_other ho]
  constructor
  · intro ⟨mine, l, here, taken⟩
    exact ⟨mine, l, here, (same l mine here).mp taken⟩
  · intro ⟨mine, l, here, taken⟩
    exact ⟨mine, l, here, (same l mine here).mpr taken⟩

/-- A turn that takes no offer leaves the set of eliminated pushes as it is. -/
theorem eliminated_later (slots : config.slots ≠ 0)
    (lost : Spares (scene stack inner config programs earlier) t.thread) (o : Operation) :
    Told stack inner config programs (t :: earlier) o (.pushed true) ∨
        Pending stack inner config programs (t :: earlier) o ↔
      Told stack inner config programs earlier o (.pushed true) ∨
        Pending stack inner config programs earlier o := by
  have sound := sound stack inner programs slots earlier
  have turn := scene_turn stack inner config programs t earlier
  rw [told_cons, or_assoc]
  apply or_congr_right
  by_cases ho : o.thread = t.thread
  swap
  · have other : o ≠ (after stack inner config programs earlier).current t.thread :=
      fun same => ho (congrArg Operation.thread same)
    rw [pending_other ho]
    · simp [other]
    · intro l _ here
      generalize scene stack inner config programs (t :: earlier) = scene' at turn ⊢
      cases turn with
      | rest => rfl
      | enter => rfl
      | move k k' at_k => exact sound.spared at_k t.choice (lost k at_k) ho here
      | leave k a at_k => exact sound.spared at_k t.choice (lost k at_k) ho here
  have current : ∀ l, (scene stack inner config programs (t :: earlier)).label o.thread = some l →
      (after stack inner config programs (t :: earlier)).current o.thread =
        (after stack inner config programs earlier).current o.thread := by
    intro l here
    rw [ho] at here ⊢
    exact current_of_scene here
  simp only [Pending]
  rw [← ho] at turn ⊢
  generalize scene stack inner config programs (t :: earlier) = scene' at turn current ⊢
  cases turn with
  | rest outside => simp [outside]
  | enter c outside =>
    cases c <;> simp [outside, EliminationArray.enter, Taken]
  | move k k' at_k goes =>
    have kept := (sound.running at_k goes).1
    rw [current k' (by simp)]
    simp [at_k, goes, kept]
  | leave k a at_k gives =>
    have outcome := sound.outcome at_k t.choice
    simp only [Function.update_self, reduceCtorEq, false_and, exists_false, and_false, or_false,
      at_k, Option.some.injEq, exists_eq_left', gives, Status.returned.injEq]
    apply and_congr_right
    intro _
    rw [gives] at outcome
    generalize (EliminationArray.step t.choice k
      (scene stack inner config programs earlier).array).memory = m' at outcome
    generalize (EliminationArray.step t.choice k
      (scene stack inner config programs earlier).array).events = events at outcome
    cases outcome with
    | eliminated _ v value taken => exact iff_of_true rfl taken
    | withdrawn _ v value untaken => exact iff_of_false (by simp) untaken
    | missed value =>
      refine iff_of_false (by simp) ?_
      intro taken
      cases k <;> first | exact taken | cases value
    | met s seen v at_take met => exact absurd ⟨s, seen, v, at_take, met⟩ (lost k (ho ▸ at_k))

/-- Such a turn tells no pop of a value. -/
theorem popped_later (slots : config.slots ≠ 0)
    (lost : Spares (scene stack inner config programs earlier) t.thread) (o : Operation)
    (v : Value) :
    Told stack inner config programs (t :: earlier) o (.popped (some v)) ↔
      Told stack inner config programs earlier o (.popped (some v)) := by
  rw [told_cons, or_iff_left]
  intro ⟨_, k, at_k, gives⟩
  have outcome := (sound stack inner programs slots earlier).outcome at_k t.choice
  rw [gives] at outcome
  generalize (EliminationArray.step t.choice k
    (scene stack inner config programs earlier).array).memory = m' at outcome
  generalize (EliminationArray.step t.choice k
    (scene stack inner config programs earlier).array).events = events at outcome
  cases outcome with
  | met s seen v at_take met => exact lost k at_k ⟨s, seen, v, at_take, met⟩

theorem Coupled.later (h : Coupled stack inner config programs earlier order pairs)
    (slots : config.slots ≠ 0)
    (lost : Spares (scene stack inner config programs earlier) t.thread)
    (added : List (Entry Request Answer)) :
    Coupled stack inner config programs (t :: earlier) (order ++ added) pairs := by
  constructor
  · intro o
    rw [h.pushes, eliminated_later slots lost]
  · intro o
    rw [h.pops]
    exact exists_congr fun v => (popped_later slots lost o v).symm
  · intro p hp
    exact (h.adjacent p hp).trans (List.prefix_append order added).isInfix

/-- By taking the offer of thread `j`, the pop of thread `t.thread` leaves the array. -/
theorem pending_meet {k : EliminationArray.Label} {j : Nat} (hj : j ≠ t.thread)
    (here : (scene stack inner config programs earlier).label t.thread = some k)
    (unoffered : ¬ Taken (scene stack inner config programs earlier).array k)
    (gives : (EliminationArray.step t.choice k
      (scene stack inner config programs earlier).array).status = .returned a)
    (there : (scene stack inner config programs earlier).label j = some l)
    (untaken : ¬ Taken (scene stack inner config programs earlier).array l)
    (taken : Taken (scene stack inner config programs (t :: earlier)).array l)
    (others : ∀ j' l', j' ≠ j →
      (scene stack inner config programs earlier).label j' = some l' →
      (Taken (scene stack inner config programs (t :: earlier)).array l' ↔
        Taken (scene stack inner config programs earlier).array l')) :
    Pending stack inner config programs (t :: earlier) o ↔
      o = (after stack inner config programs earlier).current j ∨
        Pending stack inner config programs earlier o := by
  by_cases ho : o.thread = t.thread
  · have ne : o ≠ (after stack inner config programs earlier).current j :=
      fun same => hj ((congrArg Operation.thread same).symm.trans ho)
    have turn := scene_turn stack inner config programs t earlier
    have left : (scene stack inner config programs (t :: earlier)).label t.thread = none := by
      generalize scene stack inner config programs (t :: earlier) = scene' at turn ⊢
      cases turn with
      | rest outside => exact outside
      | enter c outside =>
        rw [here] at outside
        cases outside
      | move k' k'' at_k goes =>
        obtain rfl : k' = k := Option.some.inj (at_k.symm.trans here)
        rw [gives] at goes
        cases goes
      | leave => exact Function.update_self _ _ _
    simp [Pending, ho, ne, left, here, unoffered]
  by_cases hoj : o.thread = j
  · have current := ((turn stack inner config programs t earlier).others hj).2
    have label : (scene stack inner config programs (t :: earlier)).label j = some l :=
      (scene_other hj).trans there
    rw [Pending, Pending, hoj, current, label, there]
    simp [taken, untaken]
  · have ne : o ≠ (after stack inner config programs earlier).current j :=
      fun same => hoj (congrArg Operation.thread same)
    rw [pending_other ho, or_iff_right ne]
    exact fun l _ at_l => others _ l hoj at_l

/-- The pop of thread `t.thread` takes the offer of thread `j`. -/
theorem Coupled.meet (h : Coupled stack inner config programs earlier order pairs)
    {s : Nat} {seen : SlotWord} {v : Value} {j : Nat}
    (here : (scene stack inner config programs earlier).label t.thread = some (.popTake s seen v))
    (met : ((scene stack inner config programs earlier).array.slot s).word = seen)
    (hj : j ≠ t.thread) (there : (scene stack inner config programs earlier).label j = some l)
    (untaken : ¬ Taken (scene stack inner config programs earlier).array l)
    (taken : Taken (scene stack inner config programs (t :: earlier)).array l)
    (others : ∀ j' l', j' ≠ j →
      (scene stack inner config programs earlier).label j' = some l' →
      (Taken (scene stack inner config programs (t :: earlier)).array l' ↔
        Taken (scene stack inner config programs earlier).array l')) :
    let p : Pair := ⟨(after stack inner config programs earlier).current j,
      (after stack inner config programs earlier).current t.thread, v⟩
    Coupled stack inner config programs (t :: earlier) (order ++ entries p) (p :: pairs) := by
  intro p
  have gives : (EliminationArray.step t.choice (.popTake s seen v)
      (scene stack inner config programs earlier).array).status =
        .returned (.popped (some v)) := by
    simp [EliminationArray.step, met]
  constructor
  · intro o
    rw [List.map_cons, List.mem_cons, h.pushes, told_cons]
    simp only [here, Option.some.injEq, exists_eq_left', gives, Status.returned.injEq, reduceCtorEq,
      and_false, or_false]
    rw [pending_meet hj here id gives there untaken taken others]
    exact or_left_comm
  · intro o
    rw [List.map_cons, List.mem_cons, h.pops]
    simp only [told_cons, here, Option.some.injEq, exists_eq_left', gives, Status.returned.injEq,
      EliminationArray.Answer.popped.injEq, exists_or, exists_and_left, exists_eq', and_true]
    exact or_comm
  · intro q hq
    rcases List.mem_cons.mp hq with same | hq
    · rw [same]
      exact (List.suffix_append order (entries p)).isInfix
    · exact (h.adjacent q hq).trans (List.prefix_append order _).isInfix

end Run

end SharedMemory.EliminationStack
