import SharedMemory.Proofs.LockUsers

/-!
# Two sides that come back

Each of the two sides takes the lock and gives it back any number of times. The turn says which of two
waiting sides goes first, and it can be taken from a side only by that side itself. So the sides exclude
each other, they are never both stuck, and a side that has given the turn away is overtaken at most once.
-/
namespace SharedMemory

theorem Side.eq_or_eq_other (i side : Side) : i = side ∨ i = side.other := by
  cases i <;> cases side <;> simp [Side.other]

namespace TwoPartyLock

open Lock (Scene Taken Phase Action)

/-- The condition under which a side goes on waiting. -/
def Memory.Blocks (m : Memory) (side : Side) : Prop := m.desire side.other = true ∧ m.turn = side.other

def wants : Phase Label Side → Bool
  | .entering (.yield _) | .entering (.watchDesire _) | .entering (.watchTurn _) => true
  | .holding _ | .leaving _ => true
  | _ => false

/-- The side has swapped the turn and has not entered. -/
def waits : Phase Label Side → Bool
  | .entering (.watchDesire _) | .entering (.watchTurn _) => true
  | _ => false

/-- The side has entered and not cleared its desire yet. -/
def inside : Phase Label Side → Bool
  | .holding _ | .leaving _ => true
  | _ => false

theorem wants_of_waits {p : Phase Label Side} (h : waits p) : wants p := by
  cases p with
  | entering l => cases l <;> first | rfl | cases h
  | outside | holding | leaving => cases h

theorem wants_of_inside {p : Phase Label Side} (h : inside p) : wants p := by
  cases p <;> first | rfl | cases h

inductive Proper (side : Side) : Phase Label Side → Prop
  | outside : Proper side .outside
  | want : Proper side (.entering (.want side))
  | yield : Proper side (.entering (.yield side))
  | watchDesire : Proper side (.entering (.watchDesire side))
  | watchTurn : Proper side (.entering (.watchTurn side))
  | holding : Proper side (.holding side)
  | leave : Proper side (.leaving (.leave side))

/-- A side says truly whether it wants to enter, and while one side is inside the other cannot get out of
its wait. -/
structure Kept (phases : Side → Phase Label Side) (m : Memory) : Prop where
  proper : ∀ side, Proper side (phases side)
  desire : ∀ side, m.desire side = wants (phases side)
  turn : ∀ side, waits (phases side) → inside (phases side.other) → m.turn = side.other
  alone : ∀ side, inside (phases side) → ¬ inside (phases side.other)

namespace Kept

variable {phases : Side → Phase Label Side} {m m' : Memory} {i : Side} {p : Phase Label Side}

theorem start : Kept (fun _ => .outside) {} :=
  ⟨fun _ => .outside, by intro side; cases side <;> rfl, nofun, nofun⟩

theorem move (h : Kept phases m) (proper : Proper i p) (mine : m'.desire i = wants p)
    (theirs : m'.desire i.other = m.desire i.other)
    (waiting : waits p → inside (phases i.other) → m'.turn = i.other)
    (waited : waits (phases i.other) → inside p → m'.turn = i)
    (alone : inside p → ¬ inside (phases i.other)) : Kept (Function.update phases i p) m' := by
  have other : Function.update phases i p i.other = phases i.other :=
    Function.update_of_ne i.other_ne _ _
  constructor
  · intro side
    rcases side.eq_or_eq_other i with rfl | rfl
    · rwa [Function.update_self]
    · rw [other]
      exact h.proper i.other
  · intro side
    rcases side.eq_or_eq_other i with rfl | rfl
    · rwa [Function.update_self]
    · rw [other, theirs]
      exact h.desire i.other
  · intro side
    rcases side.eq_or_eq_other i with rfl | rfl
    · rwa [Function.update_self, other]
    · rwa [other, i.other_other, Function.update_self]
  · intro side
    rcases side.eq_or_eq_other i with rfl | rfl
    · rwa [Function.update_self, other]
    · rw [other, i.other_other, Function.update_self]
      exact fun theirs mine => alone mine theirs

/-- A side moves before it enters, and leaves the memory as it is. -/
theorem seek (h : Kept phases m) (proper : Proper i p) (outer : ¬ inside p)
    (mine : wants p = wants (phases i))
    (waiting : waits p → inside (phases i.other) → m.turn = i.other) :
    Kept (Function.update phases i p) m := by
  apply h.move proper ((h.desire i).trans mine.symm) rfl waiting
  · exact fun _ inner => absurd inner outer
  · exact fun inner => absurd inner outer

/-- A side that waits enters, since the other side does not want to or the turn is its own. -/
theorem enter (h : Kept phases m) (here : waits (phases i))
    (free : m.desire i.other = false ∨ m.turn = i) : Kept (Function.update phases i (.holding i)) m := by
  have wanted : m.desire i = true := (h.desire i).trans (wants_of_waits here)
  apply h.move .holding wanted rfl nofun
  · intro waiting _
    rcases free with off | turn
    · rw [h.desire, wants_of_waits waiting] at off
      cases off
    · exact turn
  · intro _ inner
    rcases free with off | turn
    · rw [h.desire, wants_of_inside inner] at off
      cases off
    · rw [h.turn i here inner] at turn
      exact i.other_ne turn

theorem release (h : Kept phases m) (here : inside (phases i)) :
    Kept (Function.update phases i (.leaving (.leave i))) m := by
  have wanted : m.desire i = true := (h.desire i).trans (wants_of_inside here)
  apply h.move .leave wanted rfl nofun
  · intro waiting _
    have turn := h.turn i.other waiting
    rw [i.other_other] at turn
    exact turn here
  · exact fun _ => h.alone i here

theorem next {s s' : Scene Side Memory Label Side} (h : Kept s.phases s.memory)
    (next : s.Next lock (fun side => [.want side]) s') : Kept s'.phases s'.memory := by
  cases next with
  | rest => exact h
  | enter i l here entrance =>
    obtain rfl := List.mem_singleton.mp entrance
    exact h.seek .want nofun (by rw [here]; rfl) nofun
  | giveUp i token here =>
    have proper := h.proper i
    rw [here] at proper
    cases proper
    exact h.release (by rw [here]; rfl)
  | seek i l here =>
    have proper := h.proper i
    rw [here] at proper
    cases proper with
    | want =>
      have mine : (s.memory.setDesire i true).desire i = true := by simp
      have theirs : (s.memory.setDesire i true).desire i.other = s.memory.desire i.other := by simp
      exact h.move .yield mine theirs nofun nofun nofun
    | yield =>
      have mine : s.memory.desire i = true := by rw [h.desire, here]; rfl
      exact h.move .watchDesire mine rfl (fun _ _ => rfl) nofun nofun
    | watchDesire =>
      have waiting : waits (s.phases i) := by rw [here]; rfl
      by_cases wanted : s.memory.desire i.other = true
      · have goes : (lock.step (.watchDesire i) s.memory).2 = .running (.watchTurn i) := if_pos wanted
        rw [goes]
        exact h.seek .watchTurn nofun (by rw [here]; rfl) (fun _ => h.turn i waiting)
      · have goes : (lock.step (.watchDesire i) s.memory).2 = .returned (.acquired i) := if_neg wanted
        rw [goes]
        exact h.enter waiting (.inl (Bool.eq_false_iff.mpr wanted))
    | watchTurn =>
      have waiting : waits (s.phases i) := by rw [here]; rfl
      by_cases taken : s.memory.turn = i.other
      · have goes : (lock.step (.watchTurn i) s.memory).2 = .running (.watchDesire i) := if_pos taken
        rw [goes]
        exact h.seek .watchDesire nofun (by rw [here]; rfl) (fun _ => h.turn i waiting)
      · have goes : (lock.step (.watchTurn i) s.memory).2 = .returned (.acquired i) := if_neg taken
        rw [goes]
        exact h.enter waiting (.inr ((s.memory.turn.eq_or_eq_other i).resolve_right taken))
  | leave i l here =>
    have proper := h.proper i
    rw [here] at proper
    cases proper
    have mine : (s.memory.setDesire i false).desire i = false := by simp
    have theirs : (s.memory.setDesire i false).desire i.other = s.memory.desire i.other := by simp
    exact h.move .outside mine theirs nofun nofun nofun

/-- A side that waits has its turn taken away by nobody but itself. -/
theorem turn_next {s s' : Scene Side Memory Label Side} {side : Side} (h : Kept s.phases s.memory)
    (next : s.Next lock (fun side => [.want side]) s') (waiting : waits (s.phases side))
    (turn : s.memory.turn = side) : s'.memory.turn = side := by
  cases next with
  | rest | enter | giveUp => exact turn
  | seek i l here =>
    have proper := h.proper i
    rw [here] at proper
    cases proper with
    | want => exact (s.memory.turn_setDesire i true).trans turn
    | watchDesire | watchTurn => exact turn
    | yield =>
      rcases side.eq_or_eq_other i with rfl | rfl
      · rw [here] at waiting
        cases waiting
      · rfl
  | leave i l here =>
    have proper := h.proper i
    rw [here] at proper
    cases proper
    exact (s.memory.turn_setDesire i false).trans turn

end Kept

def entered (side : Side) (e : Taken Side Memory Label) : Bool :=
  e.user = side ∧ (step e.label e.found).2 = .returned (.acquired side)

def entries (side : Side) (record : List (Taken Side Memory Label)) : Nat := record.countP (entered side)

theorem entries_cons (side : Side) (e : Taken Side Memory Label) (record : List (Taken Side Memory Label)) :
    entries side (e :: record) = entries side record + if entered side e then 1 else 0 :=
  List.countP_cons

/-- A side has given the turn away and waits since. The other side has entered at most once, and when it
has come back to wait it has given the turn away in its turn. -/
structure Overtaken (phases : Side → Phase Label Side) (m : Memory) (side : Side)
    (later : List (Taken Side Memory Label)) : Prop where
  waiting : waits (phases side)
  once : entries side.other later ≤ 1
  given : entries side.other later = 1 → waits (phases side.other) → m.turn = side

namespace Overtaken

variable {phases : Side → Phase Label Side} {m m' : Memory} {side : Side} {p : Phase Label Side}
  {later later' : List (Taken Side Memory Label)} {s s' : Scene Side Memory Label Side}

theorem own (h : Overtaken phases m side later) (waiting : waits p)
    (same : entries side.other later' = entries side.other later) :
    Overtaken (Function.update phases side p) m side later' := by
  constructor
  · rwa [Function.update_self]
  · exact same ▸ h.once
  · rw [Function.update_of_ne side.other_ne, same]
    exact h.given

theorem theirs (h : Overtaken phases m side later) (once : entries side.other later' ≤ 1)
    (given : entries side.other later' = 1 → waits p → m'.turn = side) :
    Overtaken (Function.update phases side.other p) m' side later' := by
  constructor
  · rw [Function.update_of_ne side.other_ne.symm]
    exact h.waiting
  · exact once
  · rwa [Function.update_self]

theorem own_step (h : Overtaken s.phases s.memory side later) (kept : Kept s.phases s.memory) {l : Label}
    (here : s.phases side = .entering l) (out : ¬ entered side ⟨side, l, s.memory⟩) :
    Overtaken (Function.update s.phases side (.afterEnter (lock.step l s.memory).2))
      (lock.step l s.memory).1 side (⟨side, l, s.memory⟩ :: later) := by
  have waiting := h.waiting
  have proper := kept.proper side
  have same : entries side.other (⟨side, l, s.memory⟩ :: later) = entries side.other later := by
    simp [entries_cons, entered, side.other_ne.symm]
  rw [here] at waiting proper
  cases proper with
  | want | yield => cases waiting
  | watchDesire =>
    by_cases wanted : s.memory.desire side.other = true
    · have goes : (lock.step (.watchDesire side) s.memory).2 = .running (.watchTurn side) := if_pos wanted
      rw [goes]
      exact h.own rfl same
    · exact absurd (by simp [entered, step, wanted]) out
  | watchTurn =>
    by_cases taken : s.memory.turn = side.other
    · have goes : (lock.step (.watchTurn side) s.memory).2 = .running (.watchDesire side) := if_pos taken
      rw [goes]
      exact h.own rfl same
    · exact absurd (by simp [entered, step, taken]) out

theorem their_step (h : Overtaken s.phases s.memory side later) (kept : Kept s.phases s.memory) {l : Label}
    (here : s.phases side.other = .entering l) :
    Overtaken (Function.update s.phases side.other (.afterEnter (lock.step l s.memory).2))
      (lock.step l s.memory).1 side (⟨side.other, l, s.memory⟩ :: later) := by
  have proper := kept.proper side.other
  have given := h.given
  rw [here] at proper given
  cases proper with
  | want => exact h.theirs (by simpa [entries_cons, entered, step] using h.once) nofun
  | yield =>
    exact h.theirs (by simpa [entries_cons, entered, step] using h.once) fun _ _ => side.other_other
  | watchDesire =>
    have wanted : s.memory.desire side.other.other = true := by
      rw [side.other_other, kept.desire, wants_of_waits h.waiting]
    have goes : (lock.step (.watchDesire side.other) s.memory).2 = .running (.watchTurn side.other) :=
      if_pos wanted
    have same : entries side.other (⟨side.other, .watchDesire side.other, s.memory⟩ :: later) =
        entries side.other later := by
      simp [entries_cons, entered, step, kept.desire, wants_of_waits h.waiting]
    rw [goes]
    exact h.theirs (same ▸ h.once) fun count _ => given (same ▸ count) rfl
  | watchTurn =>
    by_cases turn : s.memory.turn = side
    · have taken : s.memory.turn = side.other.other := by rw [turn, side.other_other]
      have goes : (lock.step (.watchTurn side.other) s.memory).2 = .running (.watchDesire side.other) :=
        if_pos taken
      have same : entries side.other (⟨side.other, .watchTurn side.other, s.memory⟩ :: later) =
          entries side.other later := by
        simp [entries_cons, entered, step, turn]
      rw [goes]
      exact h.theirs (same ▸ h.once) fun count _ => given (same ▸ count) rfl
    · -- only a side that has not been overtaken yet has the turn with the other
      have none : entries side.other later = 0 := by
        have once := h.once
        have not_one : entries side.other later ≠ 1 := fun one => turn (given one rfl)
        omega
      have goes : (lock.step (.watchTurn side.other) s.memory).2 = .returned (.acquired side.other) :=
        if_neg (by rwa [side.other_other])
      rw [goes]
      refine h.theirs ?_ nofun
      rw [entries_cons, none]
      split <;> omega

theorem next (h : Overtaken s.phases s.memory side later) (kept : Kept s.phases s.memory)
    (next : s.Next lock (fun side => [.want side]) s') {new : List (Taken Side Memory Label)}
    (record : s'.record = new ++ s.record) (out : entries side new = 0) :
    Overtaken s'.phases s'.memory side (new ++ later) := by
  cases next with
  | rest =>
    obtain rfl := List.self_eq_append_left.mp record
    exact h
  | enter i l here entrance =>
    obtain rfl := List.self_eq_append_left.mp record
    obtain rfl := List.mem_singleton.mp entrance
    rcases i.eq_or_eq_other side with rfl | rfl
    · have waiting := h.waiting
      rw [here] at waiting
      cases waiting
    · exact h.theirs h.once nofun
  | giveUp i token here =>
    obtain rfl := List.self_eq_append_left.mp record
    rcases i.eq_or_eq_other side with rfl | rfl
    · have waiting := h.waiting
      rw [here] at waiting
      cases waiting
    · exact h.theirs h.once nofun
  | seek i l here =>
    obtain rfl : [_] = new := (List.append_left_inj s.record).mp record
    rcases i.eq_or_eq_other side with rfl | rfl
    · apply h.own_step kept here
      intro enters
      simp [entries, enters] at out
    · exact h.their_step kept here
  | leave i l here =>
    obtain rfl : [_] = new := (List.append_left_inj s.record).mp record
    rcases i.eq_or_eq_other side with rfl | rfl
    · have waiting := h.waiting
      rw [here] at waiting
      cases waiting
    · have proper := kept.proper side.other
      rw [here] at proper
      cases proper
      exact h.theirs (by simpa [entries_cons, entered, step] using h.once) nofun

theorem swapped (kept : Kept s.phases s.memory) (next : s.Next lock (fun side => [.want side]) s')
    {e : Taken Side Memory Label} (taken : s'.record = e :: s.record) (user : e.user = side)
    (label : e.label = .yield side) : Overtaken s'.phases s'.memory side [] := by
  refine ⟨?_, Nat.zero_le 1, nofun⟩
  cases next with
  | rest | enter | giveUp => exact absurd taken.symm (List.cons_ne_self e s.record)
  | seek i l here =>
    obtain rfl := (List.cons.inj taken).1
    obtain rfl : i = side := user
    obtain rfl : l = .yield i := label
    have there : (s.take lock i (.yield i) (.afterEnter (lock.step (.yield i) s.memory).2)).phases i =
        .entering (.watchDesire i) := Function.update_self i _ _
    rw [there]
    rfl
  | leave i l here =>
    obtain rfl := (List.cons.inj taken).1
    obtain rfl : l = .yield side := label
    have proper := kept.proper i
    rw [here] at proper
    cases proper

end Overtaken

def after (actions : List (Action Side)) : Scene Side Memory Label Side :=
  Scene.after lock (fun side => [.want side]) {} actions

theorem after_next (a : Action Side) (actions : List (Action Side)) :
    (after actions).Next lock (fun side => [.want side]) (after (a :: actions)) :=
  Scene.act_next (after actions) a

theorem record_suffix_after (actions more : List (Action Side)) :
    (after actions).record <:+ (after (more ++ actions)).record := by
  induction more with
  | nil => exact List.suffix_rfl
  | cons a more ih => exact ih.trans (Scene.record_suffix (after_next a (more ++ actions)))

theorem kept_after (actions : List (Action Side)) : Kept (after actions).phases (after actions).memory :=
  Scene.after_invariant (I := fun s => Kept s.phases s.memory) Kept.start (fun _ _ => Kept.next) actions

theorem overtaken_after (actions : List (Action Side)) (side : Side)
    (later : List (Taken Side Memory Label)) (e : Taken Side Memory Label)
    (before : List (Taken Side Memory Label)) (record : (after actions).record = later ++ e :: before)
    (user : e.user = side) (label : e.label = .yield side) (out : entries side later = 0) :
    Overtaken (after actions).phases (after actions).memory side later := by
  induction actions generalizing later with
  | nil => simp [after, Scene.after] at record
  | cons a earlier ih =>
    have kept := kept_after earlier
    have next := after_next a earlier
    rcases Scene.record_next next with same | ⟨e', taken⟩
    · have unchanged : (after (a :: earlier)).record = [] ++ (after earlier).record := same
      exact (ih later (same ▸ record) out).next kept next unchanged rfl
    · cases later with
      | nil =>
        obtain ⟨rfl, rfl⟩ := List.cons.inj (taken.symm.trans record)
        exact Overtaken.swapped kept next taken user label
      | cons x later =>
        obtain ⟨rfl, split⟩ := List.cons.inj (taken.symm.trans record)
        rw [entries_cons, Nat.add_eq_zero_iff] at out
        have longer : (after (a :: earlier)).record = [e'] ++ (after earlier).record := taken
        refine (ih later split out.1).next kept next longer ?_
        rw [entries, List.countP_cons, List.countP_nil, Nat.zero_add]
        exact out.2

section Progress

/-- How many looks a waiting side that has the turn is away from entering, at most. -/
def looks : Phase Label Side → Nat
  | .entering (.watchDesire _) => 2
  | .entering (.watchTurn _) => 1
  | _ => 0

variable {s : Scene Side Memory Label Side} {side : Side} {l : Label}

theorem act_turn (here : s.phases side = .entering l) (entrances : Side → List Label) :
    s.act lock entrances ⟨side, .turn⟩ =
      s.take lock side l (.afterEnter (lock.step l s.memory).2) := by
  simp [Scene.act, here]

theorem act_of_entering (here : s.phases side = .entering l) (entrances : Side → List Label)
    {move : Lock.Move} (no_turn : move ≠ .turn) : s.act lock entrances ⟨side, move⟩ = s := by
  cases move with
  | enter k | giveUp => simp [Scene.act, here]
  | turn => exact absurd rfl no_turn

/-- A side that waits and has the turn comes nearer with every step that it takes itself. -/
theorem nearer_turn (kept : Kept s.phases s.memory) (waiting : waits (s.phases side))
    (turn : s.memory.turn = side) (entrances : Side → List Label) :
    (∃ e, entered side e ∧ (s.act lock entrances ⟨side, .turn⟩).record = e :: s.record) ∨
      waits ((s.act lock entrances ⟨side, .turn⟩).phases side) ∧
        looks ((s.act lock entrances ⟨side, .turn⟩).phases side) < looks (s.phases side) := by
  have proper := kept.proper side
  generalize here : s.phases side = phase at proper waiting
  cases proper with
  | outside | want | yield | holding | leave => cases waiting
  | watchDesire =>
    rw [act_turn here]
    by_cases wanted : s.memory.desire side.other = true
    · right
      have goes : (lock.step (.watchDesire side) s.memory).2 = .running (.watchTurn side) := if_pos wanted
      simp [Scene.take, goes, Phase.afterEnter, waits, looks]
    · left
      exact ⟨⟨side, .watchDesire side, s.memory⟩, by simp [entered, step, wanted], rfl⟩
  | watchTurn =>
    rw [act_turn here]
    left
    have own : s.memory.turn ≠ side.other := fun taken => side.other_ne (taken.symm.trans turn)
    exact ⟨⟨side, .watchTurn side, s.memory⟩, by simp [entered, step, own], rfl⟩

/-- Nobody takes it back. -/
theorem nearer_act (kept : Kept s.phases s.memory) (waiting : waits (s.phases side))
    (turn : s.memory.turn = side) (a : Action Side) (entrances : Side → List Label) :
    (∃ e, entered side e ∧ (s.act lock entrances a).record = e :: s.record) ∨
      waits ((s.act lock entrances a).phases side) ∧
        looks ((s.act lock entrances a).phases side) + [a].count ⟨side, .turn⟩ ≤
          looks (s.phases side) := by
  by_cases own : a = ⟨side, .turn⟩
  · subst own
    refine (nearer_turn kept waiting turn entrances).imp_right fun nearer => ⟨nearer.1, ?_⟩
    rw [List.count_singleton_self]
    exact nearer.2
  · have same : (s.act lock entrances a).phases side = s.phases side := by
      by_cases user : a.user = side
      · obtain ⟨i, move⟩ := a
        obtain rfl : i = side := user
        have no_turn : move ≠ .turn := fun turn => own (turn ▸ rfl)
        generalize here : s.phases i = phase at waiting
        cases phase with
        | entering l => rw [act_of_entering here entrances no_turn, here]
        | outside | holding | leaving => cases waiting
      · exact Scene.phases_act_of_ne s a (Ne.symm user)
    right
    rw [same, List.count_eq_zero.mpr (by simpa using Ne.symm own)]
    exact ⟨waiting, Nat.le_refl _⟩

/-- A side that waits and has the turn enters by its second step from then on, whatever the other side
does. -/
theorem enters_soon (actions : List (Action Side)) (waiting : waits ((after actions).phases side))
    (turn : (after actions).memory.turn = side) (more : List (Action Side)) :
    entries side (after actions).record < entries side (after (more ++ actions)).record ∨
      (after (more ++ actions)).memory.turn = side ∧ waits ((after (more ++ actions)).phases side) ∧
        looks ((after (more ++ actions)).phases side) + more.count ⟨side, .turn⟩ ≤
          looks ((after actions).phases side) := by
  induction more with
  | nil => exact .inr ⟨turn, waiting, Nat.le_refl _⟩
  | cons a more ih =>
    have next := after_next a (more ++ actions)
    rcases ih with already | ⟨turn, waiting, near⟩
    · left
      exact already.trans_le (Scene.record_suffix next).sublist.countP_le
    · have kept := kept_after (more ++ actions)
      rcases nearer_act kept waiting turn a (fun side => [.want side]) with ⟨e, enters, taken⟩ | nearer
      · left
        have more_entries := entries_cons side e (after (more ++ actions)).record
        rw [if_pos enters, ← taken] at more_entries
        have before := (record_suffix_after actions more).sublist.countP_le (p := entered side)
        exact Nat.lt_of_le_of_lt before (more_entries ▸ Nat.lt_succ_self _)
      · right
        have counts : (a :: more).count ⟨side, .turn⟩ =
            [a].count ⟨side, .turn⟩ + more.count ⟨side, .turn⟩ := by
          rw [← List.count_append, List.singleton_append]
        refine ⟨kept.turn_next next waiting turn, nearer.1, ?_⟩
        rw [counts, ← Nat.add_assoc]
        exact (Nat.add_le_add_right nearer.2 _).trans near

theorem looks_bounds {p : Phase Label Side} (h : waits p) : 0 < looks p ∧ looks p ≤ 2 := by
  cases p with
  | entering l => cases l <;> first | exact ⟨Nat.zero_lt_succ _, by simp [looks]⟩ | cases h
  | outside | holding | leaving => cases h

end Progress

/-- What the two sides can rely on. -/
structure Fair (actions : List (Action Side)) : Prop where
  /-- They are never inside together. -/
  exclusive : ∀ side, inside ((after actions).phases side) → ¬ inside ((after actions).phases side.other)
  /-- When both wait, nothing blocks one of them, and it enters by its second step from then on. -/
  unstuck : (∀ side, waits ((after actions).phases side)) →
    ∃ side, ¬ (after actions).memory.Blocks side ∧ ∀ more : List (Action Side),
      2 ≤ more.count ⟨side, .turn⟩ →
        entries side (after actions).record < entries side (after (more ++ actions)).record
  unopposed : ∀ side, waits ((after actions).phases side) →
    wants ((after actions).phases side.other) = false → ¬ (after actions).memory.Blocks side
  /-- Between a side's swap of the turn and its entry the other side enters at most once. -/
  bypassed : ∀ side later e before, (after actions).record = later ++ e :: before → e.user = side →
    e.label = .yield side → entries side later = 0 → entries side.other later ≤ 1

theorem two_party_fair (actions : List (Action Side)) : Fair actions where
  exclusive := (kept_after actions).alone
  unstuck both := by
    refine ⟨(after actions).memory.turn, ?_, fun more twice => ?_⟩
    · exact fun blocks => (after actions).memory.turn.other_ne blocks.2.symm
    · have waiting := both (after actions).memory.turn
      rcases enters_soon actions waiting rfl more with entered | ⟨_, still, near⟩
      · exact entered
      · have now := looks_bounds waiting
        have soon := looks_bounds still
        omega
  unopposed side _ off blocks := by
    rw [Memory.Blocks, (kept_after actions).desire, off] at blocks
    exact Bool.false_ne_true blocks.1
  bypassed side later e before record user label out :=
    (overtaken_after actions side later e before record user label out).once

/-- A side can be overtaken: the right side has swapped the turn before the left one does. -/
example :
    let s := after [⟨.right, .turn⟩, ⟨.right, .turn⟩, ⟨.left, .turn⟩, ⟨.right, .turn⟩, ⟨.left, .turn⟩,
      ⟨.right, .turn⟩, ⟨.left, .enter 0⟩, ⟨.right, .enter 0⟩]
    waits (s.phases .left) = true ∧ entries .right s.record = 1 ∧ entries .left s.record = 0 := by decide

end TwoPartyLock

end SharedMemory
