import SharedMemory.Proofs.ArrayPairing

/-!
# The life cycle of a slot

A slot goes from free to claimed, offered and back, by way of taken or not, and a step that changes it is
a claim, a popper's taking or a step of the push that has claimed it. So a slot that is not free belongs
to exactly one push, its stamp counts its claims, and an offer that cannot be withdrawn has been taken.
-/
namespace SharedMemory.EliminationArray

open SlotWord

/-- What a step at the label `l` can make of the slot `s`. -/
inductive SlotStep (l : Label) (s : Nat) (old : Slot) : Slot → Prop
  | same : SlotStep l s old old
  | claim (v : Value) (at_claim : l = .pushClaim v s old.word) (free : old.word.hasTag .free) :
      SlotStep l s old { old with word := old.word.nextClaim }
  | write (v : Value) (c : SlotWord) (at_write : l = .pushWrite v s c) (claimed : old.word = c) :
      SlotStep l s old { old with value := v }
  | offer (v : Value) (c : SlotWord) (at_offer : l = .pushOffer v s c) (claimed : old.word = c) :
      SlotStep l s old { old with word := c.withTag .offered }
  | free (c : SlotWord) (claimed : l.claim? = some (s, c)) (stamp : old.word.stamp = c.stamp) :
      SlotStep l s old { old with word := c.withTag .free }
  | take (v : Value) (at_take : l = .popTake s old.word v) (offered : old.word.hasTag .offered) :
      SlotStep l s old { old with word := old.word.withTag .taken }

section Scene

variable {scene scene' : Scene} {age : Nat → Nat → Nat} {i s : Nat} {l : Label} {c : SlotWord}

theorem SlotStep.of_setWord {m : Memory} {k : Nat} {word : SlotWord} (inside : k < m.slots.size)
    (step : s = k → SlotStep l s (m.slot s) { m.slot s with word }) :
    SlotStep l s (m.slot s) ((m.setWord k word).slot s) := by
  rw [Memory.slot_setWord inside]
  split
  · next same => exact step same
  · exact .same

theorem Sound.slotStep (h : Sound scene age) (here : scene.label i = some l) (choice : Choice)
    (s : Nat) :
    SlotStep l s (scene.array.slot s)
      ((EliminationArray.step choice l scene.array).memory.slot s) := by
  have keeps := h.keeps i l here
  have sees := h.sees i l here
  cases l with
  | pushClaim v k seen =>
    simp only [EliminationArray.step]
    split
    · next met =>
      refine .of_setWord sees.1 fun same => ?_
      subst same met
      exact .claim v rfl sees.2
    · exact .same
  | pushWrite v k c =>
    have inside := (h.claims i _ k c here rfl).1
    simp only [EliminationArray.step]
    rw [Memory.slot_setValue inside]
    split
    · next same =>
      subst same
      exact .write v c rfl keeps
    · exact .same
  | pushOffer v k c =>
    refine .of_setWord (h.claims i _ k c here rfl).1 fun same => ?_
    subst same
    exact .offer v c rfl keeps.1
  | pushFree v k c =>
    refine .of_setWord (h.claims i _ k c here rfl).1 fun same => ?_
    subst same
    exact .free c rfl (by rw [show _ = c.withTag .taken from keeps, stamp_withTag])
  | pushWithdraw v k c =>
    simp only [EliminationArray.step]
    split
    · next met =>
      refine .of_setWord (h.claims i _ k c here rfl).1 fun same => ?_
      subst same
      exact .free c rfl (by rw [met, stamp_withTag])
    · split <;> exact .same
  | popTake k seen v =>
    simp only [EliminationArray.step]
    split
    · next met =>
      refine .of_setWord sees.1.inside fun same => ?_
      subst same met
      exact .take v rfl sees.1.offered
    · exact .same
  | _ => exact .same

theorem Label.value_of_claim (h : l.claim? = some (s, c)) : ∃ v, l.value? = some v := by
  cases l with
  | pushWrite v | pushOffer v | pushWaitClock v | pushWait v | pushFree v | pushWithdraw v =>
    exact ⟨v, rfl⟩
  | _ => cases h

theorem Sound.word_of_claim (h : Sound scene age) (here : scene.label i = some l)
    (claim : l.claim? = some (s, c)) :
    ((∃ v, l = .pushWrite v s c ∨ l = .pushOffer v s c) ∧ (scene.array.slot s).word = c ∧
        c.hasTag .claimed) ∨
      (∃ v, Waits v s c l ∧ (scene.array.slot s).value = v ∧
        ((scene.array.slot s).word = c.withTag .offered ∨ (scene.array.slot s).word = c.withTag .taken)) ∨
      ∃ v, l = .pushFree v s c ∧ (scene.array.slot s).word = c.withTag .taken := by
  have tag := (h.claims i l s c here claim).2
  have keeps := h.keeps i l here
  cases l with
  | pushWrite v k c' =>
    cases claim
    exact .inl ⟨⟨v, .inl rfl⟩, keeps, tag⟩
  | pushOffer v k c' =>
    cases claim
    exact .inl ⟨⟨v, .inr rfl⟩, keeps.1, tag⟩
  | pushWaitClock v k c' =>
    cases claim
    exact .inr (.inl ⟨v, .clock, keeps⟩)
  | pushWait v k c' =>
    cases claim
    exact .inr (.inl ⟨v, .wait, keeps⟩)
  | pushWithdraw v k c' =>
    cases claim
    exact .inr (.inl ⟨v, .withdraw, keeps⟩)
  | pushFree v k c' =>
    cases claim
    exact .inr (.inr ⟨v, rfl, keeps⟩)
  | _ => cases claim

theorem Sound.stamp_of_claim (h : Sound scene age) (here : scene.label i = some l)
    (claim : l.claim? = some (s, c)) : (scene.array.slot s).word.stamp = c.stamp := by
  rcases h.word_of_claim here claim with ⟨-, word, -⟩ | ⟨_, -, -, word | word⟩ | ⟨_, -, word⟩
  all_goals simp only [word, stamp_withTag]

theorem Sound.claimed_iff (h : Sound scene age) (hs : s < scene.array.slots.size) :
    (scene.array.slot s).word.hasTag .claimed ↔ ∃ i v c,
      scene.label i = some (.pushWrite v s c) ∨ scene.label i = some (.pushOffer v s c) := by
  constructor
  · intro claimed
    obtain ⟨i, l, c, here, claim⟩ := h.held s hs fun free => by cases hasTag_unique free claimed
    rcases h.word_of_claim here claim with ⟨⟨v, place⟩, -⟩ | ⟨_, -, -, word | word⟩ | ⟨_, -, word⟩
    · rcases place with rfl | rfl
      · exact ⟨i, v, c, .inl here⟩
      · exact ⟨i, v, c, .inr here⟩
    all_goals
      rw [word, hasTag_withTag] at claimed
      cases claimed
  · rintro ⟨i, v, c, here | here⟩
    · rw [show _ = c from h.keeps i _ here]
      exact (h.claims i _ s c here rfl).2
    · rw [(show _ = c ∧ _ from h.keeps i _ here).1]
      exact (h.claims i _ s c here rfl).2

/-- A step that changes the word of a slot that is claimed or taken is its owner's. -/
theorem SlotStep.owner {old new : Slot} (h : SlotStep l s old new)
    (busy : old.word.hasTag .claimed ∨ old.word.hasTag .taken) (changed : new.word ≠ old.word) :
    ∃ c, l.claim? = some (s, c) := by
  cases h with
  | same => exact absurd rfl changed
  | claim v at_claim free => rcases busy with tag | tag <;> cases hasTag_unique free tag
  | write v c at_write => exact absurd rfl changed
  | offer v c at_offer => exact ⟨c, by rw [at_offer]; rfl⟩
  | free c claimed => exact ⟨c, claimed⟩
  | take v at_take offered => rcases busy with tag | tag <;> cases hasTag_unique offered tag

/-- The value in a slot changes only when the push that has claimed it writes its own. -/
theorem SlotStep.value {old new : Slot} (h : SlotStep l s old new) :
    new.value = old.value ∨ ∃ v c, l = .pushWrite v s c := by
  cases h with
  | write v c at_write => exact .inr ⟨v, c, at_write⟩
  | _ => exact .inl rfl

theorem SlotStep.stamp {old new : Slot} (h : SlotStep l s old new) :
    new.word.stamp = old.word.stamp ∨ ∃ v, l = .pushClaim v s old.word := by
  cases h with
  | same => exact .inl rfl
  | claim v at_claim => exact .inr ⟨v, at_claim⟩
  | write => exact .inl rfl
  | offer v c at_offer claimed => exact .inl (by rw [stamp_withTag, claimed])
  | free c claimed stamp => exact .inl (by rw [stamp_withTag, stamp])
  | take => exact .inl (stamp_withTag _ _)

def claimed? (m : Memory) : Label → Option Nat
  | .pushClaim _ s seen => if (m.slot s).word = seen then some s else none
  | _ => none

theorem Sound.stamp_step (h : Sound scene age) (here : scene.label i = some l) (choice : Choice)
    (s : Nat) :
    ((EliminationArray.step choice l scene.array).memory.slot s).word.stamp.toNat =
      ((scene.array.slot s).word.stamp.toNat + (claimed? scene.array l).toList.count s) % stamps := by
  have unchanged : ∀ w : SlotWord, w.stamp.toNat = (w.stamp.toNat + 0) % stamps :=
    fun w => (Nat.mod_eq_of_lt w.stamp_lt).symm
  have apart : (∀ v, l ≠ .pushClaim v s (scene.array.slot s).word) → claimed? scene.array l ≠ some s →
      ((EliminationArray.step choice l scene.array).memory.slot s).word.stamp.toNat =
        ((scene.array.slot s).word.stamp.toNat + (claimed? scene.array l).toList.count s) % stamps := by
    intro elsewhere unclaimed
    rcases (h.slotStep here choice s).stamp with stamp | ⟨v, at_claim⟩
    · have none : (claimed? scene.array l).toList.count s = 0 := by
        rw [List.count_eq_zero, Option.mem_toList]
        exact unclaimed
      rw [stamp, none]
      exact unchanged _
    · exact absurd at_claim (elsewhere v)
  cases l with
  | pushClaim v k seen =>
    by_cases met : (scene.array.slot k).word = seen
    · by_cases same : s = k
      · subst same met
        have inside := (h.sees i _ here).1
        simp only [EliminationArray.step, claimed?, if_true, Memory.slot_setWord inside,
          Option.toList_some, List.count_singleton_self]
        exact toNat_stamp_nextClaim _
      · refine apart (fun _ at_claim => same ?_) fun claims => same ?_
        · cases at_claim
          rfl
        · rw [claimed?, if_pos met] at claims
          exact (Option.some.inj claims).symm
    · refine apart (fun _ at_claim => met ?_) fun claims => ?_
      · cases at_claim
        rfl
      · rw [claimed?, if_neg met] at claims
        cases claims
  | _ =>
    refine apart (fun _ at_claim => ?_) fun claims => ?_
    · cases at_claim
    · cases claims

theorem Sound.value_kept (h : Sound scene age) (here : scene.label i = some l) (choice : Choice)
    {j : Nat} {l' : Label} (hj : j ≠ i) (hl : scene.label j = some l') (claim : l'.claim? = some (s, c)) :
    ((EliminationArray.step choice l scene.array).memory.slot s).value = (scene.array.slot s).value := by
  rcases (h.slotStep here choice s).value with same | ⟨v, c', rfl⟩
  · exact same
  · exact absurd rfl (h.foreign hl claim hj.symm here c')

theorem stands_after {label : Nat → Option Label} {new : Option Label} {j : Nat}
    (h : Function.update label i new j = some l) : j = i ∧ new = some l ∨ j ≠ i ∧ label j = some l := by
  by_cases hj : j = i
  · subst hj
    rw [Function.update_self] at h
    exact .inl ⟨rfl, h⟩
  · rw [Function.update_of_ne hj] at h
    exact .inr ⟨hj, h⟩

def Stored (scene : Scene) : Prop :=
  ∀ i v s c, scene.label i = some (.pushFree v s c) → (scene.array.slot s).value = v

theorem Waits.of_goes_free {m : Memory} {v : Value} {choice : Choice}
    (goes : (EliminationArray.step choice l m).status = .running (.pushFree v s c)) :
    (EliminationArray.step choice l m).memory = m ∧ Waits v s c l := by
  cases l with
  | pushWait v' k c' =>
    simp only [EliminationArray.step] at goes
    split at goes <;> cases goes
    exact ⟨rfl, .wait⟩
  | pushWithdraw v' k c' =>
    simp only [EliminationArray.step] at goes ⊢
    split at goes
    · cases goes
    · next lost =>
      split at goes <;> cases goes
      next taken =>
        rw [if_neg lost, if_pos taken]
        exact ⟨rfl, .withdraw⟩
  | pushProbe | pushClaim | pushClock | pushWaitClock | popProbe | popTake | popClock =>
    simp only [EliminationArray.step] at goes
    split at goes <;> cases goes
  | _ => cases goes

theorem Stored.step (h : Stored scene) (sound : Sound scene age) {choice : Choice}
    (turn : scene.Step i choice scene') : Stored scene' := by
  -- whoever else is about to free its slot has it to itself
  have others : ∀ l, scene.label i = some l → ∀ j v s c, j ≠ i →
      scene.label j = some (.pushFree v s c) →
      ((EliminationArray.step choice l scene.array).memory.slot s).value = v :=
    fun l here j v s c hj hl => (sound.value_kept here choice hj hl rfl).trans (h j v s c hl)
  intro j v s c hl
  cases turn with
  | rest => exact h j v s c hl
  | enter call outside =>
    rcases stands_after hl with ⟨-, entered⟩ | ⟨-, old⟩
    · cases call <;> cases entered
    · exact h j v s c old
  | move l l' here goes =>
    rcases stands_after hl with ⟨-, moved⟩ | ⟨hj, old⟩
    · cases moved
      obtain ⟨unchanged, waits⟩ := Waits.of_goes_free goes
      rw [unchanged]
      exact ((waits.keeps_iff _).mp (sound.keeps i l here)).1
    · exact others l here j v s c hj old
  | leave l a here gives =>
    rcases stands_after hl with ⟨-, left⟩ | ⟨hj, old⟩
    · cases left
    · exact others l here j v s c hj old

/-- The value in a slot that is offered or taken is that of the push that has claimed it. -/
theorem Stored.value_of_claim (h : Stored scene) (sound : Sound scene age)
    (here : scene.label i = some l) (claim : l.claim? = some (s, c))
    (shown : (scene.array.slot s).word.hasTag .offered ∨ (scene.array.slot s).word.hasTag .taken) :
    l.value? = some (scene.array.slot s).value := by
  rcases sound.word_of_claim here claim with ⟨-, word, tag⟩ | ⟨v, waits, value, -⟩ | ⟨v, rfl, -⟩
  · rw [word] at shown
    rcases shown with shown | shown <;> cases hasTag_unique shown tag
  · rw [waits.value?, value]
  · rw [h i v s c here]
    rfl

end Scene

section Run

variable {config : EliminationConfig} {programs : List (List Call)} {schedule : List (Turn Choice)}
  {m : Memory}

/-- An array that nobody is inside: as made, or reset after any run, once its calls have returned. -/
inductive Fresh (config : EliminationConfig) : Memory → Prop
  | made : Fresh config (.ofConfig config)
  | reset {m : Memory} {programs : List (List Call)} {schedule : List (Turn Choice)}
      (fresh : Fresh config m) (quiet : ∀ i, (algorithm.viewAfter m programs schedule).label i = none) :
      Fresh config (algorithm.viewAfter m programs schedule).memory.reset

theorem size_step (choice : Choice) (l : Label) (m : Memory) :
    (EliminationArray.step choice l m).memory.slots.size = m.slots.size := by
  cases l with
  | pushWrite => exact Memory.size_setValue _ _ _
  | pushOffer | pushFree => exact Memory.size_setWord _ _ _
  | pushClaim | popTake =>
    simp only [EliminationArray.step]
    split
    · exact Memory.size_setWord _ _ _
    · rfl
  | pushWithdraw =>
    simp only [EliminationArray.step]
    split
    · exact Memory.size_setWord _ _ _
    · split <;> rfl
  | _ => rfl

theorem size_after (m : Memory) (programs : List (List Call)) (schedule : List (Turn Choice)) :
    (algorithm.viewAfter m programs schedule).memory.slots.size = m.slots.size :=
  algorithm.memory_after m programs (P := fun m' => m'.slots.size = m.slots.size) rfl
    (fun choice l m' same => (size_step choice l m').trans same) schedule

/-- No run leaves a trace in an array that is reset. -/
theorem Fresh.eq_ofConfig (h : Fresh config m) : m = .ofConfig config := by
  induction h with
  | made => rfl
  | @reset m programs schedule _ _ ih =>
    have size : (algorithm.viewAfter m programs schedule).memory.slots.size = config.slots.toNat := by
      rw [size_after, ih, Memory.ofConfig, Array.size_replicate]
    rw [Memory.reset, Memory.ofConfig, ← size]
    congr 1
    exact Array.map_const' ..

theorem slot_ofConfig (config : EliminationConfig) (s : Nat) : (Memory.ofConfig config).slot s = {} := by
  by_cases hs : s < config.slots.toNat <;> simp [Memory.ofConfig, Memory.slot, Array.getD, hs]

theorem stored (slots : config.slots ≠ 0) (programs : List (List Call)) (schedule : List (Turn Choice)) :
    Stored (scene config programs schedule) := by
  induction schedule with
  | nil =>
    intro i v s c here
    simp [scene, after, View.start] at here
  | cons t earlier ih => exact ih.step (sound slots programs earlier) (scene_turn config programs t earlier)

theorem Outcome.not_broken {m m' : Memory} {l : Label} {status : Status Label Answer}
    {events : List Event} {word expected : SlotWord} (h : Outcome m l m' status events) :
    status ≠ .returned (.broken word expected) := by
  cases h <;> nofun

/-- No push finds its slot in the state of another claim. -/
theorem not_broken (slots : config.slots ≠ 0) (programs : List (List Call))
    (schedule : List (Turn Choice)) (i : Nat) (word expected : SlotWord) :
    .broken word expected ∉ (after config programs schedule).answers i := by
  induction schedule with
  | nil => simp [after, View.start]
  | cons t earlier ih =>
    have turn := turn config programs t earlier
    generalize after config programs (t :: earlier) = v' at turn ⊢
    cases turn with
    | rest => exact ih
    | enter => exact ih
    | move => exact ih
    | answer l a here gives =>
      rw [View.answers_answer]
      by_cases other : i = t.thread
      · subst other
        rw [Function.update_self, List.mem_append, List.mem_singleton]
        rintro (old | rfl)
        · exact ih old
        · exact ((sound slots programs earlier).outcome here t.choice).not_broken gives
      · rw [Function.update_of_ne other]
        exact ih

theorem freeSlots_eq (slots : config.slots ≠ 0)
    (quiet : ∀ i l, (after config programs schedule).label i = some l → l.value? = none) :
    (after config programs schedule).memory.freeSlots = config.slots.toNat := by
  have sound := sound slots programs schedule
  have size : (after config programs schedule).memory.slots.size = config.slots.toNat := by
    rw [size_after, Memory.ofConfig, Array.size_replicate]
  rw [← size, Memory.freeSlots, Memory.count, Array.countP_eq_size]
  intro slot hslot
  obtain ⟨s, hs, rfl⟩ := Array.mem_iff_getElem.mp hslot
  have here : (after config programs schedule).memory.slot s =
      (after config programs schedule).memory.slots[s] := by
    rw [Memory.slot, Array.getD_eq_getD_getElem?, Array.getElem?_eq_getElem hs, Option.getD_some]
  rw [← here]
  by_contra busy
  obtain ⟨i, l, c, at_l, claim⟩ := sound.held s hs busy
  obtain ⟨v, value⟩ := Label.value_of_claim claim
  cases (quiet i l at_l).symm.trans value

/-- The slots claimed so far, the latest claim first. -/
abbrev claimedSlots (config : EliminationConfig) (programs : List (List Call))
    (schedule : List (Turn Choice)) : List Nat :=
  algorithm.notes (.ofConfig config) programs claimed? schedule

theorem stamp_eq (slots : config.slots ≠ 0) (programs : List (List Call))
    (schedule : List (Turn Choice)) (s : Nat) :
    ((after config programs schedule).memory.slot s).word.stamp.toNat =
      (claimedSlots config programs schedule).count s % stamps := by
  induction schedule with
  | nil =>
    rw [after, Algorithm.viewAfter_nil, View.start, slot_ofConfig]
    rfl
  | cons t earlier ih =>
    change _ = ((((after config programs earlier).noted claimed? t.thread).toList ++
      claimedSlots config programs earlier).count s) % stamps
    rw [List.count_append, View.noted]
    rcases (turn config programs t earlier).rest_or_enter_or_take with
      ⟨outside, hv⟩ | ⟨c, outside, _, hv⟩ | ⟨l, here, hv⟩
    · rw [hv, outside, ih]
      simp
    · rw [hv, View.memory_enter, outside, ih]
      simp
    · rw [hv, View.memory_take, here]
      have step := (sound slots programs earlier).stamp_step here t.choice s
      rw [show (scene config programs earlier).array = (after config programs earlier).memory from rfl,
        ih, Nat.mod_add_mod, Nat.add_comm] at step
      exact step

/-- The push of thread `i` has claimed the slot `s` with the word `c` and not freed it again. -/
def Owns (v : View Memory Label Answer) (i s : Nat) (c : SlotWord) : Prop :=
  ∃ l, v.label i = some l ∧ l.claim? = some (s, c)

/-- The state of a slot and the pushes in progress at one moment. A push stands at `pushWrite` or
`pushOffer` from its claim until it has stored its offer. -/
structure InCycle (v : View Memory Label Answer) (s : Nat) : Prop where
  owned : ¬ (v.memory.slot s).word.hasTag .free ↔ ∃! i, ∃ c, Owns v i s c
  stamp : ∀ i c, Owns v i s c → (v.memory.slot s).word.stamp = c.stamp
  claimed : (v.memory.slot s).word.hasTag .claimed ↔
    ∃ i x c, v.label i = some (.pushWrite x s c) ∨ v.label i = some (.pushOffer x s c)
  value : (v.memory.slot s).word.hasTag .offered ∨ (v.memory.slot s).word.hasTag .taken →
    ∀ i l c, v.label i = some l → l.claim? = some (s, c) → l.value? = some (v.memory.slot s).value

theorem Sound.inCycle {v : View Memory Label Answer} {age : Nat → Nat → Nat} {s : Nat}
    (h : Sound ⟨v.memory, v.label⟩ age) (stored : Stored ⟨v.memory, v.label⟩)
    (hs : s < v.memory.slots.size) : InCycle v s where
  owned := by
    constructor
    · intro busy
      obtain ⟨i, l, c, here, claim⟩ := h.held s hs busy
      refine ⟨i, ⟨c, l, here, claim⟩, ?_⟩
      rintro j ⟨c', l', there, claim'⟩
      exact h.alone j i l' l s c' c there here claim' claim
    · rintro ⟨i, ⟨c, l, here, claim⟩, -⟩
      exact h.not_free here claim
  stamp := by
    rintro i c ⟨l, here, claim⟩
    exact h.stamp_of_claim here claim
  claimed := h.claimed_iff hs
  value shown i l c here claim := stored.value_of_claim h here claim shown

theorem owner_moves (slots : config.slots ≠ 0) (t : Turn Choice) {s : Nat}
    (busy : ((after config programs schedule).memory.slot s).word.hasTag .claimed ∨
      ((after config programs schedule).memory.slot s).word.hasTag .taken)
    (changed : ((after config programs (t :: schedule)).memory.slot s).word ≠
      ((after config programs schedule).memory.slot s).word) :
    ∃ c, Owns (after config programs schedule) t.thread s c := by
  rcases (turn config programs t schedule).rest_or_enter_or_take with
    ⟨_, hv⟩ | ⟨c, _, _, hv⟩ | ⟨l, here, hv⟩
  · exact absurd (by rw [hv]) changed
  · exact absurd (by rw [hv]; rfl) changed
  · rw [hv, View.memory_take] at changed
    obtain ⟨c, claim⟩ := ((sound slots programs schedule).slotStep here t.choice s).owner busy changed
    exact ⟨c, l, here, claim⟩

/-- What a run shows of the slots, from an array that holds `m`: each of them goes through its cycle, and
only its owner moves it on from claimed or taken. So a withdrawal that fails finds the value taken. -/
structure LifeCycle (config : EliminationConfig) (m : Memory) (programs : List (List Call))
    (schedule : List (Turn Choice)) : Prop where
  cycle : ∀ s < config.slots.toNat, InCycle (algorithm.viewAfter m programs schedule) s
  moved : ∀ t s,
    let v := algorithm.viewAfter m programs schedule
    (v.memory.slot s).word.hasTag .claimed ∨ (v.memory.slot s).word.hasTag .taken →
    ((algorithm.viewAfter m programs (t :: schedule)).memory.slot s).word ≠ (v.memory.slot s).word →
    ∃ c, Owns v t.thread s c
  withdrawal : ∀ i x s c,
    let v := algorithm.viewAfter m programs schedule
    v.label i = some (.pushWithdraw x s c) → (v.memory.slot s).word ≠ c.withTag .offered →
    (v.memory.slot s).word = c.withTag .taken
  unbroken : ∀ i word expected,
    .broken word expected ∉ (algorithm.viewAfter m programs schedule).answers i
  free : (∀ i l, (algorithm.viewAfter m programs schedule).label i = some l → l.value? = none) →
    (algorithm.viewAfter m programs schedule).memory.freeSlots = config.slots.toNat
  stamps : ∀ s, ((algorithm.viewAfter m programs schedule).memory.slot s).word.stamp.toNat =
    (algorithm.notes m programs claimed? schedule).count s % stamps

/-- Whatever threads exchange what values, whichever slots they look at and whenever their deadlines
pass, and however often a slot is claimed. -/
theorem slot_life_cycle (config : EliminationConfig) (slots : config.slots ≠ 0) (m : Memory)
    (fresh : Fresh config m) (programs : List (List Call)) (schedule : List (Turn Choice)) :
    LifeCycle config m programs schedule := by
  obtain rfl := fresh.eq_ofConfig
  have sound := sound slots programs schedule
  constructor
  · intro s hs
    refine sound.inCycle (stored slots programs schedule) ?_
    rwa [size_after, Memory.ofConfig, Array.size_replicate]
  · exact fun t s busy changed => owner_moves slots t busy changed
  · intro i x s c v here lost
    exact (sound.keeps i _ here).2.resolve_left lost
  · exact not_broken slots programs schedule
  · exact freeSlots_eq slots
  · exact stamp_eq slots programs schedule

/-- Two threads meet, the array is reset, and they meet again. -/
theorem life_cycle_of_second_meeting :
    LifeCycle { slots := 1 } (after { slots := 1 } [[.push 7], [.pop]] meeting).memory.reset
      [[.push 7], [.pop]] meeting :=
  slot_life_cycle { slots := 1 } (by decide) _ (.reset .made quiet_after_meeting) [[.push 7], [.pop]]
    meeting

end Run

end SharedMemory.EliminationArray
