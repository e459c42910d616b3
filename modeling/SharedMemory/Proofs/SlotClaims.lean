import SharedMemory.Proofs.Schedule
import SharedMemory.Proofs.SlotTags

/-!
# Who has claimed which slot

A thread that claims a slot has it to itself until it frees it. The threads inside the array and the
slots they see make up a scene; `Sound` ties them together, and every step keeps it. The value that a
popper takes is the value of the offer it ends, because the slot was not claimed anew since the
popper saw it.
-/
namespace SharedMemory.EliminationArray

open SlotWord

structure Scene where
  array : Memory
  label : Nat → Option Label

namespace Label

def value? : Label → Option Value
  | .pushProbe v | .pushClaim v _ _ | .pushClock v | .pushWrite v _ _ | .pushOffer v _ _
  | .pushWaitClock v _ _ | .pushWait v _ _ | .pushFree v _ _ | .pushWithdraw v _ _ => some v
  | .popProbe | .popRead _ _ | .popTake _ _ _ | .popClock => none

def claim? : Label → Option (Nat × SlotWord)
  | .pushWrite _ i claimed | .pushOffer _ i claimed | .pushWaitClock _ i claimed
  | .pushWait _ i claimed | .pushFree _ i claimed | .pushWithdraw _ i claimed => some (i, claimed)
  | _ => none

end Label

/-- A push that waits at the slot `s`, which it has claimed with the word `c`, for its value `v` to be
taken. -/
inductive Waits (v : Value) (s : Nat) (c : SlotWord) : Label → Prop
  | clock : Waits v s c (.pushWaitClock v s c)
  | wait : Waits v s c (.pushWait v s c)
  | withdraw : Waits v s c (.pushWithdraw v s c)

/-- What the thread that has claimed a slot knows about it. -/
def Keeps (m : Memory) : Label → Prop
  | .pushWrite _ i claimed => (m.slot i).word = claimed
  | .pushOffer v i claimed => (m.slot i).word = claimed ∧ (m.slot i).value = v
  | .pushWaitClock v i claimed | .pushWait v i claimed | .pushWithdraw v i claimed =>
    (m.slot i).value = v ∧
      ((m.slot i).word = claimed.withTag .offered ∨ (m.slot i).word = claimed.withTag .taken)
  | .pushFree _ i claimed => (m.slot i).word = claimed.withTag .taken
  | _ => True

/-- A popper has taken the value that is offered by the thread at this label. -/
def Taken (m : Memory) : Label → Prop
  | .pushWaitClock _ i claimed | .pushWait _ i claimed | .pushFree _ i claimed
  | .pushWithdraw _ i claimed => (m.slot i).word = claimed.withTag .taken
  | _ => False

/-- The slot `i` has been claimed `age` times since its word was seen, and it is offered no more than
once under one claim. -/
structure Since (m : Memory) (age : Nat) (i : Nat) (seen : SlotWord) : Prop where
  inside : i < m.slots.size
  offered : seen.hasTag .offered
  stamp : (m.slot i).word.stamp.toNat = (seen.stamp.toNat + age) % stamps
  open_ : age = 0 → ¬ (m.slot i).word.hasTag .claimed

/-- What a thread that has only seen a slot knows about it; `age` counts the claims since then. -/
def Sees (m : Memory) (age : Nat → Nat) : Label → Prop
  | .pushClaim _ i seen => i < m.slots.size ∧ seen.hasTag .free
  | .popRead i seen => Since m (age i) i seen
  | .popTake i seen v => Since m (age i) i seen ∧ (age i = 0 → (m.slot i).value = v)
  | _ => True

/-- `age` counts, for each thread and slot, the claims of the slot since the thread last looked for an
offer. -/
structure Sound (scene : Scene) (age : Nat → Nat → Nat) : Prop where
  slots : 0 < scene.array.slots.size
  claims : ∀ i l s c, scene.label i = some l → l.claim? = some (s, c) →
    s < scene.array.slots.size ∧ c.hasTag .claimed
  keeps : ∀ i l, scene.label i = some l → Keeps scene.array l
  sees : ∀ i l, scene.label i = some l → Sees scene.array (age i) l
  alone : ∀ i j k l s c c', scene.label i = some k → scene.label j = some l →
    k.claim? = some (s, c) → l.claim? = some (s, c') → i = j
  held : ∀ s < scene.array.slots.size, ¬ (scene.array.slot s).word.hasTag .free →
    ∃ i l c, scene.label i = some l ∧ l.claim? = some (s, c)

def ageAfter (scene : Scene) (i : Nat) (age : Nat → Nat → Nat) : Nat → Nat → Nat :=
  match scene.label i with
  | some .popProbe => Function.update age i fun _ => 0
  | some (.pushClaim _ s seen) =>
    if (scene.array.slot s).word = seen then fun j s' => if s' = s then age j s' + 1 else age j s'
    else age
  | _ => age

namespace Scene

inductive Step (i : Nat) (choice : Choice) (scene : Scene) : Scene → Prop
  | rest (outside : scene.label i = none) : Step i choice scene scene
  | enter (c : Call) (outside : scene.label i = none) :
      Step i choice scene ⟨scene.array, Function.update scene.label i (some (EliminationArray.enter c))⟩
  | move (l l' : Label) (here : scene.label i = some l)
      (goes : (step choice l scene.array).status = .running l') :
      Step i choice scene
        ⟨(step choice l scene.array).memory, Function.update scene.label i (some l')⟩
  | leave (l : Label) (a : Answer) (here : scene.label i = some l)
      (gives : (step choice l scene.array).status = .returned a) :
      Step i choice scene ⟨(step choice l scene.array).memory, Function.update scene.label i none⟩

end Scene

/-- A change of one slot that a claim counts once and any other step not at all. -/
structure Touches (m m' : Memory) (s : Nat) (claims : Nat) : Prop where
  size : m'.slots.size = m.slots.size
  other : ∀ k ≠ s, m'.slot k = m.slot k
  stamp : (m'.slot s).word.stamp.toNat = ((m.slot s).word.stamp.toNat + claims) % stamps
  calm : claims = 0 → ¬ (m.slot s).word.hasTag .claimed →
    ¬ (m'.slot s).word.hasTag .claimed ∧ (m'.slot s).value = (m.slot s).value

section Frame

variable {m m' : Memory} {s n : Nat} {age : Nat → Nat} {l : Label} {i : Nat} {seen : SlotWord}

theorem Touches.refl (m : Memory) (s : Nat) : Touches m m s 0 where
  size := rfl
  other _ _ := rfl
  stamp := (Nat.mod_eq_of_lt (stamp_lt _)).symm
  calm _ h := ⟨h, rfl⟩

theorem Touches.retag (h : s < m.slots.size) {w : SlotWord} {t : Tag} (tag : t ≠ .claimed)
    (stamp : (m.slot s).word.stamp = w.stamp) : Touches m (m.setWord s (w.withTag t)) s 0 where
  size := Memory.size_setWord _ _ _
  other k hk := by rw [Memory.slot_setWord h, if_neg hk]
  stamp := by
    rw [Memory.slot_setWord h, if_pos rfl, stamp_withTag, ← stamp, Nat.add_zero,
      Nat.mod_eq_of_lt (stamp_lt _)]
  calm _ _ := by
    rw [Memory.slot_setWord h, if_pos rfl]
    exact ⟨fun claimed => tag ((hasTag_withTag w t _).mp claimed), rfl⟩

theorem Touches.claim (h : s < m.slots.size) :
    Touches m (m.setWord s (m.slot s).word.nextClaim) s 1 where
  size := Memory.size_setWord _ _ _
  other k hk := by rw [Memory.slot_setWord h, if_neg hk]
  stamp := by rw [Memory.slot_setWord h, if_pos rfl, toNat_stamp_nextClaim]
  calm h := absurd h Nat.one_ne_zero

theorem Touches.write (h : s < m.slots.size) (claimed : (m.slot s).word.hasTag .claimed) (v : Value) :
    Touches m (m.setValue s v) s 0 where
  size := Memory.size_setValue _ _ _
  other k hk := by rw [Memory.slot_setValue h, if_neg hk]
  stamp := by
    rw [Memory.slot_setValue h, if_pos rfl]
    exact (Nat.mod_eq_of_lt (stamp_lt _)).symm
  calm _ h := absurd claimed h

theorem Since.carry (h : Since m (age i) i seen) (touch : Touches m m' s n) :
    Since m' (if i = s then age i + n else age i) i seen := by
  obtain ⟨inside, offered, stamp, opened⟩ := h
  refine ⟨touch.size ▸ inside, offered, ?_, ?_⟩
  · split
    · next same =>
      subst same
      rw [touch.stamp, stamp, Nat.mod_add_mod, Nat.add_assoc]
    · next ne =>
      rw [touch.other i ne, stamp]
  · split
    · next same =>
      subst same
      intro zero
      exact (touch.calm (by omega) (opened (by omega))).1
    · next ne =>
      rw [touch.other i ne]
      exact opened

/-- What a thread has seen holds on, with one more claim counted if the change is a claim. -/
theorem Sees.carry (h : Sees m age l) (touch : Touches m m' s n) :
    Sees m' (fun k => if k = s then age k + n else age k) l := by
  cases l with
  | pushClaim v i seen => exact ⟨touch.size ▸ h.1, h.2⟩
  | popRead i seen => exact Since.carry h touch
  | popTake i seen v =>
    obtain ⟨since, value⟩ := h
    refine ⟨since.carry touch, ?_⟩
    change (if i = s then age i + n else age i) = 0 → _
    split
    · next same =>
      subst same
      intro zero
      have none : age i = 0 := by omega
      rw [(touch.calm (by omega) (since.open_ none)).2, value none]
    · next ne =>
      rw [touch.other i ne]
      exact value
  | _ => trivial

theorem Touches.unclaimed (touch : Touches m m' s n) (other : ∀ c, l.claim? ≠ some (s, c)) {k : Nat}
    {c : SlotWord} (claim : l.claim? = some (k, c)) : m'.slot k = m.slot k :=
  touch.other k fun same => other c (same ▸ claim)

theorem Keeps.carry (h : Keeps m l) (other : ∀ c, l.claim? ≠ some (s, c)) (touch : Touches m m' s n) :
    Keeps m' l := by
  cases l with
  | pushWrite | pushOffer | pushWaitClock | pushWait | pushFree | pushWithdraw =>
    rw [Keeps, touch.unclaimed other rfl]
    exact h
  | _ => trivial

theorem taken_carry (other : ∀ c, l.claim? ≠ some (s, c)) (touch : Touches m m' s n) :
    Taken m' l ↔ Taken m l := by
  cases l with
  | pushWaitClock | pushWait | pushFree | pushWithdraw => rw [Taken, Taken, touch.unclaimed other rfl]
  | _ => exact Iff.rfl

end Frame

section Sound

variable {scene : Scene} {age age' : Nat → Nat → Nat} {i s n : Nat} {m' : Memory} {new : Option Label}
  {l l' : Label} {c : SlotWord} {choice : Choice}

theorem Sound.advance (h : Sound scene age) (touch : Touches scene.array m' s n)
    (ages : ∀ j ≠ i, age' j = fun k => if k = s then age j k + n else age j k)
    (others : ∀ j l, j ≠ i → scene.label j = some l → Keeps m' l)
    (own : ∀ l, new = some l → Keeps m' l ∧ Sees m' (age' i) l)
    (claims : ∀ l k c, new = some l → l.claim? = some (k, c) →
      k < scene.array.slots.size ∧ c.hasTag .claimed ∧
        ∀ j l' c', j ≠ i → scene.label j = some l' → l'.claim? ≠ some (k, c'))
    (held : ∀ k < scene.array.slots.size, ¬ (m'.slot k).word.hasTag .free →
      (∃ l c, new = some l ∧ l.claim? = some (k, c)) ∨
        ∃ j l c, j ≠ i ∧ scene.label j = some l ∧ l.claim? = some (k, c)) :
    Sound ⟨m', Function.update scene.label i new⟩ age' := by
  have split : ∀ j l, Function.update scene.label i new j = some l →
      j = i ∧ new = some l ∨ j ≠ i ∧ scene.label j = some l := by
    intro j l hl
    by_cases hj : j = i
    · subst hj
      rw [Function.update_self] at hl
      exact .inl ⟨rfl, hl⟩
    · rw [Function.update_of_ne hj] at hl
      exact .inr ⟨hj, hl⟩
  constructor
  · rw [touch.size]
    exact h.slots
  · intro j l k c hl hk
    rw [touch.size]
    rcases split j l hl with ⟨rfl, mine⟩ | ⟨_, old⟩
    · obtain ⟨inside, tag, _⟩ := claims l k c mine hk
      exact ⟨inside, tag⟩
    · exact h.claims j l k c old hk
  · intro j l hl
    rcases split j l hl with ⟨rfl, mine⟩ | ⟨hj, old⟩
    · exact (own l mine).1
    · exact others j l hj old
  · intro j l hl
    rcases split j l hl with ⟨rfl, mine⟩ | ⟨hj, old⟩
    · exact (own l mine).2
    · rw [ages j hj]
      exact (h.sees j l old).carry touch
  · intro j j' l l' k c c' hl hl' hk hk'
    rcases split j l hl with ⟨rfl, mine⟩ | ⟨hj, old⟩
    · rcases split j' l' hl' with ⟨rfl, _⟩ | ⟨hj', old'⟩
      · rfl
      · exact absurd hk' ((claims l k c mine hk).2.2 j' l' c' hj' old')
    · rcases split j' l' hl' with ⟨rfl, mine'⟩ | ⟨_, old'⟩
      · exact absurd hk ((claims l' k c' mine' hk').2.2 j l c hj old)
      · exact h.alone j j' l l' k c c' old old' hk hk'
  · intro k hk taken
    rw [touch.size] at hk
    rcases held k hk taken with ⟨l, c, hl, claim⟩ | ⟨j, l, c, hj, hl, claim⟩
    · exact ⟨i, l, c, by simp [hl], claim⟩
    · exact ⟨j, l, c, by simp [hj, hl], claim⟩

theorem Sound.foreign (h : Sound scene age) (here : scene.label i = some l)
    (claim : l.claim? = some (s, c)) {j : Nat} (hj : j ≠ i) (hl : scene.label j = some l')
    (c' : SlotWord) : l'.claim? ≠ some (s, c') :=
  fun hk => hj (h.alone j i l' l s c' c hl here hk claim)

theorem Sound.look (h : Sound scene age)
    (ages : ∀ j ≠ i, age' j = age j)
    (same : new.bind Label.claim? = (scene.label i).bind Label.claim?)
    (own : ∀ l, new = some l → Keeps scene.array l ∧ Sees scene.array (age' i) l) :
    Sound ⟨scene.array, Function.update scene.label i new⟩ age' := by
  have back : ∀ l k c, new = some l → l.claim? = some (k, c) →
      ∃ l', scene.label i = some l' ∧ l'.claim? = some (k, c) := by
    intro l k c hl hk
    rw [hl, Option.bind_some, hk] at same
    exact Option.bind_eq_some_iff.mp same.symm
  have forth : ∀ l k c, scene.label i = some l → l.claim? = some (k, c) →
      ∃ l', new = some l' ∧ l'.claim? = some (k, c) := by
    intro l k c hl hk
    rw [hl, Option.bind_some, hk] at same
    exact Option.bind_eq_some_iff.mp same
  apply h.advance (.refl scene.array 0)
  · intro j hj
    rw [ages j hj]
    simp
  · exact fun j l _ hl => h.keeps j l hl
  · exact own
  · intro l k c hl hk
    obtain ⟨l', here, claim⟩ := back l k c hl hk
    obtain ⟨inside, tag⟩ := h.claims i l' k c here claim
    exact ⟨inside, tag, fun j l'' c' hj hl' => h.foreign here claim hj hl' c'⟩
  · intro k hk taken
    obtain ⟨j, l, c, hl, claim⟩ := h.held k hk taken
    by_cases hj : j = i
    · subst hj
      obtain ⟨l', hl', claim'⟩ := forth l k c hl claim
      exact .inl ⟨l', c, hl', claim'⟩
    · exact .inr ⟨j, l, c, hj, hl, claim⟩

theorem Sound.work (h : Sound scene age) (here : scene.label i = some l)
    (claim : l.claim? = some (s, c)) (touch : Touches scene.array m' s 0)
    (claim' : ∀ l', new = some l' → l'.claim? = some (s, c))
    (own : ∀ l', new = some l' → Keeps m' l' ∧ Sees m' (age i) l')
    (freed : new = none → (m'.slot s).word.hasTag .free) :
    Sound ⟨m', Function.update scene.label i new⟩ age := by
  obtain ⟨inside, tag⟩ := h.claims i l s c here claim
  apply h.advance touch
  · intro j _
    simp
  · intro j l' hj hl
    exact (h.keeps j l' hl).carry (h.foreign here claim hj hl) touch
  · exact own
  · intro l' k c' hl hk
    have same := (claim' l' hl).symm.trans hk
    cases same
    exact ⟨inside, tag, fun j l'' c' hj hl' => h.foreign here claim hj hl' c'⟩
  · intro k hk taken
    by_cases hs : k = s
    · subst hs
      cases new with
      | none => exact absurd (freed rfl) taken
      | some l' => exact .inl ⟨l', c, rfl, claim' l' rfl⟩
    · rw [touch.other k hs] at taken
      obtain ⟨j, l', c', hl, hk'⟩ := h.held k hk taken
      refine .inr ⟨j, l', c', ?_, hl, hk'⟩
      intro hj
      subst hj
      have same : l' = l := Option.some.inj (hl.symm.trans here)
      rw [same, claim] at hk'
      cases hk'
      exact hs rfl

theorem Sound.not_free (h : Sound scene age) (here : scene.label i = some l)
    (claim : l.claim? = some (s, c)) : ¬ (scene.array.slot s).word.hasTag .free := by
  have tag := (h.claims i l s c here claim).2
  have keeps := h.keeps i l here
  intro free
  cases l with
  | pushWrite v s' c' =>
    cases claim
    rw [keeps] at free
    cases hasTag_unique free tag
  | pushOffer v s' c' =>
    cases claim
    rw [keeps.1] at free
    cases hasTag_unique free tag
  | pushWaitClock v s' c' | pushWait v s' c' | pushWithdraw v s' c' =>
    cases claim
    rcases keeps.2 with word | word
    · rw [word, hasTag_withTag] at free
      cases free
    · rw [word, hasTag_withTag] at free
      cases free
  | pushFree v s' c' =>
    cases claim
    rw [keeps, hasTag_withTag] at free
    cases free
  | _ => cases claim

theorem Waits.value? {v : Value} (h : Waits v s c l) : l.value? = some v := by cases h <;> rfl

theorem Waits.taken_iff {v : Value} (h : Waits v s c l) (m : Memory) :
    Taken m l ↔ (m.slot s).word = c.withTag .taken := by cases h <;> rfl

theorem Waits.keeps_iff {v : Value} (h : Waits v s c l) (m : Memory) :
    Keeps m l ↔ (m.slot s).value = v ∧
      ((m.slot s).word = c.withTag .offered ∨ (m.slot s).word = c.withTag .taken) := by
  cases h <;> rfl

/-- Whoever has claimed a slot that is offered waits there, for the value that stands in the slot. -/
theorem Sound.offerer (h : Sound scene age) (here : scene.label i = some l)
    (claim : l.claim? = some (s, c)) (offered : (scene.array.slot s).word.hasTag .offered) :
    Waits (scene.array.slot s).value s c l ∧ (scene.array.slot s).word = c.withTag .offered := by
  have tag := (h.claims i l s c here claim).2
  have keeps := h.keeps i l here
  have waiting : ∀ {v}, Waits v s c l →
      Waits (scene.array.slot s).value s c l ∧ (scene.array.slot s).word = c.withTag .offered := by
    intro v waits
    obtain ⟨value, word | word⟩ := (waits.keeps_iff _).mp keeps
    · exact ⟨value ▸ waits, word⟩
    · rw [word, hasTag_withTag] at offered
      cases offered
  cases l with
  | pushWrite v s' c' =>
    cases claim
    rw [keeps] at offered
    cases hasTag_unique offered tag
  | pushOffer v s' c' =>
    cases claim
    rw [keeps.1] at offered
    cases hasTag_unique offered tag
  | pushWaitClock v s' c' =>
    cases claim
    exact waiting .clock
  | pushWait v s' c' =>
    cases claim
    exact waiting .wait
  | pushWithdraw v s' c' =>
    cases claim
    exact waiting .withdraw
  | pushFree v s' c' =>
    cases claim
    rw [keeps, hasTag_withTag] at offered
    cases offered
  | _ => cases claim

/-- A slot whose word a popper meets again was not claimed since the popper saw it. -/
theorem Since.met {m : Memory} {n : Nat} {seen : SlotWord} (h : Since m n s seen)
    (met : (m.slot s).word = seen) (few : n < stamps) : n = 0 :=
  claims_eq_zero (met ▸ h.stamp) few

/-- The slot that a popper takes from stays with the push that waits there. -/
theorem Sound.take (h : Sound scene age) {seen : SlotWord} {v : Value}
    (here : scene.label i = some (.popTake s seen v)) (met : (scene.array.slot s).word = seen) :
    Sound ⟨scene.array.setWord s (seen.withTag .taken), Function.update scene.label i none⟩ age := by
  obtain ⟨⟨inside, offered, _, _⟩, _⟩ := h.sees i _ here
  have touch : Touches scene.array (scene.array.setWord s (seen.withTag .taken)) s 0 :=
    .retag inside nofun (by rw [met])
  rw [← met] at offered
  apply h.advance touch
  · intro j _
    simp
  · intro j l _ hl
    by_cases claim : ∃ c, l.claim? = some (s, c)
    · obtain ⟨c, claim⟩ := claim
      obtain ⟨waits, word⟩ := h.offerer hl claim offered
      rw [waits.keeps_iff, Memory.slot_setWord inside, if_pos rfl, ← met, word, withTag_withTag]
      exact ⟨rfl, .inr rfl⟩
    · exact (h.keeps j l hl).carry (fun c hc => claim ⟨c, hc⟩) touch
  · intro l hl
    cases hl
  · intro l k c hl
    cases hl
  · intro k hk taken
    have busy : ¬ (scene.array.slot k).word.hasTag .free := by
      intro free
      rw [Memory.slot_setWord inside] at taken
      split at taken
      · next same =>
        subst same
        cases hasTag_unique free offered
      · exact taken free
    obtain ⟨j, l, c, hl, claim⟩ := h.held k hk busy
    refine .inr ⟨j, l, c, ?_, hl, claim⟩
    intro hj
    subst hj
    rw [here] at hl
    cases hl
    cases claim

theorem Sound.claim (h : Sound scene age) {seen : SlotWord} {v : Value}
    (here : scene.label i = some (.pushClaim v s seen)) (met : (scene.array.slot s).word = seen) :
    Sound ⟨scene.array.setWord s seen.nextClaim,
      Function.update scene.label i (some (.pushWrite v s seen.nextClaim))⟩
      (fun j k => if k = s then age j k + 1 else age j k) := by
  obtain ⟨inside, free⟩ := h.sees i _ here
  subst met
  have touch := Touches.claim inside
  have unclaimed : ∀ j l c, scene.label j = some l → l.claim? ≠ some (s, c) :=
    fun j l c hl claim => h.not_free hl claim free
  apply h.advance touch
  · exact fun j _ => rfl
  · exact fun j l _ hl => (h.keeps j l hl).carry (fun c => unclaimed j l c hl) touch
  · intro l hl
    cases hl
    refine ⟨?_, trivial⟩
    rw [Keeps, Memory.slot_setWord inside, if_pos rfl]
  · intro l k c hl claim
    cases hl
    cases claim
    exact ⟨inside, hasTag_nextClaim _, fun j l c _ hl => unclaimed j l c hl⟩
  · intro k hk taken
    rw [Memory.slot_setWord inside] at taken
    split at taken
    · next same =>
      subst same
      exact .inl ⟨_, _, rfl, rfl⟩
    · obtain ⟨j, l, c, hl, claim⟩ := h.held k hk taken
      refine .inr ⟨j, l, c, ?_, hl, claim⟩
      intro hj
      subst hj
      rw [here] at hl
      cases hl
      cases claim

theorem Sound.index_lt (h : Sound scene age) (k : Nat) :
    k % scene.array.slots.size < scene.array.slots.size := Nat.mod_lt k h.slots

theorem Sound.write (h : Sound scene age) {v : Value}
    (here : scene.label i = some (.pushWrite v s c)) :
    Sound ⟨scene.array.setValue s v, Function.update scene.label i (some (.pushOffer v s c))⟩ age := by
  obtain ⟨inside, tag⟩ := h.claims i _ s c here rfl
  have word : (scene.array.slot s).word = c := h.keeps i _ here
  have touch : Touches scene.array (scene.array.setValue s v) s 0 :=
    .write inside (by rw [word]; exact tag) v
  apply h.work here rfl touch
  · intro k hk
    cases hk
    rfl
  · intro k hk
    cases hk
    refine ⟨?_, trivial⟩
    rw [Keeps, Memory.slot_setValue inside, if_pos rfl]
    exact ⟨word, rfl⟩
  · nofun

/-- From the offer on, the value stays until somebody takes it or the push withdraws. -/
theorem Sound.offer (h : Sound scene age) {v : Value}
    (here : scene.label i = some (.pushOffer v s c)) :
    Sound ⟨scene.array.setWord s (c.withTag .offered),
      Function.update scene.label i (some (.pushWaitClock v s c))⟩ age := by
  have inside := (h.claims i _ s c here rfl).1
  obtain ⟨word, value⟩ : _ ∧ _ := h.keeps i _ here
  have touch : Touches scene.array (scene.array.setWord s (c.withTag .offered)) s 0 :=
    .retag inside nofun (by rw [word])
  apply h.work here rfl touch
  · intro k hk
    cases hk
    rfl
  · intro k hk
    cases hk
    refine ⟨?_, trivial⟩
    rw [Keeps, Memory.slot_setWord inside, if_pos rfl]
    exact ⟨value, .inl rfl⟩
  · nofun

/-- A popper that looks for an offer counts the claims anew. -/
theorem Sound.probe (h : Sound scene age) (here : scene.label i = some .popProbe)
    (unclaimed : l.claim? = none) (keeps : Keeps scene.array l)
    (sees : Sees scene.array (fun _ => 0) l) :
    Sound ⟨scene.array, Function.update scene.label i (some l)⟩
      (Function.update age i fun _ => 0) := by
  apply h.look
  · intro j hj
    rw [Function.update_of_ne hj]
  · rw [here]
    exact unclaimed
  · intro k hk
    cases hk
    rw [Function.update_self]
    exact ⟨keeps, sees⟩

theorem Sound.move (h : Sound scene age) (here : scene.label i = some l)
    (goes : (EliminationArray.step choice l scene.array).status = .running l') :
    Sound ⟨(EliminationArray.step choice l scene.array).memory,
      Function.update scene.label i (some l')⟩ (ageAfter scene i age) := by
  have keeps := h.keeps i l here
  have sees := h.sees i l here
  -- what a step does that only reads, and that leaves the thread with the claim it had
  have look : ∀ k, Label.claim? k = l.claim? → Keeps scene.array k → Sees scene.array (age i) k →
      Sound ⟨scene.array, Function.update scene.label i (some k)⟩ age := by
    intro k claim keeps' sees'
    apply h.look (fun _ _ => rfl)
    · rw [here]
      exact claim
    · intro k' hk'
      cases hk'
      exact ⟨keeps', sees'⟩
  cases l with
  | pushProbe v =>
    simp only [ageAfter, here]
    simp only [EliminationArray.step] at goes ⊢
    split at goes
    · next free =>
      cases goes
      exact look _ rfl trivial ⟨h.index_lt _, free⟩
    · cases goes
      exact look _ rfl trivial trivial
  | pushClaim v s seen =>
    simp only [ageAfter, here]
    simp only [EliminationArray.step] at goes ⊢
    split at goes
    · next met =>
      cases goes
      rw [if_pos met, if_pos met]
      exact h.claim here met
    · next lost =>
      cases goes
      rw [if_neg lost, if_neg lost]
      exact look _ rfl trivial trivial
  | pushClock v =>
    simp only [ageAfter, here]
    simp only [EliminationArray.step] at goes ⊢
    split at goes
    · cases goes
    · cases goes
      exact look _ rfl trivial trivial
  | pushWrite v s c =>
    simp only [ageAfter, here]
    cases goes
    exact h.write here
  | pushOffer v s c =>
    simp only [ageAfter, here]
    cases goes
    exact h.offer here
  | pushWaitClock v s c =>
    simp only [ageAfter, here]
    simp only [EliminationArray.step] at goes ⊢
    split at goes <;> cases goes <;> exact look _ rfl keeps trivial
  | pushWait v s c =>
    simp only [ageAfter, here]
    simp only [EliminationArray.step] at goes ⊢
    split at goes
    · next taken =>
      cases goes
      exact look _ rfl taken trivial
    · cases goes
      exact look _ rfl keeps trivial
  | pushFree v s c => cases goes
  | pushWithdraw v s c =>
    simp only [ageAfter, here]
    simp only [EliminationArray.step] at goes ⊢
    split at goes
    · cases goes
    · next lost =>
      rw [if_neg lost]
      split at goes
      · next taken =>
        cases goes
        rw [if_pos taken]
        exact look _ rfl taken trivial
      · cases goes
  | popProbe =>
    simp only [ageAfter, here]
    simp only [EliminationArray.step] at goes ⊢
    split at goes
    · next offered =>
      cases goes
      refine h.probe here rfl trivial ⟨h.index_lt _, offered, ?_, ?_⟩
      · exact (Nat.mod_eq_of_lt (stamp_lt _)).symm
      · intro _ claimed
        cases hasTag_unique offered claimed
    · cases goes
      exact h.probe here rfl trivial trivial
  | popRead s seen =>
    simp only [ageAfter, here]
    cases goes
    exact look _ rfl trivial ⟨sees, fun _ => rfl⟩
  | popTake s seen v =>
    simp only [ageAfter, here]
    simp only [EliminationArray.step] at goes ⊢
    split at goes
    · cases goes
    · next lost =>
      cases goes
      rw [if_neg lost]
      exact look _ rfl trivial trivial
  | popClock =>
    simp only [ageAfter, here]
    simp only [EliminationArray.step] at goes ⊢
    split at goes
    · cases goes
    · cases goes
      exact look _ rfl trivial trivial

theorem Sound.leave (h : Sound scene age) {a : Answer} (here : scene.label i = some l)
    (gives : (EliminationArray.step choice l scene.array).status = .returned a) :
    Sound ⟨(EliminationArray.step choice l scene.array).memory,
      Function.update scene.label i none⟩ (ageAfter scene i age) := by
  have keeps := h.keeps i l here
  have look : l.claim? = none → Sound ⟨scene.array, Function.update scene.label i none⟩ age := by
    intro unclaimed
    apply h.look (fun _ _ => rfl)
    · rw [here]
      exact unclaimed.symm
    · intro k hk
      cases hk
  have free : ∀ s c, l.claim? = some (s, c) →
      (scene.array.slot s).word.stamp = c.stamp →
      Sound ⟨scene.array.setWord s (c.withTag .free), Function.update scene.label i none⟩ age := by
    intro s c claim stamp
    have inside := (h.claims i l s c here claim).1
    have touch : Touches scene.array (scene.array.setWord s (c.withTag .free)) s 0 :=
      .retag inside nofun stamp
    apply h.work here claim touch
    · intro k hk
      cases hk
    · intro k hk
      cases hk
    · intro _
      rw [Memory.slot_setWord inside, if_pos rfl, hasTag_withTag]
  cases l with
  | pushClock v =>
    simp only [ageAfter, here]
    exact look rfl
  | pushFree v s c =>
    simp only [ageAfter, here]
    exact free s c rfl (by rw [show _ = c.withTag .taken from keeps, stamp_withTag])
  | pushWithdraw v s c =>
    simp only [ageAfter, here]
    simp only [EliminationArray.step] at gives ⊢
    split at gives
    · next met =>
      rw [if_pos met]
      exact free s c rfl (by rw [met, stamp_withTag])
    · next lost =>
      rw [if_neg lost]
      have taken : (scene.array.slot s).word = c.withTag .taken := keeps.2.resolve_left lost
      rw [if_pos taken] at gives
      cases gives
  | popTake s seen v =>
    simp only [ageAfter, here]
    simp only [EliminationArray.step] at gives ⊢
    split at gives
    · next met =>
      rw [if_pos met]
      exact h.take here met
    · cases gives
  | popClock =>
    simp only [ageAfter, here]
    exact look rfl
  | pushClaim v s seen =>
    simp only [EliminationArray.step] at gives
    split at gives <;> cases gives
  | _ => cases gives

theorem Sound.step (h : Sound scene age) {scene' : Scene} (turn : scene.Step i choice scene') :
    Sound scene' (ageAfter scene i age) := by
  cases turn with
  | rest outside =>
    rw [ageAfter, outside]
    exact h
  | enter c outside =>
    rw [ageAfter, outside]
    apply h.look (fun _ _ => rfl)
    · rw [outside]
      cases c <;> rfl
    · intro l hl
      cases hl
      cases c <;> exact ⟨trivial, trivial⟩
  | move l l' here goes => exact h.move here goes
  | leave l a here gives => exact h.leave here gives

def Wins (m : Memory) (l : Label) : Prop :=
  ∃ s seen v, l = .popTake s seen v ∧ (m.slot s).word = seen

/-- What a step shows to the thread that takes it: where it stands next or what it is answered, and the
events. A push is answered that it was eliminated exactly when its value is taken. -/
inductive Outcome (m : Memory) (l : Label) : Memory → Status Label Answer → List Event → Prop
  | goes (m' : Memory) (l' : Label) (taken : Taken m' l' ↔ Taken m l) (value : l'.value? = l.value?)
      (lost : ¬ Wins m l) : Outcome m l m' (.running l') []
  | eliminated (m' : Memory) (v : Value) (value : l.value? = some v) (taken : Taken m l) :
      Outcome m l m' (.returned (.pushed true)) [.pushEliminated v]
  | withdrawn (m' : Memory) (v : Value) (value : l.value? = some v) (untaken : ¬ Taken m l)
      (events : List Event) (silent : events = [] ∨ events = [.pushTimedOut v]) :
      Outcome m l m' (.returned (.pushed false)) events
  | missed (value : l.value? = none) (lost : ¬ Wins m l) : Outcome m l m (.returned (.popped none)) []
  | met (s : Nat) (seen : SlotWord) (v : Value) (at_take : l = .popTake s seen v)
      (met : (m.slot s).word = seen) :
      Outcome m l (m.setWord s (seen.withTag .taken)) (.returned (.popped (some v)))
        [.popEliminated v]

theorem not_wins_of_value {m : Memory} {v : Value} (h : l.value? = some v) : ¬ Wins m l := by
  intro ⟨s, seen, v', same, _⟩
  rw [same] at h
  cases h

theorem Outcome.of_push {m m' : Memory} {status : Status Label Answer} {events : List Event}
    {v : Value} (h : Outcome m l m' status events) (value : l.value? = some v) :
    (∃ l', status = .running l' ∧ (Taken m' l' ↔ Taken m l) ∧ l'.value? = some v) ∨
      (status = .returned (.pushed true) ∧ Taken m l) ∨
      (status = .returned (.pushed false) ∧ ¬ Taken m l) := by
  cases h with
  | goes _ l' taken same => exact .inl ⟨l', rfl, taken, same.trans value⟩
  | eliminated _ v' _ taken => exact .inr (.inl ⟨rfl, taken⟩)
  | withdrawn _ v' _ untaken => exact .inr (.inr ⟨rfl, untaken⟩)
  | missed none =>
    rw [value] at none
    cases none
  | met s seen v' at_take met => exact absurd ⟨s, seen, v', at_take, met⟩ (not_wins_of_value value)

theorem Outcome.of_pop {m m' : Memory} {status : Status Label Answer} {events : List Event}
    (h : Outcome m l m' status events) (value : l.value? = none) (lost : ¬ Wins m l) :
    (∃ l', status = .running l' ∧ l'.value? = none) ∨ status = .returned (.popped none) := by
  cases h with
  | goes _ l' taken same => exact .inl ⟨l', rfl, same.trans value⟩
  | eliminated _ v some =>
    rw [value] at some
    cases some
  | withdrawn _ v some =>
    rw [value] at some
    cases some
  | missed => exact .inr rfl
  | met s seen v at_take met => exact absurd ⟨s, seen, v, at_take, met⟩ lost

theorem Sound.outcome (h : Sound scene age) (here : scene.label i = some l) (choice : Choice) :
    Outcome scene.array l (EliminationArray.step choice l scene.array).memory
      (EliminationArray.step choice l scene.array).status
      (EliminationArray.step choice l scene.array).events := by
  have keeps := h.keeps i l here
  cases l with
  | pushProbe v =>
    simp only [EliminationArray.step]
    split
    · exact .goes _ _ Iff.rfl rfl (not_wins_of_value rfl)
    · exact .goes _ _ Iff.rfl rfl (not_wins_of_value rfl)
  | pushClaim v s seen =>
    simp only [EliminationArray.step]
    split
    · exact .goes _ _ Iff.rfl rfl (not_wins_of_value rfl)
    · exact .goes _ _ Iff.rfl rfl (not_wins_of_value rfl)
  | pushClock v =>
    simp only [EliminationArray.step]
    split
    · exact .withdrawn _ v rfl id _ (.inl rfl)
    · exact .goes _ _ Iff.rfl rfl (not_wins_of_value rfl)
  | pushWrite v s c => exact .goes _ _ Iff.rfl rfl (not_wins_of_value rfl)
  | pushOffer v s c =>
    have inside := (h.claims i _ s c here rfl).1
    refine .goes _ _ ?_ rfl (not_wins_of_value rfl)
    simp [EliminationArray.step, Taken, Memory.slot_setWord inside]
  | pushWaitClock v s c =>
    simp only [EliminationArray.step]
    split
    · exact .goes _ _ Iff.rfl rfl (not_wins_of_value rfl)
    · exact .goes _ _ Iff.rfl rfl (not_wins_of_value rfl)
  | pushWait v s c =>
    simp only [EliminationArray.step]
    split
    · exact .goes _ _ Iff.rfl rfl (not_wins_of_value rfl)
    · exact .goes _ _ Iff.rfl rfl (not_wins_of_value rfl)
  | pushFree v s c => exact .eliminated _ v rfl keeps
  | pushWithdraw v s c =>
    simp only [EliminationArray.step]
    split
    · next met =>
      apply Outcome.withdrawn _ v rfl _ _ (.inr rfl)
      rw [Taken, met, withTag_inj]
      nofun
    · next lost =>
      have taken : (scene.array.slot s).word = c.withTag .taken := keeps.2.resolve_left lost
      rw [if_pos taken]
      exact .goes _ _ Iff.rfl rfl (not_wins_of_value rfl)
  | popProbe =>
    simp only [EliminationArray.step]
    split
    · exact .goes _ _ Iff.rfl rfl (by nofun)
    · exact .goes _ _ Iff.rfl rfl (by nofun)
  | popRead s seen => exact .goes _ _ Iff.rfl rfl (by nofun)
  | popTake s seen v =>
    simp only [EliminationArray.step]
    split
    · next met => exact .met s seen v rfl met
    · next lost =>
      refine .goes _ _ Iff.rfl rfl ?_
      intro ⟨s', seen', v', same, met⟩
      cases same
      exact lost met
  | popClock =>
    simp only [EliminationArray.step]
    split
    · exact .missed rfl (by nofun)
    · exact .goes _ _ Iff.rfl rfl (by nofun)

theorem Sound.running (h : Sound scene age) (here : scene.label i = some l)
    (goes : (EliminationArray.step choice l scene.array).status = .running l') :
    (Taken (EliminationArray.step choice l scene.array).memory l' ↔ Taken scene.array l) ∧
      l'.value? = l.value? ∧ ¬ Wins scene.array l ∧
      (EliminationArray.step choice l scene.array).events = [] := by
  have outcome := h.outcome here choice
  rw [goes] at outcome
  generalize (EliminationArray.step choice l scene.array).memory = m' at outcome ⊢
  generalize (EliminationArray.step choice l scene.array).events = events at outcome ⊢
  cases outcome with
  | goes _ _ taken value lost => exact ⟨taken, value, lost, rfl⟩

/-- A step that takes no offer changes at most a slot that no other thread has claimed. -/
theorem Sound.apart (h : Sound scene age) (here : scene.label i = some l) (choice : Choice)
    (lost : ¬ Wins scene.array l) :
    ∃ s n, Touches scene.array (EliminationArray.step choice l scene.array).memory s n ∧
      ∀ j l' c, j ≠ i → scene.label j = some l' → l'.claim? ≠ some (s, c) := by
  have keeps := h.keeps i l here
  have unchanged : ∃ s n, Touches scene.array scene.array s n ∧
      ∀ j l' c, j ≠ i → scene.label j = some l' → l'.claim? ≠ some (s, c) := by
    refine ⟨scene.array.slots.size, 0, .refl _ _, ?_⟩
    intro j l' c _ hl claim
    exact Nat.lt_irrefl _ (h.claims j l' _ c hl claim).1
  have own : ∀ s c m', l.claim? = some (s, c) → Touches scene.array m' s 0 →
      ∃ s n, Touches scene.array m' s n ∧
        ∀ j l' c, j ≠ i → scene.label j = some l' → l'.claim? ≠ some (s, c) := by
    intro s c m' claim touch
    exact ⟨s, 0, touch, fun j l' c' hj hl => h.foreign here claim hj hl c'⟩
  cases l with
  | pushClaim v s seen =>
    simp only [EliminationArray.step]
    split
    · next met =>
      subst met
      obtain ⟨inside, free⟩ := h.sees i _ here
      exact ⟨s, 1, .claim inside, fun j l' c _ hl claim => h.not_free hl claim free⟩
    · exact unchanged
  | pushWrite v s c =>
    obtain ⟨inside, tag⟩ := h.claims i _ s c here rfl
    exact own s c _ rfl (.write inside (by rw [show _ = c from keeps]; exact tag) v)
  | pushOffer v s c =>
    have inside := (h.claims i _ s c here rfl).1
    exact own s c _ rfl (.retag inside (t := .offered) nofun (by rw [keeps.1]))
  | pushFree v s c =>
    have inside := (h.claims i _ s c here rfl).1
    have word : (scene.array.slot s).word = c.withTag .taken := keeps
    exact own s c _ rfl (.retag inside (t := .free) nofun (by rw [word, stamp_withTag]))
  | pushWithdraw v s c =>
    have inside := (h.claims i _ s c here rfl).1
    simp only [EliminationArray.step]
    split
    · next met =>
      exact own s c _ rfl (.retag inside (t := .free) nofun (by rw [met, stamp_withTag]))
    · split <;> exact unchanged
  | popTake s seen v =>
    simp only [EliminationArray.step]
    split
    · next met => exact absurd ⟨s, seen, v, rfl, met⟩ lost
    · exact unchanged
  | _ => exact unchanged

theorem Sound.spared (h : Sound scene age) (here : scene.label i = some l) (choice : Choice)
    (lost : ¬ Wins scene.array l) {j : Nat} (hj : j ≠ i) (hl : scene.label j = some l') :
    Taken (EliminationArray.step choice l scene.array).memory l' ↔ Taken scene.array l' := by
  obtain ⟨s, n, touch, apart⟩ := h.apart here choice lost
  exact taken_carry (apart j l' · hj hl) touch

/-- A step that takes an offer takes it from one push that waits, and takes the value of that push. -/
theorem Sound.met (h : Sound scene age) {seen : SlotWord} {v : Value}
    (here : scene.label i = some (.popTake s seen v)) (met : (scene.array.slot s).word = seen)
    (few : age i s < stamps) :
    ∃ j l c, j ≠ i ∧ scene.label j = some l ∧ Waits v s c l ∧ ¬ Taken scene.array l ∧
      Taken (scene.array.setWord s (seen.withTag .taken)) l ∧
      ∀ j' l', j' ≠ j → scene.label j' = some l' →
        (Taken (scene.array.setWord s (seen.withTag .taken)) l' ↔ Taken scene.array l') := by
  obtain ⟨since, value⟩ := h.sees i _ here
  have inside := since.inside
  have offered : (scene.array.slot s).word.hasTag .offered := by
    rw [met]
    exact since.offered
  have busy : ¬ (scene.array.slot s).word.hasTag .free := by
    intro free
    cases hasTag_unique free offered
  obtain ⟨j, l, c, hl, claim⟩ := h.held s inside busy
  obtain ⟨waits, word⟩ := h.offerer hl claim offered
  rw [value (since.met met few)] at waits
  have touch : Touches scene.array (scene.array.setWord s (seen.withTag .taken)) s 0 :=
    .retag inside nofun (by rw [met])
  refine ⟨j, l, c, ?_, hl, waits, ?_, ?_, ?_⟩
  · intro hj
    subst hj
    rw [here] at hl
    cases hl
    cases claim
  · rw [waits.taken_iff, word, withTag_inj]
    nofun
  · rw [waits.taken_iff, Memory.slot_setWord inside, if_pos rfl, ← met, word, withTag_withTag]
  · intro j' l' hj' hl'
    exact taken_carry (h.foreign hl claim hj' hl') touch

end Sound

section Run

/-- How often each slot was claimed since each thread last looked for an offer, in a run whose moments
show these scenes. -/
def claimsSince (scene : List (Turn Choice) → Scene) : List (Turn Choice) → Nat → Nat → Nat
  | [] => fun _ _ => 0
  | t :: earlier => ageAfter (scene earlier) t.thread (claimsSince scene earlier)

/-- Whenever a popper is about to take an offer, its slot was claimed less often since the popper saw
the offer than there are stamps. -/
def FewClaims (scene : List (Turn Choice) → Scene) (schedule : List (Turn Choice)) : Prop :=
  ∀ moment, moment <:+ schedule → ∀ i s seen v, (scene moment).label i = some (.popTake s seen v) →
    claimsSince scene moment i s < stamps

theorem FewClaims.earlier {scene : List (Turn Choice) → Scene} {t : Turn Choice}
    {earlier : List (Turn Choice)} (h : FewClaims scene (t :: earlier)) : FewClaims scene earlier :=
  fun moment suffix => h moment (suffix.trans (List.suffix_cons t earlier))

theorem ageAfter_le (scene : Scene) (i : Nat) (age : Nat → Nat → Nat) (j s : Nat) :
    ageAfter scene i age j s ≤ age j s + 1 := by
  unfold ageAfter
  cases scene.label i with
  | none => exact Nat.le_succ _
  | some l =>
    cases l with
    | popProbe =>
      by_cases hj : j = i
      · subst hj
        simp
      · simp [hj]
    | pushClaim v s' seen =>
      by_cases met : (scene.array.slot s').word = seen
      · by_cases hs : s = s' <;> simp [met, hs]
      · simp [met]
    | _ => exact Nat.le_succ _

/-- A turn makes one claim at most, so a run of fewer turns than there are stamps is harmless. -/
theorem FewClaims.of_length {schedule : List (Turn Choice)} (short : schedule.length < stamps)
    (scene : List (Turn Choice) → Scene) : FewClaims scene schedule := by
  have bound : ∀ (moment : List (Turn Choice)) i s, claimsSince scene moment i s ≤ moment.length := by
    intro moment i s
    induction moment with
    | nil => exact Nat.le_refl _
    | cons t earlier ih =>
      have step := ageAfter_le (scene earlier) t.thread (claimsSince scene earlier) i s
      rw [claimsSince, List.length_cons]
      omega
  intro moment suffix i s seen v _
  have counted := bound moment i s
  have shorter := suffix.length_le
  omega

theorem Sound.start {config : EliminationConfig} (slots : config.slots ≠ 0) (age : Nat → Nat → Nat) :
    Sound ⟨.ofConfig config, fun _ => none⟩ age := by
  have word : ∀ s, ((Memory.ofConfig config).slot s).word = 0 := by
    intro s
    by_cases hs : s < config.slots.toNat <;>
      simp [Memory.ofConfig, Memory.slot, Array.getD, hs]
  constructor
  · rw [Memory.ofConfig, Array.size_replicate]
    apply Nat.pos_of_ne_zero
    intro zero
    apply slots
    apply UInt64.toNat_inj.mp
    rw [zero, UInt64.toNat_zero]
  · intro i l s c here
    cases here
  · intro i l here
    cases here
  · intro i l here
    cases here
  · intro i j k l s c c' hk
    cases hk
  · intro s _ busy
    apply absurd _ busy
    rw [word, hasTag_iff]
    rfl

theorem Sound.run {scene : List (Turn Choice) → Scene} (start : Sound (scene []) fun _ _ => 0)
    (turns : ∀ t earlier, (scene earlier).Step t.thread t.choice (scene (t :: earlier)))
    (schedule : List (Turn Choice)) : Sound (scene schedule) (claimsSince scene schedule) := by
  induction schedule with
  | nil => exact start
  | cons t earlier ih => exact ih.step (turns t earlier)

end Run

end SharedMemory.EliminationArray
