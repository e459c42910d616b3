import SharedMemory.LockedStore
import SharedMemory.Proofs.AttemptLaw
import SharedMemory.Proofs.LockExclusion

/-!
# A store under a lock that excludes keeps the law of attempts

Of the lock nothing is used but that it excludes. A thread that holds it reads the store, writes what
the request makes of it, and leaves; between its read and its write nobody else writes.
-/
namespace SharedMemory.LockedStore

open AttemptStack

section Attempt

variable {LockMemory L Token : Type}

/-- The request that a thread attempts, and its place in the critical section. -/
def attempt? : Phase Value (SectionLabel L Token Store AttemptAnswer) →
    Option (Request × SectionLabel L Token Store AttemptAnswer)
  | .pushing v l => some (.insert v, l)
  | .popping l => some (.remove, l)
  | _ => none

def lockStage : SectionLabel L Token Store AttemptAnswer → Lock.Phase L Token
  | .entering l _ => .entering l
  | .inside token _ => .holding token
  | .leaving l _ => .leaving l

def lockPhase (p : Phase Value (SectionLabel L Token Store AttemptAnswer)) : Lock.Phase L Token :=
  match attempt? p with
  | some (_, l) => lockStage l
  | none => .outside

def served : Request → Store → Store × AttemptAnswer
  | .insert v, s => (s.insert .lifo v, .pushed)
  | .remove, s => (s.remove.2, .popped s.remove.1)

theorem served_eq (r : Request) (s : Store) :
    (served r s).2 = (respond r s.toList).1 ∧ (served r s).1.toList = (respond r s.toList).2 := by
  cases r with
  | insert v => exact ⟨rfl, Store.toList_insert .lifo v s⟩
  | remove =>
    obtain ⟨found, left⟩ := Prod.mk.inj (Store.remove_eq s)
    exact ⟨congrArg AttemptAnswer.popped found, left⟩

def fixed : SectionLabel L Token Store AttemptAnswer → Option AttemptAnswer
  | .inside _ (.leave a) | .leaving _ a => some a
  | _ => none

/-- The places of an attempt. What it is about to write is computed from the store as it is. -/
inductive Works (r : Request) (data : Store) : SectionLabel L Token Store AttemptAnswer → Prop
  | enters (l : L) : Works r data (.entering l (.update (served r)))
  | reads (token : Token) : Works r data (.inside token (.update (served r)))
  | writes (token : Token) :
      Works r data (.inside token (.write (served r data).1 (.leave (served r data).2)))
  | leaves (token : Token) (past : List Value) :
      Works r data (.inside token (.leave (respond r past).1))
  | returns (l : L) (past : List Value) : Works r data (.leaving l (respond r past).1)

structure Good (lock : Lock LockMemory L Token) (entry : L) (free : LockMemory)
    (phases : Nat → Phase Value (SectionLabel L Token Store AttemptAnswer))
    (m : Guarded LockMemory Store) (values : List Value) : Prop where
  lock : lock.Reaches entry free (lockPhase ∘ phases) m.lock
  values : m.data.toList = values
  works : ∀ i r l, attempt? (phases i) = some (r, l) → Works r m.data l

variable {lock : Lock LockMemory L Token} {entry : L} {free : LockMemory}
  {phases : Nat → Phase Value (SectionLabel L Token Store AttemptAnswer)}
  {m m' : Guarded LockMemory Store} {values values' : List Value} {i : Nat} {r : Request}
  {l : SectionLabel L Token Store AttemptAnswer}
  {p : Phase Value (SectionLabel L Token Store AttemptAnswer)}

theorem attemptStep_entering (lock : Lock LockMemory L Token) (l : L)
    (body : Section Store AttemptAnswer) (m : Guarded LockMemory Store) :
    attemptStep lock (.entering l body) m = (⟨(lock.step l m.lock).1, m.data⟩,
      match (lock.step l m.lock).2 with
      | .running l => .running (.entering l body)
      | .returned (.acquired token) => .running (.inside token body)
      | .returned _ => .returned .contended) := by
  cases hs : (lock.step l m.lock).2 with
  | running l' => simp [attemptStep, Lock.guardedStep, hs, Status.mapAnswer]
  | returned a => cases a <;> simp [attemptStep, Lock.guardedStep, hs, Status.mapAnswer]

theorem attemptStep_leaving (lock : Lock LockMemory L Token) (l : L) (a : AttemptAnswer)
    (m : Guarded LockMemory Store) :
    attemptStep lock (.leaving l a) m = (⟨(lock.step l m.lock).1, m.data⟩,
      match (lock.step l m.lock).2 with
      | .running l => .running (.leaving l a)
      | .returned _ => .returned a) := by
  cases hs : (lock.step l m.lock).2 <;>
    simp [attemptStep, Lock.guardedStep, hs, Status.mapAnswer]

theorem attemptStep_update (lock : Lock LockMemory L Token) (token : Token)
    (f : Store → Store × AttemptAnswer) (m : Guarded LockMemory Store) :
    attemptStep lock (.inside token (.update f)) m =
      (m, .running (.inside token (.write (f m.data).1 (.leave (f m.data).2)))) := rfl

theorem attemptStep_write (lock : Lock LockMemory L Token) (token : Token) (data : Store)
    (next : Section Store AttemptAnswer) (m : Guarded LockMemory Store) :
    attemptStep lock (.inside token (.write data next)) m =
      (⟨m.lock, data⟩, .running (.inside token next)) := rfl

theorem attemptStep_leave (lock : Lock LockMemory L Token) (token : Token) (a : AttemptAnswer)
    (m : Guarded LockMemory Store) :
    attemptStep lock (.inside token (.leave a)) m =
      (m, .running (.leaving (lock.release token) a)) := rfl

theorem lockPhase_of_attempt (h : attempt? p = some (r, l)) : lockPhase p = lockStage l := by
  rw [lockPhase, h]

theorem lockPhase_of_none (h : attempt? p = none) : lockPhase p = .outside := by
  rw [lockPhase, h]

theorem Good.advance (h : Good lock entry free phases m values)
    (reaches : lock.Reaches entry free
      (Function.update (lockPhase ∘ phases) i (lockPhase p)) m'.lock)
    (holds : m'.data.toList = values')
    (own : ∀ r l, attempt? p = some (r, l) → Works r m'.data l)
    (others : m'.data = m.data ∨ ∃ token, lockPhase (phases i) = .holding token)
    (excludes : lock.Excludes entry free) :
    Good lock entry free (Function.update phases i p) m' values' := by
  refine ⟨?_, holds, ?_⟩
  · rw [Function.comp_update]
    exact reaches
  · apply (Function.forall_update_iff phases fun _ q =>
      ∀ r l, attempt? q = some (r, l) → Works r m'.data l).mpr
    refine ⟨own, ?_⟩
    intro j hji r l hj
    have works := h.works j r l hj
    rcases others with same | ⟨token, mine⟩
    · rw [same]
      exact works
    · -- the thread that writes holds the lock, so no other one stands between its read and its write
      cases works with
      | enters l => exact .enters l
      | leaves token past => exact .leaves token past
      | returns l past => exact .returns l past
      | reads token => exact .reads token
      | writes token' =>
        have theirs : lockPhase (phases j) = .holding token' := lockPhase_of_attempt hj
        exact absurd (excludes _ _ h.lock j i token' token theirs mine) hji

theorem Good.same_stage (h : Good lock entry free phases m values)
    (same : lockPhase p = lockPhase (phases i)) :
    lock.Reaches entry free (Function.update (lockPhase ∘ phases) i (lockPhase p)) m.lock := by
  rw [same, ← Function.comp_update, Function.update_eq_self]
  exact h.lock

/-- A turn that leaves lock and store alone and keeps the thread where it stands with the lock. -/
theorem Good.look (h : Good lock entry free phases m values) (excludes : lock.Excludes entry free)
    (same : lockPhase p = lockPhase (phases i))
    (own : ∀ r l, attempt? p = some (r, l) → Works r m.data l) :
    Good lock entry free (Function.update phases i p) m values := by
  apply h.advance _ h.values own (.inl rfl) excludes
  exact h.same_stage same

theorem Good.rest (h : Good lock entry free phases m values) (excludes : lock.Excludes entry free)
    (outside : attempt? (phases i) = none) (outside' : attempt? p = none) :
    Good lock entry free (Function.update phases i p) m values := by
  apply h.look excludes
  · rw [lockPhase_of_none outside, lockPhase_of_none outside']
  · intro r l hp
    rw [outside'] at hp
    cases hp

theorem Good.begin (h : Good lock entry free phases m values) (excludes : lock.Excludes entry free)
    (outside : attempt? (phases i) = none)
    (at_entry : attempt? p = some (r, .entering entry (.update (served r)))) :
    Good lock entry free (Function.update phases i p) m values := by
  apply h.advance _ h.values _ (.inl rfl) excludes
  · rw [lockPhase_of_attempt at_entry]
    exact h.lock.enter i (lockPhase_of_none outside)
  · intro r' l' hp
    rw [at_entry] at hp
    cases hp
    exact .enters entry

/-- A step of an attempt. `after` says where the thread stands after it. -/
theorem Good.attempt (h : Good lock entry free phases m values) (excludes : lock.Excludes entry free)
    (here : attempt? (phases i) = some (r, l))
    (after : Status (SectionLabel L Token Store AttemptAnswer) AttemptAnswer →
      Phase Value (SectionLabel L Token Store AttemptAnswer))
    (goes : ∀ l', attempt? (after (.running l')) = some (r, l'))
    (returns : ∀ a, attempt? (after (.returned a)) = none) :
    ∃ values', Outcome fixed r l values (attemptStep lock l m).2 values' ∧
      Good lock entry free (Function.update phases i (after (attemptStep lock l m).2))
        (attemptStep lock l m).1 values' := by
  have works := h.works i r l here
  have stage : lockPhase (phases i) = lockStage l := lockPhase_of_attempt here
  have moved : ∀ l', Works r m.data l' → ∀ r' l'', attempt? (after (.running l')) = some (r', l'') →
      Works r' m.data l'' := by
    intro l' works' r' l'' hp
    rw [goes] at hp
    cases hp
    exact works'
  have left : ∀ a r' l'', attempt? (after (.returned a)) = some (r', l'') → Works r' m.data l'' := by
    intro a r' l'' hp
    rw [returns] at hp
    cases hp
  cases works with
  | enters l =>
    have reaches := h.lock.seek i l stage
    rw [attemptStep_entering]
    generalize lock.step l m.lock = stepped at reaches ⊢
    obtain ⟨lockMemory, s⟩ := stepped
    cases s with
    | running l' =>
      refine ⟨values, .goes _ rfl, h.advance ?_ h.values (moved _ (.enters l')) (.inl rfl) excludes⟩
      rw [lockPhase_of_attempt (goes _)]
      exact reaches
    | returned a =>
      cases a with
      | acquired token =>
        refine ⟨values, .goes _ rfl, h.advance ?_ h.values (moved _ (.reads token)) (.inl rfl) excludes⟩
        rw [lockPhase_of_attempt (goes _)]
        exact reaches
      | refused | released =>
        refine ⟨values, .refused rfl, h.advance ?_ h.values (left _) (.inl rfl) excludes⟩
        rw [lockPhase_of_none (returns _)]
        exact reaches
  | reads token =>
    rw [attemptStep_update]
    refine ⟨values, .goes _ rfl, h.look excludes ?_ (moved _ (.writes token))⟩
    rw [stage, lockPhase_of_attempt (goes _)]
    rfl
  | writes token =>
    obtain ⟨answer, written⟩ := served_eq r m.data
    rw [h.values] at answer written
    rw [attemptStep_write]
    refine ⟨(respond r values).2, .fixes _ rfl (congrArg some answer),
      h.advance ?_ written ?_ (.inr ⟨token, stage⟩) excludes⟩
    · apply h.same_stage
      rw [stage, lockPhase_of_attempt (goes _)]
      rfl
    · intro r' l' hp
      rw [goes, answer] at hp
      cases hp
      exact .leaves token values
  | leaves token past =>
    have given_back := moved _ (.returns (lock.release token) past)
    rw [attemptStep_leave]
    refine ⟨values, .goes _ rfl, h.advance ?_ h.values given_back (.inl rfl) excludes⟩
    rw [lockPhase_of_attempt (goes _)]
    exact h.lock.release i token stage
  | returns l past =>
    have reaches := h.lock.leave i l stage
    rw [attemptStep_leaving]
    generalize lock.step l m.lock = stepped at reaches ⊢
    obtain ⟨lockMemory, s⟩ := stepped
    cases s with
    | running l' =>
      have on_the_way := moved _ (.returns l' past)
      refine ⟨values, .goes _ rfl, h.advance ?_ h.values on_the_way (.inl rfl) excludes⟩
      rw [lockPhase_of_attempt (goes _)]
      exact reaches
    | returned a =>
      refine ⟨values, .done past rfl, h.advance ?_ h.values (left _) (.inl rfl) excludes⟩
      rw [lockPhase_of_none (returns _)]
      exact reaches

/-- An attempt takes effect when it writes. -/
def law (acquire : L) (excludes : lock.Excludes entry free) :
    Law (attemptsUnder lock acquire entry) where
  start := ⟨free, {}⟩
  fixed := fixed
  Good := Good lock entry free
  good_start := by
    refine ⟨.start, rfl, ?_⟩
    intro i r l here
    cases here
  prepare v h here := by
    refine ⟨rfl, h.rest excludes ?_ rfl⟩
    rw [here]
    rfl
  discard h here := by
    apply h.rest excludes _ rfl
    rw [here]
    rfl
  push {phases m values i item} h here := by
    refine ⟨rfl, h.begin excludes ?_ (r := .insert item) rfl⟩
    rw [here]
    rfl
  pop h here := by
    refine ⟨rfl, h.begin excludes ?_ (r := .remove) rfl⟩
    rw [here]
    rfl
  pushing {phases m values i item l} h here := by
    apply h.attempt excludes _ (.afterPush item)
    · exact fun _ => rfl
    · intro a
      cases a <;> rfl
    · rw [here]
      rfl
  popping h here := by
    apply h.attempt excludes _ .afterPop
    · exact fun _ => rfl
    · exact fun _ => rfl
    · rw [here]
      rfl

end Attempt

end SharedMemory.LockedStore
