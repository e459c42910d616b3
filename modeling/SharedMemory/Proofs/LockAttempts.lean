import SharedMemory.Proofs.MixedExclusion

/-!
# Single attempts at a lock

A lock can be attempted if a thread that moves alone gets it whenever nobody has it, and if that stays so
between the steps of one attempt unless somebody takes the lock meanwhile. So an attempt can be refused
only if somebody had the lock at some moment of it. With a ticket lock somebody has it from the draw of a
ticket on.
-/
namespace SharedMemory

namespace Lock

variable {Memory Label Token : Type}

/-- A thread that moves alone gets the lock. -/
def Gets (lock : Lock Memory Label Token) (l : Label) (m : Memory) : Prop :=
  ∃ n token, (lock.advance n l m).2 = .returned (.acquired token)

def users (n : Nat) (acquire entry : Label) (i : Nat) : List Label :=
  if i < n then [acquire, entry] else []

abbrev used (lock : Lock Memory Label Token) (acquire entry : Label) (free : Memory) (n : Nat)
    (actions : List (Action Nat)) : Scene Nat Memory Label Token :=
  Scene.after lock (users n acquire entry) free actions

/-- What single attempts at a lock rely on. `Tries` are the labels of an attempt, `Has` says who has the
lock, and `Timely` what is asked of a run of `n` users. -/
structure Attemptable (lock : Lock Memory Label Token) (acquire entry : Label) (free : Memory)
    (Tries : Label → Prop) (Has : Phase Label Token → Prop)
    (Timely : Nat → List (Taken Nat Memory Label) → Prop) : Prop where
  begins : Tries entry
  goes : ∀ l m l', Tries l → (lock.step l m).2 = .running l' → Tries l'
  outside : ¬ Has .outside
  trying : ∀ l, Tries l → ¬ Has (.entering l)
  earlier : ∀ n record record', record <:+ record' → Timely n record' → Timely n record
  exclusive : ∀ n actions, Timely n (used lock acquire entry free n actions).record →
    (used lock acquire entry free n actions).Exclusive
  unowned : ∀ n actions, Timely n (used lock acquire entry free n actions).record →
    (∀ i, ¬ Has ((used lock acquire entry free n actions).phases i)) →
      lock.Gets entry (used lock acquire entry free n actions).memory
  kept : ∀ n actions s', Timely n s'.record →
    (used lock acquire entry free n actions).Next lock (users n acquire entry) s' →
      (∀ i, ¬ Has (s'.phases i)) → ∀ l, Tries l → l ≠ entry →
        lock.Gets l (used lock acquire entry free n actions).memory → lock.Gets l s'.memory
  released : ∀ token m, ∃ a, (lock.step (lock.release token) m).2 = .returned a

section Gets

variable {lock : Lock Memory Label Token} {l : Label} {m : Memory}

theorem Gets.step (h : lock.Gets l m) :
    (∃ token, (lock.step l m).2 = .returned (.acquired token)) ∨
      ∃ l', (lock.step l m).2 = .running l' ∧ lock.Gets l' (lock.step l m).1 := by
  obtain ⟨n, token, gets⟩ := h
  cases n with
  | zero => cases gets
  | succ n =>
    rw [advance] at gets
    generalize lock.step l m = stepped at gets ⊢
    obtain ⟨m', s⟩ := stepped
    cases s with
    | running l' => exact .inr ⟨l', rfl, n, token, gets⟩
    | returned a => exact .inl ⟨token, gets⟩

theorem Gets.of_step {token : Token} (acquires : (lock.step l m).2 = .returned (.acquired token)) :
    lock.Gets l m := by
  refine ⟨1, token, ?_⟩
  rw [advance]
  generalize lock.step l m = stepped at acquires ⊢
  obtain ⟨m', s⟩ := stepped
  cases acquires
  rfl

theorem Scene.Next.mono {entrances entrances' : Nat → List Label} {s s' : Scene Nat Memory Label Token}
    (h : s.Next lock entrances s') (sub : ∀ i, entrances i ⊆ entrances' i) : s.Next lock entrances' s' := by
  cases h with
  | rest => exact .rest
  | enter i l here entrance => exact .enter i l here (sub i entrance)
  | giveUp i token here => exact .giveUp i token here
  | seek i l here => exact .seek i l here
  | leave i l here => exact .leave i l here

theorem users_subset (n : Nat) (acquire entry : Label) (i : Nat) :
    users n acquire entry i ⊆ [acquire, entry] := by
  unfold users
  split
  · exact List.Subset.refl _
  · exact List.nil_subset _

theorem exists_run (lock : Lock Memory Label Token) (acquire entry : Label) (free : Memory) (n : Nat)
    (actions : List (Action Nat)) :
    ∃ actions', Scene.after lock (fun _ => [acquire, entry]) free actions' =
      used lock acquire entry free n actions := by
  induction actions with
  | nil => exact ⟨[], rfl⟩
  | cons a earlier ih =>
    have next : (used lock acquire entry free n earlier).Next lock (users n acquire entry)
        (used lock acquire entry free n (a :: earlier)) := Scene.act_next _ a
    exact Scene.exists_after ih (next.mono (users_subset n acquire entry))

end Gets

section Once

variable {lock : Lock Memory Label Token} {acquire attempt : Label} {free : Memory}

/-- A lock that excludes, and whose attempts answer at once, and refuse only while somebody has the lock,
can be attempted. -/
theorem attemptable_of_once
    (excludes : ∀ actions, (Scene.after lock (fun _ => [acquire, attempt]) free actions).Exclusive)
    (once : ∀ m l', (lock.step attempt m).2 ≠ .running l')
    (succeeds : ∀ actions : List (Action Nat),
      (∀ i, ¬ ((Scene.after lock (fun _ => [acquire, attempt]) free actions).phases i).owns) →
        ∃ token, (lock.step attempt (Scene.after lock (fun _ => [acquire, attempt]) free actions).memory).2 =
          .returned (.acquired token))
    (releases : ∀ token m, ∃ a, (lock.step (lock.release token) m).2 = .returned a) :
    Attemptable lock acquire attempt free (· = attempt) Phase.owns fun _ _ => True where
  begins := rfl
  goes l m l' tries goes := by
    subst tries
    exact absurd goes (once m l')
  outside := id
  trying _ _ := id
  earlier _ _ _ _ _ := trivial
  exclusive n actions _ := by
    obtain ⟨actions', same⟩ := exists_run lock acquire attempt free n actions
    exact same ▸ excludes actions'
  unowned n actions _ nobody := by
    obtain ⟨actions', same⟩ := exists_run lock acquire attempt free n actions
    rw [← same] at nobody ⊢
    obtain ⟨token, acquires⟩ := succeeds actions' nobody
    exact .of_step acquires
  kept n actions s' _ _ _ l tries other := absurd tries other
  released := releases

end Once

section Flag

variable {lock : Lock Bool Label Token} {Seeks Tries : Label → Prop} {acquire entry : Label}

/-- The flag is up only while a thread owns it. -/
theorem Flag.down_of_unowned (flag : Flag lock Seeks) {entrances : Nat → List Label}
    (first : ∀ i, ∀ l ∈ entrances i, Seeks l) (actions : List (Action Nat))
    (nobody : ∀ i, ¬ ((Scene.after lock entrances false actions).phases i).owns) :
    (Scene.after lock entrances false actions).memory = false := by
  have raised : Owned lock Seeks (Scene.after lock entrances false actions).phases
        (Scene.after lock entrances false actions).memory ∧
      ((Scene.after lock entrances false actions).memory = true →
        ∃ i, ((Scene.after lock entrances false actions).phases i).owns) := by
    apply Scene.after_invariant (I := fun s => Owned lock Seeks s.phases s.memory ∧
      (s.memory = true → ∃ i, (s.phases i).owns))
    · exact ⟨⟨nofun, nofun, nofun, nofun⟩, nofun⟩
    · rintro s s' ⟨owned, up⟩ next
      -- an owner that does not move is one still
      have stays (i : Nat) (p : Phase Label Token) (idle : ¬ (s.phases i).owns) (locked : s.memory = true) :
          ∃ j, (Function.update s.phases i p j).owns := by
        obtain ⟨j, owns⟩ := up locked
        have other : j ≠ i := by
          rintro rfl
          exact idle owns
        exact ⟨j, by rwa [Function.update_of_ne other]⟩
      cases next with
      | rest => exact ⟨owned, up⟩
      | enter i l here entrance =>
        exact ⟨owned.enter (first i l entrance), stays i _ (by rw [here]; exact id)⟩
      | giveUp i token here =>
        exact ⟨owned.giveUp here, fun _ => ⟨i, by simp [Scene.place, Phase.owns]⟩⟩
      | seek i l here =>
        refine ⟨flag.seek_owned owned here, fun locked => ?_⟩
        rcases flag.seek l (owned.seeks i l here) s.memory with ⟨same, _⟩ | ⟨_, token, taken⟩
        · exact stays i _ (by rw [here]; exact id) (same ▸ locked)
        · exact ⟨i, by simp [Scene.take, taken, Phase.afterEnter, Phase.owns]⟩
      | leave i l here =>
        refine ⟨flag.leave_owned owned here, fun locked => ?_⟩
        obtain ⟨token, same⟩ := owned.leaves i l here
        simp [Scene.take, same, flag.clear] at locked
  by_contra up
  obtain ⟨i, owns⟩ := raised.2 (by simpa using up)
  exact nobody i owns

theorem Flag.attemptable (flag : Flag lock Seeks) (first : ∀ l ∈ [acquire, entry], Seeks l)
    (begins : Tries entry) (goes : ∀ l m l', Tries l → (lock.step l m).2 = .running l' → Tries l')
    (gets : ∀ l, Tries l → lock.Gets l false) :
    Attemptable lock acquire entry false Tries Phase.owns fun _ _ => True := by
  have down (n : Nat) (actions : List (Action Nat))
      (nobody : ∀ i, ¬ ((used lock acquire entry false n actions).phases i).owns) :
      (used lock acquire entry false n actions).memory = false :=
    flag.down_of_unowned (fun i l mem => first l (users_subset n acquire entry i mem)) actions nobody
  refine ⟨begins, goes, id, fun _ _ => id, fun _ _ _ _ _ => trivial, ?_, ?_, ?_, ?_⟩
  · intro n actions _
    obtain ⟨actions', same⟩ := exists_run lock acquire entry false n actions
    exact same ▸ flag.exclusive first actions'
  · intro n actions _ nobody
    rw [down n actions nobody]
    exact gets entry begins
  · intro n actions s' _ next nobody l tries _ _
    obtain ⟨actions', rfl⟩ := Scene.exists_after ⟨actions, rfl⟩ next
    rw [down n actions' nobody]
    exact gets l tries
  · intro token m
    exact ⟨.released, by rw [flag.clear]⟩

end Flag

end Lock

open Lock (Scene Taken Action Phase)

namespace TestAndSet

theorem attemptable : lock.Attemptable .seize .attempt false (· = .attempt) Phase.owns fun _ _ => True := by
  refine flag_of_both.attemptable (by decide) rfl ?_ ?_
  · rintro l locked l' rfl goes
    cases locked <;> cases goes
  · rintro l rfl
    exact ⟨1, (), rfl⟩

end TestAndSet

namespace TestThenSet

theorem attemptable :
    lock.Attemptable .watch .peek false (fun l => l = .peek ∨ l = .attempt) Phase.owns
      fun _ _ => True := by
  refine flag_of_both.attemptable (by decide) (.inl rfl) ?_ ?_
  · rintro l locked l' (rfl | rfl) goes
    · cases locked <;> cases goes
      exact .inr rfl
    · cases locked <;> cases goes
  · rintro l (rfl | rfl)
    · exact ⟨2, (), rfl⟩
    · exact ⟨1, (), rfl⟩

end TestThenSet

namespace TicketLock

open Lock (used users)

/-- The user has a ticket that it has not given back. -/
def HasTicket (p : Phase Label UInt64) : Prop := (ticket? p).isSome

/-- There are fewer users than tickets, and not all tickets are drawn between the look and the draw of an
attempt. -/
def Timely (n : Nat) (record : List (Taken Nat Memory Label)) : Prop :=
  n < 2 ^ 64 ∧ FewDrawn (2 ^ 64 - n) record

section Kept

variable {n : Nat} {actions : List (Action Nat)}

theorem atMost_users (n : Nat) (acquire entry : Label) : AtMost n (users n acquire entry) := by
  intro list distinct entrances
  have sub : list ⊆ List.range n := by
    intro i mem
    by_contra beyond
    refine entrances i mem (if_neg ?_)
    rwa [List.mem_range] at beyond
  simpa using (distinct.subperm sub).length_le

theorem exists_kept_of_timely (timely : Timely n (used lock .draw .look {} n actions).record) :
    ∃ line, Kept (used lock .draw .look {} n actions).phases (used lock .draw .look {} n actions).memory
      (used lock .draw .look {} n actions).record line :=
  (kept_of_timely (atMost_users n Label.draw .look) (Lock.users_subset n Label.draw .look) timely.1 actions
    timely.2).1

/-- While nobody has a ticket the counters are equal. -/
theorem Kept.counters_eq {phases : Nat → Phase Label UInt64} {m : Memory}
    {record : List (Taken Nat Memory Label)} {line : List (Nat × UInt64)} (h : Kept phases m record line)
    (nobody : ∀ i, ¬ HasTicket (phases i)) : m.nextTicket = m.nowServing := by
  cases line with
  | nil => rw [h.next, h.serving, h.draws, List.append_nil]
  | cons p line =>
    have has := (h.member p.1 p.2).mp List.mem_cons_self
    exact absurd (by rw [HasTicket, has]; rfl) (nobody p.1)

theorem next_kept {s : Scene Nat Memory Label UInt64} {line : List (Nat × UInt64)}
    (h : Kept s.phases s.memory s.record line) {s' : Scene Nat Memory Label UInt64}
    {entrances : Nat → List Label} (next : s.Next lock entrances s')
    (nobody : ∀ i, ¬ HasTicket (s'.phases i)) : s'.memory.nextTicket = s.memory.nextTicket := by
  have drew (i : Nat) (p : Phase Label UInt64) (has : HasTicket p)
      (none_has : ∀ j, ¬ HasTicket (Function.update s.phases i p j)) : False := by
    apply none_has i
    rwa [Function.update_self]
  cases next with
  | rest | enter | giveUp => rfl
  | seek i l here =>
    cases l with
    | draw =>
      have has : HasTicket (.entering (.wait s.memory.nextTicket)) := rfl
      exact (drew i _ has nobody).elim
    | attempt serving =>
      by_cases same : s.memory.nextTicket = serving
      · refine (drew i _ ?_ nobody).elim
        simp [lock, step, same, Phase.afterEnter, HasTicket, ticket?]
      · simp [Scene.take, lock, step, same]
    | wait | look | pass => rfl
  | leave i l here =>
    have proper := h.proper i
    rw [here] at proper
    cases l with
    | pass => rfl
    | draw | wait | look | attempt => exact absurd proper id

theorem gets_attempt {serving : UInt64} {m : Memory} :
    lock.Gets (.attempt serving) m ↔ m.nextTicket = serving := by
  constructor
  · intro gets
    by_contra other
    rcases gets.step with ⟨token, acquires⟩ | ⟨l', goes, _⟩
    · simp [lock, step, other] at acquires
    · simp [lock, step, other] at goes
  · intro same
    exact ⟨1, serving, by simp [Lock.advance, lock, step, same]⟩

theorem attemptable :
    lock.Attemptable .draw .look {} (fun l => l = .look ∨ ∃ serving, l = .attempt serving) HasTicket
      Timely where
  begins := .inl rfl
  goes l m l' tries goes := by
    rcases tries with rfl | ⟨serving, rfl⟩
    · cases goes
      exact .inr ⟨_, rfl⟩
    · simp only [lock, step] at goes
      split at goes <;> cases goes
  outside has := Bool.false_ne_true has
  trying l tries has := by
    rcases tries with rfl | ⟨serving, rfl⟩ <;> exact Bool.false_ne_true has
  earlier n record record' suffix timely := ⟨timely.1, timely.2.earlier suffix⟩
  exclusive n actions timely := by
    obtain ⟨line, kept⟩ := exists_kept_of_timely timely
    intro i j t u hi hj
    exact kept.alone (t := t) (u := u) (by rw [hi]; rfl) (by rw [hj]; rfl)
  unowned n actions timely nobody := by
    obtain ⟨line, kept⟩ := exists_kept_of_timely timely
    have same := kept.counters_eq nobody
    generalize (used lock .draw .look {} n actions).memory = m at same
    exact ⟨2, m.nowServing, by simp [Lock.advance, lock, step, same]⟩
  kept n actions s' timely next nobody l tries other gets := by
    obtain ⟨line, kept⟩ :=
      exists_kept_of_timely ⟨timely.1, timely.2.earlier (Scene.record_suffix next)⟩
    obtain ⟨serving, rfl⟩ := tries.resolve_left other
    rw [gets_attempt] at gets ⊢
    exact (next_kept kept next nobody).trans gets
  released token m := ⟨.released, rfl⟩

end Kept

end TicketLock

namespace LockKind

def Tries : (kind : LockKind) → kind.Label → Prop
  | .testAndSet, l | .blocking, l => l = TestAndSet.Label.attempt
  | .testThenSet, l => l = TestThenSet.Label.peek ∨ l = TestThenSet.Label.attempt
  | .ticket, l => l = TicketLock.Label.look ∨ ∃ serving, l = TicketLock.Label.attempt serving
  | .queue, _ => False

def Has : (kind : LockKind) → Phase kind.Label kind.Token → Prop
  | .ticket, p => TicketLock.HasTicket p
  | .testAndSet, p | .testThenSet, p | .queue, p | .blocking, p => p.owns

/-- Tickets come round only after all of them have been drawn. -/
def Timely : (kind : LockKind) → Nat → List (Taken Nat kind.Memory kind.Label) → Prop
  | .ticket, n, record => TicketLock.Timely n record
  | _, _, _ => True

theorem attemptable (kind : LockKind) {entry : kind.Label} (attempt : kind.attempt? = some entry) :
    kind.lock.Attemptable kind.acquire entry kind.free kind.Tries kind.Has kind.Timely := by
  cases kind with
  | testAndSet | blocking =>
    cases attempt
    exact TestAndSet.attemptable
  | testThenSet =>
    cases attempt
    exact TestThenSet.attemptable
  | ticket =>
    cases attempt
    exact TicketLock.attemptable
  | queue => cases attempt

end LockKind

end SharedMemory
