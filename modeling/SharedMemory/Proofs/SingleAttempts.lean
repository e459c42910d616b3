import SharedMemory.Proofs.LockedAttempts
import SharedMemory.Proofs.SoloTurns
import SharedMemory.Proofs.TreiberInterchange

/-!
# Single attempts are atomic and fail only on interference

This holds of the lock-free stack, and of a store under any lock that can be attempted. A blocking lock is
not looked into: it is any lock that has one holder at most, whose attempts answer at once and refuse only
while somebody has it. A ticket lock is one only as long as its counters do not come round during an attempt.
-/
namespace SharedMemory

open Lock (Scene Phase)

namespace LockedStore

/-- With the locks there are, these are the operations of the container. -/
theorem shared_kind (kind : LockKind) (entry : kind.Label) :
    shared kind.lock kind.acquire entry = (attempts kind entry).retrying.beside (algorithm kind .lifo) := rfl

end LockedStore

/-- Whatever other threads do, an attempt that is refused has had no effect, and another thread has
interfered; its request is as good as a new one. Any other attempt acts at one moment. -/
theorem single_attempts_atomic {Memory Label Token : Type} (mutex : Lock Memory Label Token) (free : Memory)
    (acquire attempt : Label)
    (excludes : ∀ actions, (Scene.after mutex (fun _ => [acquire, attempt]) free actions).Exclusive)
    (once : ∀ m l, (mutex.step attempt m).2 ≠ .running l)
    (succeeds : ∀ actions : List (Lock.Action Nat),
      (∀ i, ¬ ((Scene.after mutex (fun _ => [acquire, attempt]) free actions).phases i).owns) →
        ∃ token, (mutex.step attempt (Scene.after mutex (fun _ => [acquire, attempt]) free actions).memory).2 =
          .returned (.acquired token))
    (releases : ∀ token m, ∃ a, (mutex.step (mutex.release token) m).2 = .returned a) :
    (∀ programs schedule, TreiberStack.owning programs schedule →
        TreiberStack.Attempted programs schedule ∧ TreiberStack.Interchangeable programs schedule) ∧
      (∀ (kind : LockKind) (entry : kind.Label), kind.attempt? = some entry → ∀ programs schedule,
        kind.Timely programs.length
            (LockedStore.lockSteps kind.lock kind.acquire entry kind.free programs schedule) →
          LockedStore.Attempted kind.lock kind.acquire entry kind.free kind.Has programs schedule) ∧
      ∀ programs schedule, LockedStore.Attempted mutex acquire attempt free Phase.owns programs schedule := by
  refine ⟨fun programs schedule own => ?_, fun kind entry single programs schedule timely => ?_,
    fun programs schedule => ?_⟩
  · exact ⟨TreiberStack.attempted own, TreiberStack.interchangeable own⟩
  · exact LockedStore.attempted (kind.attemptable single) timely
  · exact LockedStore.attempted (Lock.attemptable_of_once excludes once succeeds releases) trivial

/-- Thread 1 looks at a ticket lock that is free, and is refused because thread 0 has drawn a ticket since. -/
def overtaken : List (Turn Unit) := ([1, 1, 0, 0, 1].map fun i => ⟨i, ()⟩).reverse

abbrev overtakers : List (List (AttemptStack.Call Value ⊕ LockedStore.Call)) :=
  [[.inr (.request (.insert 1))], [.inl (.attemptPush 2)]]

example :
    (LockedStore.after TicketLock.lock .draw .look {} overtakers overtaken).answers 1 =
      [.inl (.handedBack 2)] := rfl

theorem attempts_atomic_over_flag :
    (∀ actions, (Scene.after TestAndSet.lock (fun _ => [.seize, .attempt]) false actions).Exclusive) ∧
      (∀ m l, (TestAndSet.lock.step .attempt m).2 ≠ .running l) ∧
      (∀ actions : List (Lock.Action Nat),
        (∀ i, ¬ ((Scene.after TestAndSet.lock (fun _ => [.seize, .attempt]) false actions).phases i).owns) →
          ∃ token, (TestAndSet.lock.step .attempt
            (Scene.after TestAndSet.lock (fun _ => [.seize, .attempt]) false actions).memory).2 =
              .returned (.acquired token)) ∧
      (∀ token m, ∃ a, (TestAndSet.lock.step (TestAndSet.lock.release token) m).2 = .returned a) ∧
      TreiberStack.owning TreiberStack.disturbedPrograms TreiberStack.disturbedPush ∧
      TicketLock.Timely 2 (LockedStore.lockSteps TicketLock.lock .draw .look {} overtakers overtaken) ∧
      (TreiberStack.Attempted TreiberStack.disturbedPrograms TreiberStack.disturbedPush ∧
        TreiberStack.Interchangeable TreiberStack.disturbedPrograms TreiberStack.disturbedPush) ∧
      LockedStore.Attempted TicketLock.lock .draw .look {} TicketLock.HasTicket overtakers overtaken ∧
      LockedStore.Attempted TestAndSet.lock .seize .attempt false Phase.owns overtakers overtaken := by
  have seeks : ∀ l ∈ [TestAndSet.Label.seize, .attempt], l ≠ .clear := by decide
  have excludes := TestAndSet.flag_of_both.exclusive seeks
  have once (m : Bool) (l : TestAndSet.Label) : (TestAndSet.lock.step .attempt m).2 ≠ .running l := by
    cases m <;> nofun
  have succeeds (actions : List (Lock.Action Nat))
      (nobody : ∀ i, ¬ ((Scene.after TestAndSet.lock (fun _ => [.seize, .attempt]) false actions).phases
        i).owns) :
      ∃ token, (TestAndSet.lock.step .attempt
        (Scene.after TestAndSet.lock (fun _ => [.seize, .attempt]) false actions).memory).2 =
          .returned (.acquired token) := by
    rw [TestAndSet.flag_of_both.down_of_unowned (fun _ => seeks) actions nobody]
    exact ⟨(), rfl⟩
  have releases (token : Unit) (m : Bool) :
      ∃ a, (TestAndSet.lock.step (TestAndSet.lock.release token) m).2 = .returned a := ⟨.released, rfl⟩
  have own : TreiberStack.owning TreiberStack.disturbedPrograms TreiberStack.disturbedPush := by decide
  have timely : TicketLock.Timely 2
      (LockedStore.lockSteps TicketLock.lock .draw .look {} overtakers overtaken) :=
    ⟨by decide, .of_length (by decide)⟩
  obtain ⟨lockFree, kinds, blocking⟩ :=
    single_attempts_atomic TestAndSet.lock false .seize .attempt excludes once succeeds releases
  exact ⟨excludes, once, succeeds, releases, own, timely, lockFree _ _ own,
    kinds .ticket .look rfl overtakers overtaken timely, blocking overtakers overtaken⟩

namespace LockedStore

section Wrap

variable {schedule : List (Turn Unit)} {n k : Nat} {t serving next : UInt64}

abbrev counters (serving next : UInt64) : Guarded TicketLock.Memory Store := ⟨⟨serving, next⟩, {}⟩

abbrev wrapping (n : Nat) : List (List (AttemptStack.Call Value ⊕ Call)) :=
  [List.replicate n (.inr (.request .remove)), [.inl .attemptPop, .inl .attemptPop]]

abbrev wrapped (n : Nat) (schedule : List (Turn Unit)) :
    View (Guarded TicketLock.Memory Store) (Spot TicketLock.Label UInt64)
      (AttemptStack.Answer Value ⊕ Option Answer) :=
  after TicketLock.lock .draw .look {} (wrapping n) schedule

theorem shows_drawn (h : (wrapped n schedule).Shows 0 (counters t t) none k) (calls : k < n) :
    (wrapped n (List.replicate 3 ⟨0, ()⟩ ++ schedule)).Shows 0 (counters t (t + 1))
      (some (.inr (.inside t (body .lifo (.request .remove))))) k := by
  have next : (callsOf (wrapping n) 0)[k]? = some (.inr (.request .remove)) := by
    simp [callsOf, calls]
  have drawn : (wrapped n (⟨0, ()⟩ :: ⟨0, ()⟩ :: schedule)).Shows 0 (counters t (t + 1))
      (some (.inr (.entering (.wait t) (body .lifo (.request .remove))))) k :=
    Algorithm.shows_move (Algorithm.shows_enter h next ()) rfl
  have served : (shared TicketLock.lock .draw .look).step ()
        (.inr (.entering (.wait t) (body .lifo (.request .remove)))) (counters t (t + 1)) =
      ⟨counters t (t + 1), .running (.inr (.inside t (body .lifo (.request .remove)))), []⟩ := by
    simp [shared, Algorithm.beside, Algorithm.via, Lock.guarding, Lock.guardedStep, TicketLock.lock,
      TicketLock.step, Status.map, Status.mapAnswer]
  exact Algorithm.shows_move drawn served

theorem shows_passed (h : (wrapped n schedule).Shows 0 (counters serving next)
      (some (.inr (.inside t (body .lifo (.request .remove))))) k) :
    (wrapped n (List.replicate 4 ⟨0, ()⟩ ++ schedule)).Shows 0 (counters (t + 1) next) none (k + 1) := by
  have run : (shared TicketLock.lock .draw .look).advance (fun _ _ => ()) 3
        ⟨counters serving next, .running (.inr (.inside t (body .lifo (.request .remove)))), []⟩ =
      ⟨counters serving next, .running (.inr (.leaving (.pass t) (.found none))), []⟩ := rfl
  exact (Algorithm.answer_given (Algorithm.shows_advance h run) rfl).1

/-- A round of the counters, one call after the other. -/
theorem shows_calls (h : (wrapped n schedule).Shows 0 (counters 0 0) none 0) (calls : k ≤ n) :
    (wrapped n (List.replicate (7 * k) ⟨0, ()⟩ ++ schedule)).Shows 0
      (counters (UInt64.ofNat k) (UInt64.ofNat k)) none k := by
  induction k with
  | zero => exact h
  | succ k ih =>
    have passed := shows_passed (shows_drawn (ih (Nat.le_of_succ_le calls)) calls)
    have turns : 7 * (k + 1) = 4 + (3 + 7 * k) := by omega
    rw [turns, List.replicate_add, List.replicate_add, List.append_assoc, List.append_assoc,
      UInt64.ofNat_add]
    exact passed

theorem shows_looked (h : (wrapped n schedule).Shows 1 (counters serving next) none k) (calls : k < 2) :
    (wrapped n (List.replicate 2 ⟨1, ()⟩ ++ schedule)).Shows 1 (counters serving next)
      (some (.inl (.popping false (.entering (.attempt serving) removeSection)))) k := by
  have call : (callsOf (wrapping n) 1)[k]? = some (.inl .attemptPop) := by
    match k, calls with
    | 0, _ | 1, _ => rfl
  exact Algorithm.shows_move (Algorithm.shows_enter h call ()) rfl

theorem shows_popped (h : (wrapped n schedule).Shows 1 (counters serving 0)
      (some (.inl (.popping false (.entering (.attempt 0) removeSection)))) 0) :
    (wrapped n (List.replicate 5 ⟨1, ()⟩ ++ schedule)).Shows 1 (counters 1 1) none 1 := by
  have run : (shared TicketLock.lock .draw .look).advance (fun _ _ => ()) 4
        ⟨counters serving 0, .running (.inl (.popping false (.entering (.attempt 0) removeSection))), []⟩ =
      ⟨counters serving 1, .running (.inl (.popping false (.leaving (.pass 0) (.popped none)))), []⟩ := rfl
  exact (Algorithm.answer_given (Algorithm.shows_advance h run) rfl).1

theorem answer_refused (h : (wrapped n schedule).Shows 1 (counters 0 1) none 1) :
    (wrapped n (List.replicate 3 ⟨1, ()⟩ ++ schedule)).answer? ⟨1, 1⟩ = some (.inl .interfered) :=
  (Algorithm.answer_given (shows_looked h Nat.one_lt_two) rfl).2

/-- Thread 1 looks which ticket is served, thread 0 makes `n` calls and gets the lock once more, thread 1
goes on with its attempt, and then both leave. -/
def stale (n : Nat) : List (Turn Unit) :=
  List.replicate 4 ⟨0, ()⟩ ++ (List.replicate 5 ⟨1, ()⟩ ++
    (List.replicate (3 + 7 * n) ⟨0, ()⟩ ++ List.replicate 2 ⟨1, ()⟩))

/-- The counters of a lock that nobody has are apart for ever. -/
theorem shows_stale (round : n + 1 = 2 ^ 64) :
    (wrapped (n + 1) (stale n)).Shows 0 (counters 0 1) none (n + 1) ∧
      (wrapped (n + 1) (stale n)).Shows 1 (counters 0 1) none 1 := by
  have wraps : UInt64.ofNat n + 1 = 0 := by
    have succ := UInt64.ofNat_add n 1
    rw [round] at succ
    exact succ.symm
  have start := Algorithm.shows_start (shared TicketLock.lock .draw .look) ⟨{}, {}⟩ (wrapping (n + 1))
  have looked := shows_looked (start 1) Nat.two_pos
  have idle := Algorithm.shows_meanwhile (start 0) Nat.zero_ne_one looked
  rw [List.append_nil] at looked idle
  have drawn := shows_drawn (shows_calls idle (Nat.le_succ n)) (Nat.lt_succ_self n)
  rw [wraps, ← List.append_assoc, ← List.replicate_add] at drawn
  have popped := shows_popped (Algorithm.shows_meanwhile looked Nat.one_ne_zero drawn)
  have passed := shows_passed (Algorithm.shows_meanwhile drawn Nat.zero_ne_one popped)
  rw [wraps] at passed
  exact ⟨passed, Algorithm.shows_meanwhile popped Nat.one_ne_zero passed⟩

/-- With 2^64 tickets drawn during an attempt two threads have the lock at once, and from then on attempts
are refused while nobody has a ticket. -/
theorem attempts_refused_after_wrap :
    ¬ Attempted TicketLock.lock .draw .look {} TicketLock.HasTicket (wrapping (2 ^ 64))
      (stale (2 ^ 64 - 1)) := by
  obtain ⟨n, round⟩ : ∃ n, n + 1 = 2 ^ 64 := ⟨_, Nat.succ_pred_eq_of_pos (Nat.two_pow_pos 64)⟩
  rw [← round, Nat.add_sub_cancel]
  obtain ⟨first, second⟩ := shows_stale round
  intro attempted
  have nobody (j : Nat) : ¬ TicketLock.HasTicket (stage ((wrapped (n + 1) (stale n)).label j)) := by
    have outside : (wrapped (n + 1) (stale n)).label j = none := by
      match j with
      | 0 => exact first.label
      | 1 => exact second.label
      | j + 2 =>
        rw [Option.eq_none_iff_forall_ne_some]
        intro l here
        obtain ⟨c, call, _⟩ := called here
        cases call
    rw [outside]
    exact Bool.false_ne_true
  have now : (wrapped (n + 1) (stale n)).current 1 = ⟨1, 1⟩ := by rw [View.current, second.made]
  obtain ⟨turns, ⟨b, answered, served⟩, _⟩ :=
    attempted.alone 1 .attemptPop .remove second.label (by rw [now]; rfl) rfl nobody
  rw [now] at answered
  -- the answer stays, so it is the one that the third turn gives
  have later {k : Nat} (le : k ≤ turns + 3) : List.replicate k (⟨1, ()⟩ : Turn Unit) ++ stale n <:+
      List.replicate (turns + 3) ⟨1, ()⟩ ++ stale n := by
    obtain ⟨more, same⟩ := Nat.exists_eq_add_of_le' le
    rw [same, List.replicate_add, List.append_assoc]
    exact List.suffix_append _ _
  have refused := answer?_of_suffix (later (Nat.le_add_left 3 turns)) (answer_refused second)
  cases refused.symm.trans (answer?_of_suffix (later (Nat.le_add_right turns 3)) answered)
  cases served

end Wrap

end LockedStore

end SharedMemory
