import SharedMemory.Proofs.LockedSections

/-!
# Single attempts at a store under a lock

An attempt that is served acts on the store at one of its steps, and one that is refused does not. It is
refused only if another thread had the lock, or a ticket for it, at a moment between its accesses. So an
attempt is served if nobody has the lock and nobody interferes.
-/
namespace SharedMemory.LockedStore

open AttemptStack (Position respond)
open Lock (Scene Taken Phase Attemptable sectionPhase lockStep? used users)

variable {LockMemory L Token : Type}

section Run

variable {lock : Lock LockMemory L Token} {acquire entry : L} {free : LockMemory} {Tries : L → Prop}
  {Has : Phase L Token → Prop} {Timely : Nat → List (Taken Nat LockMemory L) → Prop}
  {programs : List (List (AttemptStack.Call Value ⊕ Call))} {t : Turn Unit}
  {moment earlier schedule : List (Turn Unit)} {i : Nat} {o : Operation} {l : Spot L Token}

theorem lockSteps_suffix (suffix : moment <:+ schedule) :
    lockSteps lock acquire entry free programs moment <:+
      lockSteps lock acquire entry free programs schedule :=
  Turn.later (P := fun later => lockSteps lock acquire entry free programs moment <:+
      lockSteps lock acquire entry free programs later)
    (fun _ _ steps => steps.trans (List.suffix_append _ _)) suffix List.suffix_rfl

theorem doing_enter (c : AttemptStack.Call Value ⊕ Call) (data : Store) :
    Doing ((shared lock acquire entry).enter c) data := by
  rcases c with c | c
  · intro body k works
    cases c <;> cases works <;> exact .enters _
  · exact ⟨_, simple_body c, .enters acquire⟩

/-- While the lock excludes, the threads are users of it, and go on with their sections. -/
theorem going (h : Attemptable lock acquire entry free Tries Has Timely)
    (timely : Timely programs.length (lockSteps lock acquire entry free programs schedule)) :
    (∃ actions, used lock acquire entry free programs.length actions =
        scene lock acquire entry free programs schedule) ∧
      Going (after lock acquire entry free programs schedule) := by
  induction schedule with
  | nil =>
    have start : scene lock acquire entry free programs [] = ⟨free, fun _ => .outside, []⟩ := by
      simp only [scene, Algorithm.viewAfter_nil]
      rfl
    refine ⟨⟨[], start.symm⟩, fun i l here => ?_⟩
    simp [Algorithm.viewAfter_nil, View.start] at here
  | cons t earlier ih =>
    have before := h.earlier _ _ _ (lockSteps_suffix (List.suffix_cons t earlier)) timely
    obtain ⟨run, going⟩ := ih before
    obtain ⟨s, next, rest⟩ := scene_turn going t
    have moved := Scene.exists_after run next
    constructor
    · rcases rest with same | ⟨out, tries, again⟩
      · rwa [same]
      · rw [again]
        exact Scene.exists_after moved (.enter _ entry out tries)
    · have step := turn lock acquire entry free programs t earlier
      rcases step.rest_or_enter_or_take with ⟨_, hv⟩ | ⟨c, _, _, hv⟩ | ⟨l, here, _⟩
      · rw [hv]
        exact going
      · rw [hv]
        intro j k at_k
        rw [View.label_enter] at at_k
        by_cases same : j = t.thread
        · rw [same, Function.update_self] at at_k
          cases at_k
          exact doing_enter c _
        · rw [Function.update_of_ne same] at at_k
          exact going j k at_k
      · have stepped := (going t.thread l here).step lock acquire entry
        have hv := after_take here
        intro j k at_k
        rw [hv, View.memory_take]
        rw [hv, View.label_take] at at_k
        by_cases same : j = t.thread
        · rw [same, Function.update_self] at at_k
          cases status : ((shared lock acquire entry).step t.choice l
              (after lock acquire entry free programs earlier).memory).status with
          | returned a =>
            rw [status] at at_k
            cases at_k
          | running l' =>
            rw [status] at at_k
            cases at_k
            exact (stepped.goes k status).1
        · rw [Function.update_of_ne same] at at_k
          have theirs := going j k at_k
          by_cases holding : ∃ token, stage (some l) = .holding token
          · obtain ⟨token, mine⟩ := holding
            obtain ⟨actions, run⟩ := run
            have alone := h.exclusive programs.length actions (run ▸ before)
            rw [run] at alone
            refine theirs.elsewhere fun token' other => same ?_
            exact alone j t.thread token' token ((congrArg stage at_k).trans other)
              ((congrArg stage here).trans mine)
          · rw [stepped.still fun token mine => holding ⟨token, mine⟩]
            exact theirs

theorem settles (h : Attemptable lock acquire entry free Tries Has Timely)
    (timely : Timely programs.length (lockSteps lock acquire entry free programs schedule)) :
    (shared lock acquire entry).Settles ⟨free, {}⟩ programs Guarded.data settled told schedule where
  enter c := by
    rcases c with c | c
    · cases c <;> rfl
    · rfl
  goes t moment l l' suffix here goes := by
    have before := (List.suffix_cons t moment).trans suffix
    have doing := (going h (h.earlier _ _ _ (lockSteps_suffix before) timely)).2 t.thread l here
    have stepped := doing.step lock acquire entry
    have memory : (after lock acquire entry free programs (t :: moment)).memory =
        ((shared lock acquire entry).step t.choice l
          (after lock acquire entry free programs moment).memory).memory := by
      rw [after_take here, View.memory_take]
    rw [Algorithm.Settling, Algorithm.Still, memory]
    exact (stepped.goes l' goes).2
  gives t moment l c a suffix here call gives := by
    have before := (List.suffix_cons t moment).trans suffix
    have doing := (going h (h.earlier _ _ _ (lockSteps_suffix before) timely)).2 t.thread l here
    have stepped := doing.step lock acquire entry
    have memory : (after lock acquire entry free programs (t :: moment)).memory =
        ((shared lock acquire entry).step t.choice l
          (after lock acquire entry free programs moment).memory).memory := by
      rw [after_take here, View.memory_take]
    obtain ⟨c', call', asks⟩ := called here
    cases call.symm.trans call'
    rw [Algorithm.Settling, Algorithm.Still, memory]
    exact .inl (stepped.gives c a asks gives)

/-- The lock's code that a thread is in within a single attempt. -/
def tries? : Spot L Token → Option L
  | .inl (.pushing _ false (.entering l _)) | .inl (.popping false (.entering l _)) => some l
  | _ => none

/-- The single attempts, and what they ask for. -/
def request? : AttemptStack.Call Value → Option Request
  | .attemptPush v => some (.insert v)
  | .attemptPop => some .remove
  | _ => none

theorem stage_tries {k : L} (trying : tries? l = some k) : stage (some l) = .entering k := by
  unfold tries? at trying
  split at trying
  · cases trying
    rfl
  · cases trying
    rfl
  · cases trying

theorem entering_step {m : Guarded LockMemory Store} {k : Place L Token} {l' : L}
    {body : Section Store AttemptAnswer}
    (goes : (lock.guardedStep k m).status = .running (.entering l' body)) :
    ∃ l, k = .entering l body ∧ (lock.step l m.lock).2 = .running l' := by
  cases k with
  | entering l body' =>
    simp only [Lock.guardedStep] at goes
    split at goes
    · next status =>
      cases goes
      exact ⟨l, rfl, status⟩
    · cases goes
    · cases goes
  | inside token body' => cases body' <;> cases goes
  | leaving l a =>
    simp only [Lock.guardedStep] at goes
    split at goes <;> cases goes

theorem tries_step {m : Guarded LockMemory Store} {l' : Spot L Token} {k' : L}
    (goes : ((shared lock acquire entry).step () l m).status = .running l') (trying : tries? l' = some k') :
    ∃ k, tries? l = some k ∧ (lock.step k m.lock).2 = .running k' ∧
      ((shared lock acquire entry).step () l m).memory.lock = (lock.step k m.lock).1 := by
  rcases l with p | k
  swap
  · change (((lock.guardedStep k m).status.mapAnswer id).map Sum.inr Sum.inr :
      Status (Spot L Token) (AttemptStack.Answer Value ⊕ Option Answer)) = _ at goes
    cases status : (lock.guardedStep k m).status <;> rw [status] at goes <;> cases goes
    cases trying
  change (((attemptsUnder lock acquire entry).retryStep p m).status.map Sum.inl Sum.inl :
    Status (Spot L Token) (AttemptStack.Answer Value ⊕ Option Answer)) = _ at goes
  cases retry : ((attemptsUnder lock acquire entry).retryStep p m).status with
  | returned a =>
    rw [retry] at goes
    cases goes
  | running p' =>
    rw [retry] at goes
    cases goes
    cases p with
    | prepare v again =>
      cases again <;> cases retry
      cases trying
    | looking k =>
      simp only [AttemptStack.retryStep] at retry
      split at retry <;> cases retry
      cases trying
    | pushing v again k | popping again k =>
      simp only [AttemptStack.retryStep, attemptsUnder, attemptStep] at retry
      cases status : (lock.guardedStep k m).status with
      | returned found =>
        rw [status] at retry
        rcases found with _ | (_ | _ | _ | _) <;> cases again <;> cases retry <;> cases trying
      | running place =>
        rw [status] at retry
        cases retry
        cases again with
        | true => cases trying
        | false =>
          cases place with
          | inside | leaving => cases trying
          | entering l' body =>
            cases trying
            obtain ⟨l, rfl, step⟩ := entering_step status
            exact ⟨l, rfl, step, rfl⟩

/-- Another thread has had the lock since the first access of the operation. -/
def Met (lock : Lock LockMemory L Token) (acquire entry : L) (free : LockMemory) (Has : Phase L Token → Prop)
    (programs : List (List (AttemptStack.Call Value ⊕ Call))) (schedule : List (Turn Unit))
    (o : Operation) : Prop :=
  ∃ t first moment j, (shared lock acquire entry).Access ⟨free, {}⟩ programs schedule o t first ∧
    first <:+ moment ∧ moment <:+ schedule ∧ j ≠ o.thread ∧
      Has (stage ((after lock acquire entry free programs moment).label j))

/-- Another thread had the lock at a moment between two accesses of the operation. -/
def Contended (lock : Lock LockMemory L Token) (acquire entry : L) (free : LockMemory)
    (Has : Phase L Token → Prop) (programs : List (List (AttemptStack.Call Value ⊕ Call)))
    (schedule : List (Turn Unit)) (o : Operation) : Prop :=
  ∃ moment j, (shared lock acquire entry).Within ⟨free, {}⟩ programs schedule o moment ∧ j ≠ o.thread ∧
    Has (stage ((after lock acquire entry free programs moment).label j))

theorem Met.later (h : Met lock acquire entry free Has programs earlier o) :
    Met lock acquire entry free Has programs (t :: earlier) o := by
  obtain ⟨t', first, moment, j, access, since, until_now, other, has⟩ := h
  exact ⟨t', first, moment, j, access.later, since, until_now.trans (List.suffix_cons t earlier), other, has⟩

theorem Contended.later (h : Contended lock acquire entry free Has programs earlier o) :
    Contended lock acquire entry free Has programs (t :: earlier) o := by
  obtain ⟨moment, j, ⟨⟨t', first, access, since⟩, ⟨t'', last, access', till⟩⟩, other, has⟩ := h
  exact ⟨moment, j, ⟨⟨t', first, access.later, since⟩, ⟨t'', last, access'.later, till⟩⟩, other, has⟩

variable (Has) in
theorem nobody_or (here : (after lock acquire entry free programs schedule).label i = some l)
    (quiet : ¬ Has (stage (some l))) :
    (∀ j, ¬ Has ((scene lock acquire entry free programs schedule).phases j)) ∨
      ∃ j, j ≠ i ∧ Has (stage ((after lock acquire entry free programs schedule).label j)) := by
  by_cases somebody : ∃ j, Has ((scene lock acquire entry free programs schedule).phases j)
  · obtain ⟨j, has⟩ := somebody
    refine .inr ⟨j, ?_, has⟩
    rintro rfl
    exact quiet (by rw [← here]; exact has)
  · exact .inl fun j has => somebody ⟨j, has⟩

/-- A turn after which nobody has the lock takes it from nobody who is about to get it. -/
theorem gets_kept (h : Attemptable lock acquire entry free Tries Has Timely)
    (timely : Timely programs.length (lockSteps lock acquire entry free programs (t :: earlier)))
    (nobody : ∀ j, ¬ Has ((scene lock acquire entry free programs (t :: earlier)).phases j)) {k : L}
    (tries : Tries k) (inside : k ≠ entry)
    (gets : lock.Gets k (after lock acquire entry free programs earlier).memory.lock) :
    lock.Gets k (after lock acquire entry free programs (t :: earlier)).memory.lock := by
  have before := h.earlier _ _ _ (lockSteps_suffix (List.suffix_cons t earlier)) timely
  obtain ⟨⟨actions, run⟩, going⟩ := going h before
  obtain ⟨s, next, rest⟩ := scene_turn going t
  rw [← run] at next
  have kept (quiet : ∀ j, ¬ Has (s.phases j)) (roomy : Timely programs.length s.record) :
      lock.Gets k s.memory := by
    refine h.kept programs.length actions s roomy next quiet k tries inside ?_
    rw [run]
    exact gets
  rcases rest with same | ⟨out, _, again⟩
  · have now := kept (same ▸ nobody) (same ▸ timely)
    rwa [← same] at now
  · have record : s.record = lockSteps lock acquire entry free programs (t :: earlier) :=
      (congrArg Scene.record again).symm
    have now := kept ?_ (record ▸ timely)
    · rwa [show s.memory = _ from (congrArg Scene.memory again).symm] at now
    · intro j has
      by_cases same : j = t.thread
      · rw [same, out] at has
        exact h.outside has
      · refine nobody j ?_
        rw [again]
        exact (congrArg Has (Function.update_of_ne same _ _)).mpr has

/-- A thread in an attempt gets the lock if it goes on alone, unless another one has had the lock since the
attempt began. -/
theorem tries_after (h : Attemptable lock acquire entry free Tries Has Timely)
    (timely : Timely programs.length (lockSteps lock acquire entry free programs schedule)) {k : L}
    (here : (after lock acquire entry free programs schedule).label i = some l) (trying : tries? l = some k) :
    Tries k ∧ (k = entry ∨
      (∃ t first, (shared lock acquire entry).Access ⟨free, {}⟩ programs schedule
        ((after lock acquire entry free programs schedule).current i) t first) ∧
          lock.Gets k (after lock acquire entry free programs schedule).memory.lock ∨
      Met lock acquire entry free Has programs schedule
        ((after lock acquire entry free programs schedule).current i)) := by
  induction schedule generalizing i l k with
  | nil => simp [Algorithm.viewAfter_nil, View.start] at here
  | cons t earlier ih =>
    have before := h.earlier _ _ _ (lockSteps_suffix (List.suffix_cons t earlier)) timely
    have step := turn lock acquire entry free programs t earlier
    by_cases same : i = t.thread
    · subst same
      rcases step.rest_or_enter_or_take with ⟨outside, hv⟩ | ⟨c, _, _, hv⟩ | ⟨l₀, at_l₀, _⟩
      · rw [hv, outside] at here
        cases here
      · rw [hv, View.label_enter, Function.update_self] at here
        cases here
        have first : k = entry := by
          rcases c with c | c
          · cases c <;> cases trying <;> rfl
          · cases trying
        exact ⟨first ▸ h.begins, .inl first⟩
      · have hv := after_take at_l₀
        cases status : ((shared lock acquire entry).step t.choice l₀
            (after lock acquire entry free programs earlier).memory).status with
        | returned a =>
          rw [hv, View.label_take, status, Function.update_self] at here
          cases here
        | running l' =>
          rw [View.take_running status] at hv
          rw [hv, View.label_move, Function.update_self] at here
          cases here
          have current : (after lock acquire entry free programs (t :: earlier)).current t.thread =
              (after lock acquire entry free programs earlier).current t.thread := by rw [hv]; rfl
          obtain ⟨k₀, trying₀, goes, memory⟩ := tries_step status trying
          have now : (after lock acquire entry free programs (t :: earlier)).memory.lock =
              (lock.step k₀ (after lock acquire entry free programs earlier).memory.lock).1 := by
            rw [hv, View.memory_move]
            exact memory
          obtain ⟨tries, so_far⟩ := ih before at_l₀ trying₀
          have access : (shared lock acquire entry).Access ⟨free, {}⟩ programs (t :: earlier)
              ((after lock acquire entry free programs earlier).current t.thread) t earlier :=
            ⟨⟨List.suffix_rfl, rfl⟩, by rw [at_l₀]; rfl⟩
          have gets (gets₀ : lock.Gets k₀ (after lock acquire entry free programs earlier).memory.lock) :
              lock.Gets k (after lock acquire entry free programs (t :: earlier)).memory.lock := by
            rcases gets₀.step with ⟨token, acquires⟩ | ⟨k', goes', gets'⟩
            · cases goes.symm.trans acquires
            · cases goes.symm.trans goes'
              rw [now]
              exact gets'
          refine ⟨h.goes _ _ _ tries goes, .inr ?_⟩
          rw [current]
          rcases so_far with rfl | ⟨_, gets₀⟩ | met
          · rcases nobody_or Has at_l₀ (stage_tries trying₀ ▸ h.trying _ tries) with
              nobody | ⟨j, other, has⟩
            · obtain ⟨⟨actions, run⟩, _⟩ := going h before
              have free := h.unowned programs.length actions (run ▸ before) (run ▸ nobody)
              rw [run] at free
              exact .inl ⟨⟨t, earlier, access⟩, gets free⟩
            · exact .inr ⟨t, earlier, earlier, j, access, List.suffix_rfl, List.suffix_cons t earlier, other,
                has⟩
          · exact .inl ⟨⟨t, earlier, access⟩, gets gets₀⟩
          · exact .inr met.later
    · obtain ⟨label, current⟩ := step.others same
      have at_l := label.symm.trans here
      rw [current]
      obtain ⟨tries, so_far⟩ := ih before at_l trying
      refine ⟨tries, ?_⟩
      rcases so_far with first | ⟨⟨t', first, access⟩, gets⟩ | met
      · exact .inl first
      · by_cases inside : k = entry
        · exact .inl inside
        rcases nobody_or Has here (stage_tries trying ▸ h.trying _ tries) with
          nobody | ⟨j, other, has⟩
        · exact .inr (.inl ⟨⟨t', first, access.later⟩, gets_kept h timely nobody tries inside gets⟩)
        · refine .inr (.inr ⟨t', first, t :: earlier, j, access.later, ?_, List.suffix_rfl, other, has⟩)
          exact (List.suffix_cons t' first).trans (access.suffix.trans (List.suffix_cons t earlier))
      · exact .inr (.inr met.later)

theorem refused_step {m : Guarded LockMemory Store} {c : AttemptStack.Call Value} {r : Request}
    {a : AttemptStack.Answer Value} (single : request? c = some r) (asks : Asks (.inl c) l)
    (doing : Doing l m.data) (gives : ((shared lock acquire entry).step () l m).status = .returned (.inl a))
    (refused : plain? a = none) :
    ∃ k b, tries? l = some k ∧ (lock.step k m.lock).2 = .returned b ∧ ∀ token, b ≠ .acquired token := by
  rcases l with p | k
  swap
  · exact absurd asks id
  obtain rfl : asked p = c := asks
  obtain ⟨body, k, works, trying⟩ : ∃ body k, work? p = some (body, k) ∧
      ∀ l b, k = .entering l b → tries? (.inl p : Spot L Token) = some l := by
    cases p with
    | prepare v again => cases again <;> cases single
    | looking k => cases single
    | pushing v again k | popping again k =>
      cases again with
      | true => cases single
      | false =>
        refine ⟨_, k, rfl, ?_⟩
        rintro l b rfl
        rfl
  have at_work := doing body k works
  obtain ⟨returns, step⟩ := step_attempt lock acquire entry works at_work
  rw [step] at gives
  cases status : (lock.guardedStep k m).status with
  | running k' =>
    rw [status] at gives
    cases gives
  | returned found =>
    rw [status] at gives
    rcases resume_returned entry works fun a gave =>
      at_work.fits works ((returns found status).symm.trans gave) with ⟨_, p', again, _⟩ | ⟨b, answered, plain⟩
    · simp only [again, Status.map] at gives
      cases gives
    · simp only [answered, Status.map] at gives
      cases gives
      obtain rfl : found = none := plain.symm.trans refused
      cases k with
      | entering l body' =>
        refine ⟨l, ?_⟩
        simp only [Lock.guardedStep] at status
        split at status
        · cases status
        · cases status
        · next b other returned => exact ⟨b, trying l body' rfl, returned, fun token same => other token same⟩
      | inside token body' => cases body' <;> cases status
      | leaving l b => cases returns none status

theorem contended_of_refused (h : Attemptable lock acquire entry free Tries Has Timely)
    (timely : Timely programs.length (lockSteps lock acquire entry free programs schedule))
    {c : AttemptStack.Call Value} {r : Request} {a : AttemptStack.Answer Value}
    (call : o.call? programs = some (.inl c)) (single : request? c = some r)
    (gave : (after lock acquire entry free programs schedule).answer? o = some (.inl a))
    (refused : plain? a = none) : Contended lock acquire entry free Has programs schedule o := by
  induction schedule with
  | nil => simp [Algorithm.viewAfter_nil, View.start, View.answer?] at gave
  | cons t earlier ih =>
    have before := h.earlier _ _ _ (lockSteps_suffix (List.suffix_cons t earlier)) timely
    rcases (turn lock acquire entry free programs t earlier).answer? gave with old | ⟨rfl, l, here, gives⟩
    · exact (ih before old).later
    · obtain ⟨c', call', asks⟩ := called here
      cases call.symm.trans call'
      obtain ⟨⟨actions, run⟩, going⟩ := going h before
      obtain ⟨k, b, trying, returned, none_acquired⟩ :=
        refused_step single asks (going t.thread l here) gives refused
      have access : (shared lock acquire entry).Access ⟨free, {}⟩ programs (t :: earlier)
          ((after lock acquire entry free programs earlier).current t.thread) t earlier :=
        ⟨⟨List.suffix_rfl, rfl⟩, by rw [here]; rfl⟩
      have missed (gets : lock.Gets k (after lock acquire entry free programs earlier).memory.lock) : False := by
        rcases gets.step with ⟨token, acquires⟩ | ⟨l', goes, _⟩
        · cases returned.symm.trans acquires
          exact none_acquired token rfl
        · cases returned.symm.trans goes
      obtain ⟨tries, so_far⟩ := tries_after h before here trying
      rcases so_far with rfl | ⟨_, gets⟩ | ⟨t', first, moment, j, access', since, until_now, other, has⟩
      · rcases nobody_or Has here (stage_tries trying ▸ h.trying _ tries) with
          nobody | ⟨j, other, has⟩
        · have free := h.unowned programs.length actions (run ▸ before) (run ▸ nobody)
          rw [run] at free
          exact (missed free).elim
        · exact ⟨earlier, j, ⟨⟨t, earlier, access, List.suffix_rfl⟩, ⟨t, earlier, access, List.suffix_rfl⟩⟩,
            other, has⟩
      · exact (missed gets).elim
      · exact ⟨moment, j, ⟨⟨t', first, access'.later, since⟩, ⟨t, earlier, access, until_now⟩⟩, other, has⟩

section Alone

variable {p : Position Value (Place L Token)} {body : Section Store AttemptAnswer} {k k' : Place L Token}

theorem solo_goes (here : (after lock acquire entry free programs schedule).label i = some (.inl p))
    (works : work? p = some (body, k))
    (at_work : AtWork body (after lock acquire entry free programs schedule).memory.data k)
    (goes : (lock.guardedStep k (after lock acquire entry free programs schedule).memory).status =
      .running k') :
    let later := after lock acquire entry free programs (⟨i, ()⟩ :: schedule)
    later.label i = some (.inl (goTo k' p)) ∧
      later.memory =
        (lock.guardedStep k (after lock acquire entry free programs schedule).memory).memory ∧
      later.current i = (after lock acquire entry free programs schedule).current i := by
  have hv := after_take (t := ⟨i, ()⟩) here
  rw [(step_attempt lock acquire entry works at_work).2, goes] at hv
  rw [View.take_running rfl] at hv
  rw [hv]
  exact ⟨Function.update_self _ _ _, rfl, rfl⟩

theorem solo_answers (here : (after lock acquire entry free programs schedule).label i = some (.inl p))
    (works : work? p = some (body, k))
    (at_work : AtWork body (after lock acquire entry free programs schedule).memory.data k)
    {a : AttemptAnswer}
    (gives : (lock.guardedStep k (after lock acquire entry free programs schedule).memory).status =
      .returned (some a)) :
    let later := after lock acquire entry free programs (⟨i, ()⟩ :: schedule)
    (∃ b, later.answer? ((after lock acquire entry free programs schedule).current i) = some (.inl b) ∧
        plain? b = some a) ∧
      later.memory =
        (lock.guardedStep k (after lock acquire entry free programs schedule).memory).memory := by
  obtain ⟨returns, step⟩ := step_attempt lock acquire entry works at_work
  have hv := after_take (t := ⟨i, ()⟩) here
  rw [step, gives] at hv
  rcases resume_returned entry works fun a gave =>
    at_work.fits works ((returns _ gives).symm.trans gave) with ⟨none_found, _⟩ | ⟨b, answered, plain⟩
  · cases none_found
  · rw [answered, View.take_returned rfl] at hv
    rw [hv]
    exact ⟨⟨b, View.answer?_answer _ _ _ _ _, plain⟩, rfl⟩

theorem solo_enters {n : Nat} {l : L} {token : Token}
    (here : (after lock acquire entry free programs schedule).label i = some (.inl p))
    (works : work? p = some (body, .entering l body))
    (gets : (lock.advance n l (after lock acquire entry free programs schedule).memory.lock).2 =
      .returned (.acquired token)) :
    ∃ n p', let later := after lock acquire entry free programs (List.replicate n ⟨i, ()⟩ ++ schedule)
      later.label i = some (.inl p') ∧ work? p' = some (body, .inside token body) ∧
        later.memory.data = (after lock acquire entry free programs schedule).memory.data ∧
        later.current i = (after lock acquire entry free programs schedule).current i := by
  induction n generalizing l p schedule with
  | zero => cases gets
  | succ n ih =>
    have entering : AtWork body (after lock acquire entry free programs schedule).memory.data
        (.entering l body : Place L Token) := .enters l
    rw [Lock.advance] at gets
    cases status : (lock.step l (after lock acquire entry free programs schedule).memory.lock).2 with
    | returned a =>
      rw [show lock.step l (after lock acquire entry free programs schedule).memory.lock =
        (_, .returned a) from Prod.ext rfl status] at gets
      cases gets
      have goes : (lock.guardedStep (.entering l body)
          (after lock acquire entry free programs schedule).memory).status =
            .running (.inside token body) := by simp [Lock.guardedStep, status]
      obtain ⟨label, memory, current⟩ := solo_goes here works entering goes
      have data := congrArg Guarded.data memory
      exact ⟨1, _, label, work?_goTo works _, data, current⟩
    | running l' =>
      rw [show lock.step l (after lock acquire entry free programs schedule).memory.lock =
        (_, .running l') from Prod.ext rfl status] at gets
      have goes : (lock.guardedStep (.entering l body)
          (after lock acquire entry free programs schedule).memory).status =
            .running (.entering l' body) := by simp [Lock.guardedStep, status]
      obtain ⟨label, memory, current⟩ := solo_goes here works entering goes
      have lock_memory := congrArg Guarded.lock memory
      have same_data := congrArg Guarded.data memory
      obtain ⟨n', p', later, works', data, current'⟩ :=
        ih label (work?_goTo works _) (by rw [lock_memory]; exact gets)
      refine ⟨n' + 1, p', ?_⟩
      rw [List.replicate_succ', List.append_assoc]
      exact ⟨later, works', data.trans same_data, current'.trans current⟩

theorem solo_leaves (h : Attemptable lock acquire entry free Tries Has Timely) {token : Token}
    {f : Store → Store × AttemptAnswer}
    (here : (after lock acquire entry free programs schedule).label i = some (.inl p))
    (works : work? p = some (.update f, .inside token (.update f))) :
    let later := after lock acquire entry free programs (List.replicate 4 ⟨i, ()⟩ ++ schedule)
    (∃ b, later.answer? ((after lock acquire entry free programs schedule).current i) = some (.inl b) ∧
        plain? b = some (f (after lock acquire entry free programs schedule).memory.data).2) ∧
      later.memory.data = (f (after lock acquire entry free programs schedule).memory.data).1 := by
  generalize hs : (after lock acquire entry free programs schedule).memory.data = s
  obtain ⟨read, memory₁, current₁⟩ := solo_goes here works (.begins token) rfl
  have data₁ := congrArg Guarded.data memory₁
  rw [hs] at read
  obtain ⟨wrote, memory₂, current₂⟩ := solo_goes read (work?_goTo works _)
    (.writes token _ _ (by rw [data₁]; exact congrArg f hs)) rfl
  have data₂ := congrArg Guarded.data memory₂
  have works₂ := work?_goTo (work?_goTo works (.inside token (.write (f s).1 (.leave (f s).2))))
    (.inside token (.leave (f s).2))
  obtain ⟨left, memory₃, current₃⟩ := solo_goes wrote works₂ (.leaves token _ s rfl) rfl
  have data₃ := congrArg Guarded.data memory₃
  obtain ⟨a, released⟩ := h.released token (after lock acquire entry free programs
    (⟨i, ()⟩ :: ⟨i, ()⟩ :: ⟨i, ()⟩ :: schedule)).memory.lock
  have gives : (lock.guardedStep (.leaving (lock.release token) (f s).2) (after lock acquire entry free programs
      (⟨i, ()⟩ :: ⟨i, ()⟩ :: ⟨i, ()⟩ :: schedule)).memory).status = .returned (some (f s).2) := by
    simp [Lock.guardedStep, released]
  obtain ⟨⟨b, answered, plain⟩, memory₄⟩ :=
    solo_answers left (work?_goTo works₂ _) (.returns _ _ s rfl) gives
  have data₄ := congrArg Guarded.data memory₄
  rw [current₃, current₂, current₁] at answered
  exact ⟨⟨b, answered, plain⟩, data₄.trans (data₃.trans data₂)⟩

/-- While nobody has the lock, an attempt of a thread that goes on alone is served. -/
theorem served_alone (h : Attemptable lock acquire entry free Tries Has Timely)
    (timely : Timely programs.length (lockSteps lock acquire entry free programs schedule))
    {c : AttemptStack.Call Value} {r : Request}
    (outside : (after lock acquire entry free programs schedule).label i = none)
    (next : ((after lock acquire entry free programs schedule).current i).call? programs = some (.inl c))
    (single : request? c = some r)
    (nobody : ∀ j, ¬ Has (stage ((after lock acquire entry free programs schedule).label j))) :
    ∃ n, let later := after lock acquire entry free programs (List.replicate n ⟨i, ()⟩ ++ schedule)
      let values := (after lock acquire entry free programs schedule).memory.data.toList
      (∃ b, later.answer? ((after lock acquire entry free programs schedule).current i) = some (.inl b) ∧
          plain? b = some (respond r values).1) ∧
        later.memory.data.toList = (respond r values).2 := by
  obtain ⟨⟨actions, run⟩, _⟩ := going h timely
  have gets := h.unowned programs.length actions (run ▸ timely) (run ▸ nobody)
  rw [run] at gets
  obtain ⟨n, token, gets⟩ := gets
  have hv : after lock acquire entry free programs (⟨i, ()⟩ :: schedule) =
      (after lock acquire entry free programs schedule).enter i
        ((shared lock acquire entry).enter (.inl c)) := Algorithm.viewAfter_enter outside next
  obtain ⟨p, entered, works⟩ : ∃ p, (shared lock acquire entry).enter (.inl c) = .inl p ∧
      work? p = some (.update (served r), .entering entry (.update (served r))) := by
    cases c <;> cases single <;> exact ⟨_, rfl, rfl⟩
  have here : (after lock acquire entry free programs (⟨i, ()⟩ :: schedule)).label i = some (.inl p) := by
    rw [hv, View.label_enter, Function.update_self, entered]
  have memory : (after lock acquire entry free programs (⟨i, ()⟩ :: schedule)).memory =
      (after lock acquire entry free programs schedule).memory := by rw [hv, View.memory_enter]
  have current : (after lock acquire entry free programs (⟨i, ()⟩ :: schedule)).current i =
      (after lock acquire entry free programs schedule).current i := by rw [hv]; rfl
  obtain ⟨n', p', label, works', data, current'⟩ := solo_enters here works (by rw [memory]; exact gets)
  obtain ⟨⟨b, answered, plain⟩, final⟩ := solo_leaves h label works'
  rw [memory] at data
  obtain ⟨answer, contents⟩ := served_eq r (after lock acquire entry free programs schedule).memory.data
  refine ⟨4 + n' + 1, ?_⟩
  rw [List.replicate_succ', List.replicate_add, List.append_assoc, List.append_assoc]
  refine ⟨⟨b, ?_, ?_⟩, ?_⟩
  · rw [current', current] at answered
    exact answered
  · rw [plain, data, answer]
  · rw [← contents, ← data]
    exact congrArg Store.toList final

end Alone

end Run

/-- What single attempts at a store under a lock are like after a schedule. -/
structure Attempted (lock : Lock LockMemory L Token) (acquire entry : L) (free : LockMemory)
    (Has : Phase L Token → Prop) (programs : List (List (AttemptStack.Call Value ⊕ Call)))
    (schedule : List (Turn Unit)) : Prop where
  /-- An attempt that is refused has left the store as the other threads made it. -/
  harmless : ∀ o c r a, o.call? programs = some (.inl c) → request? c = some r →
    (after lock acquire entry free programs schedule).answer? o = some (.inl a) → plain? a = none →
      (shared lock acquire entry).Untouched ⟨free, {}⟩ programs Guarded.data schedule o
  /-- Any other attempt is served at one of its turns, and has left the store alone at all others. -/
  atomic : ∀ o c r a b, o.call? programs = some (.inl c) → request? c = some r →
    (after lock acquire entry free programs schedule).answer? o = some (.inl a) → plain? a = some b →
      (shared lock acquire entry).Acted ⟨free, {}⟩ programs Guarded.data
        (fun before now => respond r before.toList = (b, now.toList)) schedule o
  handsBack : ∀ o v a, o.call? programs = some (.inl (.attemptPush v)) →
    (after lock acquire entry free programs schedule).answer? o = some a →
      a = .inl .pushed ∨ a = .inl (.handedBack v)
  /-- The request of a push is its value, so one that has been used is as good as a new one. -/
  fresh : ∀ v m, (attemptsUnder lock acquire entry).prepare v m = (m, v)
  contended : ∀ o c r a, o.call? programs = some (.inl c) → request? c = some r →
    (after lock acquire entry free programs schedule).answer? o = some (.inl a) → plain? a = none →
      Contended lock acquire entry free Has programs schedule o
  alone : ∀ i c r, (after lock acquire entry free programs schedule).label i = none →
    ((after lock acquire entry free programs schedule).current i).call? programs = some (.inl c) →
      request? c = some r →
        (∀ j, ¬ Has (stage ((after lock acquire entry free programs schedule).label j))) →
          ∃ n, let later := after lock acquire entry free programs (List.replicate n ⟨i, ()⟩ ++ schedule)
            let values := (after lock acquire entry free programs schedule).memory.data.toList
            (∃ b, later.answer? ((after lock acquire entry free programs schedule).current i) =
                some (.inl b) ∧ plain? b = some (respond r values).1) ∧
              later.memory.data.toList = (respond r values).2
  /-- A pop that is served finds nothing just if the stack is empty. -/
  empty : ∀ values, (respond .remove values).1 = .popped none ↔ values = []

section Attempted

variable {lock : Lock LockMemory L Token} {acquire entry : L} {free : LockMemory} {Tries : L → Prop}
  {Has : Phase L Token → Prop} {Timely : Nat → List (Taken Nat LockMemory L) → Prop}
  {programs : List (List (AttemptStack.Call Value ⊕ Call))} {schedule : List (Turn Unit)}
  {o : Operation}

theorem handedBack_eq {v : Value} {a : AttemptStack.Answer Value ⊕ Option Answer}
    (call : o.call? programs = some (.inl (.attemptPush v)))
    (gave : (after lock acquire entry free programs schedule).answer? o = some a) :
    a = .inl .pushed ∨ a = .inl (.handedBack v) := by
  induction schedule with
  | nil => simp [Algorithm.viewAfter_nil, View.start, View.answer?] at gave
  | cons t earlier ih =>
    rcases (turn lock acquire entry free programs t earlier).answer? gave with old | ⟨rfl, l, here, gives⟩
    · exact ih old
    · obtain ⟨c, call', asks⟩ := called here
      cases call.symm.trans call'
      rcases l with p | k
      swap
      · exact absurd asks id
      have asks : asked p = .attemptPush v := asks
      cases p with
      | prepare v' again => cases again <;> cases asks
      | popping again k => cases again <;> cases asks
      | looking k => cases asks
      | pushing v' again k =>
        cases again <;> cases asks
        simp only [shared, Algorithm.beside, AttemptStack.retrying, AttemptStack.retryStep, attemptsUnder,
          AttemptStack.afterPush] at gives
        split at gives <;> cases gives <;> simp

theorem sought_of_request {c : AttemptStack.Call Value} {r : Request} (single : request? c = some r) :
    sought? c = some (.update (served r)) := by
  cases c <;> cases single <;> rfl

theorem attempted (h : Attemptable lock acquire entry free Tries Has Timely)
    (timely : Timely programs.length (lockSteps lock acquire entry free programs schedule)) :
    Attempted lock acquire entry free Has programs schedule where
  harmless o c r a call single gave refused := by
    have did := (settles h timely).progress.past o (.inl c) (.inl a) call gave
    rw [told, sought_of_request single, Option.bind_some, refused] at did
    exact did
  atomic o c r a b call single gave served := by
    have did := (settles h timely).progress.past o (.inl c) (.inl a) call gave
    rw [told, sought_of_request single, Option.bind_some, served, Option.map_some, Algorithm.Did] at did
    refine Algorithm.Acted.mono did fun before now run => ?_
    obtain ⟨answer, contents⟩ := served_eq r before
    rw [Section.run_update] at run
    rw [run] at answer contents
    exact Prod.ext answer.symm contents.symm
  handsBack o v a call gave := handedBack_eq call gave
  fresh v m := rfl
  contended o c r a call single gave refused := contended_of_refused h timely call single gave refused
  alone i c r outside next single nobody := served_alone h timely outside next single nobody
  empty values := by cases values <;> simp [respond, Discipline.remove]

end Attempted

end SharedMemory.LockedStore
