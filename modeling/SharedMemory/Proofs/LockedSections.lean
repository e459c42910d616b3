import SharedMemory.LockedStore
import SharedMemory.Proofs.LockedLaw
import SharedMemory.Proofs.AttemptTurns
import SharedMemory.Proofs.LockAttempts

/-!
# Attempts and waiting operations on one store

Some threads attempt pushes and pops on a store under a lock, and others wait for the lock. What each of
them does is one critical section, and while the lock excludes, a section acts on the store at one of its
steps: an update when it writes, a look when it reads.
-/
namespace SharedMemory

def Algorithm.beside {Memory Call Label Choice Answer Call' Label' Answer' : Type}
    (alg : Algorithm Memory Call Label Choice Answer)
    (alg' : Algorithm Memory Call' Label' Choice Answer') :
    Algorithm Memory (Call ⊕ Call') (Label ⊕ Label') Choice (Answer ⊕ Answer') where
  enter := Sum.map alg.enter alg'.enter
  step choice l m :=
    match l with
    | .inl l =>
      let e := alg.step choice l m
      ⟨e.memory, e.status.map .inl .inl, e.events⟩
    | .inr l =>
      let e := alg'.step choice l m
      ⟨e.memory, e.status.map .inr .inr, e.events⟩

namespace LockedStore

open AttemptStack (Position)
open Lock (Scene Taken Phase sectionPhase lockStep? used users)

variable {LockMemory L Token R : Type}

abbrev Place (L Token : Type) : Type := SectionLabel L Token Store AttemptAnswer

/-- Where a thread stands that attempts, or that waits. -/
abbrev Spot (L Token : Type) : Type := Position Value (Place L Token) ⊕ SectionLabel L Token Store Answer

/-- Attempts beside the operations that wait for the lock. -/
def shared (lock : Lock LockMemory L Token) (acquire entry : L) :
    Algorithm (Guarded LockMemory Store) (AttemptStack.Call Value ⊕ Call) (Spot L Token) Unit
      (AttemptStack.Answer Value ⊕ Option Answer) :=
  (attemptsUnder lock acquire entry).retrying.beside
    (lock.guarding.via (fun c => (acquire, body .lifo c)) id)

/-- The section that a thread is about, and its place in it. -/
def work? : Position Value (Place L Token) → Option (Section Store AttemptAnswer × Place L Token)
  | .prepare _ _ => none
  | .pushing v _ k => some (insertSection v, k)
  | .popping _ k => some (removeSection, k)
  | .looking k => some (.inspect fun s => .emptiness s.isEmpty, k)

def goTo (k : Place L Token) : Position Value (Place L Token) → Position Value (Place L Token)
  | .prepare v again => .prepare v again
  | .pushing v again _ => .pushing v again k
  | .popping again _ => .popping again k
  | .looking _ => .looking k

def stage : Option (Spot L Token) → Phase L Token
  | none => .outside
  | some (.inl p) => sectionPhase ((work? p).map Prod.snd)
  | some (.inr k) => sectionPhase (some k)

def taken? (user : Nat) (m : Guarded LockMemory Store) :
    Spot L Token → Option (Taken Nat LockMemory L)
  | .inl p => (work? p).bind fun w => lockStep? user m w.2
  | .inr k => lockStep? user m k

section Run

variable (lock : Lock LockMemory L Token) (acquire entry : L) (free : LockMemory)
  (programs : List (List (AttemptStack.Call Value ⊕ Call)))

abbrev after (schedule : List (Turn Unit)) :
    View (Guarded LockMemory Store) (Spot L Token) (AttemptStack.Answer Value ⊕ Option Answer) :=
  (shared lock acquire entry).viewAfter ⟨free, {}⟩ programs schedule

/-- Newest first. -/
def lockSteps : List (Turn Unit) → List (Taken Nat LockMemory L)
  | [] => []
  | t :: earlier =>
    let v := after lock acquire entry free programs earlier
    ((v.label t.thread).bind (taken? t.thread v.memory)).toList ++ lockSteps earlier

def scene (schedule : List (Turn Unit)) : Scene Nat LockMemory L Token :=
  ⟨(after lock acquire entry free programs schedule).memory.lock,
    fun i => stage ((after lock acquire entry free programs schedule).label i),
    lockSteps lock acquire entry free programs schedule⟩

end Run

section Step

variable {lock : Lock LockMemory L Token} {acquire entry : L} {p : Position Value (Place L Token)}
  {body : Section Store AttemptAnswer} {k : Place L Token} {m : Guarded LockMemory Store}

theorem work?_goTo (h : work? p = some (body, k)) (k' : Place L Token) :
    work? (goTo k' p) = some (body, k') := by
  cases p with
  | prepare => cases h
  | pushing | popping | looking =>
    cases h
    rfl

/-- What becomes of a thread whose section goes on, or is over. -/
def resume (entry : L) (p : Position Value (Place L Token)) :
    Status (Place L Token) (Option AttemptAnswer) →
      Status (Position Value (Place L Token)) (AttemptStack.Answer Value)
  | .running k => .running (goTo k p)
  | .returned found =>
    match p, found with
    | .pushing v again _, none =>
      if again then .running (.pushing v true (.entering entry (insertSection v)))
      else .returned (.handedBack v)
    | .popping again _, none =>
      if again then .running (.popping true (.entering entry removeSection)) else .returned .interfered
    | .pushing .., some _ => .returned .pushed
    | .popping .., some (.popped found) => .returned (.popped found)
    | .looking _, some (.emptiness empty) => .returned (.emptiness empty)
    | _, _ => .returned .interfered

/-- The answers of a section about the store. -/
inductive Fits : Position Value (Place L Token) → AttemptAnswer → Prop
  | pushed (v : Value) (again : Bool) (k : Place L Token) : Fits (.pushing v again k) .pushed
  | popped (again : Bool) (k : Place L Token) (found : Option Value) : Fits (.popping again k) (.popped found)
  | emptiness (k : Place L Token) (empty : Bool) : Fits (.looking k) (.emptiness empty)

theorem fits_run (h : work? p = some (body, k)) (s : Store) : Fits p (body.run s).2 := by
  cases p with
  | prepare => cases h
  | pushing | popping | looking =>
    cases h
    constructor

variable (lock acquire entry) in
theorem retryStep_eq (h : work? p = some (body, k))
    (fits : ∀ a, (lock.guardedStep k m).status = .returned (some a) → Fits p a) :
    (attemptsUnder lock acquire entry).retryStep p m =
      ⟨(lock.guardedStep k m).memory, resume entry p (lock.guardedStep k m).status, []⟩ := by
  cases p with
  | prepare => cases h
  | pushing v again k' =>
    cases h
    simp only [AttemptStack.retryStep, attemptsUnder, attemptStep]
    cases status : (lock.guardedStep k m).status with
    | running k' => rfl
    | returned found =>
      cases found with
      | none => cases again <;> rfl
      | some a =>
        cases fits a status
        rfl
  | popping again k' =>
    cases h
    simp only [AttemptStack.retryStep, attemptsUnder, attemptStep]
    cases status : (lock.guardedStep k m).status with
    | running k' => rfl
    | returned found =>
      cases found with
      | none => cases again <;> rfl
      | some a =>
        cases fits a status
        rfl
  | looking k' =>
    cases h
    simp only [AttemptStack.retryStep, attemptsUnder, attemptStep]
    cases status : (lock.guardedStep k m).status with
    | running k' => rfl
    | returned found =>
      cases found with
      | none => rfl
      | some a =>
        cases fits a status
        rfl

/-- The section updates the store in one write, or looks at it once. -/
inductive Simple : Section Store R → Prop
  | update (f : Store → Store × R) : Simple (.update f)
  | inspect (f : Store → R) : Simple (.inspect f)

theorem simple_of_work (h : work? p = some (body, k)) : Simple body := by
  cases p with
  | prepare => cases h
  | pushing | popping | looking =>
    cases h
    constructor

theorem simple_body (c : Call) : Simple (LockedStore.body .lifo c) := by
  cases c with
  | request r => exact .update _
  | size | isEmpty => exact .inspect _

/-- The places of a section. What it is about to write is computed from the store as it is. -/
inductive AtWork (body : Section Store R) (data : Store) : SectionLabel L Token Store R → Prop
  | enters (l : L) : AtWork body data (.entering l body)
  | begins (token : Token) : AtWork body data (.inside token body)
  | writes (token : Token) (now : Store) (a : R) (run : body.run data = (now, a)) :
      AtWork body data (.inside token (.write now (.leave a)))
  | leaves (token : Token) (a : R) (past : Store) (gave : (body.run past).2 = a) :
      AtWork body data (.inside token (.leave a))
  | returns (l : L) (a : R) (past : Store) (gave : (body.run past).2 = a) : AtWork body data (.leaving l a)

def result? : SectionLabel L Token Store R → Option R
  | .inside _ (.leave a) | .leaving _ a => some a
  | _ => none

theorem AtWork.elsewhere {body : Section Store R} {k : SectionLabel L Token Store R} {data data' : Store}
    (h : AtWork body data k) (out : ∀ token rest, k ≠ .inside token rest) : AtWork body data' k := by
  cases h with
  | enters l => exact .enters l
  | begins | writes | leaves => exact absurd rfl (out _ _)
  | returns l a past gave => exact .returns l a past gave

/-- A step of a section: it leaves the store alone, or it acts now. -/
inductive Worked (lock : Lock LockMemory L Token) (body : Section Store R)
    (k : SectionLabel L Token Store R) (m : Guarded LockMemory Store) : Prop
  | still (same : (lock.guardedStep k m).memory.data = m.data)
      (goes : ∀ k', (lock.guardedStep k m).status = .running k' →
        result? k' = result? k ∧ AtWork body m.data k')
      (gives : ∀ found, (lock.guardedStep k m).status = .returned found → found = result? k) :
      Worked lock body k m
  | acts (token : Token) (rest : Section Store R) (inside : k = .inside token rest) (pending : result? k = none)
      (a : R) (goes : (lock.guardedStep k m).status = .running (.inside token (.leave a)))
      (run : body.run m.data = ((lock.guardedStep k m).memory.data, a)) : Worked lock body k m

variable (lock) in
theorem AtWork.step {body : Section Store R} {k : SectionLabel L Token Store R} (simple : Simple body)
    (h : AtWork body m.data k) : Worked lock body k m := by
  have begun (token : Token) : result? (L := L) (.inside token body) = none := by cases simple <;> rfl
  cases h with
  | enters l =>
    refine .still rfl (fun k' goes => ?_) (fun found gives => ?_)
    · simp only [Lock.guardedStep] at goes
      split at goes <;> cases goes
      · exact ⟨rfl, .enters _⟩
      · exact ⟨begun _, .begins _⟩
    · simp only [Lock.guardedStep] at gives
      split at gives <;> cases gives
      rfl
  | begins token =>
    cases simple with
    | update f =>
      refine .still rfl (fun k' goes => ?_) (fun found gives => by cases gives)
      cases goes
      exact ⟨rfl, .writes token _ _ rfl⟩
    | inspect f => exact .acts token _ rfl rfl (f m.data) rfl rfl
  | writes token now a run => exact .acts token _ rfl rfl a rfl run
  | leaves token a past gave =>
    refine .still rfl (fun k' goes => ?_) (fun found gives => by cases gives)
    cases goes
    exact ⟨rfl, .returns _ a past gave⟩
  | returns l a past gave =>
    refine .still rfl (fun k' goes => ?_) (fun found gives => ?_)
    · simp only [Lock.guardedStep] at goes
      split at goes <;> cases goes
      exact ⟨rfl, .returns _ a past gave⟩
    · simp only [Lock.guardedStep] at gives
      split at gives <;> cases gives
      rfl

end Step

def sought? : AttemptStack.Call Value → Option (Section Store AttemptAnswer)
  | .push v | .attemptPush v => some (insertSection v)
  | .pop | .attemptPop => some removeSection
  | .isEmpty => some (.inspect fun s => .emptiness s.isEmpty)
  | .prepare _ => none

/-- What a section has answered; nothing if there was none, or if the lock was refused. -/
def plain? : AttemptStack.Answer Value → Option AttemptAnswer
  | .pushed => some .pushed
  | .popped found => some (.popped found)
  | .emptiness empty => some (.emptiness empty)
  | .prepared _ | .handedBack _ | .interfered => none

def asked : Position Value (Place L Token) → AttemptStack.Call Value
  | .prepare v again => if again then .push v else .prepare v
  | .pushing v again _ => if again then .push v else .attemptPush v
  | .popping again _ => if again then .pop else .attemptPop
  | .looking _ => .isEmpty

def Asks : AttemptStack.Call Value ⊕ Call → Spot L Token → Prop
  | .inl c, .inl p => asked p = c
  | .inr _, .inr _ => True
  | _, _ => False

def settled : Spot L Token → Option (Store → Store → Prop)
  | .inl p => (work? p).bind fun w => (result? w.2).map fun a before now => w.1.run before = (now, a)
  | .inr k => (result? k).map fun _ _ _ => True

/-- What a call has done to the store. -/
def told : AttemptStack.Call Value ⊕ Call → AttemptStack.Answer Value ⊕ Option Answer →
    Option (Store → Store → Prop)
  | .inl c, .inl a => (sought? c).bind fun body => (plain? a).map fun r before now => body.run before = (now, r)
  | .inr _, .inr found => found.map fun _ _ _ => True
  | _, _ => none

/-- Where a thread stands in its section, with the store as it is. -/
def Doing : Spot L Token → Store → Prop
  | .inl p, data => ∀ body k, work? p = some (body, k) → AtWork body data k
  | .inr k, data => ∃ body, Simple body ∧ AtWork body data k

section Spot

variable {lock : Lock LockMemory L Token} {acquire entry : L} {p : Position Value (Place L Token)}
  {body : Section Store AttemptAnswer} {k : Place L Token} {m : Guarded LockMemory Store}
  {l l' : Spot L Token} {data data' : Store}

theorem sought?_asked (h : work? p = some (body, k)) : sought? (asked p) = some body := by
  cases p with
  | prepare => cases h
  | pushing v again | popping again =>
    cases h
    cases again <;> rfl
  | looking =>
    cases h
    rfl

theorem AtWork.fits (h : AtWork body data k) (works : work? p = some (body, k)) {a : AttemptAnswer}
    (result : result? k = some a) : Fits p a := by
  cases h with
  | enters => cases result
  | begins =>
    cases simple_of_work works <;> cases result
  | writes => cases result
  | leaves _ _ past gave | returns _ _ past gave =>
    cases result
    exact gave ▸ fits_run works past

theorem asked_retryStep {p' : Position Value (Place L Token)}
    (goes : ((attemptsUnder lock acquire entry).retryStep p m).status = .running p') : asked p' = asked p := by
  cases p with
  | prepare v again =>
    cases again <;> cases goes
    rfl
  | looking k =>
    simp only [AttemptStack.retryStep] at goes
    split at goes <;> cases goes
    rfl
  | pushing v again k =>
    change (attemptsUnder lock acquire entry).afterPush v again (attemptStep lock k m).2 = _ at goes
    generalize (attemptStep lock k m).2 = status at goes
    rcases status with k' | a
    · cases goes
      rfl
    · cases a <;> cases again <;> cases goes
      rfl
  | popping again k =>
    change (attemptsUnder lock acquire entry).afterPop again (attemptStep lock k m).2 = _ at goes
    generalize (attemptStep lock k m).2 = status at goes
    rcases status with k' | a
    · cases goes
      rfl
    · cases a <;> cases again <;> cases goes
      all_goals rfl

variable (entry) in
/-- A section that is over: an operation that was refused begins again, any other is answered. -/
theorem resume_returned (works : work? p = some (body, k)) {found : Option AttemptAnswer}
    (fits : ∀ a, found = some a → Fits p a) :
    (found = none ∧ ∃ p', resume entry p (.returned found) = .running p' ∧
        work? p' = some (body, .entering entry body)) ∨
      ∃ a, resume entry p (.returned found) = .returned a ∧ plain? a = found := by
  cases found with
  | none =>
    cases p with
    | prepare => cases works
    | pushing v again | popping again =>
      cases works
      cases again with
      | true => exact .inl ⟨rfl, _, rfl, rfl⟩
      | false => exact .inr ⟨_, rfl, rfl⟩
    | looking => exact .inr ⟨_, rfl, rfl⟩
  | some a =>
    cases fits a rfl <;> exact .inr ⟨_, rfl, rfl⟩

theorem Doing.elsewhere (h : Doing l data) (out : ∀ token, stage (some l) ≠ .holding token) :
    Doing l data' := by
  cases l with
  | inl p =>
    intro body k works
    refine (h body k works).elsewhere ?_
    rintro token rest rfl
    exact out token (by rw [stage, works]; rfl)
  | inr k =>
    obtain ⟨body, simple, works⟩ := h
    refine ⟨body, simple, works.elsewhere ?_⟩
    rintro token rest rfl
    exact out token rfl

/-- What a step does to the store and what it makes of its thread. -/
structure Stepped (lock : Lock LockMemory L Token) (acquire entry : L) (l : Spot L Token)
    (m : Guarded LockMemory Store) : Prop where
  goes : ∀ l', ((shared lock acquire entry).step () l m).status = .running l' →
    Doing l' ((shared lock acquire entry).step () l m).memory.data ∧
      (settled l' = settled l ∧ ((shared lock acquire entry).step () l m).memory.data = m.data ∨
        settled l = none ∧ ∃ does, settled l' = some does ∧
          does m.data ((shared lock acquire entry).step () l m).memory.data)
  gives : ∀ c a, Asks c l → ((shared lock acquire entry).step () l m).status = .returned a →
    told c a = settled l ∧ ((shared lock acquire entry).step () l m).memory.data = m.data
  still : (∀ token, stage (some l) ≠ .holding token) →
    ((shared lock acquire entry).step () l m).memory.data = m.data

variable (lock acquire entry) in
theorem step_attempt (works : work? p = some (body, k)) (doing : AtWork body m.data k) :
    (∀ found, (lock.guardedStep k m).status = .returned found → found = result? k) ∧
      (shared lock acquire entry).step () (.inl p) m = ⟨(lock.guardedStep k m).memory,
        (resume entry p (lock.guardedStep k m).status).map .inl .inl, []⟩ := by
  have gives : ∀ found, (lock.guardedStep k m).status = .returned found → found = result? k := by
    intro found gives
    cases doing.step lock (simple_of_work works) with
    | still same goes gave => exact gave found gives
    | acts token rest inside pending a goes => cases goes.symm.trans gives
  have retry := retryStep_eq lock acquire entry works
    fun a gave => doing.fits works (gives _ gave).symm
  refine ⟨gives, ?_⟩
  simp only [shared, Algorithm.beside, AttemptStack.retrying, retry]

theorem settled_attempt (works : work? p = some (body, k)) :
    settled (.inl p) = (result? k).map fun a before now => body.run before = (now, a) := by
  rw [settled, works, Option.bind_some]

theorem stepped_attempt (works : work? p = some (body, k)) (doing : AtWork body m.data k) :
    Stepped lock acquire entry (.inl p) m := by
  obtain ⟨returns, step⟩ := step_attempt lock acquire entry works doing
  have mine := settled_attempt works
  have goTo_doing {k' : Place L Token} {data : Store} (h : AtWork body data k') :
      Doing (.inl (goTo k' p)) data := by
    intro body' k'' works'
    cases (work?_goTo works k').symm.trans works'
    exact h
  cases doing.step lock (simple_of_work works) with
  | still same goes gives =>
    have data : ((shared lock acquire entry).step () (.inl p) m).memory.data = m.data := by
      rw [step]
      exact same
    refine ⟨fun l' running => ?_, fun c a asks returned => ⟨?_, data⟩, fun _ => data⟩
    · rw [data]
      rw [step] at running
      cases status : (lock.guardedStep k m).status with
      | running k' =>
        rw [status] at running
        cases running
        obtain ⟨result, works'⟩ := goes k' status
        refine ⟨goTo_doing works', .inl ⟨?_, rfl⟩⟩
        rw [settled_attempt (work?_goTo works k'), mine, result]
      | returned found =>
        rw [status] at running
        rcases resume_returned entry works fun a gave =>
          doing.fits works ((returns found status).symm.trans gave) with
          ⟨none_found, p', again, works'⟩ | ⟨a, answered, _⟩
        · simp only [again, Status.map] at running
          cases running
          refine ⟨fun body' k'' works'' => ?_, .inl ⟨?_, rfl⟩⟩
          · cases works'.symm.trans works''
            exact .enters entry
          · rw [settled_attempt works', mine, ← returns found status, none_found]
            rfl
        · simp only [answered, Status.map] at running
          cases running
    · rw [step] at returned
      cases status : (lock.guardedStep k m).status with
      | running k' =>
        rw [status] at returned
        cases returned
      | returned found =>
        rw [status] at returned
        rcases resume_returned entry works fun a gave =>
          doing.fits works ((returns found status).symm.trans gave) with
          ⟨none_found, p', again, _⟩ | ⟨b, answered, plain⟩
        · simp only [again, Status.map] at returned
          cases returned
        · simp only [answered, Status.map] at returned
          cases returned
          cases c with
          | inr c => exact absurd asks id
          | inl c =>
            obtain rfl : asked p = c := asks
            rw [told, sought?_asked works, Option.bind_some, plain, mine, returns found status]
  | acts token rest inside pending a goes run =>
    have data : ((shared lock acquire entry).step () (.inl p) m).memory.data =
        (lock.guardedStep k m).memory.data := by rw [step]
    refine ⟨fun l' running => ?_, fun c b asks returned => ?_, fun out => ?_⟩
    · rw [data]
      rw [step, goes] at running
      cases running
      refine ⟨goTo_doing (.leaves token a m.data (by rw [run])), .inr ⟨?_, ?_⟩⟩
      · rw [mine, pending, Option.map_none]
      · refine ⟨_, settled_attempt (work?_goTo works _), run⟩
    · rw [step, goes] at returned
      cases returned
    · exact absurd (by rw [stage, works, inside]; rfl) (out token)

theorem stepped_waiting {body : Section Store Answer} {k : SectionLabel L Token Store Answer}
    (simple : Simple body) (doing : AtWork body m.data k) : Stepped lock acquire entry (.inr k) m := by
  have step : (shared lock acquire entry).step () (.inr k) m = ⟨(lock.guardedStep k m).memory,
      ((lock.guardedStep k m).status.mapAnswer id).map .inr .inr, (lock.guardedStep k m).events⟩ := rfl
  cases doing.step lock simple with
  | still same goes gives =>
    refine ⟨fun l' running => ?_, fun c a asks returned => ⟨?_, same⟩, fun _ => same⟩
    · rw [step] at running ⊢
      rw [same]
      cases status : (lock.guardedStep k m).status with
      | returned found =>
        rw [status] at running
        cases running
      | running k' =>
        rw [status] at running
        cases running
        obtain ⟨result, works⟩ := goes k' status
        exact ⟨⟨body, simple, works⟩, .inl ⟨by rw [settled, settled, result], rfl⟩⟩
    · rw [step] at returned
      cases status : (lock.guardedStep k m).status with
      | running k' =>
        rw [status] at returned
        cases returned
      | returned found =>
        rw [status] at returned
        cases returned
        cases c with
        | inl c => exact absurd asks id
        | inr c =>
          rw [told, settled, ← gives found status]
          rfl
  | acts token rest inside pending a goes run =>
    refine ⟨fun l' running => ?_, fun c b asks returned => ?_, fun out => ?_⟩
    · rw [step] at running ⊢
      rw [goes] at running
      cases running
      refine ⟨⟨body, simple, .leaves token a m.data (by rw [run])⟩, .inr ⟨?_, _, rfl, trivial⟩⟩
      rw [settled, pending, Option.map_none]
    · rw [step, goes] at returned
      cases returned
    · exact absurd (by rw [stage, inside]; rfl) (out token)

theorem stepped_prepare (v : Value) (again : Bool) :
    Stepped lock acquire entry (.inl (.prepare v again)) m := by
  refine ⟨fun l' running => ?_, fun c a asks returned => ?_, fun _ => rfl⟩
  · cases again with
    | false => cases running
    | true =>
      cases running
      refine ⟨fun body k works => ?_, .inl ⟨rfl, rfl⟩⟩
      cases works
      exact .enters entry
  · cases again with
    | true => cases returned
    | false =>
      cases returned
      cases c with
      | inr c => exact absurd asks id
      | inl c =>
        obtain rfl : AttemptStack.Call.prepare v = c := asks
        exact ⟨rfl, rfl⟩

variable (lock acquire entry) in
theorem Doing.step (h : Doing l m.data) : Stepped lock acquire entry l m := by
  cases l with
  | inr k =>
    obtain ⟨body, simple, works⟩ := h
    exact stepped_waiting simple works
  | inl p =>
    cases p with
    | prepare v again => exact stepped_prepare v again
    | pushing | popping | looking => exact stepped_attempt rfl (h _ _ rfl)

end Spot

section Scene

variable {lock : Lock LockMemory L Token} {acquire entry : L} {free : LockMemory}
  {programs : List (List (AttemptStack.Call Value ⊕ Call))} {t : Turn Unit}
  {earlier schedule : List (Turn Unit)} {i : Nat}

def afterSection : Status (SectionLabel L Token Store R) (Option R) → Phase L Token
  | .running k => sectionPhase (some k)
  | .returned _ => .outside

/-- A step of a section is one of a user of the lock, or none that the lock sees. -/
theorem guarded_next {entrances : Nat → List L} {k : SectionLabel L Token Store R}
    (m : Guarded LockMemory Store) {s : Scene Nat LockMemory L Token} (memory : s.memory = m.lock)
    (here : s.phases i = sectionPhase (some k)) :
    s.Next lock entrances ⟨(lock.guardedStep k m).memory.lock,
      Function.update s.phases i (afterSection (lock.guardedStep k m).status),
      (lockStep? i m k).toList ++ s.record⟩ := by
  obtain ⟨m₀, phases, record⟩ := s
  obtain rfl : m₀ = m.lock := memory
  cases k with
  | entering l body =>
    have next : (Scene.mk m.lock phases record).Next lock entrances
        ((Scene.mk m.lock phases record).take lock i l (.afterEnter (lock.step l m.lock).2)) :=
      .seek i l here
    simp only [Lock.guardedStep]
    cases status : (lock.step l m.lock).2 with
    | running l' =>
      rw [status] at next
      exact next
    | returned a =>
      rw [status] at next
      cases a <;> exact next
  | inside token body =>
    have stays : Function.update phases i (.holding token) = phases := by
      rw [show Phase.holding token = phases i from here.symm, Function.update_eq_self]
    cases body with
    | leave a => exact .giveUp i token here
    | read next =>
      change Scene.Next lock entrances _ ⟨m.lock, Function.update phases i (.holding token), record⟩
      rw [stays]
      exact .rest
    | write data next =>
      change Scene.Next lock entrances _ ⟨m.lock, Function.update phases i (.holding token), record⟩
      rw [stays]
      exact .rest
  | leaving l a =>
    have next : (Scene.mk m.lock phases record).Next lock entrances
        ((Scene.mk m.lock phases record).take lock i l (.afterLeave (lock.step l m.lock).2)) :=
      .leave i l here
    simp only [Lock.guardedStep]
    cases status : (lock.step l m.lock).2 with
    | running l' | returned b =>
      rw [status] at next
      exact next

variable (lock acquire entry free programs) in
theorem turn (t : Turn Unit) (earlier : List (Turn Unit)) :
    (after lock acquire entry free programs earlier).Step (shared lock acquire entry) programs t.thread
      t.choice (after lock acquire entry free programs (t :: earlier)) :=
  (shared lock acquire entry).viewAfter_cons ⟨free, {}⟩ programs t earlier

theorem called {l : Spot L Token} (here : (after lock acquire entry free programs schedule).label i = some l) :
    ∃ c, ((after lock acquire entry free programs schedule).current i).call? programs = some c ∧ Asks c l := by
  refine Algorithm.call_after (shared lock acquire entry) ⟨free, {}⟩ programs (P := Asks) ?_ ?_ here
  · rintro (c | c)
    · cases c <;> rfl
    · trivial
  · rintro choice (c | c) (p | k) m l' asks goes
    · obtain rfl : asked p = c := asks
      simp only [shared, Algorithm.beside] at goes
      cases status : ((attemptsUnder lock acquire entry).retrying.step choice p m).status with
      | returned a =>
        rw [status] at goes
        cases goes
      | running p' =>
        rw [status] at goes
        cases goes
        exact asked_retryStep status
    · exact absurd asks id
    · exact absurd asks id
    · simp only [shared, Algorithm.beside] at goes
      cases status : ((lock.guarding.via (fun c => (acquire, body .lifo c)) id).step choice k m).status with
      | returned a =>
        rw [status] at goes
        cases goes
      | running k' =>
        rw [status] at goes
        cases goes
        trivial

theorem after_take {l : Spot L Token}
    (here : (after lock acquire entry free programs earlier).label t.thread = some l) :
    after lock acquire entry free programs (t :: earlier) =
      (after lock acquire entry free programs earlier).take t.thread
        ((shared lock acquire entry).step t.choice l (after lock acquire entry free programs earlier).memory) :=
  (turn lock acquire entry free programs t earlier).take here

theorem lt_of_next {index : Nat} {c : AttemptStack.Call Value ⊕ Call}
    (next : (callsOf programs i)[index]? = some c) : i < programs.length := by
  by_contra beyond
  rw [callsOf, List.getD_eq_getElem?_getD, List.getElem?_eq_none (Nat.le_of_not_lt beyond)] at next
  cases next

theorem lt_of_label {l : Spot L Token}
    (here : (after lock acquire entry free programs schedule).label i = some l) : i < programs.length := by
  obtain ⟨c, call, _⟩ := called here
  exact lt_of_next call

theorem mem_users (n : Nat) (acquire entry : L) (small : i < n) :
    acquire ∈ users n acquire entry i ∧ entry ∈ users n acquire entry i := by
  rw [users, if_pos small]
  simp

/-- All threads are where their sections lead them. -/
def Going (v : View (Guarded LockMemory Store) (Spot L Token)
    (AttemptStack.Answer Value ⊕ Option Answer)) : Prop :=
  ∀ i l, v.label i = some l → Doing l v.memory.data

theorem stage_update (v : Nat → Option (Spot L Token)) (i : Nat) (l : Option (Spot L Token)) :
    (fun j => stage (Function.update v i l j)) = Function.update (fun j => stage (v j)) i (stage l) := by
  funext j
  by_cases same : j = i
  · rw [same, Function.update_self, Function.update_self]
  · rw [Function.update_of_ne same, Function.update_of_ne same]

theorem scene_take {l : Spot L Token}
    (here : (after lock acquire entry free programs earlier).label t.thread = some l) :
    let v := after lock acquire entry free programs earlier
    let e := (shared lock acquire entry).step t.choice l v.memory
    scene lock acquire entry free programs (t :: earlier) =
      ⟨e.memory.lock, Function.update (fun j => stage (v.label j)) t.thread (stage e.status.label?),
        (taken? t.thread v.memory l).toList ++ lockSteps lock acquire entry free programs earlier⟩ := by
  simp only [scene, lockSteps, after_take here, View.memory_take, View.label_take, stage_update, here,
    Option.bind_some]

/-- A turn is a move of a user of the lock. A push or pop that is refused and begins again makes two. -/
theorem scene_turn (going : Going (after lock acquire entry free programs earlier)) (t : Turn Unit) :
    ∃ s, (scene lock acquire entry free programs earlier).Next lock (users programs.length acquire entry) s ∧
      (scene lock acquire entry free programs (t :: earlier) = s ∨
        s.phases t.thread = .outside ∧ entry ∈ users programs.length acquire entry t.thread ∧
          scene lock acquire entry free programs (t :: earlier) = s.place t.thread (.entering entry)) := by
  rcases (turn lock acquire entry free programs t earlier).rest_or_enter_or_take with
    ⟨outside, hv⟩ | ⟨c, outside, next, hv⟩ | ⟨l, here, _⟩
  · refine ⟨_, .rest, .inl ?_⟩
    simp only [scene, lockSteps, hv, outside, Option.bind_none, Option.toList_none, List.nil_append]
  · obtain ⟨waits, tries⟩ := mem_users programs.length acquire entry (lt_of_next next)
    have out : (scene lock acquire entry free programs earlier).phases t.thread = .outside :=
      congrArg stage outside
    have now : scene lock acquire entry free programs (t :: earlier) =
        (scene lock acquire entry free programs earlier).place t.thread
          (stage (some ((shared lock acquire entry).enter c))) := by
      simp only [scene, lockSteps, hv, View.label_enter, stage_update, View.memory_enter, outside,
        Option.bind_none, Option.toList_none, List.nil_append, Scene.place]
    refine ⟨_, ?_, .inl rfl⟩
    rw [now]
    rcases c with c | c
    · cases c with
      | push v | prepare v =>
        change Scene.Next lock _ _ ((scene lock acquire entry free programs earlier).place t.thread .outside)
        rw [Scene.place, ← out, Function.update_eq_self]
        exact .rest
      | pop | attemptPush v | attemptPop => exact .enter _ entry out tries
      | isEmpty => exact .enter _ acquire out waits
    · exact .enter _ acquire out waits
  · have small := lt_of_label here
    obtain ⟨_, tries⟩ := mem_users programs.length acquire entry small
    have now := scene_take here
    have at_l : (scene lock acquire entry free programs earlier).phases t.thread = stage (some l) :=
      congrArg stage here
    have doing := going t.thread l here
    rcases l with p | k
    · cases works : work? p with
      | none =>
        have out : (scene lock acquire entry free programs earlier).phases t.thread = .outside := by
          rw [at_l, stage, works]
          rfl
        cases p with
        | pushing | popping | looking => cases works
        | prepare v again =>
          refine ⟨_, ?_, .inl rfl⟩
          rw [now]
          cases again with
          | true => exact .enter _ entry out tries
          | false =>
            change Scene.Next lock _ _
              ((scene lock acquire entry free programs earlier).place t.thread .outside)
            rw [Scene.place, ← out, Function.update_eq_self]
            exact .rest
      | some w =>
        obtain ⟨body, k⟩ := w
        have works_now := doing body k works
        obtain ⟨returns, step⟩ := step_attempt lock acquire entry works
          works_now
        rw [stage, works] at at_l
        have next : (scene lock acquire entry free programs earlier).Next lock
            (users programs.length acquire entry) _ :=
          guarded_next (after lock acquire entry free programs earlier).memory rfl at_l
        refine ⟨_, next, ?_⟩
        rw [now, step]
        have taken : taken? t.thread (after lock acquire entry free programs earlier).memory (.inl p) =
            lockStep? t.thread (after lock acquire entry free programs earlier).memory k := by
          rw [taken?, works, Option.bind_some]
        rw [taken]
        cases status : (lock.guardedStep k (after lock acquire entry free programs earlier).memory).status with
        | running k' =>
          left
          have stays : stage (some (.inl (goTo k' p))) = sectionPhase (some k') := by
            rw [stage, work?_goTo works]
            rfl
          simp only [resume, Status.map, Status.label?, stays]
          rfl
        | returned found =>
          rcases resume_returned entry works fun a gave =>
            works_now.fits works ((returns found status).symm.trans gave) with
            ⟨none_found, p', again, works'⟩ | ⟨a, answered, _⟩
          · right
            have again_at : stage (some (.inl p')) = .entering entry := by
              rw [stage, works']
              rfl
            refine ⟨Function.update_self _ _ _, tries, ?_⟩
            simp only [again, Status.map, Status.label?, again_at, Scene.place, Function.update_idem]
            rfl
          · left
            simp only [answered, Status.map, Status.label?]
            rfl
    · refine ⟨_, guarded_next (after lock acquire entry free programs earlier).memory rfl at_l, .inl ?_⟩
      rw [now]
      change Scene.mk _ (Function.update _ _ (stage ((Status.map Sum.inr Sum.inr
        ((lock.guardedStep k _).status.mapAnswer id)).label?))) _ = _
      cases status : (lock.guardedStep k (after lock acquire entry free programs earlier).memory).status <;>
        rfl

end Scene

end LockedStore

end SharedMemory
