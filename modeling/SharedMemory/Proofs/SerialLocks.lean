import Mathlib.Algebra.BigOperators.Group.Finset.Basic
import SharedMemory.Counter
import SharedMemory.Proofs.MixedExclusion

/-!
# Data under the locks there are

Whatever the kind of the lock, the critical sections under it are serial, and a counter that is read and
written in separate steps loses no update. A blocking lock is not looked into: it is any lock that has one
holder at most and that lets everybody in who waits.
-/
namespace SharedMemory

namespace Lock

variable {Memory Label Token Data Result : Type}

/-- Who waits for the lock leaves its entrance with the lock only. -/
def Waits (lock : Lock Memory Label Token) (acquire : Label) : Prop :=
  ∃ Seeks : Label → Prop, Seeks acquire ∧ ∀ l m, Seeks l →
    (∃ l', (lock.step l m).2 = .running l' ∧ Seeks l') ∨
      ∃ token, (lock.step l m).2 = .returned (.acquired token)

section Waits

variable {lock : Lock Memory Label Token} {start : Guarded Memory Data} {acquire : Label}
  {programs : List (List (Label × Section Data Result))} {Seeks : Label → Prop}
  {v v' : SectionView Memory Label Token Data Result} {i : Nat}

/-- All threads that are on their way in wait, and none has been refused. -/
structure Patient (Seeks : Label → Prop) (v : SectionView Memory Label Token Data Result) : Prop where
  given : ∀ i, none ∉ v.answers i
  waiting : ∀ i l body, v.label i = some (.entering l body) → Seeks l

theorem Patient.update {l : Option (SectionLabel Label Token Data Result)} (h : Patient Seeks v)
    (given : ∀ j, none ∉ v'.answers j) (label : v'.label = Function.update v.label i l)
    (seeks : ∀ k body, l = some (.entering k body) → Seeks k) : Patient Seeks v' := by
  refine ⟨given, ?_⟩
  rw [label]
  apply (Function.forall_update_iff v.label fun _ k => ∀ l body, k = some (.entering l body) → Seeks l).mpr
  exact ⟨seeks, fun j _ => h.waiting j⟩

theorem Patient.moves {taken : Option (Taken Nat Memory Label)} {deed : Option (Deed Token Data Result)}
    (h : Patient Seeks v) (first : Seeks acquire) (wait : ∀ c ∈ callsOf programs i, c.1 = acquire)
    (seeks : ∀ l m, Seeks l → (∃ l', (lock.step l m).2 = .running l' ∧ Seeks l') ∨
      ∃ token, (lock.step l m).2 = .returned (.acquired token))
    (step : Moves lock programs i v v' taken deed) : Patient Seeks v' := by
  cases step with
  | rest => exact h
  | begin l body outside next =>
    refine h.update h.given (v.label_enter i _) ?_
    intro k b same
    cases same
    obtain rfl : l = acquire := wait _ (List.mem_of_getElem? next)
    exact first
  | seek l l' body here goes =>
    refine h.update h.given (v.label_move i _ _ _) ?_
    intro k b same
    cases same
    rcases seeks l v.memory.lock (h.waiting i l body here) with ⟨k, runs, seeks⟩ | ⟨token, gives⟩
    · rw [goes] at runs
      cases runs
      exact seeks
    · rw [goes] at gives
      cases gives
  | refuse l body a here gives none_acquired =>
    rcases seeks l v.memory.lock (h.waiting i l body here) with ⟨k, runs, -⟩ | ⟨token, acquires⟩
    · rw [gives] at runs
      cases runs
    · rw [gives] at acquires
      cases acquires
      exact absurd rfl (none_acquired token)
  | acquire | read | write | drop | leave => exact h.update h.given (v.label_move i _ _ _) nofun
  | finish l result a here gives =>
    refine h.update ?_ (v.label_answer i _ _ _) nofun
    rw [View.answers_answer]
    apply (Function.forall_update_iff v.answers fun _ answers => none ∉ answers).mpr
    exact ⟨by simpa using h.given i, fun j _ => h.given j⟩

theorem Waits.granted (h : lock.Waits acquire) (wait : ∀ i, ∀ c ∈ callsOf programs i, c.1 = acquire)
    (schedule : List (Turn Unit)) (i : Nat) :
    none ∉ (lock.sections start programs schedule).answers i := by
  obtain ⟨Seeks, first, seeks⟩ := h
  have patient : Patient Seeks (lock.sections start programs schedule) := by
    induction schedule with
    | nil =>
      rw [sections_nil]
      exact ⟨fun _ => List.not_mem_nil, nofun⟩
    | cons t earlier ih => exact ih.moves first (wait t.thread) seeks (moves t earlier)
  exact patient.given i

end Waits

end Lock

open Lock (Scene Taken)

namespace QueueLock

theorem step_seeks {l : Label} (h : l.leaves = false) (m : Memory) :
    (∃ l', (step l m).2 = .running l' ∧ l'.leaves = false) ∨
      ∃ g, (step l m).2 = .returned (.acquired g) := by
  cases l with
  | look | clear | await | pass => cases h
  | unlink g | raise g | link g before => exact .inl ⟨_, rfl, rfl⟩
  | swap g =>
    rw [step]
    split
    · exact .inr ⟨g, rfl⟩
    · exact .inl ⟨_, rfl, rfl⟩
  | spin g =>
    rw [step]
    split
    · exact .inl ⟨_, rfl, rfl⟩
    · exact .inr ⟨g, rfl⟩

end QueueLock

namespace LockKind

theorem waits (kind : LockKind) : kind.lock.Waits kind.acquire := by
  cases kind with
  | testAndSet | blocking =>
    refine ⟨(· = .seize), rfl, ?_⟩
    rintro l locked rfl
    cases locked
    · exact .inr ⟨(), rfl⟩
    · exact .inl ⟨.seize, rfl, rfl⟩
  | testThenSet =>
    refine ⟨fun l => l = .watch ∨ l = .seize, .inl rfl, ?_⟩
    rintro l locked (rfl | rfl)
    · cases locked
      · exact .inl ⟨.seize, rfl, .inr rfl⟩
      · exact .inl ⟨.watch, rfl, .inl rfl⟩
    · cases locked
      · exact .inr ⟨(), rfl⟩
      · exact .inl ⟨.watch, rfl, .inl rfl⟩
  | ticket =>
    refine ⟨fun l => l = .draw ∨ ∃ ticket, l = .wait ticket, .inl rfl, ?_⟩
    rintro l m (rfl | ⟨ticket, rfl⟩)
    · exact .inl ⟨.wait m.nextTicket, rfl, .inr ⟨_, rfl⟩⟩
    · by_cases served : m.nowServing = ticket
      · exact .inr ⟨ticket, if_pos served⟩
      · exact .inl ⟨.wait ticket, if_neg served, .inr ⟨_, rfl⟩⟩
  | queue =>
    refine ⟨fun l => (∃ k, l = .allocate k) ∨ ∃ k g, l = .within k g ∧ k.leaves = false, .inl ⟨0, rfl⟩, ?_⟩
    rintro l m (⟨k, rfl⟩ | ⟨k, g, rfl, seeks⟩)
    · exact .inl ⟨_, rfl, .inr ⟨_, _, rfl, rfl⟩⟩
    · rcases QueueLock.step_seeks seeks m with ⟨l', runs, seeks⟩ | ⟨token, gives⟩
      · exact .inl ⟨.within l' g, by simp [lock, QueueLock.onOwnNodes, QueueLock.ownStep, runs],
          .inr ⟨l', g, rfl, seeks⟩⟩
      · exact .inr ⟨token, by simp [lock, QueueLock.onOwnNodes, QueueLock.ownStep, gives]⟩

end LockKind

namespace Counter

variable {Memory Label Token : Type}

theorem dataAfter_add {by_ : Value} {done : List (Acquisition Token Value Unit)}
    (adds : ∀ a ∈ done, a.body = add by_) (n : Value) :
    Acquisition.dataAfter n done = n + Int64.ofInt (done.length * by_.toInt) := by
  induction done generalizing n with
  | nil => simp [Acquisition.dataAfter]
  | cons a done ih =>
    have rest := ih (fun b hb => adds b (List.mem_cons_of_mem a hb)) (n + by_)
    have one : ((a :: done).length : Int) * by_.toInt = by_.toInt + done.length * by_.toInt := by
      rw [List.length_cons]
      push_cast
      rw [Int.add_mul, Int.one_mul, Int.add_comm]
    rw [Acquisition.dataAfter, adds a List.mem_cons_self, one, Int64.ofInt_add, Int64.ofInt_toInt,
      ← Int64.add_assoc]
    exact rest

theorem length_acquisitions {n k : Nat} {done : List (Acquisition Token Value Unit)}
    (users : ∀ a ∈ done, a.user < n) (each : ∀ i < n, (done.filter (·.user = i)).length = k) :
    done.length = n * k := by
  have counts (i : Nat) : (done.map Acquisition.user).count i = (done.filter (·.user = i)).length := by
    rw [List.count, List.countP_map, List.countP_eq_length_filter]
    rfl
  have inside : ∀ i ∈ (done.map Acquisition.user : Multiset Nat), i ∈ Finset.range n := by
    simpa using users
  have total := Multiset.sum_count_eq_card inside
  have equal : ∀ i ∈ Finset.range n, Multiset.count i (done.map Acquisition.user : Multiset Nat) = k := by
    intro i hi
    rw [Multiset.coe_count, counts, each i (Finset.mem_range.mp hi)]
  rw [Finset.sum_const_nat equal, Finset.card_range, Multiset.coe_card, List.length_map] at total
  exact total.symm

def adders (threads iters : Nat) (acquire : Label) (by_ : Value) : List (List (Label × Section Value Unit)) :=
  List.replicate threads (List.replicate iters (acquire, add by_))

theorem callsOf_adders (threads iters : Nat) (acquire : Label) (by_ : Value) (i : Nat) :
    callsOf (adders threads iters acquire by_) i =
      if i < threads then List.replicate iters (acquire, add by_) else [] := by
  rw [callsOf, adders, List.getD_eq_getElem?_getD, List.getElem?_replicate]
  split <;> rfl

theorem wait_of_adders {threads iters : Nat} {acquire : Label} {by_ : Value} {i : Nat}
    {c : Label × Section Value Unit} (h : c ∈ callsOf (adders threads iters acquire by_) i) :
    c.1 = acquire := by
  rw [callsOf_adders] at h
  split at h
  · rw [List.eq_of_mem_replicate h]
  · cases h

theorem granted_replicate {n : Nat} {call : Label × Section Value Unit} {answers : List (Option Unit)}
    (length : answers.length = n) (given : none ∉ answers) :
    Lock.granted (List.replicate n call) answers = List.replicate n call.2 := by
  induction answers generalizing n with
  | nil =>
    subst length
    rfl
  | cons a answers ih =>
    subst length
    cases a with
    | none => exact absurd List.mem_cons_self given
    | some result =>
      have rest := ih rfl fun mem => given (List.mem_cons_of_mem _ mem)
      exact congrArg (call.2 :: ·) rest

section Total

variable {lock : Lock Memory Label Token} {free : Memory} {acquire : Label} {threads iters : Nat}
  {by_ : Value} {schedule : List (Turn Unit)}

theorem crew_adders (lock : Lock Memory Label Token) (free : Memory) (acquire : Label)
    (threads iters : Nat) (by_ : Value) :
    crew lock free (List.replicate threads acquire) iters by_ =
      Crew.start lock.guarding.program ⟨free, 0⟩ (adders threads iters acquire by_) := by
  rw [crew, adders, List.map_replicate]

/-- Once all threads have returned they stand outside, and each has made all its calls. -/
theorem ended (returned : ((crew lock free (List.replicate threads acquire) iters by_).after
      lock.guarding.program schedule).answers?.isSome) :
    (∀ i, (lock.sections ⟨free, 0⟩ (adders threads iters acquire by_) schedule).label i = none) ∧
      ∀ i < threads,
        iters ≤ ((lock.sections ⟨free, 0⟩ (adders threads iters acquire by_) schedule).answers i).length := by
  rw [crew_adders] at returned
  have all := Crew.returned_of_answers returned
  have made := lock.guarding.finished_after ⟨free, 0⟩ (adders threads iters acquire by_) schedule
  have length := Crew.length_after lock.guarding.program
    (Crew.start lock.guarding.program ⟨free, 0⟩ (adders threads iters acquire by_)) schedule
  rw [Lock.sections, Algorithm.viewAfter]
  generalize (Crew.start lock.guarding.program ⟨free, 0⟩ (adders threads iters acquire by_)).after
    lock.guarding.program schedule = c at all made length
  constructor
  · intro i
    rw [ProgramCrew.view]
    cases here : c.threads[i]? with
    | none => simp [here]
    | some s =>
      obtain ⟨a, rfl⟩ := all s (List.mem_of_getElem? here)
      simp [here, ProgramStatus.inside]
  · intro i hi
    have bound : i < c.threads.length := by
      rw [length]
      simpa [Crew.start, adders] using hi
    obtain ⟨a, same⟩ := all c.threads[i] (List.getElem_mem bound)
    have here : c.threads[i]? = some (.returned a) := by
      rw [List.getElem?_eq_getElem bound, same]
    have calls := made i a here
    rw [callsOf_adders, if_pos hi, List.length_replicate] at calls
    simpa [ProgramCrew.view, here, ProgramStatus.answers] using calls

theorem sections_taken (serial : lock.Serial ⟨free, 0⟩ (adders threads iters acquire by_) schedule)
    (outside : ∀ i, (lock.sections ⟨free, 0⟩ (adders threads iters acquire by_) schedule).label i = none)
    (made : ∀ i < threads,
      iters ≤ ((lock.sections ⟨free, 0⟩ (adders threads iters acquire by_) schedule).answers i).length)
    (given : ∀ i, none ∉ (lock.sections ⟨free, 0⟩ (adders threads iters acquire by_) schedule).answers i)
    (i : Nat) :
    (lock.deeds ⟨free, 0⟩ (adders threads iters acquire by_) schedule).filterMap (Deed.section? i) =
      if i < threads then List.replicate iters (add by_) else [] := by
  have tells := serial.tells i
  rw [outside, callsOf_adders] at tells
  cases tells with
  | outside most taken _ =>
    rw [taken]
    split
    · next user =>
      rw [if_pos user, List.length_replicate] at most
      exact granted_replicate (Nat.le_antisymm most (made i user)) (given i)
    · rfl

/-- What as many sections amount to as there are calls. -/
theorem dataAfter_taken {done : List (Deed Token Value Unit)}
    (taken : ∀ i, done.filterMap (Deed.section? i) =
      if i < threads then List.replicate iters (add by_) else []) (n : Value) :
    Acquisition.dataAfter n (Lock.acquisitions done) = n + Int64.ofInt (threads * iters * by_.toInt) := by
  have adds : ∀ a ∈ Lock.acquisitions done, a.user < threads ∧ a.body = add by_ := by
    intro a ha
    have mem : a.body ∈ done.filterMap (Deed.section? a.user) := by
      rw [Lock.filterMap_section]
      exact List.mem_map_of_mem (List.mem_filter.mpr ⟨ha, by simp⟩)
    rw [taken] at mem
    split at mem
    · next user => exact ⟨user, List.eq_of_mem_replicate mem⟩
    · cases mem
  have each : ∀ i < threads, ((Lock.acquisitions done).filter (·.user = i)).length = iters := by
    intro i hi
    have length := congrArg List.length (taken i)
    rwa [Lock.filterMap_section, List.length_map, if_pos hi, List.length_replicate] at length
  have count := length_acquisitions (fun a ha => (adds a ha).1) each
  rw [dataAfter_add (fun a ha => (adds a ha).2), count, Int.natCast_mul]

/-- Under a lock whose sections are serial and that lets everybody in, no update of a counter is lost. -/
theorem total (serial : lock.Serial ⟨free, 0⟩ (adders threads iters acquire by_) schedule)
    (waits : lock.Waits acquire)
    (returned : ((crew lock free (List.replicate threads acquire) iters by_).after
      lock.guarding.program schedule).answers?.isSome) :
    ((crew lock free (List.replicate threads acquire) iters by_).after
      lock.guarding.program schedule).memory.data = Int64.ofInt (threads * iters * by_.toInt) := by
  obtain ⟨outside, made⟩ := ended returned
  have taken := sections_taken serial outside made (waits.granted (fun i c => wait_of_adders) schedule)
  obtain ⟨-, now⟩ := serial.quiet fun i t b here => nomatch (outside i).symm.trans here
  have sum := dataAfter_taken taken 0
  rw [Int64.zero_add] at sum
  rw [crew_adders]
  exact now.trans sum

end Total

end Counter

/-- What a lock does for the data it guards. `Roomy` is what it asks of the steps in its code. -/
structure Guards {Memory Label Token : Type} (lock : Lock Memory Label Token) (free : Memory)
    (acquire : Label) (attempt? : Option Label) (Roomy : List (Taken Nat Memory Label) → Prop) : Prop where
  /-- Sections are serial that threads take the lock for, waiting for it or in single attempts. -/
  serial : ∀ (Data Result : Type) (data : Data) (programs : List (List (Label × Section Data Result)))
    (schedule : List (Turn Unit)),
    (∀ i, ∀ c ∈ callsOf programs i, c.1 ∈ acquire :: attempt?.toList) →
      Roomy (lock.lockSteps ⟨free, data⟩ programs schedule) →
        lock.Serial ⟨free, data⟩ programs schedule
  /-- Threads that add to a counter have added all of it when they have returned. -/
  counts : ∀ (threads iters : Nat) (by_ : Value) (schedule : List (Turn Unit)),
    let crew := (Counter.crew lock free (List.replicate threads acquire) iters by_).after
      lock.guarding.program schedule
    Roomy (lock.lockSteps ⟨free, 0⟩ (Counter.adders threads iters acquire by_) schedule) →
      crew.answers?.isSome → crew.memory.data = Int64.ofInt (threads * iters * by_.toInt)

section Guards

variable {Memory Label Token : Type} {lock : Lock Memory Label Token} {free : Memory} {acquire : Label}
  {attempt? : Option Label} {Roomy : List (Taken Nat Memory Label) → Prop}

/-- A lock guards data if it has one holder at most and lets in whoever waits. -/
theorem guards_of_exclusive (earlier : ∀ record record', record <:+ record' → Roomy record' → Roomy record)
    (exclusive : ∀ actions,
      Roomy (Scene.after lock (fun _ => acquire :: attempt?.toList) free actions).record →
        (Scene.after lock (fun _ => acquire :: attempt?.toList) free actions).Exclusive)
    (waits : lock.Waits acquire) : Guards lock free acquire attempt? Roomy := by
  have serial (Data Result : Type) (data : Data) (programs : List (List (Label × Section Data Result)))
      (schedule : List (Turn Unit)) (legal : ∀ i, ∀ c ∈ callsOf programs i, c.1 ∈ acquire :: attempt?.toList)
      (roomy : Roomy (lock.lockSteps ⟨free, data⟩ programs schedule)) :
      lock.Serial ⟨free, data⟩ programs schedule := by
    apply Lock.serial_of_exclusive
    intro moment suffix
    obtain ⟨actions, same⟩ := Lock.lockScene_after legal moment
    have roomy_then := earlier _ _ (Lock.lockSteps_suffix suffix) roomy
    rw [← same]
    apply exclusive actions
    rwa [same]
  refine ⟨serial, ?_⟩
  intro threads iters by_ schedule crew roomy returned
  refine Counter.total (serial _ _ _ _ _ (fun i c hc => ?_) roomy) waits returned
  rw [Counter.wait_of_adders hc]
  exact List.mem_cons_self

end Guards

theorem LockKind.Roomy.earlier {kind : LockKind} {record record' : List (Taken Nat kind.Memory kind.Label)}
    (suffix : record <:+ record') (roomy : kind.Roomy record') : kind.Roomy record := by
  cases kind with
  | ticket => exact Nat.lt_of_le_of_lt (TicketLock.length_drawn_mono suffix) roomy
  | testAndSet | testThenSet | queue | blocking => trivial

theorem LockKind.guards (kind : LockKind) :
    Guards kind.lock kind.free kind.acquire kind.attempt? kind.Roomy :=
  guards_of_exclusive (fun _ _ => Roomy.earlier) kind.exclusive kind.waits

/-- Critical sections are serial under every kind of lock, and under a blocking lock of which nothing is
known but that it has one holder at most and lets in whoever waits. -/
theorem sections_serializable {Memory Label Token : Type} (mutex : Lock Memory Label Token) (free : Memory)
    (acquire attempt : Label)
    (excludes : ∀ actions, (Scene.after mutex (fun _ => [acquire, attempt]) free actions).Exclusive)
    (waits : mutex.Waits acquire) :
    (∀ kind : LockKind, Guards kind.lock kind.free kind.acquire kind.attempt? kind.Roomy) ∧
      Guards mutex free acquire (some attempt) (fun _ => True) :=
  ⟨LockKind.guards, guards_of_exclusive (fun _ _ _ _ => trivial) (fun actions _ => excludes actions) waits⟩

theorem serializable_over_flag :
    (∀ actions, (Scene.after TestAndSet.lock (fun _ => [.seize, .attempt]) false actions).Exclusive) ∧
      TestAndSet.lock.Waits .seize ∧
      Guards TestAndSet.lock false .seize (some .attempt) fun _ => True := by
  have seeks : ∀ l ∈ [TestAndSet.Label.seize, .attempt], l ≠ .clear := by decide
  have excludes := TestAndSet.flag_of_both.exclusive seeks
  have waits : TestAndSet.lock.Waits .seize := LockKind.waits .testAndSet
  exact ⟨excludes, waits, (sections_serializable TestAndSet.lock false .seize .attempt excludes waits).2⟩

/-- Thread 1 comes while thread 0 has read the counter and has not written it yet. -/
example :
    let schedule : List (Turn Unit) :=
      ([0, 0, 0, 1, 1, 0, 0, 0, 0, 1, 1, 1, 1, 1, 1].map fun i => ⟨i, ()⟩).reverse
    let crew := (Counter.crew TestAndSet.lock false [.seize, .seize] 1 5).after
      TestAndSet.lock.guarding.program schedule
    crew.answers? = some [[some ()], [some ()]] ∧ crew.memory.data = 10 :=
  ⟨rfl, rfl⟩

end SharedMemory
