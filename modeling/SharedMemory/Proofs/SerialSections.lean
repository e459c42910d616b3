import Mathlib.Data.List.ReduceOption
import SharedMemory.CriticalSection
import SharedMemory.Proofs.LockUsers

/-!
# Critical sections in the order of their acquisitions

Threads run programs of critical sections under one lock, and what they do is recorded: who took the
lock for which section, what was read from the data and written to it, and who let go. While at most one
of them is inside, the record is that of the sections run whole, one after another, in the order in which
the lock was taken, up to what the section of the present moment has still to do.

Programs are arbitrary lists of sections. This leaves out nothing: under a given schedule, a thread that
chooses its next section by what it has read so far does what the list of its choices does.
-/
namespace SharedMemory

section Sequence

variable {Token Data Result : Type}

/-- What a thread does with the guard that it has got for a section. -/
inductive Deed (Token Data Result : Type)
  | took (user : Nat) (token : Token) (body : Section Data Result)
  | read (user : Nat) (data : Data)
  | wrote (user : Nat) (data : Data)
  | dropped (user : Nat) (token : Token) (result : Result)

/-- A section that the lock has been taken for, by whom and with which token. -/
structure Acquisition (Token Data Result : Type) where
  user : Nat
  token : Token
  body : Section Data Result

namespace Deed

def acquisition? : Deed Token Data Result → Option (Acquisition Token Data Result)
  | .took user token body => some ⟨user, token, body⟩
  | _ => none

def section? (i : Nat) : Deed Token Data Result → Option (Section Data Result)
  | .took user _ body => if user = i then some body else none
  | _ => none

def result? (i : Nat) : Deed Token Data Result → Option Result
  | .dropped user _ result => if user = i then some result else none
  | _ => none

end Deed

/-- What a user does in a section that nobody disturbs. -/
def Section.deeds (user : Nat) (token : Token) : Section Data Result → Data → List (Deed Token Data Result)
  | .leave result, _ => [.dropped user token result]
  | .read next, data => .read user data :: (next data).deeds user token data
  | .write data next, _ => .wrote user data :: next.deeds user token data

namespace Acquisition

def deeds (a : Acquisition Token Data Result) (data : Data) : List (Deed Token Data Result) :=
  .took a.user a.token a.body :: a.body.deeds a.user a.token data

def dataAfter (data : Data) : List (Acquisition Token Data Result) → Data
  | [] => data
  | a :: later => dataAfter (a.body.run data).1 later

def allDeeds (data : Data) : List (Acquisition Token Data Result) → List (Deed Token Data Result)
  | [] => []
  | a :: later => a.deeds data ++ allDeeds (a.body.run data).1 later

variable (data : Data) (earlier : List (Acquisition Token Data Result)) (a : Acquisition Token Data Result)

theorem dataAfter_concat : dataAfter data (earlier ++ [a]) = (a.body.run (dataAfter data earlier)).1 := by
  induction earlier generalizing data with
  | nil => rfl
  | cons b earlier ih => exact ih (b.body.run data).1

theorem allDeeds_concat :
    allDeeds data (earlier ++ [a]) = allDeeds data earlier ++ a.deeds (dataAfter data earlier) := by
  induction earlier generalizing data with
  | nil => rw [List.nil_append, allDeeds, allDeeds, allDeeds, List.append_nil, List.nil_append, dataAfter]
  | cons b earlier ih => rw [List.cons_append, allDeeds, allDeeds, dataAfter, ih, List.append_assoc]

end Acquisition

end Sequence

namespace Lock

variable {Memory Label Token Data Result : Type}

abbrev SectionView (Memory Label Token Data Result : Type) : Type :=
  View (Guarded Memory Data) (SectionLabel Label Token Data Result) (Option Result)

def sectionPhase : Option (SectionLabel Label Token Data Result) → Phase Label Token
  | none => .outside
  | some (.entering l _) => .entering l
  | some (.inside token _) => .holding token
  | some (.leaving l _) => .leaving l

variable (lock : Lock Memory Label Token)

def lockStep? (user : Nat) (m : Guarded Memory Data) :
    SectionLabel Label Token Data Result → Option (Taken Nat Memory Label)
  | .entering l _ | .leaving l _ => some ⟨user, l, m.lock⟩
  | .inside _ _ => none

/-- What a thread does with its guard there. -/
def deed? (user : Nat) (m : Guarded Memory Data) :
    SectionLabel Label Token Data Result → Option (Deed Token Data Result)
  | .entering l body =>
    match (lock.step l m.lock).2 with
    | .returned (.acquired token) => some (.took user token body)
    | _ => none
  | .inside _ (.read _) => some (.read user m.data)
  | .inside _ (.write data _) => some (.wrote user data)
  | .inside token (.leave result) => some (.dropped user token result)
  | .leaving _ _ => none

variable (start : Guarded Memory Data) (programs : List (List (Label × Section Data Result)))

def sections (schedule : List (Turn Unit)) : SectionView Memory Label Token Data Result :=
  lock.guarding.viewAfter start programs schedule

/-- Oldest first. -/
def deeds : List (Turn Unit) → List (Deed Token Data Result)
  | [] => []
  | t :: earlier =>
    let v := lock.sections start programs earlier
    deeds earlier ++ ((v.label t.thread).bind (lock.deed? t.thread v.memory)).toList

/-- Newest first. -/
def lockSteps : List (Turn Unit) → List (Taken Nat Memory Label)
  | [] => []
  | t :: earlier =>
    let v := lock.sections start programs earlier
    ((v.label t.thread).bind (lockStep? t.thread v.memory)).toList ++ lockSteps earlier

def lockScene (schedule : List (Turn Unit)) : Scene Nat Memory Label Token :=
  ⟨(lock.sections start programs schedule).memory.lock,
    fun i => sectionPhase ((lock.sections start programs schedule).label i),
    lock.lockSteps start programs schedule⟩

/-- The ways in which the turn of thread `i` changes what threads show, with the step that it takes in the
lock's code and what it does with its guard. -/
inductive Moves (i : Nat) (v : SectionView Memory Label Token Data Result) :
    SectionView Memory Label Token Data Result → Option (Taken Nat Memory Label) →
      Option (Deed Token Data Result) → Prop
  | rest : Moves i v v none none
  | begin (l : Label) (body : Section Data Result) (outside : v.label i = none)
      (next : (callsOf programs i)[(v.answers i).length]? = some (l, body)) :
      Moves i v (v.enter i (.entering l body)) none none
  | seek (l l' : Label) (body : Section Data Result) (here : v.label i = some (.entering l body))
      (goes : (lock.step l v.memory.lock).2 = .running l') :
      Moves i v (v.move i ⟨(lock.step l v.memory.lock).1, v.memory.data⟩ (.entering l' body) [])
        (some ⟨i, l, v.memory.lock⟩) none
  | acquire (l : Label) (token : Token) (body : Section Data Result)
      (here : v.label i = some (.entering l body))
      (gives : (lock.step l v.memory.lock).2 = .returned (.acquired token)) :
      Moves i v (v.move i ⟨(lock.step l v.memory.lock).1, v.memory.data⟩ (.inside token body) [])
        (some ⟨i, l, v.memory.lock⟩) (some (.took i token body))
  | refuse (l : Label) (body : Section Data Result) (a : LockAnswer Token)
      (here : v.label i = some (.entering l body)) (gives : (lock.step l v.memory.lock).2 = .returned a)
      (none_acquired : ∀ token, a ≠ .acquired token) :
      Moves i v (v.answer i ⟨(lock.step l v.memory.lock).1, v.memory.data⟩ none [])
        (some ⟨i, l, v.memory.lock⟩) none
  | read (token : Token) (next : Data → Section Data Result)
      (here : v.label i = some (.inside token (.read next))) :
      Moves i v (v.move i v.memory (.inside token (next v.memory.data)) []) none
        (some (.read i v.memory.data))
  | write (token : Token) (data : Data) (next : Section Data Result)
      (here : v.label i = some (.inside token (.write data next))) :
      Moves i v (v.move i ⟨v.memory.lock, data⟩ (.inside token next) []) none (some (.wrote i data))
  | drop (token : Token) (result : Result) (here : v.label i = some (.inside token (.leave result))) :
      Moves i v (v.move i v.memory (.leaving (lock.release token) result) []) none
        (some (.dropped i token result))
  | leave (l l' : Label) (result : Result) (here : v.label i = some (.leaving l result))
      (goes : (lock.step l v.memory.lock).2 = .running l') :
      Moves i v (v.move i ⟨(lock.step l v.memory.lock).1, v.memory.data⟩ (.leaving l' result) [])
        (some ⟨i, l, v.memory.lock⟩) none
  | finish (l : Label) (result : Result) (a : LockAnswer Token)
      (here : v.label i = some (.leaving l result)) (gives : (lock.step l v.memory.lock).2 = .returned a) :
      Moves i v (v.answer i ⟨(lock.step l v.memory.lock).1, v.memory.data⟩ (some result) [])
        (some ⟨i, l, v.memory.lock⟩) none

variable {lock start programs}

theorem moves_take {v : SectionView Memory Label Token Data Result} {i : Nat}
    {l : SectionLabel Label Token Data Result} (here : v.label i = some l) :
    Moves lock programs i v (v.take i (lock.guardedStep l v.memory)) (lockStep? i v.memory l)
      (lock.deed? i v.memory l) := by
  obtain ⟨⟨m, data⟩, label, answers, trace⟩ := v
  cases l with
  | entering l body =>
    cases status : (lock.step l m).2 with
    | running l' =>
      simpa [guardedStep, View.take, status, deed?, lockStep?] using Moves.seek l l' body here status
    | returned a =>
      cases a with
      | acquired token =>
        simpa [guardedStep, View.take, status, deed?, lockStep?] using
          Moves.acquire l token body here status
      | refused | released =>
        simpa [guardedStep, View.take, status, deed?, lockStep?] using
          Moves.refuse l body _ here status (by simp)
  | inside token body =>
    cases body with
    | leave result => exact .drop token result here
    | read next => exact .read token next here
    | write data' next => exact .write token data' next here
  | leaving l result =>
    cases status : (lock.step l m).2 with
    | running l' =>
      simpa [guardedStep, View.take, status, deed?, lockStep?] using Moves.leave l l' result here status
    | returned a =>
      simpa [guardedStep, View.take, status, deed?, lockStep?] using Moves.finish l result a here status

theorem moves (t : Turn Unit) (earlier : List (Turn Unit)) :
    Moves lock programs t.thread (lock.sections start programs earlier)
      (lock.sections start programs (t :: earlier))
      (((lock.sections start programs earlier).label t.thread).bind
        (lockStep? t.thread (lock.sections start programs earlier).memory))
      (((lock.sections start programs earlier).label t.thread).bind
        (lock.deed? t.thread (lock.sections start programs earlier).memory)) := by
  have step := lock.guarding.viewAfter_cons start programs t earlier
  rcases step.rest_or_enter_or_take with ⟨outside, same⟩ | ⟨c, outside, next, same⟩ | ⟨l, here, same⟩
  · rw [sections, sections, same, outside]
    exact .rest
  · rw [sections, sections, same, outside]
    exact .begin c.1 c.2 outside next
  · rw [sections, sections, same, here]
    exact moves_take here

theorem Moves.next {v v' : SectionView Memory Label Token Data Result} {i : Nat}
    {taken : Option (Taken Nat Memory Label)} {deed : Option (Deed Token Data Result)}
    {record : List (Taken Nat Memory Label)} {entrances : Nat → List Label}
    (h : Moves lock programs i v v' taken deed)
    (legal : ∀ c ∈ callsOf programs i, c.1 ∈ entrances i) :
    (Scene.mk v.memory.lock (fun j => sectionPhase (v.label j)) record).Next lock entrances
      (Scene.mk v'.memory.lock (fun j => sectionPhase (v'.label j)) (taken.toList ++ record)) := by
  have phases (l : Option (SectionLabel Label Token Data Result)) :
      (fun j => sectionPhase (Function.update v.label i l j)) =
        Function.update (fun j => sectionPhase (v.label j)) i (sectionPhase l) := by
    funext j
    by_cases same : j = i
    · rw [same, Function.update_self, Function.update_self]
    · rw [Function.update_of_ne same, Function.update_of_ne same]
  have stays {token : Token} {body : Section Data Result} (next : Section Data Result)
      (here : v.label i = some (.inside token body)) :
      (fun j => sectionPhase (Function.update v.label i (some (.inside token next)) j)) =
        fun j => sectionPhase (v.label j) := by
    have same : sectionPhase (some (.inside token next)) = sectionPhase (v.label i) := by
      rw [here]
      rfl
    rw [phases, same]
    exact Function.update_eq_self i _
  have seeks {l : Label} {body : Section Data Result} (here : v.label i = some (.entering l body)) :
      (Scene.mk v.memory.lock (fun j => sectionPhase (v.label j)) record).Next lock entrances
        ⟨(lock.step l v.memory.lock).1, Function.update (fun j => sectionPhase (v.label j)) i
          (.afterEnter (lock.step l v.memory.lock).2), ⟨i, l, v.memory.lock⟩ :: record⟩ :=
    .seek i l (congrArg sectionPhase here)
  have leaves {l : Label} {result : Result} (here : v.label i = some (.leaving l result)) :
      (Scene.mk v.memory.lock (fun j => sectionPhase (v.label j)) record).Next lock entrances
        ⟨(lock.step l v.memory.lock).1, Function.update (fun j => sectionPhase (v.label j)) i
          (.afterLeave (lock.step l v.memory.lock).2), ⟨i, l, v.memory.lock⟩ :: record⟩ :=
    .leave i l (congrArg sectionPhase here)
  cases h with
  | rest => exact .rest
  | begin l body outside next =>
    simp only [View.label_enter, phases]
    exact .enter i l (congrArg sectionPhase outside) (legal _ (List.mem_of_getElem? next))
  | seek l l' body here goes =>
    simp only [View.label_move, phases]
    have step := seeks here
    rwa [goes] at step
  | acquire l token body here gives =>
    simp only [View.label_move, phases]
    have step := seeks here
    rwa [gives] at step
  | refuse l body a here gives none_acquired =>
    simp only [View.label_answer, phases]
    have step := seeks here
    rw [gives] at step
    cases a with
    | acquired token => exact absurd rfl (none_acquired token)
    | refused | released => exact step
  | read token next here =>
    simp only [View.label_move]
    rw [stays (next v.memory.data) here]
    exact .rest
  | write token data next here =>
    simp only [View.label_move]
    rw [stays next here]
    exact .rest
  | drop token result here =>
    simp only [View.label_move, phases]
    exact .giveUp i token (congrArg sectionPhase here)
  | leave l l' result here goes =>
    simp only [View.label_move, phases]
    have step := leaves here
    rwa [goes] at step
  | finish l result a here gives =>
    simp only [View.label_answer, phases]
    have step := leaves here
    rwa [gives] at step

theorem lockScene_next {entrances : Nat → List Label}
    (legal : ∀ i, ∀ c ∈ callsOf programs i, c.1 ∈ entrances i) (t : Turn Unit) (earlier : List (Turn Unit)) :
    (lock.lockScene start programs earlier).Next lock entrances
      (lock.lockScene start programs (t :: earlier)) :=
  (moves t earlier).next (legal t.thread)

theorem lockSteps_suffix {moment schedule : List (Turn Unit)} (suffix : moment <:+ schedule) :
    lock.lockSteps start programs moment <:+ lock.lockSteps start programs schedule :=
  Turn.later (P := fun later => lock.lockSteps start programs moment <:+ lock.lockSteps start programs later)
    (fun _ _ steps => steps.trans (List.suffix_append _ _)) suffix List.suffix_rfl

/-- What the lock sees of the sections is a run of its users. -/
theorem lockScene_after {entrances : Nat → List Label}
    (legal : ∀ i, ∀ c ∈ callsOf programs i, c.1 ∈ entrances i) (schedule : List (Turn Unit)) :
    ∃ actions, Scene.after lock entrances start.lock actions = lock.lockScene start programs schedule := by
  induction schedule with
  | nil =>
    have start : lock.lockScene start programs [] = ⟨start.lock, fun _ => .outside, []⟩ := by
      rw [lockScene, sections, Algorithm.viewAfter_nil]
      rfl
    exact ⟨[], start.symm⟩
  | cons t earlier ih => exact Scene.exists_after ih (lockScene_next legal t earlier)

def acquisitions (deeds : List (Deed Token Data Result)) : List (Acquisition Token Data Result) :=
  deeds.filterMap Deed.acquisition?

open Acquisition (allDeeds dataAfter)

/-- What has been done is what the sections do that the lock was taken for, one after another, but for
what the thread that is inside has still to do. -/
inductive Course (data : Data) (v : SectionView Memory Label Token Data Result)
    (deeds : List (Deed Token Data Result)) : Prop
  | quiet (out : ∀ i token body, v.label i ≠ some (.inside token body))
      (all : deeds = allDeeds data (acquisitions deeds))
      (now : v.memory.data = dataAfter data (acquisitions deeds)) : Course data v deeds
  | live (i : Nat) (token : Token) (body : Section Data Result)
      (here : v.label i = some (.inside token body))
      (alone : ∀ j token body, v.label j = some (.inside token body) → j = i)
      (all : deeds ++ body.deeds i token v.memory.data = allDeeds data (acquisitions deeds))
      (now : (body.run v.memory.data).1 = dataAfter data (acquisitions deeds)) : Course data v deeds

section Course

variable {data : Data} {v v' : SectionView Memory Label Token Data Result} {i : Nat} {token : Token}
  {body next : Section Data Result} {done : List (Deed Token Data Result)}

theorem filterMap_section (i : Nat) (done : List (Deed Token Data Result)) :
    done.filterMap (Deed.section? i) = ((acquisitions done).filter (·.user = i)).map Acquisition.body := by
  induction done with
  | nil => rfl
  | cons d done ih =>
    cases d with
    | read | wrote | dropped => exact ih
    | took user token body =>
      have taken : acquisitions (.took user token body :: done) = ⟨user, token, body⟩ :: acquisitions done :=
        rfl
      rw [taken, List.filter_cons, List.filterMap_cons, ih, Deed.section?]
      by_cases same : user = i
      · simp [same]
      · simp [same]

theorem acquisitions_append (done more : List (Deed Token Data Result)) :
    acquisitions (done ++ more) = acquisitions done ++ acquisitions more :=
  List.filterMap_append

/-- A thread that is inside is the only one, and what is missing is what it has still to do. -/
theorem Course.of_inside (h : Course data v done) (here : v.label i = some (.inside token body)) :
    (∀ j token body, v.label j = some (.inside token body) → j = i) ∧
      done ++ body.deeds i token v.memory.data = allDeeds data (acquisitions done) ∧
      (body.run v.memory.data).1 = dataAfter data (acquisitions done) := by
  cases h with
  | quiet out all now => exact absurd here (out i token body)
  | live j token' body' at_j alone all now =>
    obtain rfl := alone i token body here
    rw [here] at at_j
    cases at_j
    exact ⟨alone, all, now⟩

theorem Course.of_none (h : Course data v done)
    (out : ∀ i token body, v.label i ≠ some (.inside token body)) :
    done = allDeeds data (acquisitions done) ∧ v.memory.data = dataAfter data (acquisitions done) := by
  cases h with
  | quiet _ all now => exact ⟨all, now⟩
  | live j token body here => exact absurd here (out j token body)

/-- A thread moves that is inside neither before nor after. -/
theorem Course.outer {l : Option (SectionLabel Label Token Data Result)} (h : Course data v done)
    (before : ∀ token body, v.label i ≠ some (.inside token body))
    (label : v'.label = Function.update v.label i l)
    (after : ∀ token body, l ≠ some (.inside token body)) (same : v'.memory.data = v.memory.data) :
    Course data v' done := by
  have inside (j : Nat) (token : Token) (body : Section Data Result) :
      v'.label j = some (.inside token body) ↔ v.label j = some (.inside token body) := by
    rw [label]
    by_cases hj : j = i
    · rw [hj, Function.update_self]
      exact iff_of_false (after token body) (before token body)
    · rw [Function.update_of_ne hj]
  cases h with
  | quiet out all now =>
    refine .quiet (fun j token body here => ?_) all (same.trans now)
    exact out j token body ((inside j token body).mp here)
  | live j token body here alone all now =>
    rw [← same] at all now
    refine .live j token body ((inside j token body).mpr here) (fun k t b there => ?_) all now
    exact alone k t b ((inside k t b).mp there)

theorem Course.goes {more : List (Deed Token Data Result)} (h : Course data v done)
    (here : v.label i = some (.inside token body)) {l : SectionLabel Label Token Data Result}
    (label : v'.label = Function.update v.label i (some l)) (at_l : l = .inside token next)
    (none_taken : acquisitions more = [])
    (deeds : more ++ next.deeds i token v'.memory.data = body.deeds i token v.memory.data)
    (run : (next.run v'.memory.data).1 = (body.run v.memory.data).1) :
    Course data v' (done ++ more) := by
  obtain ⟨alone, all, now⟩ := h.of_inside here
  have same : acquisitions (done ++ more) = acquisitions done := by
    rw [acquisitions_append, none_taken, List.append_nil]
  refine .live i token next ?_ (fun j token body there => ?_) ?_ ?_
  · rw [label, Function.update_self, at_l]
  · by_cases hj : j = i
    · exact hj
    · rw [label, Function.update_of_ne hj] at there
      exact alone j token body there
  · rw [same, List.append_assoc, deeds, all]
  · rw [same, run, now]

theorem Course.moves {taken : Option (Taken Nat Memory Label)} {deed : Option (Deed Token Data Result)}
    (h : Course data v done) (step : Moves lock programs i v v' taken deed)
    (exclusive : ∀ j k t u b c, v'.label j = some (.inside t b) → v'.label k = some (.inside u c) → j = k) :
    Course data v' (done ++ deed.toList) := by
  cases step with
  | rest =>
    rw [Option.toList, List.append_nil]
    exact h
  | begin l body outside next =>
    rw [Option.toList, List.append_nil]
    exact h.outer (fun _ _ there => nomatch outside.symm.trans there) (v.label_enter i _) nofun rfl
  | seek l l' body here goes | leave l l' result here goes =>
    rw [Option.toList, List.append_nil]
    exact h.outer (fun _ _ there => nomatch here.symm.trans there) (v.label_move i _ _ _) nofun rfl
  | acquire l token body here gives =>
    have label := v.label_move i ⟨(lock.step l v.memory.lock).1, v.memory.data⟩ (.inside token body) []
    have mine := (congrFun label i).trans (Function.update_self i _ _)
    -- whoever was inside still is, so nobody was
    have out (j : Nat) (t : Token) (b : Section Data Result) : v.label j ≠ some (.inside t b) := by
      intro there
      have other : j ≠ i := by
        rintro rfl
        exact nomatch here.symm.trans there
      refine other (exclusive j i t token b body ?_ mine)
      rw [label, Function.update_of_ne other, there]
    obtain ⟨all, now⟩ := h.of_none out
    have taken : acquisitions (done ++ [.took i token body]) = acquisitions done ++ [⟨i, token, body⟩] := by
      rw [acquisitions_append]
      rfl
    refine .live i token body mine (fun j t b there => exclusive j i t token b body there mine) ?_ ?_
    · rw [Option.toList, taken, Acquisition.allDeeds_concat, ← all, ← now, List.append_assoc]
      rfl
    · rw [Option.toList, taken, Acquisition.dataAfter_concat, ← now]
      rfl
  | refuse l body a here gives | finish l result a here gives =>
    rw [Option.toList, List.append_nil]
    exact h.outer (fun _ _ there => nomatch here.symm.trans there) (v.label_answer i _ _ _) nofun rfl
  | read token next here | write token data next here =>
    exact h.goes here (v.label_move i _ _ _) rfl rfl rfl rfl
  | drop token result here =>
    obtain ⟨alone, all, now⟩ := h.of_inside here
    have label := v.label_move i v.memory (.leaving (lock.release token) result) []
    have same : acquisitions (done ++ [.dropped i token result]) = acquisitions done := by
      rw [acquisitions_append]
      exact List.append_nil _
    refine .quiet (fun j t b there => ?_) ?_ ?_
    · rw [label] at there
      by_cases hj : j = i
      · rw [hj, Function.update_self] at there
        cases there
      · rw [Function.update_of_ne hj] at there
        exact hj (alone j t b there)
    · rw [Option.toList, same]
      exact all
    · rw [Option.toList, same]
      exact now

end Course

def granted (calls : List (Label × Section Data Result)) (answers : List (Option Result)) :
    List (Section Data Result) :=
  (calls.zip answers).filterMap fun p => p.2.map fun _ => p.1.2

/-- What a user has taken the lock for, and with what results, from what it has been answered and where it
stands: every call that is not refused is one acquisition and one release. -/
inductive Tells (calls : List (Label × Section Data Result)) (answers : List (Option Result))
    (taken : List (Section Data Result)) (results : List Result) :
    Option (SectionLabel Label Token Data Result) → Prop
  | outside (made : answers.length ≤ calls.length) (sections : taken = granted calls answers)
      (told : results = answers.reduceOption) : Tells calls answers taken results none
  | entering {l entrance : Label} {body : Section Data Result}
      (present : calls[answers.length]? = some (entrance, body)) (sections : taken = granted calls answers)
      (told : results = answers.reduceOption) : Tells calls answers taken results (some (.entering l body))
  | inside {token : Token} {rest : Section Data Result} {call : Label × Section Data Result}
      (present : calls[answers.length]? = some call) (sections : taken = granted calls answers ++ [call.2])
      (told : results = answers.reduceOption) : Tells calls answers taken results (some (.inside token rest))
  | leaving {l : Label} {result : Result} {call : Label × Section Data Result}
      (present : calls[answers.length]? = some call) (sections : taken = granted calls answers ++ [call.2])
      (told : results = answers.reduceOption ++ [result]) :
      Tells calls answers taken results (some (.leaving l result))

section Tells

variable {calls : List (Label × Section Data Result)} {answers : List (Option Result)}
  {call : Label × Section Data Result} {v v' : SectionView Memory Label Token Data Result} {i : Nat}
  {done : List (Deed Token Data Result)}

theorem granted_concat (present : calls[answers.length]? = some call) (a : Option Result) :
    granted calls (answers ++ [a]) = granted calls answers ++ (a.map fun _ => call.2).toList := by
  induction calls generalizing answers with
  | nil => cases present
  | cons c calls ih =>
    cases answers with
    | nil =>
      obtain rfl := Option.some.inj present
      cases a <;> simp [granted]
    | cons b answers =>
      have later := @ih answers present
      cases b with
      | none => exact later
      | some result => exact congrArg (c.2 :: ·) later

theorem Tells.answered {taken : List (Section Data Result)} {results : List Result}
    (present : calls[answers.length]? = some call) (a : Option Result)
    (sections : taken = granted calls answers ++ (a.map fun _ => call.2).toList)
    (told : results = answers.reduceOption ++ a.toList) :
    Tells calls (answers ++ [a]) taken results (none : Option (SectionLabel Label Token Data Result)) := by
  refine .outside ?_ ?_ ?_
  · rw [List.length_append]
    exact (List.getElem?_eq_some_iff.mp present).1
  · rw [sections, granted_concat present]
  · rw [told, List.reduceOption_append, List.reduceOption_singleton]

theorem Moves.elsewhere {taken : Option (Taken Nat Memory Label)} {deed : Option (Deed Token Data Result)}
    {j : Nat} (step : Moves lock programs i v v' taken deed) (other : j ≠ i) :
    v'.label j = v.label j ∧ v'.answers j = v.answers j ∧
      deed.toList.filterMap (Deed.section? j) = [] ∧ deed.toList.filterMap (Deed.result? j) = [] := by
  cases step
  all_goals simp [other, other.symm, Deed.section?, Deed.result?]

theorem Tells.moves {taken : Option (Taken Nat Memory Label)} {deed : Option (Deed Token Data Result)}
    (h : ∀ i, Tells (callsOf programs i) (v.answers i) (done.filterMap (Deed.section? i))
      (done.filterMap (Deed.result? i)) (v.label i))
    (step : Moves lock programs i v v' taken deed) (j : Nat) :
    Tells (callsOf programs j) (v'.answers j) ((done ++ deed.toList).filterMap (Deed.section? j))
      ((done ++ deed.toList).filterMap (Deed.result? j)) (v'.label j) := by
  rw [List.filterMap_append, List.filterMap_append]
  have tells := h j
  by_cases same : j = i
  · subst same
    cases step with
    | rest => simpa using tells
    | begin l body outside next =>
      rw [outside] at tells
      rw [View.label_enter, Function.update_self]
      cases tells with
      | outside made sections told => exact .entering next (by simp [sections]) (by simp [told])
    | seek l l' body here goes =>
      rw [here] at tells
      rw [View.label_move, Function.update_self]
      cases tells with
      | entering present sections told => exact .entering present (by simp [sections]) (by simp [told])
    | acquire l token body here gives =>
      rw [here] at tells
      rw [View.label_move, Function.update_self]
      cases tells with
      | entering present sections told =>
        refine .inside present ?_ ?_
        · simp [sections, Deed.section?]
        · simp [told, Deed.result?, List.filterMap_cons]
    | refuse l body a here gives none_acquired =>
      rw [here] at tells
      rw [View.label_answer, Function.update_self, View.answers_answer, Function.update_self]
      cases tells with
      | entering present sections told => exact .answered present none (by simp [sections]) (by simp [told])
    | read token next here | write token data next here =>
      rw [here] at tells
      rw [View.label_move, Function.update_self]
      cases tells with
      | inside present sections told =>
        refine .inside present ?_ ?_
        · simp [sections, Deed.section?, List.filterMap_cons]
        · simp [told, Deed.result?, List.filterMap_cons]
    | drop token result here =>
      rw [here] at tells
      rw [View.label_move, Function.update_self]
      cases tells with
      | inside present sections told =>
        refine .leaving present ?_ ?_
        · simp [sections, Deed.section?, List.filterMap_cons]
        · simp [told, Deed.result?]
    | leave l l' result here goes =>
      rw [here] at tells
      rw [View.label_move, Function.update_self]
      cases tells with
      | leaving present sections told => exact .leaving present (by simp [sections]) (by simp [told])
    | finish l result a here gives =>
      rw [here] at tells
      rw [View.label_answer, Function.update_self, View.answers_answer, Function.update_self]
      cases tells with
      | leaving present sections told =>
        exact .answered present (some result) (by simp [sections]) (by simp [told])
  · obtain ⟨label, answers, section_none, result_none⟩ := step.elsewhere same
    rw [label, answers, section_none, result_none, List.append_nil, List.append_nil]
    exact tells

end Tells

/-- What critical sections under a lock amount to, however the steps of their threads interleave. -/
structure Serial (lock : Lock Memory Label Token) (start : Guarded Memory Data)
    (programs : List (List (Label × Section Data Result))) (schedule : List (Turn Unit)) : Prop where
  /-- At most one guard is live. -/
  alone : ∀ i j t u b c, (lock.sections start programs schedule).label i = some (.inside t b) →
    (lock.sections start programs schedule).label j = some (.inside u c) → i = j
  /-- While none is, the reads, the writes, the drops and the data are those of the sections run one after
  another in the order in which the lock was taken for them. -/
  quiet : (∀ i t b, (lock.sections start programs schedule).label i ≠ some (.inside t b)) →
    let done := lock.deeds start programs schedule
    done = allDeeds start.data (acquisitions done) ∧
      (lock.sections start programs schedule).memory.data = dataAfter start.data (acquisitions done)
  /-- While one is, they are once the section has been run to its end from where it stands. -/
  live : ∀ i t b, (lock.sections start programs schedule).label i = some (.inside t b) →
    let done := lock.deeds start programs schedule
    let data := (lock.sections start programs schedule).memory.data
    done ++ b.deeds i t data = allDeeds start.data (acquisitions done) ∧
      (b.run data).1 = dataAfter start.data (acquisitions done)
  /-- Each user takes the lock for the calls of its program that are not refused, in their order, and each
  of these calls answers the result of its section. -/
  tells : ∀ i, Tells (callsOf programs i) ((lock.sections start programs schedule).answers i)
    ((lock.deeds start programs schedule).filterMap (Deed.section? i))
    ((lock.deeds start programs schedule).filterMap (Deed.result? i))
    ((lock.sections start programs schedule).label i)

def Scene.Exclusive (s : Scene Nat Memory Label Token) : Prop :=
  ∀ i j t u, s.phases i = .holding t → s.phases j = .holding u → i = j

theorem sections_nil : lock.sections start programs [] = .start start :=
  lock.guarding.viewAfter_nil start programs

theorem tells (schedule : List (Turn Unit)) (i : Nat) :
    Tells (callsOf programs i) ((lock.sections start programs schedule).answers i)
      ((lock.deeds start programs schedule).filterMap (Deed.section? i))
      ((lock.deeds start programs schedule).filterMap (Deed.result? i))
      ((lock.sections start programs schedule).label i) := by
  induction schedule generalizing i with
  | nil =>
    rw [sections_nil]
    exact .outside (Nat.zero_le _) (by simp [deeds, granted, View.start]) rfl
  | cons t earlier ih => exact Tells.moves ih (moves t earlier) i

/-- Under a lock that has had one holder at most at every moment so far, critical sections are serial. -/
theorem serial_of_exclusive {schedule : List (Turn Unit)}
    (exclusive : ∀ moment, moment <:+ schedule → (lock.lockScene start programs moment).Exclusive) :
    Serial lock start programs schedule := by
  have alone (moment : List (Turn Unit)) (suffix : moment <:+ schedule) (i j : Nat) (t u : Token)
      (b c : Section Data Result) (hi : (lock.sections start programs moment).label i = some (.inside t b))
      (hj : (lock.sections start programs moment).label j = some (.inside u c)) : i = j :=
    exclusive moment suffix i j t u (congrArg sectionPhase hi) (congrArg sectionPhase hj)
  have course (moment : List (Turn Unit)) (suffix : moment <:+ schedule) :
      Course start.data (lock.sections start programs moment) (lock.deeds start programs moment) := by
    induction moment with
    | nil =>
      rw [sections_nil]
      exact .quiet nofun rfl rfl
    | cons t earlier ih =>
      have before := ih ((List.suffix_cons t earlier).trans suffix)
      exact before.moves (moves t earlier) (alone _ suffix)
  have now := course schedule List.suffix_rfl
  exact ⟨alone schedule List.suffix_rfl, now.of_none, fun i t b here => (now.of_inside here).2,
    tells schedule⟩

end Lock

end SharedMemory
