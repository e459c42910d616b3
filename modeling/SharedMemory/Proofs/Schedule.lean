import Mathlib.Logic.Function.Basic
import Mathlib.Data.List.Infix
import SharedMemory.Interleaving
import SharedMemory.Program

/-!
# Schedules, and what a crew of programs shows after one

A schedule lists the turns of a run, the latest first, so the moments of a run are the suffixes of
its schedule. For a crew whose threads run programs, a `View` keeps the memory and, for every thread,
the label inside its present call and the answers it has been given. One turn changes a view in one
of three ways or not at all, and every invariant of such crews is proved along these.
-/
namespace SharedMemory

variable {Memory Call Label Choice Answer : Type}

/-- Which thread moves, and under which choice. -/
structure Turn (Choice : Type) where
  thread : Nat
  choice : Choice
  deriving DecidableEq

/-- What one more turn keeps, all later moments keep. -/
theorem Turn.later {P : List (Turn Choice) → Prop} (keeps : ∀ t earlier, P earlier → P (t :: earlier))
    {moment schedule : List (Turn Choice)} (suffix : moment <:+ schedule) (h : P moment) :
    P schedule := by
  obtain ⟨turns, rfl⟩ := suffix
  induction turns with
  | nil => exact h
  | cons t turns ih => exact keeps t _ ih

/-- A thing that no two threads own at once stays so when one thread moves on to things that the others
do not own. -/
theorem owner_update {State Thing : Type} (owns : State → Thing → Prop) {states : Nat → State}
    {i : Nat} {new : State} (alone : ∀ j k x, owns (states j) x → owns (states k) x → j = k)
    (fresh : ∀ j x, j ≠ i → owns (states j) x → ¬ owns new x) :
    ∀ j k x, owns (Function.update states i new j) x → owns (Function.update states i new k) x →
      j = k := by
  intro j k x hj hk
  by_cases hji : j = i
  · by_cases hki : k = i
    · exact hji.trans hki.symm
    · rw [hji, Function.update_self] at hj
      rw [Function.update_of_ne hki] at hk
      exact absurd hj (fresh k x hki hk)
  · rw [Function.update_of_ne hji] at hj
    by_cases hki : k = i
    · rw [hki, Function.update_self] at hk
      exact absurd hk (fresh j x hji hj)
    · rw [Function.update_of_ne hki] at hk
      exact alone j k x hj hk

namespace Crew

variable (alg : Algorithm Memory Call Label Choice Answer)

/-- The crew once all turns are taken. The turn of a thread that has returned changes nothing. -/
def after (c : Crew Memory Label Answer) : List (Turn Choice) → Crew Memory Label Answer
  | [] => c
  | t :: earlier => (after c earlier).act alg t.thread (fun _ _ => t.choice)

theorem act_of_not_running {c : Crew Memory Label Answer} {i : Nat}
    (h : ∀ l, c.threads[i]? ≠ some (.running l)) (choose : Label → Memory → Choice) :
    c.act alg i choose = c := by
  unfold act
  split
  · next l here => exact absurd here (h l)
  · rfl

theorem act_running {c : Crew Memory Label Answer} {i : Nat} {l : Label}
    (here : c.threads[i]? = some (.running l)) (choice : Choice) :
    c.act alg i (fun _ _ => choice) =
      ⟨(alg.step choice l c.memory).memory, c.threads.set i (alg.step choice l c.memory).status,
        (alg.step choice l c.memory).events.reverse ++ c.trace⟩ := by
  rw [act, here]

theorem threads_act_of_ne {c : Crew Memory Label Answer} {i j : Nat} (other : j ≠ i)
    (choose : Label → Memory → Choice) :
    (c.act alg i choose).threads[j]? = c.threads[j]? := by
  rw [act]
  split
  · exact List.getElem?_set_ne (Ne.symm other)
  · rfl

theorem length_after (c : Crew Memory Label Answer) (schedule : List (Turn Choice)) :
    (c.after alg schedule).threads.length = c.threads.length := by
  induction schedule with
  | nil => rfl
  | cons t earlier ih =>
    rw [after, act]
    split
    · rwa [List.length_set]
    · exact ih

theorem returned_of_answers {c : Crew Memory Label Answer} (h : c.answers?.isSome) :
    ∀ s ∈ c.threads, ∃ a, s = .returned a := by
  unfold answers? at h
  generalize c.threads = threads at h
  induction threads with
  | nil => nofun
  | cons s rest ih =>
    rw [List.mapM_cons] at h
    cases s with
    | running l => cases h
    | returned a =>
      have rest_answers : (rest.mapM Status.answer?).isSome := by
        cases answers : rest.mapM Status.answer? with
        | none =>
          rw [answers] at h
          cases h
        | some _ => rfl
      intro s hs
      rcases List.mem_cons.mp hs with rfl | hs
      · exact ⟨a, rfl⟩
      · exact ih rest_answers s hs

theorem reaches_iff_after {c d : Crew Memory Label Answer} :
    Reaches alg c d ↔ ∃ schedule, c.after alg schedule = d := by
  constructor
  · intro h
    induction h with
    | refl => exact ⟨[], rfl⟩
    | tail _ s ih =>
      obtain ⟨schedule, rfl⟩ := ih
      obtain ⟨i, l, choice, here⟩ := s
      exact ⟨⟨i, choice⟩ :: schedule, rfl⟩
  · rintro ⟨schedule, rfl⟩
    induction schedule with
    | nil => exact .refl
    | cons t earlier ih =>
      by_cases h : ∃ l, (c.after alg earlier).threads[t.thread]? = some (.running l)
      · obtain ⟨l, here⟩ := h
        exact ih.tail (.act t.thread l t.choice here)
      · rw [after, act_of_not_running alg (fun l here => h ⟨l, here⟩)]
        exact ih

end Crew

abbrev ProgramStatus (Call Label Answer : Type) : Type :=
  Status (ProgramLabel Call Label Answer) (List Answer)

namespace ProgramStatus

def inside : ProgramStatus Call Label Answer → Option Label
  | .running l => l.inside
  | .returned _ => none

/-- Oldest first. -/
def answers : ProgramStatus Call Label Answer → List Answer
  | .running l => l.answers.reverse
  | .returned answers => answers

end ProgramStatus

abbrev ProgramCrew (Memory Call Label Answer : Type) : Type :=
  Crew Memory (ProgramLabel Call Label Answer) (List Answer)

/-- Threads that are not there stand outside every call and have no answers. -/
structure View (Memory Label Answer : Type) where
  memory : Memory
  label : Nat → Option Label
  answers : Nat → List Answer
  trace : List Event

namespace ProgramCrew

def view (c : ProgramCrew Memory Call Label Answer) : View Memory Label Answer where
  memory := c.memory
  label i := c.threads[i]?.bind ProgramStatus.inside
  answers i := (c.threads[i]?.map ProgramStatus.answers).getD []
  trace := c.trace

end ProgramCrew

def Status.label? : Status Label Answer → Option Label
  | .running l => some l
  | .returned _ => none

/-- The calls of thread `i`, in order. -/
def callsOf (programs : List (List Call)) (i : Nat) : List Call := programs.getD i []

namespace View

def start (m : Memory) : View Memory Label Answer := ⟨m, fun _ => none, fun _ => [], []⟩

def enter (v : View Memory Label Answer) (i : Nat) (l : Label) : View Memory Label Answer :=
  { v with label := Function.update v.label i (some l) }

def move (v : View Memory Label Answer) (i : Nat) (m : Memory) (l : Label) (events : List Event) :
    View Memory Label Answer :=
  { v with memory := m, label := Function.update v.label i (some l),
           trace := events.reverse ++ v.trace }

def answer (v : View Memory Label Answer) (i : Nat) (m : Memory) (a : Answer)
    (events : List Event) : View Memory Label Answer where
  memory := m
  label := Function.update v.label i none
  answers := Function.update v.answers i (v.answers i ++ [a])
  trace := events.reverse ++ v.trace

@[simp] theorem memory_enter (v : View Memory Label Answer) (i : Nat) (l : Label) :
    (v.enter i l).memory = v.memory := rfl

@[simp] theorem label_enter (v : View Memory Label Answer) (i : Nat) (l : Label) :
    (v.enter i l).label = Function.update v.label i (some l) := rfl

@[simp] theorem answers_enter (v : View Memory Label Answer) (i : Nat) (l : Label) :
    (v.enter i l).answers = v.answers := rfl

@[simp] theorem trace_enter (v : View Memory Label Answer) (i : Nat) (l : Label) :
    (v.enter i l).trace = v.trace := rfl

@[simp] theorem memory_move (v : View Memory Label Answer) (i : Nat) (m : Memory) (l : Label)
    (events : List Event) :
    (v.move i m l events).memory = m := rfl

@[simp] theorem label_move (v : View Memory Label Answer) (i : Nat) (m : Memory) (l : Label)
    (events : List Event) :
    (v.move i m l events).label = Function.update v.label i (some l) := rfl

@[simp] theorem answers_move (v : View Memory Label Answer) (i : Nat) (m : Memory) (l : Label)
    (events : List Event) :
    (v.move i m l events).answers = v.answers := rfl

@[simp] theorem trace_move (v : View Memory Label Answer) (i : Nat) (m : Memory) (l : Label)
    (events : List Event) :
    (v.move i m l events).trace = events.reverse ++ v.trace := rfl

@[simp] theorem memory_answer (v : View Memory Label Answer) (i : Nat) (m : Memory) (a : Answer)
    (events : List Event) :
    (v.answer i m a events).memory = m := rfl

@[simp] theorem label_answer (v : View Memory Label Answer) (i : Nat) (m : Memory) (a : Answer)
    (events : List Event) :
    (v.answer i m a events).label = Function.update v.label i none := rfl

@[simp] theorem answers_answer (v : View Memory Label Answer) (i : Nat) (m : Memory) (a : Answer)
    (events : List Event) :
    (v.answer i m a events).answers = Function.update v.answers i (v.answers i ++ [a]) := rfl

@[simp] theorem trace_answer (v : View Memory Label Answer) (i : Nat) (m : Memory) (a : Answer)
    (events : List Event) :
    (v.answer i m a events).trace = events.reverse ++ v.trace := rfl

/-- What the turn of thread `i` does to a view. Only a thread outside every call may rest. -/
inductive Step (alg : Algorithm Memory Call Label Choice Answer) (programs : List (List Call))
    (i : Nat) (choice : Choice) (v : View Memory Label Answer) : View Memory Label Answer → Prop
  | rest (outside : v.label i = none) : Step alg programs i choice v v
  | enter (c : Call) (outside : v.label i = none)
      (next : (callsOf programs i)[(v.answers i).length]? = some c) :
      Step alg programs i choice v (v.enter i (alg.enter c))
  | move (l l' : Label) (here : v.label i = some l)
      (goes : (alg.step choice l v.memory).status = .running l') :
      Step alg programs i choice v
        (v.move i (alg.step choice l v.memory).memory l' (alg.step choice l v.memory).events)
  | answer (l : Label) (a : Answer) (here : v.label i = some l)
      (gives : (alg.step choice l v.memory).status = .returned a) :
      Step alg programs i choice v
        (v.answer i (alg.step choice l v.memory).memory a (alg.step choice l v.memory).events)

/-- What the next step of thread `i` notes down. -/
def noted {Note : Type} (v : View Memory Label Answer) (note : Memory → Label → Option Note) (i : Nat) :
    Option Note := (v.label i).bind (note v.memory)

def take (v : View Memory Label Answer) (i : Nat) (e : Effect Memory Label Answer) :
    View Memory Label Answer :=
  match e.status with
  | .running l => v.move i e.memory l e.events
  | .returned a => v.answer i e.memory a e.events

@[simp] theorem memory_take (v : View Memory Label Answer) (i : Nat) (e : Effect Memory Label Answer) :
    (v.take i e).memory = e.memory := by
  unfold take
  split <;> rfl

@[simp] theorem label_take (v : View Memory Label Answer) (i : Nat) (e : Effect Memory Label Answer) :
    (v.take i e).label = Function.update v.label i e.status.label? := by
  unfold take
  split
  · next here => simp [here, Status.label?]
  · next here => simp [here, Status.label?]

/-- The turn of thread `i`: a step inside its call, or else its next call, if there is one. -/
def turn (alg : Algorithm Memory Call Label Choice Answer) (programs : List (List Call)) (i : Nat)
    (choice : Choice) (v : View Memory Label Answer) : View Memory Label Answer :=
  match v.label i, (callsOf programs i)[(v.answers i).length]? with
  | some l, _ => v.take i (alg.step choice l v.memory)
  | none, some c => v.enter i (alg.enter c)
  | none, none => v

section Step

variable {alg : Algorithm Memory Call Label Choice Answer} {programs : List (List Call)} {i : Nat}
  {choice : Choice} {v v' : View Memory Label Answer} {l : Label}

theorem take_running {e : Effect Memory Label Answer} (goes : e.status = .running l) :
    v.take i e = v.move i e.memory l e.events := by
  rw [take, goes]

theorem take_returned {e : Effect Memory Label Answer} {a : Answer} (gives : e.status = .returned a) :
    v.take i e = v.answer i e.memory a e.events := by
  rw [take, gives]

theorem turn_inside (here : v.label i = some l) :
    v.turn alg programs i choice = v.take i (alg.step choice l v.memory) := by
  rw [turn, here]

theorem Step.take (h : v.Step alg programs i choice v') (here : v.label i = some l) :
    v' = v.take i (alg.step choice l v.memory) := by
  cases h with
  | rest outside => simp [outside] at here
  | enter c outside next => simp [outside] at here
  | move k k' at_k goes =>
    obtain rfl : k = l := Option.some.inj (at_k.symm.trans here)
    rw [View.take, goes]
  | answer k a at_k gives =>
    obtain rfl : k = l := Option.some.inj (at_k.symm.trans here)
    rw [View.take, gives]

theorem Step.rest_or_enter_or_take (h : v.Step alg programs i choice v') :
    v.label i = none ∧ v' = v ∨
      (∃ c, v.label i = none ∧ (callsOf programs i)[(v.answers i).length]? = some c ∧
        v' = v.enter i (alg.enter c)) ∨
      ∃ l, v.label i = some l ∧ v' = v.take i (alg.step choice l v.memory) := by
  cases h with
  | rest outside => exact .inl ⟨outside, rfl⟩
  | enter c outside next => exact .inr (.inl ⟨c, outside, next, rfl⟩)
  | move l l' here goes => exact .inr (.inr ⟨l, here, by rw [View.take, goes]⟩)
  | answer l a here gives => exact .inr (.inr ⟨l, here, by rw [View.take, gives]⟩)

theorem Step.answers_of_label (h : v.Step alg programs i choice v') (here : v'.label i = some l) :
    v'.answers = v.answers := by
  cases h with
  | rest => rfl
  | enter => rfl
  | move => rfl
  | answer => simp at here

end Step

end View

namespace ProgramCrew

variable {alg : Algorithm Memory Call Label Choice Answer} {programs : List (List Call)}

/-- What a thread has still to call is its program less the calls it has made. -/
def Follows (programs : List (List Call)) (c : ProgramCrew Memory Call Label Answer) : Prop :=
  ∀ i l, c.threads[i]? = some (.running l) →
    l.left = (callsOf programs i).drop (l.answers.length + if l.inside.isSome then 1 else 0)

theorem follows_start (alg : Algorithm Memory Call Label Choice Answer) (m : Memory) (programs : List (List Call)) :
    Follows programs (Crew.start alg.program m programs) := by
  intro i l here
  simp only [Crew.start, List.getElem?_map, Option.map_eq_some_iff] at here
  obtain ⟨p, hp, hl⟩ := here
  cases hl
  simp [Algorithm.program, callsOf, hp]

theorem view_start (alg : Algorithm Memory Call Label Choice Answer) (m : Memory) (programs : List (List Call)) :
    view (Crew.start alg.program m programs) = .start m := by
  simp only [view, View.start, Crew.start, View.mk.injEq, true_and, and_true]
  constructor
  · funext i
    cases h : programs[i]? <;> simp [h, Algorithm.program, ProgramStatus.inside]
  · funext i
    cases h : programs[i]? <;> simp [h, Algorithm.program, ProgramStatus.answers]

theorem view_set {c : ProgramCrew Memory Call Label Answer} {i : Nat}
    {s : ProgramStatus Call Label Answer} (h : i < c.threads.length) (m : Memory) (trace : List Event) :
    view ⟨m, c.threads.set i s, trace⟩ =
      ⟨m, Function.update (view c).label i s.inside, Function.update (view c).answers i s.answers,
        trace⟩ := by
  simp only [view, View.mk.injEq, true_and, and_true]
  constructor
  · funext j
    by_cases hj : j = i
    · subst hj
      simp [h]
    · simp [List.getElem?_set_ne (Ne.symm hj), hj]
  · funext j
    by_cases hj : j = i
    · subst hj
      simp [h]
    · simp [List.getElem?_set_ne (Ne.symm hj), hj]

/-- A status that shows what the old one showed leaves the view as it is. -/
theorem view_set_eq {c : ProgramCrew Memory Call Label Answer} {i : Nat}
    {s : ProgramStatus Call Label Answer} (here : c.threads[i]? = some s)
    (s' : ProgramStatus Call Label Answer) (inside : s'.inside = s.inside) (answers : s'.answers = s.answers) :
    view ⟨c.memory, c.threads.set i s', c.trace⟩ = view c := by
  have hl : (view c).label i = s'.inside := by simp [view, here, inside]
  have ha : (view c).answers i = s'.answers := by simp [view, here, answers]
  rw [view_set (List.getElem?_eq_some_iff.mp here).1, ← hl, ← ha]
  simp [view]

theorem Follows.set {c : ProgramCrew Memory Call Label Answer} (h : Follows programs c) {i : Nat}
    {s : ProgramStatus Call Label Answer}
    (hs : ∀ l, s = .running l →
      l.left = (callsOf programs i).drop (l.answers.length + if l.inside.isSome then 1 else 0))
    (m : Memory) (trace : List Event) : Follows programs ⟨m, c.threads.set i s, trace⟩ := by
  intro j l hj
  by_cases hij : i = j
  · subst hij
    by_cases hi : i < c.threads.length
    · rw [List.getElem?_set_self hi] at hj
      exact hs l (Option.some.inj hj)
    · simp [hi] at hj
  · rw [List.getElem?_set_ne hij] at hj
    exact h j l hj

theorem step_act {c : ProgramCrew Memory Call Label Answer} (h : Follows programs c) (i : Nat)
    (choice : Choice) :
    Follows programs (c.act alg.program i fun _ _ => choice) ∧
      (view c).Step alg programs i choice (view (c.act alg.program i fun _ _ => choice)) := by
  by_cases running : ∃ l, c.threads[i]? = some (.running l)
  swap
  · rw [Crew.act_of_not_running _ (fun l here => running ⟨l, here⟩)]
    refine ⟨h, .rest ?_⟩
    cases here : c.threads[i]? with
    | none => simp [view, here]
    | some s =>
      cases s with
      | running l => exact absurd ⟨l, here⟩ running
      | returned answers => simp [view, here, ProgramStatus.inside]
  obtain ⟨⟨inside, left, answers⟩, here⟩ := running
  have hi := (List.getElem?_eq_some_iff.mp here).1
  have hl : (view c).label i = inside := by simp [view, here, ProgramStatus.inside]
  have ha : (view c).answers i = answers.reverse := by simp [view, here, ProgramStatus.answers]
  have hleft := h i _ here
  cases inside with
  | none =>
    cases left with
    | nil =>
      simp only [Crew.act, here, Algorithm.program, List.reverse_nil, List.nil_append]
      refine ⟨h.set (by simp) _ _, ?_⟩
      rw [view_set_eq here (.returned answers.reverse) rfl rfl]
      exact .rest hl
    | cons call left =>
      simp only [Option.isSome_none, Bool.false_eq_true, if_false, Nat.add_zero] at hleft
      have next : (callsOf programs i)[answers.length]? = some call := by
        rw [← List.head?_drop, ← hleft, List.head?_cons]
      simp only [Crew.act, here, Algorithm.program, List.reverse_nil, List.nil_append]
      constructor
      · refine h.set (fun l hl => ?_) _ _
        cases hl
        simpa using congrArg List.tail hleft
      · rw [view_set hi]
        have same : Function.update (view c).answers i answers.reverse = (view c).answers := by
          rw [← ha, Function.update_eq_self]
        simp only [ProgramStatus.inside, ProgramStatus.answers, same]
        exact .enter call hl (by rw [ha, List.length_reverse]; exact next)
  | some l =>
    simp only [Option.isSome_some, if_true] at hleft
    cases status : (alg.step choice l c.memory).status with
    | running l' =>
      have same : Function.update (view c).answers i answers.reverse = (view c).answers := by
        rw [← ha, Function.update_eq_self]
      simp only [Crew.act, here, Algorithm.program, status]
      refine ⟨h.set (fun l hl => by cases hl; simpa using hleft) _ _, ?_⟩
      rw [view_set hi]
      simp only [ProgramStatus.inside, ProgramStatus.answers, same]
      exact .move l l' hl status
    | returned a =>
      simp only [Crew.act, here, Algorithm.program, status]
      refine ⟨h.set (fun l hl => by cases hl; simpa using hleft) _ _, ?_⟩
      rw [view_set hi]
      simp only [ProgramStatus.inside, ProgramStatus.answers, List.reverse_cons, ← ha]
      exact .answer l a hl status

theorem label_act {c : ProgramCrew Memory Call Label Answer} {i : Nat} {call : Call}
    {left : List Call} {answers : List Answer}
    (here : c.threads[i]? = some (.running ⟨none, call :: left, answers⟩)) (choice : Choice) :
    (view (c.act alg.program i fun _ _ => choice)).label i = some (alg.enter call) := by
  have bound := (List.getElem?_eq_some_iff.mp here).1
  simp [Crew.act, here, Algorithm.program, view_set bound, ProgramStatus.inside]

end ProgramCrew

namespace Algorithm

variable (alg : Algorithm Memory Call Label Choice Answer) (m : Memory) (programs : List (List Call))

/-- What threads that run the programs from the memory `m` show after a schedule. -/
def viewAfter (schedule : List (Turn Choice)) : View Memory Label Answer :=
  ProgramCrew.view ((Crew.start alg.program m programs).after alg.program schedule)

theorem follows_after (schedule : List (Turn Choice)) :
    ProgramCrew.Follows programs ((Crew.start alg.program m programs).after alg.program schedule) := by
  induction schedule with
  | nil => exact ProgramCrew.follows_start alg m programs
  | cons t earlier ih => exact (ProgramCrew.step_act ih t.thread t.choice).1

theorem finished_after (schedule : List (Turn Choice)) (i : Nat) (answers : List Answer)
    (here : ((Crew.start alg.program m programs).after alg.program schedule).threads[i]? =
      some (.returned answers)) : (callsOf programs i).length ≤ answers.length := by
  induction schedule with
  | nil =>
    simp only [Crew.after, Crew.start, List.getElem?_map, Option.map_eq_some_iff] at here
    obtain ⟨_, _, running⟩ := here
    cases running
  | cons t earlier ih =>
    have follows := alg.follows_after m programs earlier
    rw [Crew.after, Crew.act] at here
    generalize (Crew.start alg.program m programs).after alg.program earlier = c at here ih follows
    split at here
    swap
    · exact ih here
    · next l running =>
      by_cases other : t.thread = i
      swap
      · rw [List.getElem?_set_ne other] at here
        exact ih here
      · subst other
        rw [List.getElem?_set_self (List.getElem?_eq_some_iff.mp running).1] at here
        have left := follows t.thread l running
        obtain ⟨inside, left_calls, given⟩ := l
        cases inside with
        | some k =>
          simp only [Algorithm.program] at here
          split at here <;> cases here
        | none =>
          cases left_calls with
          | cons c rest => cases here
          | nil =>
            cases here
            have short := List.drop_eq_nil_iff.mp left.symm
            rwa [List.length_reverse]

@[simp] theorem viewAfter_nil : alg.viewAfter m programs [] = .start m :=
  ProgramCrew.view_start alg m programs

theorem viewAfter_cons (t : Turn Choice) (earlier : List (Turn Choice)) :
    (alg.viewAfter m programs earlier).Step alg programs t.thread t.choice
      (alg.viewAfter m programs (t :: earlier)) :=
  (ProgramCrew.step_act (alg.follows_after m programs earlier) t.thread t.choice).2

/-- A thread between two calls does not rest while it has calls to make. -/
theorem running_after {schedule : List (Turn Choice)} {i : Nat} {c : Call}
    (outside : (alg.viewAfter m programs schedule).label i = none)
    (next : (callsOf programs i)[((alg.viewAfter m programs schedule).answers i).length]? = some c) :
    ∃ left answers, ((Crew.start alg.program m programs).after alg.program schedule).threads[i]? =
      some (.running ⟨none, c :: left, answers⟩) := by
  have follows := alg.follows_after m programs schedule
  have finished := alg.finished_after m programs schedule i
  have length := Crew.length_after alg.program (Crew.start alg.program m programs) schedule
  have short := (List.getElem?_eq_some_iff.mp next).1
  simp only [viewAfter] at outside next short
  generalize (Crew.start alg.program m programs).after alg.program schedule = crew at *
  cases here : crew.threads[i]? with
  | none =>
    have absent : programs.length ≤ i := by
      rw [List.getElem?_eq_none_iff, length] at here
      simpa [Crew.start] using here
    simp [callsOf, absent] at short
  | some s =>
    cases s with
    | returned answers =>
      have := finished answers here
      simp only [ProgramCrew.view, here, Option.map_some, Option.getD_some,
        ProgramStatus.answers] at short
      omega
    | running l =>
      obtain ⟨inside, left, answers⟩ := l
      obtain rfl : inside = none := by
        simpa [ProgramCrew.view, here, ProgramStatus.inside] using outside
      have left_eq : left = (callsOf programs i).drop answers.length := by
        simpa using follows i _ here
      have next : (callsOf programs i)[answers.length]? = some c := by
        simpa [ProgramCrew.view, here, ProgramStatus.answers] using next
      obtain ⟨hlt, rfl⟩ := List.getElem?_eq_some_iff.mp next
      exact ⟨_, _, by rw [left_eq, List.drop_eq_getElem_cons hlt]⟩

/-- A schedule decides what the threads show. -/
theorem viewAfter_turn (t : Turn Choice) (earlier : List (Turn Choice)) :
    alg.viewAfter m programs (t :: earlier) =
      (alg.viewAfter m programs earlier).turn alg programs t.thread t.choice := by
  have step := alg.viewAfter_cons m programs t earlier
  cases label : (alg.viewAfter m programs earlier).label t.thread with
  | some l =>
    rw [step.take label, View.turn, label]
  | none =>
    cases next : (callsOf programs t.thread)[((alg.viewAfter m programs earlier).answers
        t.thread).length]? with
    | none =>
      rw [View.turn, label, next]
      rcases step.rest_or_enter_or_take with ⟨_, same⟩ | ⟨c, _, called, _⟩ | ⟨l, here, _⟩
      · exact same
      · cases next.symm.trans called
      · cases label.symm.trans here
    | some c =>
      rw [View.turn, label, next]
      rcases step.rest_or_enter_or_take with ⟨_, same⟩ | ⟨c', _, called, entered⟩ | ⟨l, here, _⟩
      · obtain ⟨left, answers, here⟩ := alg.running_after m programs label next
        have inside : (alg.viewAfter m programs (t :: earlier)).label t.thread =
            some (alg.enter c) := ProgramCrew.label_act here t.choice
        rw [same, label] at inside
        cases inside
      · cases next.symm.trans called
        exact entered
      · cases label.symm.trans here

/-- What every step keeps holds of the memory of a run. -/
theorem memory_after {P : Memory → Prop} (start : P m)
    (step : ∀ choice l m, P m → P (alg.step choice l m).memory) (schedule : List (Turn Choice)) :
    P (alg.viewAfter m programs schedule).memory := by
  induction schedule with
  | nil =>
    rw [viewAfter_nil]
    exact start
  | cons t earlier ih =>
    rcases (alg.viewAfter_cons m programs t earlier).rest_or_enter_or_take with
      ⟨_, hv⟩ | ⟨c, _, _, hv⟩ | ⟨l, _, hv⟩
    · rw [hv]
      exact ih
    · rw [hv]
      exact ih
    · rw [hv, View.memory_take]
      exact step _ l _ ih

variable {Note : Type}

/-- What the turns of a run note down, the latest first. -/
def journal (note : View Memory Label Answer → Nat → Option Note) : List (Turn Choice) → List Note
  | [] => []
  | t :: earlier =>
    (note (alg.viewAfter m programs earlier) t.thread).toList ++ journal note earlier

/-- The notes that depend on what a thread reads at its label only. -/
abbrev notes (note : Memory → Label → Option Note) : List (Turn Choice) → List Note :=
  alg.journal m programs fun v => v.noted note

/-- A list in the memory that grows by what the steps note down. -/
theorem notes_eq {note : Memory → Label → Option Note} (field : Memory → List Note)
    (start : field m = []) (step : ∀ choice l m,
      field (alg.step choice l m).memory = (note m l).toList ++ field m) (schedule : List (Turn Choice)) :
    field (alg.viewAfter m programs schedule).memory = alg.notes m programs note schedule := by
  induction schedule with
  | nil => rw [viewAfter_nil, View.start, start, notes, journal]
  | cons t earlier ih =>
    change _ = ((alg.viewAfter m programs earlier).noted note t.thread).toList ++
      alg.notes m programs note earlier
    rw [← ih, View.noted]
    rcases (alg.viewAfter_cons m programs t earlier).rest_or_enter_or_take with
      ⟨outside, hv⟩ | ⟨c, outside, _, hv⟩ | ⟨l, here, hv⟩
    · rw [hv, outside]
      rfl
    · rw [hv, outside]
      rfl
    · rw [hv, View.memory_take, here, step]
      rfl

end Algorithm

section Vocabulary

variable {Call' Answer' : Type} (reply : Answer → Answer')

/-- What the threads show if their answers are told in other words. -/
def View.mapAnswers (v : View Memory Label Answer) : View Memory Label Answer' :=
  ⟨v.memory, v.label, fun i => (v.answers i).map reply, v.trace⟩

theorem View.mapAnswers_take (v : View Memory Label Answer) (i : Nat) (e : Effect Memory Label Answer) :
    (v.mapAnswers reply).take i ⟨e.memory, e.status.mapAnswer reply, e.events⟩ =
      (v.take i e).mapAnswers reply := by
  cases goes : e.status with
  | running l => rw [take_running goes, take_running rfl, mapAnswers, mapAnswers, move, move]
  | returned a =>
    rw [take_returned goes, take_returned rfl]
    simp only [mapAnswers, answer, View.mk.injEq, true_and, and_true]
    funext j
    by_cases hj : j = i
    · subst hj
      simp
    · simp [hj]

theorem callsOf_map (ask : Call' → Call) (programs : List (List Call')) (i : Nat) :
    callsOf (programs.map (List.map ask)) i = (callsOf programs i).map ask := by
  rw [callsOf, callsOf, List.getD_eq_getElem?_getD, List.getD_eq_getElem?_getD, List.getElem?_map]
  cases programs[i]? <;> rfl

/-- A run in another vocabulary. -/
theorem Algorithm.viewAfter_via (alg : Algorithm Memory Call Label Choice Answer) (m : Memory)
    (ask : Call' → Call) (programs : List (List Call')) (schedule : List (Turn Choice)) :
    (alg.via ask reply).viewAfter m programs schedule =
      (alg.viewAfter m (programs.map (List.map ask)) schedule).mapAnswers reply := by
  induction schedule with
  | nil =>
    rw [viewAfter_nil, viewAfter_nil]
    rfl
  | cons t earlier ih =>
    rw [viewAfter_turn, viewAfter_turn, ih]
    generalize alg.viewAfter m (programs.map (List.map ask)) earlier = v
    have called : (callsOf (programs.map (List.map ask)) t.thread)[(v.answers t.thread).length]? =
        ((callsOf programs t.thread)[(v.answers t.thread).length]?).map ask := by
      rw [callsOf_map, List.getElem?_map]
    have asked : ((v.mapAnswers reply).answers t.thread).length = (v.answers t.thread).length :=
      List.length_map ..
    cases here : v.label t.thread with
    | some l =>
      rw [View.turn_inside here, View.turn_inside (v := v.mapAnswers reply) here]
      exact v.mapAnswers_take reply t.thread (alg.step t.choice l v.memory)
    | none =>
      rw [View.turn, View.turn, called, asked, show (v.mapAnswers reply).label t.thread = none from here,
        here]
      cases (callsOf programs t.thread)[(v.answers t.thread).length]? <;> rfl

end Vocabulary

end SharedMemory
