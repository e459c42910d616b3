import SharedMemory.Proofs.Schedule
import SharedMemory.Stress

/-!
# Threads that insert and remove by turns run programs

A thread of the paired workload asks its container for the requests of a program, one insert and one removal
for each value. Each of its steps is a turn of that program, or the turns that end one call and begin the
next, or no turn at all. So what holds of a container after every schedule of programs holds of it in the
workload.
-/
namespace SharedMemory.Paired

variable {Memory L Choice : Type}

def work (values : List Value) : List Request := values.flatMap fun v => [.insert v, .remove]

theorem work_cons (v : Value) (values : List Value) :
    work (v :: values) = .insert v :: .remove :: work values := rfl

def programs (threads : Nat) (values : List Value) : List (List Request) :=
  List.replicate threads (work values)

theorem getElem?_work (values : List Value) (k : Nat) :
    (work values)[2 * k]? = values[k]?.map .insert ∧
      (work values)[2 * k + 1]? = values[k]?.map fun _ => .remove := by
  induction values generalizing k with
  | nil => exact ⟨rfl, rfl⟩
  | cons v values ih =>
    cases k with
    | zero => exact ⟨rfl, rfl⟩
    | succ k => exact ih k

theorem callsOf_programs {threads i : Nat} (inside : i < threads) (values : List Value) :
    callsOf (programs threads values) i = work values := by
  rw [callsOf, programs, List.getD_eq_getElem?_getD, List.getElem?_replicate, if_pos inside,
    Option.getD_some]

/-- What the program of a thread shows while the thread is at a step: the label inside its call and the
answers so far. -/
inductive Mirrors (values : List Value) :
    Option L → List Reply → Status (Label L) (Except Panic (List Value)) → Prop
  | next (got : List Value) (answers : List Reply) (count : answers.length = 2 * got.length)
      (inside : got.length ≤ values.length) :
      Mirrors values none answers (.running (.next (values.drop got.length) got))
  | inserting (l : L) (got : List Value) (answers : List Reply) (count : answers.length = 2 * got.length)
      (inside : got.length < values.length) :
      Mirrors values (some l) answers (.running (.inserting l (values.drop (got.length + 1)) got))
  | removing (l : L) (got : List Value) (answers : List Reply)
      (count : answers.length = 2 * got.length + 1) (inside : got.length < values.length) :
      Mirrors values (some l) answers (.running (.removing l (values.drop (got.length + 1)) got))
  | addToSum (v : Value) (got : List Value) (answers : List Reply)
      (count : answers.length = 2 * (got.length + 1)) (inside : got.length < values.length) :
      Mirrors values none answers (.running (.addToSum v (values.drop (got.length + 1)) got))
  | returned (got : List Value) (answers : List Reply) (count : answers.length = 2 * values.length) :
      Mirrors values none answers (.returned (.ok got))
  | failed (before : List Reply) (p : Panic) :
      Mirrors values none (before ++ [.error p]) (.returned (.error p))
  | starved (before : List Reply) (k : Nat) (count : before.length = 2 * k + 1)
      (inside : k < values.length) :
      Mirrors values none (before ++ [.ok none]) (.returned (.error .emptyAfterInsert))

def Label.inner? : Label L → Option L
  | .inserting l _ _ | .removing l _ _ => some l
  | .next _ _ | .addToSum _ _ _ => none

theorem Mirrors.inner {values : List Value} {label : Option L} {answers : List Reply} {l : Label L}
    (h : Mirrors values label answers (.running l)) : label = l.inner? := by
  cases h <;> rfl

theorem Mirrors.outside {values : List Value} {label : Option L} {answers : List Reply}
    {result : Except Panic (List Value)} (h : Mirrors values label answers (.returned result)) :
    label = none := by
  cases h <;> rfl

/-- The programs show what the threads of the workload have come to. -/
structure Shadows (values : List Value)
    (crew : Crew (Tally Memory) (Label L) (Except Panic (List Value))) (v : View Memory L Reply) :
    Prop where
  memory : v.memory = crew.memory.container
  mirrors : ∀ i s, crew.threads[i]? = some s → Mirrors values (v.label i) (v.answers i) s

section Step

variable {c : Container Memory L Choice} {values : List Value} {choice : Choice} {i : Nat}
  {calls : List (List Request)} {crew : Crew (Tally Memory) (Label L) (Except Panic (List Value))}
  {v v' : View Memory L Reply} {l : Label L}

theorem turn_others {j : Nat} (other : j ≠ i) (v : View Memory L Reply) :
    (v.turn c calls i choice).label j = v.label j ∧
      (v.turn c calls i choice).answers j = v.answers j := by
  unfold View.turn
  split
  · rw [View.take]
    split <;> simp [other]
  · simp [other]
  · exact ⟨rfl, rfl⟩

theorem turn_enter {r : Request} (outside : v.label i = none)
    (next : (callsOf calls i)[(v.answers i).length]? = some r) :
    v.turn c calls i choice = v.enter i (c.enter r) := by
  rw [View.turn, outside, next]

/-- The thread that moves goes on to be mirrored if its own program keeps up. -/
theorem Shadows.act (h : Shadows values crew v) (here : crew.threads[i]? = some (.running l))
    (memory : v'.memory = (step c choice l crew.memory).memory.container)
    (own : Mirrors values (v'.label i) (v'.answers i) (step c choice l crew.memory).status)
    (others : ∀ j, j ≠ i → v'.label j = v.label j ∧ v'.answers j = v.answers j) :
    Shadows values (crew.act (algorithm c) i fun _ _ => choice) v' := by
  rw [Crew.act_running _ here]
  refine ⟨memory, fun j s hs => ?_⟩
  by_cases hj : j = i
  · subst hj
    rw [List.getElem?_set_self (List.getElem?_eq_some_iff.mp here).1] at hs
    cases hs
    exact own
  · rw [List.getElem?_set_ne (Ne.symm hj)] at hs
    rw [(others j hj).1, (others j hj).2]
    exact h.mirrors j s hs

/-- One step of the workload is at most two turns of the programs. -/
theorem Shadows.step (h : Shadows values crew v) (called : callsOf calls i = work values)
    (here : crew.threads[i]? = some (.running l)) (choice : Choice) :
    Shadows values (crew.act (algorithm c) i fun _ _ => choice) v ∨
      Shadows values (crew.act (algorithm c) i fun _ _ => choice) (v.turn c calls i choice) ∨
      Shadows values (crew.act (algorithm c) i fun _ _ => choice)
        ((v.turn c calls i choice).turn c calls i choice) := by
  have mirrors := h.mirrors i _ here
  generalize label : v.label i = k, given : v.answers i = answers at mirrors
  have takes {l : L} (inside : k = some l) :
      v.turn c calls i choice = v.take i (c.step choice l crew.memory.container) := by
    rw [View.turn_inside (label.trans inside), h.memory]
  cases mirrors with
  | next got _ count inside =>
    rcases drop : values.drop got.length with _ | ⟨x, left⟩
    · have all : got.length = values.length :=
        Nat.le_antisymm inside (List.drop_eq_nil_iff.mp drop)
      refine .inl (h.act here ?_ ?_ fun _ _ => ⟨rfl, rfl⟩)
      · rw [drop, h.memory]
        rfl
      · rw [drop, label, given]
        exact .returned _ _ (all ▸ count)
    · have there : values[got.length]? = some x := by
        rw [← List.head?_drop, drop, List.head?_cons]
      have short := (List.getElem?_eq_some_iff.mp there).1
      have rest : left = values.drop (got.length + 1) := by
        rw [← List.tail_drop, drop, List.tail_cons]
      have turned : v.turn c calls i choice = v.enter i (c.enter (.insert x)) :=
        turn_enter label (by rw [called, given, count, (getElem?_work _ _).1, there]; rfl)
      refine .inr (.inl (h.act here ?_ ?_ fun j hj => turn_others hj v))
      · rw [turned, View.memory_enter, drop, h.memory]
        rfl
      · rw [turned, View.label_enter, View.answers_enter, Function.update_self, given, drop, rest]
        exact .inserting _ got answers count short
  | inserting l got _ count inside =>
    have turned := takes rfl
    have memory : (v.turn c calls i choice).memory =
        (c.step choice l crew.memory.container).memory := by rw [turned, View.memory_take]
    cases status : (c.step choice l crew.memory.container).status with
    | running l' =>
      rw [View.take_running status] at turned
      refine .inr (.inl (h.act here memory ?_ fun j hj => turn_others hj v))
      rw [turned, View.label_move, View.answers_move, Function.update_self, given, step, status]
      exact .inserting l' got answers count inside
    | returned reply =>
      rw [View.take_returned status] at turned
      cases reply with
      | error p =>
        refine .inr (.inl (h.act here memory ?_ fun j hj => turn_others hj v))
        rw [turned, View.label_answer, View.answers_answer, Function.update_self, Function.update_self,
          given, step, status]
        exact .failed answers p
      | ok found =>
        have outside : (v.turn c calls i choice).label i = none := by
          rw [turned, View.label_answer, Function.update_self]
        have answered : (v.turn c calls i choice).answers i = answers ++ [.ok found] := by
          rw [turned, View.answers_answer, Function.update_self, given]
        have counted : (answers ++ [Except.ok found]).length = 2 * got.length + 1 := by
          rw [List.length_append, count]
          rfl
        have entered : (v.turn c calls i choice).turn c calls i choice =
            (v.turn c calls i choice).enter i (c.enter .remove) := by
          refine turn_enter outside ?_
          rw [called, answered, counted, (getElem?_work _ _).2, List.getElem?_eq_getElem inside]
          rfl
        refine .inr (.inr (h.act here ?_ ?_ fun j hj => ?_))
        · rw [entered, View.memory_enter, memory]
          rfl
        · rw [entered, View.label_enter, View.answers_enter, Function.update_self, answered, step, status]
          exact .removing _ got _ counted inside
        · rw [(turn_others hj _).1, (turn_others hj _).2]
          exact turn_others hj v
  | removing l got _ count inside =>
    have turned := takes rfl
    have memory : (v.turn c calls i choice).memory =
        (c.step choice l crew.memory.container).memory := by rw [turned, View.memory_take]
    refine .inr (.inl (h.act here memory ?_ fun j hj => turn_others hj v))
    cases status : (c.step choice l crew.memory.container).status with
    | running l' =>
      rw [turned, View.take_running status, View.label_move, View.answers_move, Function.update_self,
        given, step, status]
      exact .removing l' got answers count inside
    | returned reply =>
      rw [turned, View.take_returned status, View.label_answer, View.answers_answer,
        Function.update_self, Function.update_self, given, step, status]
      match reply with
      | .error p => exact .failed answers p
      | .ok none => exact .starved answers got.length count inside
      | .ok (some x) =>
        refine .addToSum x got _ ?_ inside
        rw [List.length_append, count]
        rfl
  | addToSum x got _ count inside =>
    refine .inl (h.act here h.memory ?_ fun _ _ => ⟨rfl, rfl⟩)
    rw [label, given]
    exact .next (x :: got) answers count inside

end Step

section Run

variable {threads : Nat} {values : List Value} {m : Memory}

theorem threads_start (c : Container Memory L Choice) (threads : Nat) (values : List Value) (m : Memory) :
    (crew c threads values m).threads = List.replicate threads (.running (.next values [])) := by
  simp only [crew, Crew.start, List.map_replicate]
  rfl

/-- Whatever the schedule of the workload, its programs have one that shows the same. -/
theorem exists_shadow (c : Container Memory L Choice) (threads : Nat) (values : List Value) (m : Memory)
    (schedule : List (Turn Choice)) :
    ∃ turns, Shadows values ((crew c threads values m).after (algorithm c) schedule)
      (c.viewAfter m (programs threads values) turns) := by
  induction schedule with
  | nil =>
    refine ⟨[], ?_, fun i s hs => ?_⟩
    · rw [Algorithm.viewAfter_nil]
      rfl
    · rw [Algorithm.viewAfter_nil]
      rw [Crew.after, threads_start, List.getElem?_replicate] at hs
      cases (Option.ite_none_right_eq_some.mp hs).2
      exact .next [] [] rfl (Nat.zero_le _)
  | cons t earlier ih =>
    obtain ⟨turns, shadows⟩ := ih
    by_cases running : ∃ l, ((crew c threads values m).after (algorithm c) earlier).threads[t.thread]? =
        some (.running l)
    · obtain ⟨l, here⟩ := running
      have inside : t.thread < threads := by
        have length := Crew.length_after (algorithm c) (crew c threads values m) earlier
        rw [threads_start, List.length_replicate] at length
        exact length ▸ (List.getElem?_eq_some_iff.mp here).1
      rcases shadows.step (callsOf_programs inside values) here t.choice with still | once | twice
      · exact ⟨turns, still⟩
      · exact ⟨t :: turns, by rw [Algorithm.viewAfter_turn]; exact once⟩
      · exact ⟨t :: t :: turns, by rw [Algorithm.viewAfter_turn, Algorithm.viewAfter_turn]; exact twice⟩
    · rw [Crew.after, Crew.act_of_not_running _ fun l here => running ⟨l, here⟩]
      exact ⟨turns, shadows⟩

end Run

end SharedMemory.Paired
