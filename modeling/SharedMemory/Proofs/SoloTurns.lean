import SharedMemory.Proofs.LinearOrder

/-!
# Turns that one thread takes by itself

Between two turns of other threads a thread goes the way of a call that is made alone, and the others
find only the memory changed. So a run in which the threads take long turns is read off the calls.
-/
namespace SharedMemory

variable {Memory Call Label Choice Answer : Type}

/-- The memory is `m`, and thread `i` has made `n` calls and stands at `l`. -/
structure View.Shows (v : View Memory Label Answer) (i : Nat) (m : Memory) (l : Option Label)
    (n : Nat) : Prop where
  memory : v.memory = m
  label : v.label i = l
  made : (v.answers i).length = n

namespace Algorithm

variable {alg : Algorithm Memory Call Label Choice Answer} {start m m' m'' : Memory}
  {programs : List (List Call)} {schedule : List (Turn Choice)} {choice : Choice}
  {i j k n n' : Nat} {c : Call} {l l' : Label} {o o' : Option Label} {a : Answer} {events more : List Event}

theorem shows_start (alg : Algorithm Memory Call Label Choice Answer) (start : Memory)
    (programs : List (List Call)) (i : Nat) :
    (alg.viewAfter start programs []).Shows i start none 0 := by
  rw [viewAfter_nil]
  exact ⟨rfl, rfl, rfl⟩

theorem shows_enter (h : (alg.viewAfter start programs schedule).Shows i m none n)
    (next : (callsOf programs i)[n]? = some c) (choice : Choice) :
    (alg.viewAfter start programs (⟨i, choice⟩ :: schedule)).Shows i m (some (alg.enter c)) n := by
  rw [viewAfter_turn, View.turn, h.label, h.made, next]
  exact ⟨h.memory, Function.update_self .., h.made⟩

theorem shows_move (h : (alg.viewAfter start programs schedule).Shows i m (some l) n)
    (goes : alg.step choice l m = ⟨m', .running l', events⟩) :
    (alg.viewAfter start programs (⟨i, choice⟩ :: schedule)).Shows i m' (some l') n := by
  rw [viewAfter_turn, View.turn_inside h.label, h.memory, goes]
  exact ⟨rfl, Function.update_self .., h.made⟩

theorem answer_given (h : (alg.viewAfter start programs schedule).Shows i m (some l) n)
    (gives : alg.step choice l m = ⟨m', .returned a, events⟩) :
    (alg.viewAfter start programs (⟨i, choice⟩ :: schedule)).Shows i m' none (n + 1) ∧
      (alg.viewAfter start programs (⟨i, choice⟩ :: schedule)).answer? ⟨i, n⟩ = some a := by
  have now : (alg.viewAfter start programs schedule).current i = ⟨i, n⟩ := by
    rw [View.current, h.made]
  rw [viewAfter_turn, View.turn_inside h.label, h.memory, gives, ← now]
  refine ⟨⟨rfl, Function.update_self .., ?_⟩, View.answer?_answer _ _ _ _ _⟩
  simp [View.take, h.made]

theorem shows_advance (h : (alg.viewAfter start programs schedule).Shows i m (some l) n)
    (run : alg.advance (fun _ _ => choice) k ⟨m, .running l, events⟩ = ⟨m', .running l', more⟩) :
    (alg.viewAfter start programs (List.replicate k ⟨i, choice⟩ ++ schedule)).Shows i m' (some l') n := by
  induction k generalizing m l schedule events with
  | zero =>
    cases run
    exact h
  | succ k ih =>
    rw [advance_succ] at run
    rw [List.replicate_succ', List.append_assoc]
    change alg.advance _ k ⟨(alg.step choice l m).memory, (alg.step choice l m).status,
      (alg.step choice l m).events.reverse ++ events⟩ = _ at run
    rcases effect : alg.step choice l m with ⟨memory, status, told⟩
    rw [effect] at run
    cases status with
    | running k' => exact ih (shows_move h effect) run
    | returned a =>
      rw [advance_returned] at run
      cases run

/-- A whole call: the turn that enters it, those inside it and the last one, which returns. -/
theorem shows_call (h : (alg.viewAfter start programs schedule).Shows i m none n)
    (next : (callsOf programs i)[n]? = some c)
    (run : alg.advance (fun _ _ => choice) k ⟨m, .running (alg.enter c), []⟩ =
      ⟨m', .running l, more⟩)
    (gives : alg.step choice l m' = ⟨m'', .returned a, events⟩) :
    (alg.viewAfter start programs (List.replicate (k + 2) ⟨i, choice⟩ ++ schedule)).Shows i m'' none
      (n + 1) := by
  have last := (answer_given (shows_advance (shows_enter h next choice) run) gives).1
  rwa [List.replicate_succ, List.replicate_succ', List.cons_append, List.append_assoc]

/-- To the others a thread's turns show in the memory only. -/
theorem shows_meanwhile (h : (alg.viewAfter start programs schedule).Shows i m o n) (other : i ≠ j)
    (moved : (alg.viewAfter start programs (List.replicate k ⟨j, choice⟩ ++ schedule)).Shows j m' o' n') :
    (alg.viewAfter start programs (List.replicate k ⟨j, choice⟩ ++ schedule)).Shows i m' o n := by
  have kept : (alg.viewAfter start programs (List.replicate k ⟨j, choice⟩ ++ schedule)).label i = o ∧
      ((alg.viewAfter start programs (List.replicate k ⟨j, choice⟩ ++ schedule)).answers i).length = n := by
    clear moved
    induction k with
    | zero => exact ⟨h.label, h.made⟩
    | succ k ih =>
      have turn := alg.viewAfter_cons start programs ⟨j, choice⟩ (List.replicate k ⟨j, choice⟩ ++ schedule)
      obtain ⟨label, current⟩ := turn.others other
      exact ⟨label.trans ih.1, (congrArg Operation.index current).trans ih.2⟩
  exact ⟨moved.memory, kept.1, kept.2⟩

end Algorithm

end SharedMemory
