import SharedMemory.Proofs.LinearOrder

/-!
# Runs from which calls are taken out

Some operations of a run may have no effect that the others could notice. Such a run is that of the
programs without their calls, under the schedule without their turns: the other operations get the same
answers, and the memory is the same up to what only those that are gone have changed.
-/
namespace SharedMemory

variable {Memory Call Label Choice Answer α : Type} (gone : Operation → Bool)

/-- Of a list with an entry for each operation of thread `i`, the entries of those that stay. -/
def spared (i : Nat) (xs : List α) : List α :=
  (xs.zipIdx.filter fun x => !gone ⟨i, x.2⟩).map Prod.fst

def sparedPrograms (programs : List (List Call)) : List (List Call) :=
  programs.mapIdx fun i calls => spared gone i calls

/-- A view without the operations that are gone. Of the memory, `cut` shows what they do not change, and
they do not emit the events that `shows`. -/
def View.without (v : View Memory Label Answer) (cut : Memory → Memory) (shows : Event → Bool) :
    View Memory Label Answer where
  memory := cut v.memory
  label i := if gone (v.current i) then none else v.label i
  answers i := spared gone i (v.answers i)
  trace := v.trace.filter shows

def Algorithm.sparedTurns (alg : Algorithm Memory Call Label Choice Answer) (m : Memory)
    (programs : List (List Call)) : List (Turn Choice) → List (Turn Choice)
  | [] => []
  | t :: earlier =>
    if gone ((alg.viewAfter m programs earlier).current t.thread) then
      sparedTurns alg m programs earlier
    else t :: sparedTurns alg m programs earlier

/-- The next step of thread `i` has no effect if its operation is gone, and the same effect as ever if it
stays. -/
structure View.Separable (alg : Algorithm Memory Call Label Choice Answer) (cut : Memory → Memory)
    (shows : Event → Bool) (v : View Memory Label Answer) (i : Nat) (choice : Choice) : Prop where
  hidden : ∀ l, v.label i = some l → gone (v.current i) →
    cut (alg.step choice l v.memory).memory = cut v.memory ∧
      (alg.step choice l v.memory).events.filter shows = []
  shown : ∀ l, v.label i = some l → ¬ gone (v.current i) →
    alg.step choice l (cut v.memory) =
        ⟨cut (alg.step choice l v.memory).memory, (alg.step choice l v.memory).status,
          (alg.step choice l v.memory).events⟩ ∧
      (alg.step choice l v.memory).events.filter shows = (alg.step choice l v.memory).events

section Lists

variable {gone} {i : Nat}

theorem spared_concat (xs : List α) (x : α) :
    spared gone i (xs ++ [x]) = spared gone i xs ++ if gone ⟨i, xs.length⟩ then [] else [x] := by
  rw [spared, List.zipIdx_append, List.filter_append, List.map_append]
  cases h : gone ⟨i, xs.length⟩ <;> simp [spared, h]

theorem length_spared (xs : List α) :
    (spared gone i xs).length = (List.range xs.length).countP fun k => !gone ⟨i, k⟩ := by
  induction xs using List.reverseRecOn with
  | nil => rfl
  | append_singleton xs x ih =>
    rw [spared_concat, List.length_append, ih, List.length_append, List.length_singleton,
      List.range_succ, List.countP_append]
    cases h : gone ⟨i, xs.length⟩ <;> simp [h]

/-- A call that stays comes after those calls of its thread that stay and are answered. -/
theorem getElem?_spared {calls : List Call} {answers : List Answer}
    (stays : gone ⟨i, answers.length⟩ = false) :
    (spared gone i calls)[(spared gone i answers).length]? = calls[answers.length]? := by
  rw [length_spared]
  generalize answers.length = k at stays ⊢
  induction calls using List.reverseRecOn with
  | nil => simp [spared]
  | append_singleton calls c ih =>
    rcases Nat.lt_trichotomy k calls.length with inside | rfl | beyond
    · rw [List.getElem?_append_left inside, ← ih, spared_concat]
      have found := ih.trans (List.getElem?_eq_getElem inside)
      exact List.getElem?_append_left (List.getElem?_eq_some_iff.mp found).1
    · rw [spared_concat, stays, ← length_spared]
      simp
    · have all : (List.range (calls ++ [c]).length).Sublist (List.range k) :=
        List.range_sublist.mpr (by simpa using Nat.succ_le_of_lt beyond)
      rw [List.getElem?_eq_none_iff.mpr, List.getElem?_eq_none_iff.mpr]
      · simpa using Nat.succ_le_of_lt beyond
      · rw [length_spared]
        exact all.countP_le

theorem callsOf_sparedPrograms (programs : List (List Call)) (i : Nat) :
    callsOf (sparedPrograms gone programs) i = spared gone i (callsOf programs i) := by
  rw [callsOf, callsOf, sparedPrograms, List.getD_eq_getElem?_getD, List.getD_eq_getElem?_getD,
    List.getElem?_mapIdx]
  cases programs[i]? <;> rfl

end Lists

namespace View

variable {gone} {alg : Algorithm Memory Call Label Choice Answer} {programs : List (List Call)}
  {cut : Memory → Memory} {shows : Event → Bool} {v : View Memory Label Answer} {i : Nat}
  {choice : Choice}

theorem without_eq {v w : View Memory Label Answer} (memory : cut v.memory = w.memory)
    (label : ∀ j, (if gone (v.current j) then none else v.label j) = w.label j)
    (answers : ∀ j, spared gone j (v.answers j) = w.answers j) (trace : v.trace.filter shows = w.trace) :
    v.without gone cut shows = w := by
  rw [without, memory, trace, funext label, funext answers]

theorem spared_answers (v : View Memory Label Answer) (m : Memory) (a : Answer) (events : List Event)
    (j : Nat) :
    spared gone j ((v.answer i m a events).answers j) = spared gone j (v.answers j) ++
      if j = i ∧ gone (v.current i) = false then [a] else [] := by
  by_cases hj : j = i
  · subst hj
    rw [answers_answer, Function.update_self, spared_concat]
    cases h : gone ⟨j, (v.answers j).length⟩ <;> simp [current, h]
  · simp [hj]

theorem current_answer_of_ne {j : Nat} (hj : j ≠ i) (m : Memory) (a : Answer) (events : List Event) :
    (v.answer i m a events).current j = v.current j := by
  simp [current, hj]

theorem without_turn_of_gone (h : v.Separable gone alg cut shows i choice) (away : gone (v.current i)) :
    (v.turn alg programs i choice).without gone cut shows = v.without gone cut shows := by
  have hides : ∀ (new : Option Label) (j : Nat),
      (if gone (v.current j) then none else Function.update v.label i new j) =
        if gone (v.current j) then none else v.label j := by
    intro new j
    by_cases hj : j = i
    · rw [hj, if_pos away, if_pos away]
    · rw [Function.update_of_ne hj]
  cases here : v.label i with
  | none =>
    cases next : (callsOf programs i)[(v.answers i).length]? with
    | none => rw [turn, here, next]
    | some c =>
      rw [turn, here, next]
      exact without_eq rfl (hides _) (fun _ => rfl) rfl
  | some l =>
    obtain ⟨memory, silent⟩ := h.hidden l here away
    have trace : ∀ e : List Event, e.filter shows = [] →
        (e.reverse ++ v.trace).filter shows = v.trace.filter shows := by
      intro e none
      rw [List.filter_append, List.filter_reverse, none, List.reverse_nil, List.nil_append]
    rw [turn_inside here]
    cases goes : (alg.step choice l v.memory).status with
    | running l' =>
      rw [take_running goes]
      exact without_eq memory (hides _) (fun _ => rfl) (trace _ silent)
    | returned a =>
      rw [take_returned goes]
      refine without_eq memory (fun j => ?_) (fun j => ?_) (trace _ silent)
      · by_cases hj : j = i
        · simp [without, hj, away]
        · rw [current_answer_of_ne hj, label_answer, Function.update_of_ne hj]
          rfl
      · rw [spared_answers, away]
        simp [without]

theorem without_turn_of_stays (h : v.Separable gone alg cut shows i choice)
    (stays : gone (v.current i) = false) :
    (v.turn alg programs i choice).without gone cut shows =
      (v.without gone cut shows).turn alg (sparedPrograms gone programs) i choice := by
  have shown : ∀ (new : Option Label) (j : Nat),
      (if gone (v.current j) then none else Function.update v.label i new j) =
        Function.update (v.without gone cut shows).label i new j := by
    intro new j
    by_cases hj : j = i
    · rw [hj, stays, Function.update_self, Function.update_self]
      rfl
    · rw [Function.update_of_ne hj, Function.update_of_ne hj]
      rfl
  have label : (v.without gone cut shows).label i = v.label i := by
    simp [without, stays]
  have called : (callsOf (sparedPrograms gone programs) i)[((v.without gone cut shows).answers i).length]? =
      (callsOf programs i)[(v.answers i).length]? := by
    rw [callsOf_sparedPrograms]
    exact getElem?_spared stays
  cases here : v.label i with
  | none =>
    rw [turn, turn, label, called, here]
    cases next : (callsOf programs i)[(v.answers i).length]? with
    | none => rfl
    | some c => exact without_eq rfl (shown _) (fun _ => rfl) rfl
  | some l =>
    obtain ⟨same, all⟩ := h.shown l here (by simp [stays])
    have step : alg.step choice l (v.without gone cut shows).memory = _ := same
    rw [turn_inside here, turn_inside (label.trans here), step]
    have trace : ((alg.step choice l v.memory).events.reverse ++ v.trace).filter shows =
        (alg.step choice l v.memory).events.reverse ++ v.trace.filter shows := by
      rw [List.filter_append, List.filter_reverse, all]
    cases goes : (alg.step choice l v.memory).status with
    | running l' =>
      rw [take_running goes, take_running rfl]
      exact without_eq rfl (shown _) (fun _ => rfl) trace
    | returned a =>
      rw [take_returned goes, take_returned rfl]
      refine without_eq rfl (fun j => ?_) (fun j => ?_) trace
      · by_cases hj : j = i
        · simp [hj]
        · rw [current_answer_of_ne hj, label_answer, label_answer, Function.update_of_ne hj,
            Function.update_of_ne hj]
          rfl
      · rw [spared_answers]
        by_cases hj : j = i
        · simp [hj, stays, without]
        · simp [hj, without]

end View

/-- The run from which operations are taken out. -/
theorem Algorithm.viewAfter_spared {gone : Operation → Bool}
    (alg : Algorithm Memory Call Label Choice Answer) (m : Memory) (programs : List (List Call))
    {cut : Memory → Memory} {shows : Event → Bool} (start : cut m = m) (schedule : List (Turn Choice))
    (separable : ∀ t earlier, t :: earlier <:+ schedule →
      (alg.viewAfter m programs earlier).Separable gone alg cut shows t.thread t.choice) :
    alg.viewAfter m (sparedPrograms gone programs) (alg.sparedTurns gone m programs schedule) =
      (alg.viewAfter m programs schedule).without gone cut shows := by
  induction schedule with
  | nil =>
    rw [sparedTurns, viewAfter_nil, viewAfter_nil, View.without, View.start, start]
    simp [spared]
  | cons t earlier ih =>
    have before := ih fun t' earlier' suffix => separable t' earlier' (suffix.trans (List.suffix_cons t earlier))
    have h := separable t earlier List.suffix_rfl
    rw [viewAfter_turn, sparedTurns]
    split
    · next away => rw [View.without_turn_of_gone h away, before]
    · next stays =>
      rw [viewAfter_turn, before, View.without_turn_of_stays h (Bool.not_eq_true _ ▸ stays)]

end SharedMemory
