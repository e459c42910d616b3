import Mathlib.Data.Prod.Lex
import SharedMemory.Proofs.CombiningDescent
import SharedMemory.Proofs.FairRuns
import SharedMemory.Proofs.PairedBudget

/-!
# The threads of the paired workload return

Under a fair schedule the paired workload over a log comes to its end. What is left for the threads to do
and for the passes to apply never grows, and a thread that does not wait for its record takes from it with
every turn. While all threads wait, none of them turns in vain for long: either it changes nothing, or it
comes nearer to applying a record or to finding its own applied.
-/
namespace SharedMemory.FlatCombining

/-- The thread waits for its record to be applied, or has returned. -/
def resting : PairedStatus → Bool
  | .running l => l.inner?.any Label.waits
  | .returned _ => true

/-- The stages that a thread has left: fourteen for each value. -/
def work : PairedStatus → Nat
  | .running (.next left _) => 14 * left.length + 1
  | .running (.inserting l left _) => 14 * left.length + 8 + l.stage
  | .running (.removing l left _) => 14 * left.length + 2 + l.stage
  | .running (.addToSum _ left _) => 14 * left.length + 2
  | .returned _ => 0

def away (ready : Bool) : PairedStatus → Nat
  | .running l => (l.inner?.map (Label.distance ready)).getD 0
  | .returned _ => 0

section Container

variable {l : Label} {m : Memory}

theorem combining_ahead (d : Discipline) (choice : Bool) (m : Memory) (submits : l.Submits)
    (ahead : l.waits = false) :
    toGo ((Container.combining d).step choice l m).status < l.stage ∧
      ((Container.combining d).step choice l m).memory.unapplied = m.unapplied := by
  obtain ⟨less, same⟩ := step_ahead d choice m submits ahead
  rw [combining_eq]
  exact ⟨(toGo_mapAnswer Answer.reply _).trans_lt less, same⟩

theorem combining_waiting (d : Discipline) (choice : Bool) (m : Memory) (waiting : l.waits) :
    ((Container.combining d).step choice l m = ⟨m, .running l, []⟩ ∧ ¬ l.Moves m) ∨
      ∃ l', ((Container.combining d).step choice l m).status = .running l' ∧
        (l'.stage + ((Container.combining d).step choice l m).memory.unapplied < l.stage + m.unapplied ∨
          l'.waits ∧ ((Container.combining d).step choice l m).memory.log = m.log ∧
            ((Container.combining d).step choice l m).memory.watermark = m.watermark ∧
            (l.Settled m → l'.distance m.ready < l.distance m.ready)) := by
  rw [combining_eq]
  rcases step_waiting d choice m waiting with ⟨idle, stays⟩ | ⟨l', goes, way⟩
  · refine .inl ⟨?_, stays⟩
    change Effect.mk (step d choice l m).memory ((step d choice l m).status.mapAnswer Answer.reply)
      (step d choice l m).events = _
    rw [idle]
    rfl
  · exact .inr ⟨l', congrArg (Status.mapAnswer Answer.reply) goes, way⟩

theorem ready_congr {m' : Memory} (log : m'.log = m.log) (watermark : m'.watermark = m.watermark) :
    m'.ready = m.ready := by
  rw [Memory.ready, Memory.ready, Memory.record, Memory.record, log, watermark]

theorem unapplied_congr {m' : Memory} (log : m'.log = m.log) (watermark : m'.watermark = m.watermark) :
    m'.unapplied = m.unapplied := by
  rw [Memory.unapplied, Memory.unapplied, log, watermark]

theorem stage_of_waits (waiting : l.waits) : l.stage = 2 := by
  cases l with
  | lock | check | combine | recheck | asleep => rfl
  | _ => cases waiting

end Container

section Step

variable {l : Paired.Label Label}

theorem work_ahead (d : Discipline) (choice : Bool) (m : Tally Memory)
    (submits : ∀ k, l.inner? = some k → k.Submits) (ahead : resting (.running l) = false) :
    let e := Paired.step (Container.combining d) choice l m
    work e.status + e.memory.container.unapplied < work (.running l) + m.container.unapplied := by
  cases l with
  | next left got =>
    cases left with
    | nil => exact Nat.add_lt_add_right (Nat.zero_lt_succ _) _
    | cons v left =>
      have enters : ((Container.combining d).enter (.insert v)).stage = 6 := rfl
      simp only [Paired.step, work, List.length_cons, enters]
      omega
  | addToSum v left got => exact Nat.add_lt_add_right (Nat.lt_succ_self _) _
  | inserting k left got =>
    obtain ⟨less, same⟩ := combining_ahead d choice m.container (submits k rfl) ahead
    have enters : ((Container.combining d).enter .remove).stage = 6 := rfl
    simp only [Paired.step, same]
    cases status : ((Container.combining d).step choice k m.container).status with
    | running k' =>
      simp only [status, toGo, work] at less ⊢
      omega
    | returned reply => cases reply <;> simp only [status, toGo, work, enters] at less ⊢ <;> omega
  | removing k left got =>
    obtain ⟨less, same⟩ := combining_ahead d choice m.container (submits k rfl) ahead
    simp only [Paired.step, same]
    cases status : ((Container.combining d).step choice k m.container).status with
    | running k' =>
      simp only [status, toGo, work] at less ⊢
      omega
    | returned reply =>
      rcases reply with _ | _ | _ <;> simp only [status, toGo, work] at less ⊢ <;> omega

theorem work_waiting (d : Discipline) (choice : Bool) (m : Tally Memory) (waiting : resting (.running l)) :
    let e := Paired.step (Container.combining d) choice l m
    (e = ⟨m, .running l, []⟩ ∧ ∃ k, l.inner? = some k ∧ ¬ k.Moves m.container) ∨
      work e.status + e.memory.container.unapplied < work (.running l) + m.container.unapplied ∨
      work e.status + e.memory.container.unapplied = work (.running l) + m.container.unapplied ∧
        resting e.status ∧ e.memory.container.ready = m.container.ready ∧
        ((∀ k, l.inner? = some k → k.Settled m.container) →
          away m.container.ready e.status < away m.container.ready (.running l)) := by
  cases l with
  | next | addToSum => cases waiting
  | inserting k left got | removing k left got =>
    rcases combining_waiting d choice m.container waiting with
      ⟨idle, stays⟩ | ⟨k', goes, less | ⟨waits, log, watermark, nearer⟩⟩
    · refine .inl ⟨?_, k, rfl, stays⟩
      simp only [Paired.step, idle]
    · refine .inr (.inl ?_)
      simp only [Paired.step, goes, work]
      omega
    · refine .inr (.inr ⟨?_, ?_, ready_congr log watermark, fun settled => ?_⟩)
      · simp only [Paired.step, goes, work, stage_of_waits waits, stage_of_waits waiting,
          unapplied_congr log watermark]
      · simp only [Paired.step, goes]
        exact waits
      · simp only [Paired.step, goes]
        exact nearer (settled k rfl)

end Step

section Crew

/-- What is left to do for the threads, and for the passes to apply. -/
def toil (c : PairedCrew) : Nat := (c.threads.map work).sum + c.memory.container.unapplied

/-- While all threads wait, how far they are from applying a record or finding their own applied. -/
def bustle (c : PairedCrew) : Nat :=
  if c.threads.all resting then (c.threads.map (away c.memory.container.ready)).sum else 0

def rank (c : PairedCrew) : ℕ ×ₗ ℕ := toLex (toil c, bustle c)

/-- The thread goes ahead with its next turn, or, while all threads wait, that turn is not in vain. -/
def Helpful (c : PairedCrew) (i : Nat) : Prop :=
  ∃ l, c.threads[i]? = some (.running l) ∧ (resting (.running l) = false ∨
    c.threads.all resting ∧ ∀ k, l.inner? = some k → k.Moves c.memory.container)

abbrev turned (d : Discipline) (choice : Bool) (c : PairedCrew) (i : Nat) : PairedCrew :=
  c.act (Paired.algorithm (Container.combining d)) i fun _ _ => choice

variable (d : Discipline) (choice : Bool) {c : PairedCrew} {i : Nat} {l : Paired.Label Label}
  (here : c.threads[i]? = some (.running l))
include here

theorem toil_act : let e := Paired.step (Container.combining d) choice l c.memory
    toil (turned d choice c i) + (work (.running l) + c.memory.container.unapplied) =
      toil c + (work e.status + e.memory.container.unapplied) := by
  obtain ⟨rest, whole, replaced⟩ := Crew.sum_split work here
  rw [turned, Crew.act_running _ here]
  simp only [toil, whole, replaced, Paired.algorithm]
  omega

theorem rank_of_less (less : let e := Paired.step (Container.combining d) choice l c.memory
      work e.status + e.memory.container.unapplied < work (.running l) + c.memory.container.unapplied) :
    rank (turned d choice c i) < rank c := by
  have toil := toil_act d choice here
  exact Prod.Lex.toLex_lt_toLex.mpr (.inl (by omega))

/-- The turn of a thread that waits changes nothing or lowers the rank, unless another goes ahead. -/
theorem act_waiting (waiting : resting (.running l)) :
    turned d choice c i = c ∧ (∃ k, l.inner? = some k ∧ ¬ k.Moves c.memory.container) ∨
      rank (turned d choice c i) < rank c ∨
      toil (turned d choice c i) = toil c ∧
        ¬ (c.threads.all resting ∧ ∀ k, l.inner? = some k → k.Settled c.memory.container) := by
  rcases work_waiting d choice c.memory waiting with ⟨idle, stays⟩ | less | ⟨same, rests, ready, nearer⟩
  · exact .inl ⟨Crew.act_of_idle here idle, stays⟩
  · exact .inr (.inl (rank_of_less d choice here less))
  · have toil := toil_act d choice here
    have same_toil : FlatCombining.toil (turned d choice c i) = FlatCombining.toil c := by omega
    by_cases calm : c.threads.all resting ∧ ∀ k, l.inner? = some k → k.Settled c.memory.container
    swap
    · exact .inr (.inr ⟨same_toil, calm⟩)
    refine .inr (.inl (Prod.Lex.toLex_lt_toLex.mpr (.inr ⟨same_toil, ?_⟩)))
    obtain ⟨all, settled⟩ := calm
    obtain ⟨rest, whole, replaced⟩ := Crew.sum_split (away c.memory.container.ready) here
    have all_after : (c.threads.set i
        (Paired.step (Container.combining d) choice l c.memory).status).all resting := by
      refine List.all_eq_true.mpr fun s hs => ?_
      rcases List.mem_or_eq_of_mem_set hs with old | rfl
      · exact List.all_eq_true.mp all s old
      · exact rests
    rw [turned, Crew.act_running _ here]
    simp only [bustle, Paired.algorithm, all, all_after, if_true, ready, whole, replaced]
    exact Nat.add_lt_add_right (nearer settled) rest

end Crew

section Run

variable {d : Discipline} {config : LogConfig} {threads : Nat} {values : List Value}
  {schedule turns : List (Turn Bool)} {i : Nat} {l : Paired.Label Label}

theorem Tells.exists_running (h : Tells d config threads values schedule turns) {k : Label}
    (here : (after d config (paired threads values) turns).label i = some k) :
    ∃ l, (pairedAfter d config threads values schedule).threads[i]? = some (.running l) ∧
      l.inner? = some k := by
  rcases Nat.lt_or_ge i threads with inside | beyond
  · obtain ⟨s, there⟩ := exists_status d config values schedule inside
    have mirrors := h.mirrors i s there
    cases s with
    | running l => exact ⟨l, there, mirrors.inner.symm.trans here⟩
    | returned a => cases here.symm.trans mirrors.outside
  · rw [label_absent d config values turns beyond] at here
    cases here

theorem Tells.waiting (h : Tells d config threads values schedule turns)
    (rest : (pairedAfter d config threads values schedule).threads.all resting) :
    ∀ j k, (after d config (paired threads values) turns).label j = some k → k.waits := by
  intro j k there
  obtain ⟨l, here, inner⟩ := h.exists_running there
  have waits := List.all_eq_true.mp rest _ (List.mem_of_getElem? here)
  rwa [resting, inner, Option.any_some] at waits

variable (bound : submissions (paired threads values) < 2 ^ 64)
include bound

/-- No thread of the workload looks whether the container is empty. -/
theorem submits_of_label {k : Label}
    (here : (after d config (paired threads values) turns).label i = some k) : k.Submits := by
  have stands := (invariant_reserved d config bound turns).stands i k here
  cases k with
  | lookLock | look =>
    obtain ⟨r, same, _⟩ := call?_paired stands
    cases same
  | lookUnlock empty =>
    obtain ⟨r, same, _⟩ := call?_paired stands.called
    cases same
  | _ => exact trivial

/-- A turn changes nothing, or it lowers the rank, or it is that of a thread that waits while another goes
ahead. -/
theorem rank_turn (d : Discipline) (config : LogConfig) (t : Turn Bool) (schedule : List (Turn Bool)) :
    pairedAfter d config threads values (t :: schedule) = pairedAfter d config threads values schedule ∧
        ¬ Helpful (pairedAfter d config threads values schedule) t.thread ∨
      rank (pairedAfter d config threads values (t :: schedule)) <
        rank (pairedAfter d config threads values schedule) ∨
      toil (pairedAfter d config threads values (t :: schedule)) =
          toil (pairedAfter d config threads values schedule) ∧
        ¬ (pairedAfter d config threads values schedule).threads.all resting ∧
        ¬ Helpful (pairedAfter d config threads values schedule) t.thread := by
  by_cases running : ∃ l, (pairedAfter d config threads values schedule).threads[t.thread]? =
      some (.running l)
  swap
  · refine .inl ⟨?_, fun ⟨l, here, _⟩ => running ⟨l, here⟩⟩
    exact Crew.act_of_not_running (Paired.algorithm (Container.combining d))
      (fun l here => running ⟨l, here⟩) fun _ _ => t.choice
  obtain ⟨l, here⟩ := running
  obtain ⟨turns, tells⟩ := exists_turns d config threads values schedule
  have inner := (tells.mirrors _ _ here).inner
  cases waiting : resting (.running l) with
  | false =>
    refine .inr (.inl (rank_of_less d t.choice here (work_ahead _ _ _ (fun k hk => ?_) waiting)))
    exact submits_of_label bound (inner.trans hk)
  | true =>
    have idle (vain : ¬ ((pairedAfter d config threads values schedule).threads.all resting ∧
        ∀ k, l.inner? = some k → k.Moves (pairedAfter d config threads values schedule).memory.container)) :
        ¬ Helpful (pairedAfter d config threads values schedule) t.thread := by
      rintro ⟨l', there, ahead | moves⟩
      · cases here.symm.trans there
        cases waiting.symm.trans ahead
      · cases here.symm.trans there
        exact vain moves
    rcases act_waiting d t.choice here waiting with ⟨same, k, hk, stays⟩ | less | ⟨same, uneasy⟩
    · exact .inl ⟨same, idle fun moves => stays (moves.2 k hk)⟩
    · exact .inr (.inl less)
    · have ahead : ¬ (pairedAfter d config threads values schedule).threads.all resting := by
        intro rest
        refine uneasy ⟨rest, fun k hk => ?_⟩
        rw [← tells.memory]
        exact settled_of_waiting bound (tells.waiting rest) (inner.trans hk)
      exact .inr (.inr ⟨same, ahead, idle fun moves => ahead moves.1⟩)

theorem exists_helpful (running : ¬ (pairedAfter d config threads values schedule).answers?.isSome) :
    ∃ i < threads, Helpful (pairedAfter d config threads values schedule) i := by
  obtain ⟨turns, tells⟩ := exists_turns d config threads values schedule
  have inside {i : Nat} {s : PairedStatus}
      (here : (pairedAfter d config threads values schedule).threads[i]? = some s) : i < threads :=
    length_threads d config threads values schedule ▸ (List.getElem?_eq_some_iff.mp here).1
  by_cases rest : (pairedAfter d config threads values schedule).threads.all resting
  · -- all wait, so the next turn of one of them is not in vain, though it need not be the one that is found
    -- running here
    obtain ⟨l, mem⟩ : ∃ l, Status.running l ∈ (pairedAfter d config threads values schedule).threads := by
      by_contra none_running
      refine running (Crew.answers_of_returned fun s hs => ?_)
      cases s with
      | running l => exact absurd ⟨l, hs⟩ none_running
      | returned a => exact ⟨a, rfl⟩
    obtain ⟨i, here⟩ := List.getElem?_of_mem mem
    obtain ⟨k, hk, -⟩ := (Option.any_eq_true _ _).mp (List.all_eq_true.mp rest _ mem)
    obtain ⟨j, k', there, moves⟩ :=
      exists_moves bound (tells.waiting rest) ((tells.mirrors _ _ here).inner.trans hk)
    obtain ⟨l', here', inner⟩ := tells.exists_running there
    refine ⟨j, inside here', l', here', .inr ⟨rest, fun k'' hk'' => ?_⟩⟩
    cases inner.symm.trans hk''
    rwa [← tells.memory]
  · obtain ⟨s, mem, ahead⟩ := List.all_eq_false.mp (Bool.eq_false_iff.mpr rest)
    obtain ⟨i, here⟩ := List.getElem?_of_mem mem
    cases s with
    | running l => exact ⟨i, inside here, l, here, .inl (Bool.eq_false_iff.mpr ahead)⟩
    | returned a => exact absurd rfl ahead

/-- The threads are ranked by what is left to do, and then by how far they are from what they wait for. -/
theorem ranked (d : Discipline) (config : LogConfig) :
    Crew.Ranked (Paired.algorithm (Container.combining d))
      (Paired.crew (Container.combining d) threads values (.ofConfig config)) rank Helpful where
  some_helpful schedule running := by
    rw [Paired.threads_start, List.length_replicate]
    exact exists_helpful bound running
  lowers schedule t helpful := by
    rcases rank_turn bound d config t schedule with ⟨_, idle⟩ | less | ⟨_, _, idle⟩
    · exact absurd helpful idle
    · exact less
    · exact absurd helpful idle
  waits schedule t i helpful other := by
    rcases rank_turn bound d config t schedule with ⟨same, _⟩ | less | ⟨same, busy, _⟩
    · exact .inr ⟨(congrArg rank same).le, (congrArg (Helpful · i) same).mpr helpful⟩
    · exact .inl less
    · obtain ⟨l, here, ahead | ⟨rest, _⟩⟩ := helpful
      swap
      · exact absurd rest busy
      have still : (pairedAfter d config threads values (t :: schedule)).threads[i]? = some (.running l) :=
        (Crew.threads_act_of_ne _ other _).trans here
      have busy_after : ¬ (pairedAfter d config threads values (t :: schedule)).threads.all resting :=
        fun rest => Bool.false_ne_true
          (ahead.symm.trans (List.all_eq_true.mp rest _ (List.mem_of_getElem? still)))
      -- the thread that goes ahead makes the second part of the rank zero before the turn and after it
      refine .inr ⟨?_, l, still, .inl ahead⟩
      refine Prod.Lex.toLex_le_toLex.mpr (.inr ⟨same, Nat.le_of_eq ?_⟩)
      exact (if_neg busy_after).trans (if_neg busy).symm

theorem paired_returns {turns : Nat → Turn Bool} (fair : Fair threads turns) :
    ∃ n, (pairedAfter d config threads values (firstTurns turns n)).answers?.isSome := by
  refine (ranked bound d config).returns ?_
  rwa [Paired.threads_start, List.length_replicate]

end Run

end SharedMemory.FlatCombining
