import SharedMemory.Proofs.PairedReturns
import SharedMemory.Workload

/-!
# The workloads return exactly when the log has a record for every operation

Threads that insert and remove by turns submit two requests for each of their values, and the thread that
started them one more, which finds the container empty. A workload in one thread submits a request for each
of its steps, one for each value that they leave behind, and one more.
-/
namespace SharedMemory

theorem gather_of_panic {joined : List (Except Panic (List Value))} {p : Panic} (mem : .error p ∈ joined) :
    gather joined [] = .error .workerLost :=
  if_pos (List.any_eq_true.mpr ⟨_, mem, rfl⟩)

namespace Workload

open FlatCombining (Memory Spent PairedCrew pairedAfter)

theorem observe_of_lists {threads : Nat} {values : List Value} (fits : threads * values.length < 2 ^ 64)
    (lists : List (List Value)) (m : Tally Memory) :
    ∃ o, Paired.observe (Paired.inserted? threads values) (lists.map .ok) m = .ok o := by
  rw [Paired.inserted?, Size.mul?_ofNat fits]
  exact ⟨_, Paired.observe_ok _ lists m⟩

/-- The paired workload over a fresh container whose threads follow the schedule. -/
def pairedRun (d : Discipline) (config : LogConfig) (choose : FlatCombining.Label → Memory → Bool)
    (threads : Nat) (values : List Value) (schedule : List (Turn Bool)) : Memory × Result :=
  finish (Container.combining d) choose d (Paired.observe (Paired.inserted? threads values))
    (pairedAfter d config threads values schedule)

/-- How a workload ends over a log of this capacity, if its threads submit so many requests before the last
one finds the container empty. -/
structure PairedEnds (capacity : UInt64) (submitted : Nat) (result : Memory × Result) : Prop where
  fits : submitted + 1 ≤ capacity.toNat →
    (∃ o, result.2 = some (.ok o)) ∧ Spent result.1 (submitted + 1)
  /-- There is a record for each thread's requests, but not for the last one. -/
  full : capacity.toNat = submitted → result.2 = some (.error (.error (.logFull capacity)))
  overflows : capacity.toNat < submitted → result.2 = some (.error .workerLost)

namespace PairedEnds

variable {capacity : UInt64} {submitted : Nat} {result : Memory × Result}
  (h : PairedEnds capacity submitted result)
include h

theorem panics (few : capacity.toNat < submitted + 1) : ∃ p, result.2 = some (.error p) := by
  rcases Nat.eq_or_lt_of_le (Nat.le_of_lt_succ few) with full | late
  · exact ⟨_, h.full full⟩
  · exact ⟨_, h.overflows late⟩

theorem returns_iff : (∃ o, result.2 = some (.ok o)) ↔ submitted + 1 ≤ capacity.toNat := by
  refine ⟨fun ⟨o, ok⟩ => ?_, fun enough => (h.fits enough).1⟩
  by_contra few
  obtain ⟨p, panic⟩ := h.panics (Nat.lt_of_not_le few)
  cases ok.symm.trans panic

theorem isSome : result.2.isSome := by
  rcases Nat.lt_or_ge capacity.toNat (submitted + 1) with few | enough
  · obtain ⟨p, panic⟩ := h.panics few
    exact Option.isSome_of_eq_some panic
  · obtain ⟨o, ok⟩ := (h.fits enough).1
    exact Option.isSome_of_eq_some ok

end PairedEnds

section Paired

variable {d : Discipline} {config : LogConfig} {threads : Nat} {values : List Value}
  {schedule : List (Turn Bool)} {answers : List (Except Panic (List Value))}
  (done : (pairedAfter d config threads values schedule).answers? = some answers)
include done

theorem getElem?_of_answers (i : Nat) : (pairedAfter d config threads values schedule).threads[i]? =
    answers[i]?.map .returned := by
  rw [Crew.threads_of_answers done, List.getElem?_map]

theorem exists_panic (late : config.capacity.toNat < 2 * threads * values.length) :
    ∃ p, .error p ∈ answers := by
  by_contra calm
  have none_panics (i : Nat) (p : Panic) :
      (pairedAfter d config threads values schedule).threads[i]? ≠ some (.returned (.error p)) := by
    intro here
    rw [getElem?_of_answers done, Option.map_eq_some_iff] at here
    obtain ⟨a, ha, same⟩ := here
    cases same
    exact calm ⟨p, List.mem_of_getElem? ha⟩
  have next := FlatCombining.next_of_returned (Option.isSome_of_eq_some done) none_panics
  have room := (FlatCombining.counted none_panics).1.next
  obtain ⟨turns, tells⟩ := FlatCombining.exists_turns d config threads values schedule
  rw [next, ← tells.memory, FlatCombining.size_after] at room
  exact Nat.not_le_of_lt late room

theorem exists_lists (enough : 2 * threads * values.length ≤ config.capacity.toNat) :
    ∃ lists : List (List Value), answers = lists.map .ok := by
  refine eq_map_ok fun r hr => ?_
  cases r with
  | ok got => exact ⟨got, rfl⟩
  | error p =>
    obtain ⟨i, hi⟩ := List.getElem?_of_mem hr
    obtain ⟨turns, tells⟩ := FlatCombining.exists_turns d config threads values schedule
    refine absurd ?_ (tells.no_panic enough (i := i) (p := p))
    rw [getElem?_of_answers done, hi]
    rfl

/-- The threads end well if the log has a record for each of their requests, and the check that follows if it
has one more. -/
theorem paired_ends (choose : FlatCombining.Label → Memory → Bool) :
    PairedEnds config.capacity (2 * threads * values.length)
      (pairedRun d config choose threads values schedule) := by
  have run : pairedRun d config choose threads values schedule =
      conclude (Container.combining d) choose d
        (Paired.observe (Paired.inserted? threads values) answers
          (pairedAfter d config threads values schedule).memory)
        (pairedAfter d config threads values schedule).memory.container := by
    rw [pairedRun, finish, done]
  rw [run]
  rcases Nat.lt_or_ge config.capacity.toNat (2 * threads * values.length) with late | enough
  · obtain ⟨p, panicked⟩ := exists_panic done late
    rw [Paired.observe, gather_of_panic panicked]
    exact ⟨fun fits => absurd late (by omega), fun full => absurd late (by omega), fun _ => rfl⟩
  · obtain ⟨lists, rfl⟩ := exists_lists done enough
    have fits : threads * values.length < 2 ^ 64 := by
      have bound := config.capacity.toNat_lt
      rw [Nat.mul_assoc] at enough
      omega
    obtain ⟨o, observed⟩ := observe_of_lists fits lists (pairedAfter d config threads values schedule).memory
    have logs := FlatCombining.logs_of_returned (Option.isSome_of_eq_some done) enough
    rw [observed, conclude]
    rcases Nat.eq_or_lt_of_le enough with full | room
    · obtain ⟨m', refused⟩ := logs.refused d choose .remove (by simp [full])
      rw [Comparison.removal_of_serve? refused]
      exact ⟨fun fits => absurd full (by omega), fun _ => rfl, fun late => absurd full (by omega)⟩
    · obtain ⟨m', removed, after⟩ := logs.removal d choose (some (emptyLabel d)) (by simpa using room)
      rw [show (none : Option Value) = (Discipline.remove []).1 from rfl, removed]
      refine ⟨fun _ => ⟨⟨_, rfl⟩, ?_⟩, fun full => absurd room (by omega),
        fun late => absurd room (by omega)⟩
      simpa using after.toRests.spent after.done

end Paired

/-- What the paired workload takes of a log. -/
structure PairedBudget (d : Discipline) (config : LogConfig)
    (choose : FlatCombining.Label → Memory → Bool) (threads : Nat) (values : List Value) : Prop where
  ends : ∀ schedule, (pairedAfter d config threads values schedule).answers?.isSome →
    PairedEnds config.capacity (2 * threads * values.length)
      (pairedRun d config choose threads values schedule)
  waits : ∀ schedule, ¬ (pairedAfter d config threads values schedule).answers?.isSome →
    (pairedRun d config choose threads values schedule).2 = none
  /-- Whether the log is long enough or not, no thread waits for ever. -/
  stops : 2 * threads * values.length < 2 ^ 64 → ∀ turns, Fair threads turns →
    ∃ n, (pairedRun d config choose threads values (firstTurns turns n)).2.isSome
  returns : ∀ turns, Fair threads turns →
    ((∃ n o, (pairedRun d config choose threads values (firstTurns turns n)).2 = some (.ok o)) ↔
      2 * threads * values.length + 1 ≤ config.capacity.toNat)

theorem pairedRun_of_running {d : Discipline} {config : LogConfig} {threads : Nat} {values : List Value}
    {schedule : List (Turn Bool)} (choose : FlatCombining.Label → Memory → Bool)
    (running : ¬ (pairedAfter d config threads values schedule).answers?.isSome) :
    (pairedRun d config choose threads values schedule).2 = none := by
  rw [Option.not_isSome_iff_eq_none] at running
  rw [pairedRun, finish, running]

theorem paired_budget (d : Discipline) (config : LogConfig) (choose : FlatCombining.Label → Memory → Bool)
    (threads : Nat) (values : List Value) : PairedBudget d config choose threads values := by
  have ends (schedule : List (Turn Bool))
      (returned : (pairedAfter d config threads values schedule).answers?.isSome) :
      PairedEnds config.capacity (2 * threads * values.length)
        (pairedRun d config choose threads values schedule) := by
    obtain ⟨answers, done⟩ := Option.isSome_iff_exists.mp returned
    exact paired_ends done choose
  have stops (few : 2 * threads * values.length < 2 ^ 64) (turns : Nat → Turn Bool)
      (fair : Fair threads turns) :
      ∃ n, (pairedAfter d config threads values (firstTurns turns n)).answers?.isSome :=
    FlatCombining.paired_returns (by rwa [FlatCombining.submissions_paired]) fair
  refine ⟨ends, fun _ => pairedRun_of_running choose, fun few turns fair => ?_, fun turns fair => ⟨?_, ?_⟩⟩
  · obtain ⟨n, returned⟩ := stops few turns fair
    exact ⟨n, (ends _ returned).isSome⟩
  · rintro ⟨n, o, ok⟩
    by_cases returned : (pairedAfter d config threads values (firstTurns turns n)).answers?.isSome
    · exact (ends _ returned).returns_iff.mp ⟨o, ok⟩
    · cases ok.symm.trans (pairedRun_of_running choose returned)
  · intro enough
    have few := Nat.lt_of_lt_of_le enough (Nat.le_of_lt config.capacity.toNat_lt)
    obtain ⟨n, returned⟩ := stops few turns fair
    exact ⟨n, (ends _ returned).returns_iff.mpr enough⟩

/-- What a comparison with a list takes of a log. -/
structure SequentialBudget (d : Discipline) (config : LogConfig)
    (choose : FlatCombining.Label → Memory → Bool) (requests : List Request) : Prop where
  ends : Comparison.Ends config.capacity (requests.length + (d.serveAll requests []).2.length + 1)
    (Comparison.run (Container.combining d) choose d requests {} (.ofConfig config))
  few : requests.length + (d.serveAll requests []).2.length + 1 ≤ 2 * requests.length + 1
  calm : 2 * requests.length + 1 ≤ config.capacity.toNat →
    (Comparison.run (Container.combining d) choose d requests {} (.ofConfig config)).2 = some (.ok ())

theorem sequential_budget (d : Discipline) (config : LogConfig)
    (choose : FlatCombining.Label → Memory → Bool) (requests : List Request) :
    SequentialBudget d config choose requests := by
  have ends : Comparison.Ends _ _ (Comparison.run _ choose d requests {} (.ofConfig config)) :=
    (Comparison.logs_ofConfig config).run d choose requests rfl
  rw [List.length_nil, Nat.zero_add] at ends
  have few := Comparison.total_le d requests
  exact ⟨ends, few, fun enough => (ends.fits (Nat.le_trans few enough)).1⟩

/-- How many records the workloads need, in any number of threads and in one. -/
theorem operation_budgets (d : Discipline) (config : LogConfig)
    (choose : FlatCombining.Label → Memory → Bool) :
    (∀ threads values, PairedBudget d config choose threads values) ∧
      ∀ requests, SequentialBudget d config choose requests :=
  ⟨paired_budget d config choose, sequential_budget d config choose⟩

/-- With a record for each request of the thread only the check is refused, with one less the thread is. -/
example :
    (pairedRun .lifo ⟨2⟩ (fun _ _ => false) 1 [5] (List.replicate 23 ⟨0, false⟩)).2 =
        some (.error (.error (.logFull 2))) ∧
      (pairedRun .lifo ⟨1⟩ (fun _ _ => false) 1 [5] (List.replicate 23 ⟨0, false⟩)).2 =
        some (.error .workerLost) :=
  ⟨rfl, rfl⟩

end Workload

end SharedMemory
