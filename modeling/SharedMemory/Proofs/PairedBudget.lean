import SharedMemory.Proofs.CombiningRest
import SharedMemory.Proofs.Conservation
import SharedMemory.Proofs.PairedSupply
import SharedMemory.Proofs.SequentialBudget

/-!
# What the paired workload spends of a log

Every thread reserves two records for each of its values, and the thread that started them reserves one
more to find the container empty. If the log is too short for the threads, one of them is refused and
panics; if it is too short by the last record only, the check is refused. Otherwise nobody panics.
-/
namespace SharedMemory.FlatCombining

/-- What a client is told who does not expect failure. -/
def Answer.reply : Answer → Reply
  | .served (.ok found) => .ok found
  | .served (.error e) => .error (.error e)
  | .emptiness _ => .ok none

theorem combining_eq (d : Discipline) :
    Container.combining d = (algorithm d).via .submit Answer.reply := by
  refine congrArg ((algorithm d).via .submit) (funext fun a => ?_)
  match a with
  | .served (.ok _) | .served (.error _) | .emptiness _ => rfl

abbrev PairedCrew : Type := Crew (Tally Memory) (Paired.Label Label) (Except Panic (List Value))

def pairedAfter (d : Discipline) (config : LogConfig) (threads : Nat) (values : List Value)
    (schedule : List (Turn Bool)) : PairedCrew :=
  (Paired.crew (Container.combining d) threads values (.ofConfig config)).after
    (Paired.algorithm (Container.combining d)) schedule

section Step

variable {d : Discipline} {spurious : Bool} {m : Memory}

def Label.reserves : Label → Nat
  | .reserve _ => 1
  | _ => 0

/-- Nobody has been refused. -/
structure Roomy (m : Memory) : Prop where
  next : m.next.toNat ≤ m.log.size
  small : m.log.size < 2 ^ 64

/-- A step is refused, or reserves a record if it stands before a reservation. -/
theorem Roomy.step (h : Roomy m) (d : Discipline) (spurious : Bool) (l : Label) :
    (∃ e, (step d spurious l m).status = .returned (.served (.error e))) ∨
      Roomy (step d spurious l m).memory ∧
        (step d spurious l m).memory.next.toNat = m.next.toNat + l.reserves := by
  by_cases reserves : ∃ r, l = .reserve r
  · obtain ⟨r, rfl⟩ := reserves
    rcases Nat.lt_or_ge m.next.toNat m.log.size with room | full
    · have counted : (m.next + 1).toNat = m.next.toNat + 1 := by
        rw [UInt64.toNat_add]
        exact Nat.mod_eq_of_lt (Nat.lt_of_le_of_lt room h.small)
      simp only [FlatCombining.step, if_pos room]
      exact .inr ⟨⟨counted ▸ room, h.small⟩, counted⟩
    · simp only [FlatCombining.step, if_neg (Nat.not_lt.mpr full)]
      exact .inl ⟨_, rfl⟩
  · have same := next_step (d := d) (fun r same => reserves ⟨r, same⟩) spurious m
    have none_due : l.reserves = 0 := by
      cases l with
      | reserve r => exact absurd ⟨r, rfl⟩ reserves
      | _ => rfl
    refine .inr ⟨⟨?_, ?_⟩, by rw [same, none_due, Nat.add_zero]⟩
    · rw [same, size_step]
      exact h.next
    · rw [size_step]
      exact h.small

/-- A reservation is the first step of a submission. -/
theorem reserves_step {l l' : Label} (goes : (step d spurious l m).status = .running l') :
    l'.reserves = 0 := by
  cases l with
  | reserve | lock | lookLock | recheck =>
    simp only [step] at goes
    split at goes <;> cases goes <;> rfl
  | combine =>
    simp only [step] at goes
    split at goes
    · cases goes
      rfl
    · split at goes <;> cases goes <;> rfl
  | check | asleep =>
    cases goes
    split <;> rfl
  | writeKind | writeValue | publish | look =>
    cases goes
    rfl
  | unlock | lookUnlock => cases goes

abbrev PairedStatus : Type := Status (Paired.Label Label) (Except Panic (List Value))

/-- The records that a thread has still to reserve. -/
def due : PairedStatus → Nat
  | .running (.next left _) | .running (.addToSum _ left _) => 2 * left.length
  | .running (.inserting l left _) => 2 * left.length + 1 + l.reserves
  | .running (.removing l left _) => 2 * left.length + l.reserves
  | .returned _ => 0

theorem combining_step (roomy : Roomy m) (l : Label) (choice : Bool) :
    (∃ p, ((Container.combining d).step choice l m).status = .returned (.error p)) ∨
      Roomy ((Container.combining d).step choice l m).memory ∧
        ((Container.combining d).step choice l m).memory.next.toNat = m.next.toNat + l.reserves ∧
        ∀ l', ((Container.combining d).step choice l m).status = .running l' → l'.reserves = 0 := by
  rw [combining_eq]
  rcases roomy.step d choice l with ⟨e, refused⟩ | ⟨still, counted⟩
  · exact .inl ⟨.error e, congrArg (Status.mapAnswer Answer.reply) refused⟩
  · refine .inr ⟨still, counted, fun l' goes => ?_⟩
    change (FlatCombining.step d choice l m).status.mapAnswer _ = _ at goes
    cases status : (FlatCombining.step d choice l m).status with
    | running k =>
      rw [status] at goes
      cases goes
      exact reserves_step status
    | returned a =>
      rw [status] at goes
      cases goes

theorem due_step {l : Paired.Label Label} {m : Tally Memory} (choice : Bool) (roomy : Roomy m.container)
    (calm : ∀ p, (Paired.step (Container.combining d) choice l m).status ≠ .returned (.error p)) :
    let e := Paired.step (Container.combining d) choice l m
    Roomy e.memory.container ∧
      e.memory.container.next.toNat + due e.status = m.container.next.toNat + due (.running l) := by
  cases l with
  | next left got => cases left <;> exact ⟨roomy, rfl⟩
  | addToSum v left got => exact ⟨roomy, rfl⟩
  | inserting k left got =>
    rcases combining_step (d := d) roomy k choice with ⟨p, refused⟩ | ⟨still, counted, fresh⟩
    · refine absurd ?_ (calm p)
      simp only [Paired.step, refused]
    · refine ⟨still, ?_⟩
      cases status : ((Container.combining d).step choice k m.container).status with
      | running k' =>
        simp only [Paired.step, status, due, counted, fresh k' status]
        omega
      | returned reply =>
        cases reply with
        | error p => exact absurd (by simp only [Paired.step, status]) (calm p)
        | ok found =>
          have enters : ((Container.combining d).enter .remove).reserves = 1 := rfl
          simp only [Paired.step, status, due, counted, enters]
          omega
  | removing k left got =>
    rcases combining_step (d := d) roomy k choice with ⟨p, refused⟩ | ⟨still, counted, fresh⟩
    · refine absurd ?_ (calm p)
      simp only [Paired.step, refused]
    · refine ⟨still, ?_⟩
      cases status : ((Container.combining d).step choice k m.container).status with
      | running k' =>
        simp only [Paired.step, status, due, counted, fresh k' status]
        omega
      | returned reply =>
        rcases reply with p | _ | v
        · exact absurd (by simp only [Paired.step, status]) (calm p)
        · exact absurd (by simp only [Paired.step, status]) (calm .emptyAfterInsert)
        · simp only [Paired.step, status, due, counted]
          omega

end Step

section Run

variable {d : Discipline} {config : LogConfig} {threads : Nat} {values : List Value}
  {schedule turns : List (Turn Bool)}

/-- The programs after `turns` show what the workload has come to after `schedule`. -/
structure Tells (d : Discipline) (config : LogConfig) (threads : Nat) (values : List Value)
    (schedule turns : List (Turn Bool)) : Prop where
  memory : (after d config (paired threads values) turns).memory =
    (pairedAfter d config threads values schedule).memory.container
  mirrors : ∀ i s, (pairedAfter d config threads values schedule).threads[i]? = some s →
    Paired.Mirrors values ((after d config (paired threads values) turns).label i)
      (((after d config (paired threads values) turns).answers i).map Answer.reply) s

theorem exists_turns (d : Discipline) (config : LogConfig) (threads : Nat) (values : List Value)
    (schedule : List (Turn Bool)) : ∃ turns, Tells d config threads values schedule turns := by
  obtain ⟨turns, shadows⟩ := Paired.exists_shadow (Container.combining d) threads values
    (.ofConfig config) schedule
  have same := (algorithm d).viewAfter_via Answer.reply (.ofConfig config) .submit
    (Paired.programs threads values) turns
  rw [← combining_eq] at same
  rw [same] at shadows
  exact ⟨turns, shadows.memory, shadows.mirrors⟩

theorem length_threads (d : Discipline) (config : LogConfig) (threads : Nat) (values : List Value)
    (schedule : List (Turn Bool)) :
    (pairedAfter d config threads values schedule).threads.length = threads := by
  rw [pairedAfter, Crew.length_after, Paired.threads_start, List.length_replicate]

theorem exists_status (d : Discipline) (config : LogConfig) (values : List Value)
    (schedule : List (Turn Bool)) {i : Nat} (inside : i < threads) :
    ∃ s, (pairedAfter d config threads values schedule).threads[i]? = some s :=
  ⟨_, List.getElem?_eq_getElem ((length_threads d config threads values schedule).symm ▸ inside)⟩

theorem label_absent (d : Discipline) (config : LogConfig) (values : List Value) (turns : List (Turn Bool))
    {i : Nat} (beyond : threads ≤ i) : (after d config (paired threads values) turns).label i = none := by
  have nobody : ((Crew.start (algorithm d).program (.ofConfig config) (paired threads values)).after
      (algorithm d).program turns).threads[i]? = none := by
    rw [List.getElem?_eq_none_iff, Crew.length_after]
    simpa [Crew.start, paired, Paired.programs] using beyond
  exact congrArg (Option.bind · ProgramStatus.inside) nobody

theorem bound_of_enough (enough : 2 * threads * values.length ≤ config.capacity.toNat) :
    submissions (paired threads values) < 2 ^ 64 := by
  rw [submissions_paired]
  exact Nat.lt_of_le_of_lt enough config.capacity.toNat_lt

theorem answer_of_reply {v : View Memory Label Answer} {i k : Nat} {before : List Reply} {reply : Reply}
    (told : (v.answers i).map Answer.reply = before ++ [reply]) (last : before.length = k) :
    ∃ a, v.answer? ⟨i, k⟩ = some a ∧ a.reply = reply := by
  have here : ((v.answers i).map Answer.reply)[k]? = some reply := by
    rw [told, ← last, List.getElem?_append_right (Nat.le_refl _), Nat.sub_self]
    rfl
  rw [List.getElem?_map] at here
  exact Option.map_eq_some_iff.mp here

theorem call?_removal {i k : Nat} (thread : i < threads) (inside : k < values.length) :
    Operation.call? (paired threads values) ⟨i, 2 * k + 1⟩ = some (.submit .remove) := by
  rw [Operation.call?, paired, callsOf_map, List.getElem?_map, Paired.callsOf_programs thread,
    (Paired.getElem?_work _ _).2, List.getElem?_eq_getElem inside]
  rfl

/-- If the log has a record for every request of the threads, no thread panics. -/
theorem Tells.no_panic (h : Tells d config threads values schedule turns)
    (enough : 2 * threads * values.length ≤ config.capacity.toNat) {i : Nat} {p : Panic} :
    (pairedAfter d config threads values schedule).threads[i]? ≠ some (.returned (.error p)) := by
  intro here
  have bound := bound_of_enough enough
  have thread : i < threads :=
    length_threads d config threads values schedule ▸ (List.getElem?_eq_some_iff.mp here).1
  have mirrors := h.mirrors i _ here
  generalize (after d config (paired threads values) turns).label i = label,
    told : ((after d config (paired threads values) turns).answers i).map Answer.reply = answers at mirrors
  cases mirrors with
  | failed before p =>
    obtain ⟨a, gives, same⟩ := answer_of_reply told rfl
    match a, same with
    | .served (.error e), _ => exact not_refused bound enough _ gives
  | starved before k count inside =>
    obtain ⟨a, gives, same⟩ := answer_of_reply told count
    have called := call?_removal thread inside
    match a, same with
    | .served (.ok none), _ =>
      obtain ⟨v, same⟩ := found_of_removal bound called gives
      cases same
    | .emptiness empty, _ =>
      have looked := ((invariant_reserved d config bound turns).answers _ _ gives).called
      cases looked.symm.trans called

/-- While no thread has panicked, the records reserved and those still to reserve are as many as the
requests of all threads. -/
theorem counted (calm : ∀ (i : Nat) (p : Panic),
      (pairedAfter d config threads values schedule).threads[i]? ≠ some (.returned (.error p))) :
    Roomy (pairedAfter d config threads values schedule).memory.container ∧
      (pairedAfter d config threads values schedule).memory.container.next.toNat +
          ((pairedAfter d config threads values schedule).threads.map due).sum =
        2 * threads * values.length := by
  induction schedule with
  | nil =>
    refine ⟨⟨Nat.zero_le _, ?_⟩, ?_⟩
    · exact Array.size_replicate ▸ config.capacity.toNat_lt
    · rw [pairedAfter, Crew.after, Paired.threads_start, List.map_replicate, List.sum_replicate_nat, due,
        Nat.mul_left_comm, Nat.mul_assoc]
      exact Nat.zero_add _
  | cons t earlier ih =>
    by_cases running : ∃ l, (pairedAfter d config threads values earlier).threads[t.thread]? =
        some (.running l)
    swap
    · have same : pairedAfter d config threads values (t :: earlier) =
          pairedAfter d config threads values earlier :=
        Crew.act_of_not_running (Paired.algorithm (Container.combining d))
          (fun l here => running ⟨l, here⟩) fun _ _ => t.choice
      rw [same] at calm ⊢
      exact ih calm
    obtain ⟨l, here⟩ := running
    have turned : pairedAfter d config threads values (t :: earlier) = _ :=
      Crew.act_running (Paired.algorithm (Container.combining d)) here t.choice
    obtain ⟨roomy, whole⟩ := ih fun i p panicked => by
      have other : i ≠ t.thread := by
        rintro rfl
        cases here.symm.trans panicked
      exact calm i p ((Crew.threads_act_of_ne _ other _).trans panicked)
    rw [turned] at calm ⊢
    have own := calm t.thread
    rw [List.getElem?_set_self (List.getElem?_eq_some_iff.mp here).1] at own
    obtain ⟨still, paid⟩ := due_step (d := d) (l := l) t.choice roomy
      fun p same => own p (congrArg some same)
    obtain ⟨rest, split, replaced⟩ := Crew.sum_split due here
    refine ⟨still, ?_⟩
    change _ + ((List.set _ _ _).map due).sum = _
    rw [replaced, ← whole, split, ← Nat.add_assoc, ← Nat.add_assoc]
    exact congrArg (· + rest) paid

section Returned

variable (returned : (pairedAfter d config threads values schedule).answers?.isSome)
include returned

theorem next_of_returned (calm : ∀ (i : Nat) (p : Panic),
      (pairedAfter d config threads values schedule).threads[i]? ≠ some (.returned (.error p))) :
    (pairedAfter d config threads values schedule).memory.container.next.toNat =
      2 * threads * values.length := by
  have nothing_due : ((pairedAfter d config threads values schedule).threads.map due).sum = 0 := by
    refine List.sum_eq_zero fun n hn => ?_
    obtain ⟨s, hs, rfl⟩ := List.mem_map.mp hn
    obtain ⟨a, rfl⟩ := Crew.returned_of_answers returned s hs
    rfl
  have whole := (counted calm).2
  rwa [nothing_due, Nat.add_zero] at whole

theorem Tells.left (h : Tells d config threads values schedule turns) (i : Nat) :
    (after d config (paired threads values) turns).label i = none := by
  rcases Nat.lt_or_ge i threads with inside | beyond
  · obtain ⟨s, here⟩ := exists_status d config values schedule inside
    obtain ⟨a, rfl⟩ := Crew.returned_of_answers returned s (List.mem_of_getElem? here)
    exact (h.mirrors i _ here).outside
  · exact label_absent d config values turns beyond

theorem logs_of_returned (enough : 2 * threads * values.length ≤ config.capacity.toNat) :
    Comparison.Logs config.capacity (pairedAfter d config threads values schedule).memory.container []
      ((pairedAfter d config threads values schedule).memory.container.records
        (2 * threads * values.length)) := by
  obtain ⟨turns, tells⟩ := exists_turns d config threads values schedule
  have bound := bound_of_enough enough
  have next := next_of_returned returned fun i p => tells.no_panic enough
  rw [← tells.memory] at next ⊢
  have rests := rests_of_left bound (tells.left returned) (next.trans_le enough)
  have watermark := rests.watermark
  rw [next] at rests watermark
  rw [length_records] at watermark
  rw [store_of_all bound watermark] at rests
  refine ⟨rests, size_after d config _ turns, fun r hr => ?_⟩
  obtain ⟨k, hk, rfl⟩ := List.mem_map.mp hr
  have below := List.mem_range.mp hk
  have applied := (invariant_reserved d config bound turns).owned.applied
  exact (applied.done k (Nat.lt_of_lt_of_le (watermark.symm ▸ below) applied.bounded)).mpr
    (watermark.symm ▸ below)

end Returned

end Run

end SharedMemory.FlatCombining
