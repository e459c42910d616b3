import SharedMemory.Container
import SharedMemory.Proofs.CallRemoval
import SharedMemory.Proofs.CombiningReservations

/-!
# A full log refuses requests and does nothing else

A submission that finds the log full moves the counter on and is answered in the same step. If such
submissions are taken out of a run, all others are served as before.
-/
namespace SharedMemory.FlatCombining

/-- A memory whose counter stops at the end of the log. -/
def capped (config : LogConfig) (m : Memory) : Memory :=
  { m with next := if config.capacity ≤ m.next then config.capacity else m.next }

def unexhausted : Event → Bool
  | .logExhausted _ => false
  | _ => true

section Removal

variable {d : Discipline} {config : LogConfig} {programs : List (List Call)} {t : Turn Bool}
  {earlier schedule : List (Turn Bool)} {o : Operation} {l : Label} {r : Request} {i : Nat} {m : Memory}

variable (d config programs schedule) in
/-- The submission has been refused: it reserved an index beyond the end of the log. -/
def refused (o : Operation) : Bool :=
  o ∈ (reserved d config programs schedule).drop config.capacity.toNat

theorem refused_iff (bound : submissions programs < 2 ^ 64)
    (owner : (reserved d config programs schedule)[i]? = some o) :
    refused d config programs schedule o ↔ config.capacity.toNat ≤ i := by
  rw [refused, decide_eq_true_iff]
  constructor
  · intro late
    obtain ⟨k, hk⟩ := List.mem_iff_getElem?.mp late
    rw [List.getElem?_drop] at hk
    have same := place_unique bound owner hk
    omega
  · exact mem_drop_of_getElem? owner

theorem step_capped (other : ∀ r, l ≠ .reserve r) (spurious : Bool) (m : Memory) :
    step d spurious l (capped config m) =
      ⟨capped config (step d spurious l m).memory, (step d spurious l m).status,
        (step d spurious l m).events⟩ := by
  cases l with
  | reserve r => exact absurd rfl (other r)
  | lock | lookLock => by_cases taken : m.mutex <;> simp [step, capped, taken]
  | combine i start =>
    by_cases ready : m.ready
    · have ready' : (capped config m).ready := ready
      simp only [step, ready, ready', if_true]
      rfl
    · have unready : ¬ (capped config m).ready := ready
      simp only [step, ready, unready, Bool.false_eq_true, if_false]
      by_cases same : m.watermark = start <;> simp [capped, same]
  | recheck i =>
    have record : (capped config m).record i = m.record i := rfl
    simp only [step, record]
    cases (m.record i).outcome? <;> rfl
  | _ => rfl

theorem step_unexhausted (other : ∀ r, l ≠ .reserve r) (spurious : Bool) (m : Memory) :
    (step d spurious l m).events.filter unexhausted = (step d spurious l m).events := by
  cases l with
  | reserve r => exact absurd rfl (other r)
  | lock | lookLock | recheck =>
    simp only [step]
    split <;> rfl
  | combine =>
    simp only [step]
    split
    · rfl
    · split <;> rfl
  | _ => rfl

theorem next_of_reserve (bound : submissions programs < 2 ^ 64) (suffix : t :: earlier <:+ schedule)
    (here : (after d config programs earlier).label t.thread = some (.reserve r)) :
    (reserved d config programs schedule)[(after d config programs earlier).memory.next.toNat]? =
      some ((after d config programs earlier).current t.thread) := by
  have takes := reserving?_eq_some.mpr ⟨r, here, rfl⟩
  obtain ⟨later, same⟩ : reserved d config programs (t :: earlier) <+: reserved d config programs schedule :=
    reserved_grows suffix
  rw [← same, reserved_cons, takes, next_eq d config bound, Option.toList_some, List.append_assoc,
    List.getElem?_append_right (Nat.le_refl _), Nat.sub_self]
  rfl

theorem reserve_of_refused (bound : submissions programs < 2 ^ 64) (suffix : earlier <:+ schedule)
    (here : (after d config programs earlier).label i = some l)
    (late : refused d config programs schedule ((after d config programs earlier).current i)) :
    ∃ r, l = .reserve r := by
  have inv := invariant_reserved d config bound earlier
  have mem := List.mem_of_mem_drop (of_decide_eq_true late)
  obtain ⟨r, called⟩ := (invariant_reserved d config bound schedule).owned.called _ mem
  have stands := inv.stands i l here
  have taken : ∀ k, ¬ Holds (reserved d config programs earlier) (after d config programs earlier).memory
      ((after d config programs earlier).current i) k := by
    intro k holds
    have inside := holds.inside
    rw [size_after] at inside
    have owner := List.prefix_iff_getElem?.mp (reserved_grows suffix) k
      (List.getElem?_eq_some_iff.mp holds.owner).1
    rw [(List.getElem?_eq_some_iff.mp holds.owner).2] at owner
    have := (refused_iff bound owner).mp late
    omega
  cases l with
  | reserve r => exact ⟨r, rfl⟩
  | writeKind k r => exact absurd (Writes.toHolds stands) (taken k)
  | writeValue k r => exact absurd stands.1.toHolds (taken k)
  | publish k => exact absurd (Writes.toHolds stands) (taken k)
  | lock k | check k | combine k _ | recheck k | asleep k _ => exact absurd (Waits.toHolds stands) (taken k)
  | unlock result =>
    obtain ⟨k, holds, _⟩ := stands
    exact absurd holds (taken k)
  | lookLock | look => cases called.symm.trans stands
  | lookUnlock empty => cases called.symm.trans stands.called

theorem capped_eq (h : m.next.toNat ≤ config.capacity.toNat) : capped config m = m := by
  rw [capped]
  split
  · next full => rw [UInt64.le_antisymm full (UInt64.le_iff_toNat_le.mpr h)]
  · rfl

theorem capped_of_full {m' : Memory} (full : config.capacity.toNat ≤ m.next.toNat)
    (full' : config.capacity.toNat ≤ m'.next.toNat) (same : m' = { m with next := m'.next }) :
    capped config m' = capped config m := by
  rw [capped, capped, if_pos (UInt64.le_iff_toNat_le.mpr full), if_pos (UInt64.le_iff_toNat_le.mpr full'),
    same]

theorem next_succ (bound : submissions programs < 2 ^ 64)
    (here : (after d config programs earlier).label t.thread = some (.reserve r)) :
    ((after d config programs earlier).memory.next + 1).toNat =
      (after d config programs earlier).memory.next.toNat + 1 := by
  have takes := reserving?_eq_some.mpr ⟨r, here, rfl⟩
  have counted := next_eq d config bound (t :: earlier)
  rw [next_turn, takes, Option.isSome_some, if_pos rfl, reserved_cons, takes, List.length_append,
    ← next_eq d config bound] at counted
  exact counted

theorem separable (bound : submissions programs < 2 ^ 64) (suffix : t :: earlier <:+ schedule) :
    (after d config programs earlier).Separable (refused d config programs schedule) (algorithm d)
      (capped config) unexhausted t.thread t.choice where
  hidden l here late := by
    obtain ⟨r, rfl⟩ := reserve_of_refused bound ((List.suffix_cons t earlier).trans suffix) here late
    have full := (refused_iff bound (next_of_reserve bound suffix here)).mp late
    have succ := next_succ bound here
    have beyond : ¬ (after d config programs earlier).memory.next.toNat <
        (after d config programs earlier).memory.log.size := by
      rw [size_after]
      omega
    simp only [algorithm, step, beyond, if_false]
    refine ⟨capped_of_full full ?_ rfl, rfl⟩
    change _ ≤ ((after d config programs earlier).memory.next + 1).toNat
    omega
  shown l here stays := by
    by_cases reserves : ∃ r, l = .reserve r
    swap
    · have other : ∀ r, l ≠ .reserve r := fun r same => reserves ⟨r, same⟩
      exact ⟨step_capped other t.choice _, step_unexhausted other t.choice _⟩
    obtain ⟨r, rfl⟩ := reserves
    have room := (refused_iff bound (next_of_reserve bound suffix here)).not.mp stays
    have succ := next_succ bound here
    have inside : (after d config programs earlier).memory.next.toNat <
        (after d config programs earlier).memory.log.size := by
      rw [size_after]
      omega
    rw [capped_eq (by omega)]
    simp only [algorithm, step, inside, if_true, List.filter_nil, and_true]
    rw [capped_eq]
    change ((after d config programs earlier).memory.next + 1).toNat ≤ _
    omega

theorem run_without_refused (bound : submissions programs < 2 ^ 64) (schedule : List (Turn Bool)) :
    after d config (sparedPrograms (refused d config programs schedule) programs)
        ((algorithm d).sparedTurns (refused d config programs schedule) (.ofConfig config) programs
          schedule) =
      (after d config programs schedule).without (refused d config programs schedule) (capped config)
        unexhausted := by
  refine (algorithm d).viewAfter_spared (.ofConfig config) programs (capped_eq ?_) schedule
    fun t earlier suffix => separable bound suffix
  simp [Memory.ofConfig]

end Removal

section Exact

variable (d : Discipline) (config : LogConfig) (programs : List (List Call)) (schedule : List (Turn Bool))

/-- What submissions may expect of a log that may be full: the first ones to reserve, as many as there
are records, find one and nobody else does. -/
structure Exact : Prop where
  counted : (after d config programs schedule).memory.next.toNat = (reserved d config programs schedule).length
  once : (reserved d config programs schedule).Nodup
  served : ∀ o result, (after d config programs schedule).answer? o = some (.served (.ok result)) →
    o ∈ (reserved d config programs schedule).take config.capacity.toNat
  taken : ∀ o ∈ (reserved d config programs schedule).take config.capacity.toNat,
    (∃ result, (after d config programs schedule).answer? o = some (.served (.ok result))) ∨
      ∃ l, (after d config programs schedule).StandsAt o l
  refused : ∀ o e, (after d config programs schedule).answer? o = some (.served (.error e)) ↔
    o ∈ (reserved d config programs schedule).drop config.capacity.toNat ∧ e = .logFull config.capacity
  /-- A submission that finds the log full returns at once and changes nothing but the counter. -/
  untouched : ∀ t r, (after d config programs schedule).label t.thread = some (.reserve r) →
    config.capacity.toNat ≤ (after d config programs schedule).memory.next.toNat →
      after d config programs (t :: schedule) = (after d config programs schedule).answer t.thread
        { (after d config programs schedule).memory with
          next := (after d config programs schedule).memory.next + 1 }
        (.served (.error (.logFull config.capacity))) [.logExhausted config.capacity]
  /-- Without the refused submissions the run would have been the same for all others. -/
  removed : after d config (sparedPrograms (FlatCombining.refused d config programs schedule) programs)
      ((algorithm d).sparedTurns (FlatCombining.refused d config programs schedule) (.ofConfig config)
        programs schedule) =
    (after d config programs schedule).without (FlatCombining.refused d config programs schedule)
      (capped config) unexhausted
  remaining : (after d config programs schedule).memory.remaining =
    config.capacity.toNat - (reserved d config programs schedule).length
  quiet : (∀ i l, (after d config programs schedule).label i = some l → ¬ l.Submits) →
    (after d config programs schedule).memory.watermark =
        min (after d config programs schedule).memory.next.toNat config.capacity.toNat ∧
      ∀ k < (after d config programs schedule).memory.watermark,
        ((after d config programs schedule).memory.record k).isDone

variable {programs}

theorem exact_after (bound : submissions programs < 2 ^ 64) : Exact d config programs schedule where
  counted := next_eq d config bound schedule
  once := nodup_reserved bound
  served o result gives := taken_of_result bound gives
  taken o early := result_of_taken bound early
  refused o e := by
    constructor
    · intro gives
      exact (refused_of_error bound gives).symm
    · rintro ⟨late, rfl⟩
      exact answer_of_refused bound late
  untouched t r here full := by
    rw [turn_refused here (size_after d config programs schedule ▸ full), capacity_after]
  removed := run_without_refused bound schedule
  remaining := by rw [Memory.remaining, size_after, next_eq d config bound]
  quiet idle := by
    refine ⟨watermark_of_quiet bound idle, fun k below => ?_⟩
    have applied := (invariant_reserved d config bound schedule).owned.applied
    exact (applied.done k (Nat.lt_of_lt_of_le below applied.bounded)).mpr below

/-- A client that does not expect failure panics exactly where one that does is told of it. -/
theorem panics_iff (requests : List (List Request)) (o : Operation) (p : Panic) :
    ((Container.combining d).viewAfter (.ofConfig config) requests schedule).answer? o = some (.error p) ↔
      ∃ e, (after d config (requests.map (List.map .submit)) schedule).answer? o =
        some (.served (.error e)) ∧ p = .error e ∧ p.message = e.display := by
  rw [Container.combining, Algorithm.viewAfter_via, View.answer?_mapAnswers, Option.map_eq_some_iff]
  constructor
  · rintro ⟨a, gives, told⟩
    match a, told with
    | .served (.error e), told =>
      cases told
      exact ⟨e, gives, rfl, rfl⟩
  · rintro ⟨e, gives, rfl, _⟩
    exact ⟨_, gives, rfl⟩

end Exact

/-- Whatever the programs and the schedule, a log serves the submissions that reserve first, as many as
it has records, and refuses all others without any effect but on the counter. -/
theorem log_full_exact (d : Discipline) (config : LogConfig) :
    (∀ programs, submissions programs < 2 ^ 64 → ∀ schedule, Exact d config programs schedule) ∧
      ∀ (requests : List (List Request)) (schedule : List (Turn Bool)) (o : Operation) (p : Panic),
        ((Container.combining d).viewAfter (.ofConfig config) requests schedule).answer? o =
            some (.error p) ↔
          ∃ e, (after d config (requests.map (List.map .submit)) schedule).answer? o =
            some (.served (.error e)) ∧ p = .error e ∧ p.message = e.display :=
  ⟨fun _ bound schedule => exact_after d config schedule bound,
    fun requests schedule o p => panics_iff d config schedule requests o p⟩

/-- Thread 1 reserves the only record before thread 0, which is refused. -/
theorem exact_of_two_inserts :
    submissions [[.submit (.insert 7)], [.submit (.insert 8)]] < 2 ^ 64 ∧
      Exact .lifo ⟨1⟩ [[.submit (.insert 7)], [.submit (.insert 8)]]
        [⟨0, false⟩, ⟨1, false⟩, ⟨0, false⟩, ⟨1, false⟩] :=
  ⟨by decide, (log_full_exact .lifo ⟨1⟩).1 _ (by decide) _⟩

example : (after .lifo ⟨1⟩ [[.submit (.insert 7)], [.submit (.insert 8)]]
    [⟨0, false⟩, ⟨1, false⟩, ⟨0, false⟩, ⟨1, false⟩]).answers 0 = [.served (.error (.logFull 1))] := rfl

end SharedMemory.FlatCombining
