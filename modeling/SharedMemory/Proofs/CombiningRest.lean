import SharedMemory.Proofs.CombiningReservations
import SharedMemory.Proofs.CombiningWakeups
import SharedMemory.Proofs.SoloContainers

/-!
# A combined container that its threads have left

The mutex is taken only while some thread has it, and records that nobody has reserved are as they were
made. So whatever the threads have done, a container that they have all left is at rest: the next thread
to come has it to itself.
-/
namespace SharedMemory.FlatCombining

section Manned

variable {d : Discipline} {programs : List (List Call)} {v v' : View Memory Label Answer}
  {spurious : Bool} {i : Nat}

/-- Whenever the mutex is taken, some thread has it. -/
def Manned (v : View Memory Label Answer) : Prop :=
  v.memory.mutex = true → ∃ j, Holding (v.label j)

theorem Manned.step (h : Manned v) (turn : v.Step (algorithm d) programs i spurious v') : Manned v' := by
  rcases turn.rest_or_enter_or_take with ⟨_, rfl⟩ | ⟨c, outside, _, rfl⟩ | ⟨l, here, rfl⟩
  · exact h
  · intro taken
    obtain ⟨j, holds⟩ := h taken
    refine ⟨j, ?_⟩
    have other : j ≠ i := by
      rintro rfl
      rwa [outside] at holds
    rwa [View.label_enter, Function.update_of_ne other]
  · rw [Manned, View.label_take, View.memory_take]
    intro taken
    rcases mutex_step d spurious l v.memory with ⟨same, holds⟩ | ⟨_, _, holds⟩ | ⟨_, _, freed⟩
    · obtain ⟨j, held⟩ := h (same ▸ taken)
      refine ⟨j, ?_⟩
      by_cases own : j = i
      · subst own
        rw [Function.update_self]
        exact holds.mpr (here ▸ held)
      · rwa [Function.update_of_ne own]
    · refine ⟨i, ?_⟩
      rwa [Function.update_self]
    · exact absurd (freed.symm.trans taken) Bool.false_ne_true

end Manned

/-- The record that a step writes to without applying it. -/
def Label.writes? : Label → Option Nat
  | .writeKind i _ | .writeValue i _ | .publish i => some i
  | _ => none

theorem record_modifyRecord_of_ne {m : Memory} {i k : Nat} (f : Record → Record) (other : k ≠ i) :
    (m.modifyRecord i f).record k = m.record k := by
  simp only [Memory.record, Memory.modifyRecord, Array.getD_eq_getD_getElem?, Array.getElem?_modify,
    if_neg (Ne.symm other)]

theorem record_step (d : Discipline) (spurious : Bool) (l : Label) (m : Memory) (k : Nat) :
    (step d spurious l m).memory.record k = m.record k ∨ l.writes? = some k ∨
      m.ready ∧ k = m.watermark := by
  cases l with
  | writeKind i | writeValue i | publish i =>
    by_cases own : k = i
    · exact .inr (.inl (congrArg some own.symm))
    · exact .inl (record_modifyRecord_of_ne _ own)
  | combine =>
    simp only [step]
    split
    · next ready =>
      by_cases own : k = m.watermark
      · exact .inr (.inr ⟨ready, own⟩)
      · exact .inl (record_modifyRecord_of_ne _ own)
    · split <;> exact .inl rfl
  | reserve | lock | lookLock | recheck =>
    simp only [step]
    split <;> exact .inl rfl
  | check | asleep | unlock | look | lookUnlock => exact .inl rfl

section Run

variable {d : Discipline} {config : LogConfig} {programs : List (List Call)} {t : Turn Bool}
  {earlier schedule : List (Turn Bool)}

theorem manned (d : Discipline) (config : LogConfig) (programs : List (List Call))
    (schedule : List (Turn Bool)) : Manned (after d config programs schedule) := by
  induction schedule with
  | nil =>
    intro taken
    rw [after, Algorithm.viewAfter_nil] at taken
    exact absurd taken Bool.false_ne_true
  | cons t earlier ih => exact ih.step (turn d config programs t earlier)

theorem next_le (bound : submissions programs < 2 ^ 64) (t : Turn Bool) (earlier : List (Turn Bool)) :
    (after d config programs earlier).memory.next.toNat ≤
      (after d config programs (t :: earlier)).memory.next.toNat := by
  rw [next_eq d config bound, next_eq d config bound, reserved_cons, List.length_append]
  exact Nat.le_add_right _ _

theorem changed_of_reserved (bound : submissions programs < 2 ^ 64) {i k : Nat} {l : Label}
    (here : (after d config programs schedule).label i = some l)
    (changed : l.writes? = some k ∨ (after d config programs schedule).memory.ready ∧
      k = (after d config programs schedule).memory.watermark) :
    k < (after d config programs schedule).memory.next.toNat := by
  have inv := invariant_reserved d config bound schedule
  have stands := inv.stands i l here
  rw [inv.owned.next]
  rcases changed with writes | ⟨ready, rfl⟩
  · cases l with
    | writeKind | publish =>
      cases writes
      exact (List.getElem?_eq_some_iff.mp (Writes.toHolds stands).owner).1
    | writeValue =>
      cases writes
      exact (List.getElem?_eq_some_iff.mp stands.1.owner).1
    | _ => cases writes
  · have pending : ((after d config programs schedule).memory.record
        (after d config programs schedule).memory.watermark).state ≠ .vacant := by
      rw [of_decide_eq_true ready]
      nofun
    obtain ⟨o, owner, _⟩ := inv.owned.published _ (Memory.lt_size_of_ready ready) pending
    exact (List.getElem?_eq_some_iff.mp owner).1

/-- Nobody has touched a record that is not reserved. -/
theorem untouched (bound : submissions programs < 2 ^ 64) (schedule : List (Turn Bool)) :
    ∀ k, (after d config programs schedule).memory.next.toNat ≤ k →
      (after d config programs schedule).memory.record k = {} := by
  induction schedule with
  | nil =>
    intro k _
    rw [after, Algorithm.viewAfter_nil]
    exact (rests_ofConfig config).record k
  | cons t earlier ih =>
    intro k beyond
    have before := Nat.le_trans (next_le bound t earlier) beyond
    rw [← ih k before]
    rcases (turn d config programs t earlier).rest_or_enter_or_take with
      ⟨_, hv⟩ | ⟨c, _, _, hv⟩ | ⟨l, here, hv⟩
    · rw [hv]
    · rw [hv, View.memory_enter]
    · rw [hv, View.memory_take]
      refine (record_step d t.choice l _ k).resolve_right fun changed => ?_
      exact Nat.lt_irrefl k (Nat.lt_of_lt_of_le (changed_of_reserved bound here changed) before)

def Memory.records (m : Memory) (n : Nat) : List Record := (List.range n).map m.record

@[simp] theorem length_records (m : Memory) (n : Nat) : (m.records n).length = n := by
  rw [Memory.records, List.length_map, List.length_range]

/-- A container that all threads have left is at rest, if none was refused. -/
theorem rests_of_left (bound : submissions programs < 2 ^ 64)
    (left : ∀ i, (after d config programs schedule).label i = none)
    (room : (after d config programs schedule).memory.next.toNat ≤ config.capacity.toNat) :
    Rests (after d config programs schedule).memory (after d config programs schedule).memory.store.toList
      ((after d config programs schedule).memory.records
        (after d config programs schedule).memory.next.toNat) where
  mutex := by
    refine Bool.eq_false_iff.mpr fun taken => ?_
    obtain ⟨j, holds⟩ := manned d config programs schedule taken
    rwa [left j] at holds
  store := rfl
  next := (length_records _ _).symm
  watermark := by
    have quiet : (after d config programs schedule).memory.watermark = _ :=
      watermark_of_quiet bound fun i l here => absurd (here.symm.trans (left i)) nofun
    rw [quiet, Nat.min_eq_left room, length_records]
  record i := by
    rw [List.getD_eq_getElem?_getD, Memory.records, List.getElem?_map]
    rcases Nat.lt_or_ge i (after d config programs schedule).memory.next.toNat with below | beyond
    · rw [List.getElem?_range below]
      rfl
    · rw [List.getElem?_eq_none (by rwa [List.length_range]), untouched bound schedule i beyond]
      rfl

end Run

end SharedMemory.FlatCombining
