import SharedMemory.Proofs.CombiningRest

/-!
# How a submission comes to its end

Until its record is published a submission goes ahead with every turn. From then on it takes and frees the
mutex, passes and sleeps until some pass has applied its record. While all submissions under way are at
that, either the record at the watermark is published and a pass applies it, or all of theirs are applied.
Some thread's next turn always brings this about.
-/
namespace SharedMemory.FlatCombining

namespace Label

def waits : Label → Bool
  | .lock _ | .check _ | .combine _ _ | .recheck _ | .asleep _ _ => true
  | _ => false

/-- The stages that are left of a submission. It waits in one of them. -/
def stage : Label → Nat
  | .reserve _ => 6
  | .writeKind _ _ => 5
  | .writeValue _ _ => 4
  | .publish _ => 3
  | .lock _ | .check _ | .combine _ _ | .recheck _ | .asleep _ _ => 2
  | .unlock _ | .lookLock | .look | .lookUnlock _ => 1

/-- How many turns a waiting thread is from applying the record at the watermark, if that is ready, and
else from finding its own applied. -/
def distance (ready : Bool) : Label → Nat
  | .combine _ _ => if ready then 1 else 2
  | .check _ => if ready then 2 else 3
  | .lock _ => if ready then 3 else 4
  | .asleep _ _ => if ready then 4 else 5
  | .recheck _ => if ready then 5 else 1
  | _ => 0

/-- The next turn of a waiting thread takes it on, whatever wakes it. -/
def Moves (m : Memory) : Label → Prop
  | .lock _ => m.mutex = false
  | .asleep _ signals => m.signals ≠ signals
  | _ => True

/-- A thread that is about to sleep has its record applied, unless the one at the watermark is published. -/
def Settled (m : Memory) (l : Label) : Prop := ∀ i, l = .recheck i → m.ready ∨ (m.record i).isDone

end Label

def toGo {α : Type} : Status Label α → Nat
  | .running l => l.stage
  | .returned _ => 0

@[simp] theorem toGo_mapAnswer {α β : Type} (f : α → β) (s : Status Label α) :
    toGo (s.mapAnswer f) = toGo s := by
  cases s <;> rfl

def Memory.unapplied (m : Memory) : Nat := m.log.size - m.watermark

section Step

variable {l : Label} {m : Memory}

theorem unapplied_applyNext (d : Discipline) (ready : m.ready) :
    (m.applyNext d).unapplied < m.unapplied := by
  have inside := Memory.lt_size_of_ready ready
  have size : (m.applyNext d).log.size = m.log.size := Array.size_modify
  rw [Memory.unapplied, Memory.unapplied, size, watermark_applyNext]
  omega

theorem step_ahead (d : Discipline) (spurious : Bool) (m : Memory) (submits : l.Submits)
    (ahead : l.waits = false) :
    toGo (step d spurious l m).status < l.stage ∧ (step d spurious l m).memory.unapplied = m.unapplied := by
  cases l with
  | lookLock | look | lookUnlock => exact absurd submits id
  | lock | check | combine | recheck | asleep => cases ahead
  | reserve =>
    simp only [step]
    split <;> exact ⟨by simp [toGo, Label.stage], rfl⟩
  | writeKind | writeValue | publish =>
    exact ⟨Nat.lt_succ_self _, congrArg (· - m.watermark) (size_modifyRecord m _ _)⟩
  | unlock => exact ⟨Nat.one_pos, rfl⟩

/-- The turn of one that waits changes nothing, or ends its waiting or applies a record, or takes it nearer
to that. -/
theorem step_waiting (d : Discipline) (spurious : Bool) (m : Memory) (waiting : l.waits) :
    (step d spurious l m = ⟨m, .running l, []⟩ ∧ ¬ l.Moves m) ∨
      ∃ l', (step d spurious l m).status = .running l' ∧
        (l'.stage + (step d spurious l m).memory.unapplied < l.stage + m.unapplied ∨
          l'.waits ∧ (step d spurious l m).memory.log = m.log ∧
            (step d spurious l m).memory.watermark = m.watermark ∧
            (l.Settled m → l'.distance m.ready < l.distance m.ready)) := by
  cases l with
  | reserve | writeKind | writeValue | publish | unlock | lookLock | look | lookUnlock => cases waiting
  | lock i =>
    simp only [step]
    split
    · next taken => exact .inl ⟨rfl, by simp [Label.Moves, taken]⟩
    · refine .inr ⟨_, rfl, .inr ⟨rfl, rfl, rfl, fun _ => ?_⟩⟩
      cases m.ready <;> simp [Label.distance]
  | check i =>
    refine .inr ?_
    simp only [step]
    split
    · exact ⟨_, rfl, .inl (Nat.add_lt_add_right Nat.one_lt_two _)⟩
    · refine ⟨_, rfl, .inr ⟨rfl, trivial, trivial, fun _ => ?_⟩⟩
      cases m.ready <;> simp [Label.distance]
  | combine i start =>
    refine .inr ?_
    simp only [step]
    split
    · next ready => exact ⟨_, rfl, .inl (Nat.add_lt_add_left (unapplied_applyNext d ready) _)⟩
    · next idle =>
      rw [Bool.eq_false_iff.mpr idle]
      split <;> exact ⟨_, rfl, .inr ⟨rfl, rfl, rfl, fun _ => by simp [Label.distance]⟩⟩
  | recheck i =>
    refine .inr ?_
    simp only [step]
    split
    · exact ⟨_, rfl, .inl (Nat.add_lt_add_right Nat.one_lt_two _)⟩
    · next undone =>
      refine ⟨_, rfl, .inr ⟨rfl, rfl, rfl, fun settled => ?_⟩⟩
      rcases settled i rfl with ready | done
      · simp [Label.distance, ready]
      · rw [Record.isDone, undone] at done
        cases done
  | asleep i signals =>
    simp only [step]
    split
    · refine .inr ⟨_, rfl, .inr ⟨rfl, trivial, trivial, fun _ => ?_⟩⟩
      cases m.ready <;> simp [Label.distance]
    · next still => exact .inl ⟨rfl, fun moves => still (.inr moves)⟩

end Step

section Waiting

variable {d : Discipline} {config : LogConfig} {programs : List (List Call)} {schedule : List (Turn Bool)}
  {i k : Nat} {l : Label}
  (bound : submissions programs < 2 ^ 64)
  (waiting : ∀ j l, (after d config programs schedule).label j = some l → l.waits)
include bound waiting

/-- While all submissions wait, a thread has its record applied already or finds one to apply. -/
theorem settled_of_waiting (here : (after d config programs schedule).label i = some l) :
    l.Settled (after d config programs schedule).memory := by
  rintro k rfl
  by_cases done : ((after d config programs schedule).memory.record k).isDone
  · exact .inr done
  refine .inl ?_
  have inv := invariant_reserved d config bound schedule
  have waits : Waits _ (after d config programs schedule).memory _ k := inv.stands i _ here
  rw [inv.owned.applied.done k waits.inside, Nat.not_lt] at done
  have inside := Nat.lt_of_le_of_lt done waits.inside
  have owner := List.getElem?_eq_getElem
    (Nat.lt_of_le_of_lt done (List.getElem?_eq_some_iff.mp waits.owner).1)
  obtain ⟨l, ⟨index, there⟩, -⟩ := inv.owner_waits inside owner
  have undone := (inv.owned.applied.done _ inside).not.mpr (Nat.lt_irrefl _)
  rw [Record.isDone_iff] at undone
  obtain ⟨k', published⟩ : ∃ k', Waits (reserved d config programs schedule)
      (after d config programs schedule).memory
      ((after d config programs schedule).current _) k' := by
    have stands := inv.stands _ l there
    have waits := waiting _ l there
    cases l with
    | lock | check | combine | recheck | asleep => exact ⟨_, stands⟩
    | _ => cases waits
  rw [← View.current_thread index] at published
  have own := place_unique bound published.owner owner
  rw [Memory.ready, decide_eq_true_iff]
  have := own ▸ published.published
  tauto

/-- While all submissions wait, the next turn of some thread takes it on. -/
theorem exists_moves (here : (after d config programs schedule).label i = some l) :
    ∃ j l, (after d config programs schedule).label j = some l ∧
      l.Moves (after d config programs schedule).memory := by
  by_contra stuck
  have still : ∀ j l, (after d config programs schedule).label j = some l →
      ¬ l.Moves (after d config programs schedule).memory :=
    fun j l there moves => stuck ⟨j, l, there, moves⟩
  have free : (after d config programs schedule).memory.mutex = false := by
    refine Bool.eq_false_iff.mpr fun taken => ?_
    obtain ⟨j, holds⟩ := manned d config programs schedule taken
    cases label : (after d config programs schedule).label j with
    | none => rwa [label] at holds
    | some l =>
      rw [label] at holds
      have waits := waiting j l label
      have stays := still j l label
      cases l with
      | check | combine | recheck => exact stays trivial
      | lock | asleep => exact holds
      | _ => cases waits
  have parked {j : Nat} {l : Label} (there : (after d config programs schedule).label j = some l) :
      ∃ k, Parked (after d config programs schedule) j k := by
    have waits := waiting j l there
    have stays := still j l there
    cases l with
    | lock => exact absurd free stays
    | check | combine | recheck => exact absurd trivial stays
    | asleep k signals =>
      obtain rfl : (after d config programs schedule).memory.signals = signals := not_not.mp stays
      exact ⟨k, there⟩
    | _ => cases waits
  have quiet : ∀ j start, ¬ Combines (after d config programs schedule) j start := by
    rintro j start ⟨k, there⟩
    exact still j _ there trivial
  obtain ⟨k, asleep⟩ := parked here
  obtain ⟨-, j, l, -, -, there, way⟩ := (vigil d config programs bound schedule).owed bound quiet asleep
  obtain ⟨k', asleep⟩ := parked there
  cases there.symm.trans asleep
  rcases way with brings | check
  · exact brings
  · cases check

end Waiting

end SharedMemory.FlatCombining
