import SharedMemory.Comparison
import SharedMemory.Proofs.SoloContainers

/-!
# What one thread spends of a log

A comparison with a list submits one request for each of its steps, one for each value that they leave
behind, and one that finds the container empty. It ends well exactly when the log has a record for each of
them.
-/
namespace SharedMemory

namespace FlatCombining

/-- So many requests have been submitted to the container and applied, and nothing is left in it. -/
structure Spent (m : Memory) (n : Nat) : Prop where
  next : m.next.toNat = n
  watermark : m.watermark = n
  done : ∀ k < n, (m.record k).isDone
  empty : m.store.toList = []

variable {m : Memory} {values : List Value} {records : List Record}

theorem Rests.spent (h : Rests m [] records) (done : ∀ r ∈ records, r.isDone) :
    Spent m records.length where
  next := h.next
  watermark := h.watermark
  done k below := by
    rw [h.record, List.getD_eq_getElem?_getD, List.getElem?_eq_getElem below]
    exact done _ (List.getElem_mem below)
  empty := h.store

@[simp] theorem isDone_finished (r : Request) (found : Option Value) : (finished r found).isDone :=
  Record.isDone_complete _ _

theorem Rests.served (h : Rests m values records) (d : Discipline) (choose : Label → Memory → Bool)
    (r : Request) (room : records.length < m.log.size) (small : m.log.size < 2 ^ 64) :
    ∃ m', Comparison.serve? (Container.combining d) choose r m = (m', some (.ok (d.serve r values).1)) ∧
      Rests m' (d.serve r values).2 (records ++ [finished r (d.serve r values).1]) ∧
      m'.log.size = m.log.size := by
  obtain ⟨m', run, rests, size⟩ :
      ∃ m', Returns ((Container.combining d).solo choose) 10 _ m m' _ _ ∧ _ := h.serves r room small
  refine ⟨m', ?_, rests, size⟩
  rw [Comparison.serve?, call_of_returns run (by decide)]
  rfl

theorem Rests.refused (h : Rests m values records) (d : Discipline) (choose : Label → Memory → Bool)
    (r : Request) (full : m.log.size ≤ records.length) :
    Comparison.serve? (Container.combining d) choose r m =
      ({ m with next := m.next + 1 }, some (.error (.error (.logFull m.capacity)))) := by
  have refuses : (algorithm d).solo choose (.reserve r) m = ⟨{ m with next := m.next + 1 },
      .returned (.served (.error (.logFull m.capacity))), [.logExhausted m.capacity]⟩ := by
    have beyond : ¬ m.next.toNat < m.log.size := by
      rw [h.next]
      exact Nat.not_lt.mpr full
    simp [Algorithm.solo, algorithm, step, beyond]
  have run : Returns ((Container.combining d).solo choose) 1 ((Container.combining d).enter r) m
      { m with next := m.next + 1 } (.error (.error (.logFull m.capacity)))
      [.logExhausted m.capacity] :=
    (Returns.now refuses).via .submit _
  rw [Comparison.serve?, call_of_returns run (by decide)]
  rfl

end FlatCombining

namespace Comparison

open FlatCombining (Memory Record Rests Spent finished isDone_finished)

/-- How a comparison ends that submits so many requests in all to a log of this capacity. -/
structure Ends (capacity : UInt64) (total : Nat) (result : Memory × Option (Except Panic Unit)) : Prop where
  fits : total ≤ capacity.toNat → result.2 = some (.ok ()) ∧ Spent result.1 total
  overflows : capacity.toNat < total → result.2 = some (.error (.error (.logFull capacity)))

variable {d : Discipline} {choose : FlatCombining.Label → Memory → Bool} {capacity : UInt64} {m : Memory}
  {values : List Value} {records : List Record}

/-- The log has the capacity, and all its records so far are applied. -/
structure Logs (capacity : UInt64) (m : Memory) (values : List Value) (records : List Record) : Prop
    extends Rests m values records where
  size : m.log.size = capacity.toNat
  done : ∀ r ∈ records, r.isDone

theorem logs_ofConfig (config : LogConfig) : Logs config.capacity (.ofConfig config) [] [] where
  toRests := FlatCombining.rests_ofConfig config
  size := Array.size_replicate
  done := nofun

theorem Logs.served (h : Logs capacity m values records) (d : Discipline)
    (choose : FlatCombining.Label → Memory → Bool) (r : Request) (room : records.length < capacity.toNat) :
    ∃ m', serve? (Container.combining d) choose r m = (m', some (.ok (d.serve r values).1)) ∧
      Logs capacity m' (d.serve r values).2 (records ++ [finished r (d.serve r values).1]) := by
  obtain ⟨m', run, rests, size⟩ := h.toRests.served d choose r (h.size ▸ room) (h.size ▸ capacity.toNat_lt)
  refine ⟨m', run, rests, size.trans h.size, fun r' mem => ?_⟩
  rcases List.mem_append.mp mem with mem | mem
  · exact h.done r' mem
  · rw [List.mem_singleton.mp mem]
    exact isDone_finished _ _

/-- A request that finds no record ends the comparison, whatever was still to come. -/
theorem Logs.refused (h : Logs capacity m values records) (d : Discipline)
    (choose : FlatCombining.Label → Memory → Bool) (r : Request) (full : capacity.toNat ≤ records.length) :
    ∃ m', serve? (Container.combining d) choose r m =
      (m', some (.error (.error (.logFull capacity)))) := by
  have same : m.capacity = capacity := by rw [Memory.capacity, h.size, UInt64.ofNat_toNat]
  exact ⟨_, same ▸ h.toRests.refused d choose r (h.size ▸ full)⟩

theorem Ends.of_refused {total : Nat} (late : capacity.toNat < total) (m : Memory) :
    Ends capacity total (m, some (.error (.error (.logFull capacity)))) where
  fits enough := absurd late (Nat.not_lt.mpr enough)
  overflows _ := rfl

theorem removal_of_serve? {label : Option String} {wanted : Option Value} {m' : Memory}
    {reply : Option Reply} (run : serve? (Container.combining d) choose .remove m = (m', reply)) :
    removal (Container.combining d) choose label wanted m =
      (m', reply.map fun reply => reply.bind fun found => requireEqual label found wanted) := by
  rw [removal, run]

theorem Logs.removal (h : Logs capacity m values records) (d : Discipline)
    (choose : FlatCombining.Label → Memory → Bool) (label : Option String)
    (room : records.length < capacity.toNat) :
    ∃ m', removal (Container.combining d) choose label (Discipline.remove values).1 m = (m', some (.ok ())) ∧
      Logs capacity m' (Discipline.remove values).2
        (records ++ [finished .remove (Discipline.remove values).1]) := by
  obtain ⟨m', run, logs⟩ := h.served d choose .remove room
  refine ⟨m', ?_, logs⟩
  rw [removal_of_serve? run]
  exact congrArg (fun r => (m', some r)) (if_pos rfl)

/-- To drain a container takes a request for each value and one more. -/
theorem Logs.drain (h : Logs capacity m values records) (d : Discipline)
    (choose : FlatCombining.Label → Memory → Bool) :
    Ends capacity (records.length + values.length + 1) (drain (Container.combining d) choose values m) := by
  induction values generalizing m records with
  | nil =>
    rcases Nat.lt_or_ge records.length capacity.toNat with room | full
    · obtain ⟨m', run, logs⟩ := h.removal d choose none room
      rw [Comparison.drain, show (none : Option Value) = (Discipline.remove []).1 from rfl, run]
      refine ⟨fun _ => ⟨rfl, ?_⟩, fun late => absurd late (Nat.not_lt.mpr room)⟩
      simpa using logs.toRests.spent logs.done
    · obtain ⟨m', run⟩ := h.refused d choose .remove full
      rw [Comparison.drain, removal_of_serve? run]
      exact .of_refused (Nat.lt_succ_of_le full) m'
  | cons v values ih =>
    rcases Nat.lt_or_ge records.length capacity.toNat with room | full
    · obtain ⟨m', run, logs⟩ := h.removal d choose none room
      rw [Comparison.drain, show some v = (Discipline.remove (v :: values)).1 from rfl, run]
      have rest := ih logs
      rwa [List.length_append, List.length_singleton, Nat.add_right_comm _ 1] at rest
    · obtain ⟨m', run⟩ := h.refused d choose .remove full
      rw [Comparison.drain, removal_of_serve? run]
      exact .of_refused (by omega) m'

/-- So many requests a comparison submits: one for each step, one for each value that is left after the
steps, and one to find the container empty. -/
def total (d : Discipline) (requests : List Request) (values : List Value) : Nat :=
  requests.length + (d.serveAll requests values).2.length + 1

theorem total_cons (d : Discipline) (r : Request) (requests : List Request) (values : List Value) :
    total d (r :: requests) values = total d requests (d.serve r values).2 + 1 := by
  simp only [total, List.length_cons, Discipline.serveAll]
  omega

theorem Logs.run (h : Logs capacity m values records) (d : Discipline)
    (choose : FlatCombining.Label → Memory → Bool) (requests : List Request) {reference : Store}
    (same : reference.toList = values) :
    Ends capacity (records.length + total d requests values)
      (run (Container.combining d) choose d requests reference m) := by
  induction requests generalizing m values records reference with
  | nil =>
    subst same
    have drained := h.drain d choose
    rwa [Nat.add_assoc, ← Nat.zero_add reference.toList.length] at drained
  | cons r requests ih =>
    have late (full : capacity.toNat ≤ records.length) :
        capacity.toNat < records.length + total d (r :: requests) values := by
      rw [total_cons]
      omega
    have counted (found : Option Value) : (records ++ [finished r found]).length +
        total d requests (d.serve r values).2 = records.length + total d (r :: requests) values := by
      rw [total_cons, List.length_append, List.length_singleton]
      omega
    cases r with
    | insert v =>
      rw [Comparison.run]
      rcases Nat.lt_or_ge records.length capacity.toNat with room | full
      · obtain ⟨m', served, logs⟩ := h.served d choose (.insert v) room
        rw [served, ← counted]
        exact ih logs (by rw [Store.toList_insert, same]; rfl)
      · obtain ⟨m', refused⟩ := h.refused d choose (.insert v) full
        rw [refused]
        exact .of_refused (late full) m'
    | remove =>
      simp only [Comparison.run]
      rcases Nat.lt_or_ge records.length capacity.toNat with room | full
      · obtain ⟨m', removed, logs⟩ := h.removal d choose none room
        obtain ⟨found, left⟩ := Prod.ext_iff.mp (reference.remove_eq.trans (congrArg _ same))
        rw [show reference.remove.1 = _ from found, removed, ← counted]
        exact ih logs left
      · obtain ⟨m', refused⟩ := h.refused d choose .remove full
        rw [removal_of_serve? refused]
        exact .of_refused (late full) m'

theorem length_serveAll_le (d : Discipline) (requests : List Request) (values : List Value) :
    (d.serveAll requests values).2.length ≤ values.length + requests.length := by
  induction requests generalizing values with
  | nil => exact Nat.le_refl _
  | cons r requests ih =>
    have grows : (d.serve r values).2.length ≤ values.length + 1 := by
      cases r with
      | insert v => cases d <;> simp [Discipline.serve, Discipline.insert]
      | remove =>
        cases values with
        | nil => exact Nat.zero_le _
        | cons v values => exact Nat.le_succ_of_le (Nat.le_succ _)
    have rest := ih (d.serve r values).2
    simp only [Discipline.serveAll, List.length_cons]
    omega

/-- Two requests for each step are enough, and one. -/
theorem total_le (d : Discipline) (requests : List Request) :
    total d requests [] ≤ 2 * requests.length + 1 := by
  have left := length_serveAll_le d requests []
  simp only [total, List.length_nil] at left ⊢
  omega

end Comparison

end SharedMemory
