import SharedMemory.FlatCombining

/-!
# The log of a flat-combining container

The records below the watermark are the applied ones, and replaying their requests in index order
gives the container and every recorded result. A request is applied only at the watermark, and a
record is written by its owner only while it is vacant, so what lies below the watermark stays as it
is.
-/
namespace SharedMemory

namespace Discipline

variable (d : Discipline)

theorem serveAll_concat (rs : List Request) (r : Request) (values : List Value) :
    d.serveAll (rs ++ [r]) values =
      ((d.serveAll rs values).1 ++ [(d.serve r (d.serveAll rs values).2).1],
        (d.serve r (d.serveAll rs values).2).2) := by
  induction rs generalizing values with
  | nil => rfl
  | cons r' rs ih => simp [serveAll, ih]

@[simp] theorem length_serveAll (rs : List Request) (values : List Value) :
    (d.serveAll rs values).1.length = rs.length := by
  induction rs generalizing values with
  | nil => rfl
  | cons r rs ih => simp [serveAll, ih]

end Discipline

namespace FlatCombining

namespace Record

theorem isDone_iff (r : Record) : r.isDone ↔ r.state ≠ .vacant ∧ r.state ≠ .pending := by
  cases h : r.state <;> simp [isDone, outcome?, h]

@[simp] theorem request_complete (r : Record) (found : Option Value) :
    (r.complete found).request = r.request := by
  cases found <;> rfl

@[simp] theorem outcome?_complete (r : Record) (found : Option Value) :
    (r.complete found).outcome? = some found := by
  cases found <;> rfl

@[simp] theorem isDone_complete (r : Record) (found : Option Value) : (r.complete found).isDone := by
  simp [isDone]

end Record

namespace Memory

variable {d : Discipline} {m : Memory}

/-- The requests of the first `k` records. -/
def requests (m : Memory) (k : Nat) : List Request := (List.range k).map fun i => (m.record i).request

/-- What the container holds once the first `k` records are applied, in index order, to an empty one. -/
def replayed (d : Discipline) (m : Memory) (k : Nat) : List Value := (d.serveAll (m.requests k) []).2

/-- What the first `k` records are answered in that replay. -/
def results (d : Discipline) (m : Memory) (k : Nat) : List (Option Value) :=
  (d.serveAll (m.requests k) []).1

@[simp] theorem length_requests (m : Memory) (k : Nat) : (m.requests k).length = k := by
  simp [requests]

theorem requests_succ (m : Memory) (k : Nat) :
    m.requests (k + 1) = m.requests k ++ [(m.record k).request] := by
  simp [requests, List.range_succ]

theorem requests_congr {m' : Memory} {k : Nat}
    (h : ∀ i < k, (m'.record i).request = (m.record i).request) : m'.requests k = m.requests k :=
  List.map_congr_left fun i hi => h i (List.mem_range.mp hi)

theorem record_of_ge {i : Nat} (h : m.log.size ≤ i) : m.record i = {} := by
  simp [record, Array.getD, Nat.not_lt.mpr h]

theorem lt_size_of_ready (h : m.ready) : m.watermark < m.log.size := by
  rcases Nat.lt_or_ge m.watermark m.log.size with hlt | hge
  · exact hlt
  · simp [ready, record_of_ge hge] at h

theorem record_modify (m : Memory) (f : Record → Record) {i : Nat} (h : i < m.log.size) (k : Nat) :
    ({ m with log := m.log.modify i f } : Memory).record k =
      if k = i then f (m.record k) else m.record k := by
  simp only [record, Array.getD_eq_getD_getElem?, Array.getElem?_modify]
  by_cases hk : i = k
  · subst hk
    simp [h]
  · simp [hk, Ne.symm hk]

end Memory

/-- The records below the watermark are the applied ones. Their requests, replayed in index order from
an empty container, give its contents and every result. -/
structure Applied (d : Discipline) (m : Memory) : Prop where
  bounded : m.watermark ≤ m.log.size
  done : ∀ i < m.log.size, (m.record i).isDone ↔ i < m.watermark
  contents : m.store.toList = m.replayed d m.watermark
  outcomes : ∀ i < m.watermark, (m.record i).outcome? = (m.results d m.watermark)[i]?

namespace Applied

variable {d : Discipline} {m m' : Memory}

theorem ofConfig (d : Discipline) (config : LogConfig) : Applied d (.ofConfig config) where
  bounded := Nat.zero_le _
  done i hi := by
    have : (Memory.ofConfig config).record i = {} := by
      simp [Memory.ofConfig, Memory.record, Array.getD]
    rw [this]
    simp [Memory.ofConfig, Record.isDone, Record.outcome?]
  contents := rfl
  outcomes i hi := absurd hi (Nat.not_lt_zero i)

/-- What a change of undone records, or of anything beside the log, leaves as it was. -/
theorem congr (h : Applied d m) (size : m'.log.size = m.log.size)
    (watermark : m'.watermark = m.watermark) (store : m'.store = m.store)
    (below : ∀ i < m.watermark, m'.record i = m.record i)
    (above : ∀ i < m.log.size, m.watermark ≤ i → ¬ (m'.record i).isDone) : Applied d m' := by
  have same : m'.requests m.watermark = m.requests m.watermark :=
    Memory.requests_congr fun i hi => by rw [below i hi]
  refine ⟨by rw [size, watermark]; exact h.bounded, fun i hi => ?_, ?_, fun i hi => ?_⟩
  · rw [size] at hi
    rw [watermark]
    rcases Nat.lt_or_ge i m.watermark with hlt | hge
    · rw [below i hlt]
      exact h.done i hi
    · exact iff_of_false (above i hi hge) (Nat.not_lt.mpr hge)
  · rw [store, h.contents, watermark, Memory.replayed, Memory.replayed, same]
  · rw [watermark] at hi ⊢
    rw [below i hi, h.outcomes i hi, Memory.results, Memory.results, same]

theorem applyNext (h : Applied d m) (ready : m.ready) : Applied d (m.applyNext d) := by
  have hlt := Memory.lt_size_of_ready ready
  have served := m.store.serve_eq d (m.record m.watermark).request
  rw [h.contents] at served
  have found := congrArg Prod.fst served
  have left := congrArg Prod.snd served
  simp only at found left
  have record : ∀ k, (m.applyNext d).record k =
      if k = m.watermark then
        (m.record k).complete (m.store.serve d (m.record m.watermark).request).1
      else m.record k := fun k => Memory.record_modify m _ hlt k
  have requests : (m.applyNext d).requests (m.watermark + 1) =
      m.requests m.watermark ++ [(m.record m.watermark).request] := by
    rw [← Memory.requests_succ]
    refine Memory.requests_congr fun i _ => ?_
    rw [record]
    split <;> simp
  refine ⟨?_, fun i hi => ?_, ?_, fun i hi => ?_⟩
  · simpa [Memory.applyNext] using Nat.succ_le_of_lt hlt
  · have hi : i < m.log.size := by simpa [Memory.applyNext] using hi
    rw [record]
    change _ ↔ i < m.watermark + 1
    split
    · next heq =>
      simp [heq]
    · rw [h.done i hi]
      omega
  · change (m.store.serve d (m.record m.watermark).request).2.toList =
      (d.serveAll ((m.applyNext d).requests (m.watermark + 1)) []).2
    rw [left, requests, Discipline.serveAll_concat]
    rfl
  · change i < m.watermark + 1 at hi
    change _ = (d.serveAll ((m.applyNext d).requests (m.watermark + 1)) []).1[i]?
    rw [record, requests, Discipline.serveAll_concat]
    rcases Nat.lt_or_eq_of_le (Nat.le_of_lt_succ hi) with hlt | rfl
    · rw [if_neg (Nat.ne_of_lt hlt), List.getElem?_append_left (by simpa using hlt)]
      exact h.outcomes i hlt
    · rw [if_pos rfl, Record.outcome?_complete, found, List.getElem?_append_right (by simp)]
      simp [Memory.replayed]

end Applied

end FlatCombining

end SharedMemory
