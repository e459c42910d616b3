import SharedMemory.Proofs.CombiningOwners
import SharedMemory.Proofs.QueueChain
import SharedMemory.Proofs.SoloCalls

/-!
# A queue on a chain and a combined container, alone

Between the calls of a single thread the tail of the chain names its last node. A combined container
has a log of finished records and a gap behind them, which is where the next request goes.
-/
namespace SharedMemory

namespace MichaelScottQueue

/-- Nobody is at the queue, and it holds the values. No tail lags. -/
def Rests (m : Memory) (values : List Value) : Prop :=
  ∃ s, Represents m s ∧ s.linked.length = s.tail + 1 ∧ contents m s = values

theorem rests_empty : Rests {} [] := ⟨_, .start, rfl, rfl⟩

variable {m : Memory} {s : Shape} {values : List Value}
  {choose : Label → Memory → Unit}

theorem next_tail (chain : Represents m s) (last : s.linked.length = s.tail + 1) :
    m.next m.tail = none := by
  rw [chain.next chain.tail, List.getElem?_eq_none_iff]
  exact Nat.le_of_eq last

theorem Rests.enqueues (h : Rests m values) (v : Value) :
    ∃ m', Returns (algorithm.solo choose) 6 (.allocate v) m m' .enqueued [] ∧
      Rests m' (values ++ [v]) := by
  obtain ⟨s, chain, last, holds⟩ := h
  let allocated : Memory := { m with nodes := m.nodes.push ⟨v, none⟩ }
  let linked := allocated.link m.tail m.nodes.size
  have open_end : allocated.next m.tail = none := next_tail (chain.allocate v) last
  have chained := (chain.allocate v).link (chain.allocate v).passed_tail open_end (chain.fresh v)
  have checks : algorithm.solo choose (.putCheck m.nodes.size m.tail (allocated.next m.tail)) allocated =
      ⟨allocated, .running (.putLink m.nodes.size m.tail), []⟩ := by
    simp [Algorithm.solo, algorithm, step, open_end, allocated]
  have links : algorithm.solo choose (.putLink m.nodes.size m.tail) allocated =
      ⟨linked, .running (.putSwing m.nodes.size m.tail), []⟩ := by
    simp [Algorithm.solo, algorithm, step, open_end, linked, Memory.link]
  have swings : algorithm.solo choose (.putSwing m.nodes.size m.tail) linked =
      ⟨{ linked with tail := m.nodes.size }, .returned .enqueued, []⟩ := by
    simp [Algorithm.solo, algorithm, step, Memory.swingTail, linked, Memory.link, allocated]
  refine ⟨{ linked with tail := m.nodes.size }, ?_, ⟨s.linked ++ [m.nodes.size], s.head, s.tail + 1⟩, ?_⟩
  · exact .silent rfl (.silent rfl (.silent rfl (.silent checks (.silent links (.now swings)))))
  · have order := chain.order
    refine ⟨{ chained with tail := ?_, order := ?_, lag := ?_ }, ?_, ?_⟩
    · simp [← last]
    · exact Nat.le_succ_of_le order
    · simp [last]
    · simp [last]
    · calc contents { linked with tail := m.nodes.size } ⟨s.linked ++ [m.nodes.size], s.head, s.tail + 1⟩
          = contents allocated s ++ [allocated.value m.nodes.size] :=
            (chain.allocate v).contents_link m.tail m.nodes.size
        _ = values ++ [v] := by
            rw [chain.contents_allocate, holds]
            simp [allocated, Memory.value]

theorem Rests.dequeues (h : Rests m values) :
    ∃ m', Returns (algorithm.solo choose) 5 .takeHead m m' (.dequeued (Discipline.remove values).1) [] ∧
      Rests m' (Discipline.remove values).2 := by
  obtain ⟨s, chain, last, holds⟩ := h
  cases next : m.next m.head with
  | none =>
    have empty : values = [] := holds ▸ chain.contents_eq_nil_iff.mpr next
    have together : m.head = m.tail := chain.window_of_last (chain.window chain.passed_head) next
    have checks : algorithm.solo choose (.takeCheck m.head m.tail (m.next m.head)) m =
        ⟨m, .returned (.dequeued none), []⟩ := by
      rw [next]
      simp [Algorithm.solo, algorithm, step, afterCheck, together]
    subst empty
    exact ⟨m, .silent rfl (.silent rfl (.silent rfl (.now checks))), s, chain, last, holds⟩
  | some node =>
    have apart : m.head ≠ m.tail := by
      intro together
      rw [together, next_tail chain last] at next
      cases next
    have behind := (chain.next chain.head).symm.trans next
    have checks : algorithm.solo choose (.takeCheck m.head m.tail (m.next m.head)) m =
        ⟨m, .running (.takeSwing m.head node (m.value node)), []⟩ := by
      simp [Algorithm.solo, algorithm, step, afterCheck, next, apart]
    have swings : algorithm.solo choose (.takeSwing m.head node (m.value node)) m =
        ⟨{ m with head := node, retired := m.head :: m.retired },
          .returned (.dequeued (some (m.value node))), []⟩ := by
      simp [Algorithm.solo, algorithm, step]
    have reached : s.head + 1 ≤ s.tail := by
      have := (List.getElem?_eq_some_iff.mp behind).1
      omega
    obtain rfl : m.value node :: contents m { s with head := s.head + 1 } = values :=
      (chain.contents_take next).symm.trans holds
    exact ⟨_, .silent rfl (.silent rfl (.silent rfl (.silent checks (.now swings)))), _,
      chain.take chain.head behind reached _, last, rfl⟩

theorem Rests.looks (h : Rests m values) :
    Returns (algorithm.solo choose) 2 .lookHead m m (.emptiness values.isEmpty) [] := by
  obtain ⟨s, chain, _, holds⟩ := h
  have empty : values.isEmpty = (m.next m.head).isNone := by
    rw [Bool.eq_iff_iff, List.isEmpty_iff, Option.isNone_iff_eq_none, ← holds]
    exact chain.contents_eq_nil_iff
  rw [empty]
  exact .silent rfl (.now rfl)

theorem Rests.serves (h : Rests m values) (r : Request) :
    ∃ m', Returns (Container.michaelScottQueue.solo choose) 6 (Container.michaelScottQueue.enter r) m m'
        (.ok (Discipline.fifo.serve r values).1) [] ∧ Rests m' (Discipline.fifo.serve r values).2 := by
  cases r with
  | insert v =>
    obtain ⟨m', run, rests⟩ := h.enqueues v
    exact ⟨m', run.via _ _, rests⟩
  | remove =>
    obtain ⟨m', run, rests⟩ := h.dequeues
    exact ⟨m', (run.mono (by decide)).via _ _, rests⟩

end MichaelScottQueue

namespace FlatCombining

/-- The container holds the values, and the log begins with the records of all requests so far. -/
structure Settled (m : Memory) (values : List Value) (records : List Record) : Prop where
  store : m.store.toList = values
  next : m.next.toNat = records.length
  watermark : m.watermark = records.length
  record : ∀ i, m.record i = records.getD i {}

/-- Nobody is at the container. -/
structure Rests (m : Memory) (values : List Value) (records : List Record) : Prop
    extends Settled m values records where
  mutex : m.mutex = false

def finished (r : Request) (found : Option Value) : Record :=
  ({ state := .pending, kind := kindOf r, value := valueOf r } : Record).complete found

theorem request_published (r : Request) :
    ({ state := .pending, kind := kindOf r, value := valueOf r } : Record).request = r := by
  cases r <;> rfl

theorem outcome?_finished (r : Request) (found : Option Value) :
    (finished r found).outcome? = some found := by
  cases found <;> rfl

def Memory.publish (m : Memory) (i : Nat) (r : Request) : Memory :=
  ((m.modifyRecord i ({ · with kind := kindOf r })).modifyRecord i
    ({ · with value := valueOf r })).modifyRecord i ({ · with state := .pending })

/-- The container when a thread has published its request and taken the mutex. -/
def Memory.entrusted (m : Memory) (r : Request) : Memory :=
  { ({ m with next := m.next + 1 } : Memory).publish m.next.toNat r with mutex := true }

variable {m : Memory} {values : List Value} {records : List Record} {d : Discipline}
  {choose : Label → Memory → Bool}

theorem rests_ofConfig (config : LogConfig) : Rests (.ofConfig config) [] [] where
  mutex := rfl
  store := rfl
  next := rfl
  watermark := rfl
  record i := by
    simp only [Memory.record, Memory.ofConfig, Array.getD_eq_getD_getElem?, Array.getElem?_replicate]
    split <;> rfl

theorem record_publish (r : Request) {i : Nat} (inside : i < m.log.size) (vacant : m.record i = {})
    (k : Nat) :
    (m.publish i r).record k =
      if k = i then { state := .pending, kind := kindOf r, value := valueOf r } else m.record k := by
  rw [Memory.publish, record_modifyRecord _ (by simpa using inside),
    record_modifyRecord _ (by simpa using inside), record_modifyRecord _ inside]
  by_cases hk : k = i
  · simp [hk, vacant]
  · simp [hk]

theorem getD_concat (records : List Record) (x : Record) (i : Nat) :
    (records ++ [x]).getD i {} = if i = records.length then x else records.getD i {} := by
  rw [List.getD_eq_getElem?_getD, List.getD_eq_getElem?_getD]
  rcases Nat.lt_trichotomy i records.length with hi | rfl | hi
  · rw [List.getElem?_append_left hi, if_neg (Nat.ne_of_lt hi)]
  · simp
  · rw [if_neg (Nat.ne_of_gt hi), List.getElem?_eq_none (Nat.le_of_lt hi),
      List.getElem?_eq_none (by simpa using Nat.succ_le_of_lt hi)]

theorem Settled.log_eq (h : Settled m values records) (inside : records.length ≤ m.log.size) :
    m.log.toList = records ++ List.replicate (m.log.size - records.length) ({} : Record) := by
  refine List.ext_getElem ?_ fun i hi _ => ?_
  · simp [Nat.add_sub_cancel' inside]
  · have recorded : m.record i = m.log.toList[i] := by
      rw [Memory.record, Array.getD_eq_getD_getElem?, ← Array.getElem?_toList,
        List.getElem?_eq_getElem hi, Option.getD_some]
    rw [← recorded, h.record, List.getElem_append, List.getD_eq_getElem?_getD]
    split
    · simp [*]
    · next beyond => simp [List.getElem?_eq_none (Nat.le_of_not_lt beyond)]

theorem Settled.vacant (h : Settled m values records) : m.record records.length = {} := by
  rw [h.record, List.getD_eq_getElem?_getD, List.getElem?_eq_none (Nat.le_refl _), Option.getD_none]

theorem Settled.record_entrusted (h : Settled m values records) (r : Request)
    (room : records.length < m.log.size) (k : Nat) :
    (m.entrusted r).record k =
      if k = records.length then { state := .pending, kind := kindOf r, value := valueOf r }
      else m.record k := by
  rw [← h.next]
  rw [← h.next] at room
  refine record_publish (m := { m with next := m.next + 1 }) r room ?_ k
  rw [h.next]
  exact h.vacant

/-- The record that a thread has published is the next one to be applied. -/
theorem Settled.ready_entrusted (h : Settled m values records) (r : Request)
    (room : records.length < m.log.size) : (m.entrusted r).ready := by
  have watermark : (m.entrusted r).watermark = records.length := h.watermark
  simp [Memory.ready, watermark, h.record_entrusted r room]

theorem watermark_applyNext (d : Discipline) (m : Memory) :
    (m.applyNext d).watermark = m.watermark + 1 := rfl

theorem store_applyNext (d : Discipline) (m : Memory) :
    (m.applyNext d).store = (m.store.serve d (m.record m.watermark).request).2 := rfl

/-- Once the record is applied, it is one of the records of the log. -/
theorem Settled.applied (h : Settled m values records) (d : Discipline) (r : Request)
    (room : records.length < m.log.size) (small : m.log.size < 2 ^ 64) :
    Settled ((m.entrusted r).applyNext d) (d.serve r values).2
      (records ++ [finished r (d.serve r values).1]) := by
  have watermark : (m.entrusted r).watermark = records.length := h.watermark
  have served : (m.entrusted r).store.serve d
      ((m.entrusted r).record (m.entrusted r).watermark).request = m.store.serve d r := by
    rw [watermark, h.record_entrusted r room, if_pos rfl, request_published]
    rfl
  obtain ⟨found, left⟩ := Store.serves h.store d r
  refine ⟨?_, ?_, ?_, ?_⟩
  · rw [store_applyNext, served, left]
  · have counted : ((m.entrusted r).applyNext d).next = m.next + 1 := rfl
    rw [List.length_append, List.length_singleton, ← h.next, counted, UInt64.toNat_add]
    apply Nat.mod_eq_of_lt
    rw [h.next]
    exact Nat.lt_of_le_of_lt room small
  · rw [List.length_append, List.length_singleton, ← watermark, watermark_applyNext]
  · intro i
    rw [record_applyNext (h.ready_entrusted r room), served, watermark, h.record_entrusted r room,
      getD_concat, ← h.record]
    by_cases hi : i = records.length
    · rw [if_pos hi, if_pos hi, if_pos hi, ← found]
      rfl
    · rw [if_neg hi, if_neg hi, if_neg hi]

/-- A thread that has applied its record finds a gap behind it, tells of its pass and leaves. -/
theorem Settled.leaves {r : Request} {found : Option Value}
    (h : Settled m values (records ++ [finished r found])) (d : Discipline)
    (choose : Label → Memory → Bool) :
    ∃ m', Returns ((algorithm d).solo choose) 3 (.combine records.length records.length) m m'
        (.served (.ok found)) [.passApplied records.length (records.length + 1)] ∧
      Rests m' values (records ++ [finished r found]) ∧ m'.log.size = m.log.size := by
  let woken : Memory := { m with signals := m.signals + 1 }
  have watermark : m.watermark = records.length + 1 := by
    have := h.watermark
    rwa [List.length_append, List.length_singleton] at this
  have gap : ¬ m.ready := by
    have vacant := h.vacant
    rw [List.length_append, List.length_singleton] at vacant
    simp [Memory.ready, watermark, vacant]
  have tells : (algorithm d).solo choose (.combine records.length records.length) m =
      ⟨woken, .running (.recheck records.length), [.passApplied records.length (records.length + 1)]⟩ := by
    simp [Algorithm.solo, algorithm, step, gap, watermark, woken]
  have rechecks : (algorithm d).solo choose (.recheck records.length) woken =
      ⟨woken, .running (.unlock found), []⟩ := by
    have own : woken.record records.length = finished r found := by
      refine (h.record records.length).trans ?_
      rw [getD_concat, if_pos rfl]
    simp [Algorithm.solo, algorithm, step, own, outcome?_finished]
  exact ⟨{ woken with mutex := false }, .later tells (.silent rechecks (.now rfl)),
    { h with mutex := rfl }, rfl⟩

/-- A request goes into the first record that is still vacant, and its thread applies it. -/
theorem Rests.submits (h : Rests m values records) (r : Request) (room : records.length < m.log.size)
    (small : m.log.size < 2 ^ 64) :
    ∃ m', Returns ((algorithm d).solo choose) 10 (.reserve r) m m'
        (.served (.ok (d.serve r values).1)) [.passApplied records.length (records.length + 1)] ∧
      Rests m' (d.serve r values).2 (records ++ [finished r (d.serve r values).1]) ∧
      m'.log.size = m.log.size := by
  let n := records.length
  let reserved : Memory := { m with next := m.next + 1 }
  have reserves : (algorithm d).solo choose (.reserve r) m =
      ⟨reserved, .running (.writeKind n r), []⟩ := by
    simp [Algorithm.solo, algorithm, step, h.next, room, reserved, n]
  have locks : (algorithm d).solo choose (.lock n) (reserved.publish n r) =
      ⟨m.entrusted r, .running (.check n), []⟩ := by
    have free : (reserved.publish n r).mutex = false := h.mutex
    simp [Algorithm.solo, algorithm, step, free, Memory.entrusted, h.next, reserved, n]
  have checks : (algorithm d).solo choose (.check n) (m.entrusted r) =
      ⟨m.entrusted r, .running (.combine n n), []⟩ := by
    have watermark : (m.entrusted r).watermark = n := h.watermark
    have own := h.record_entrusted r room n
    rw [if_pos rfl] at own
    simp [Algorithm.solo, algorithm, step, own, Record.outcome?, watermark]
  have applies : (algorithm d).solo choose (.combine n n) (m.entrusted r) =
      ⟨(m.entrusted r).applyNext d, .running (.combine n n), []⟩ := by
    simp [Algorithm.solo, algorithm, step, h.ready_entrusted r room]
  obtain ⟨m', leaves, rests, size⟩ := (h.applied d r room small).leaves d choose
  refine ⟨m', ?_, rests, size.trans ?_⟩
  · exact .silent reserves (.silent rfl (.silent rfl (.silent rfl (.silent locks (.silent checks
      (.silent applies leaves))))))
  · simp [Memory.entrusted, Memory.applyNext, Memory.publish]

theorem Rests.looks (h : Rests m values records) :
    ∃ m', Returns ((algorithm d).solo choose) 3 .lookLock m m' (.emptiness values.isEmpty) [] ∧
      Rests m' values records ∧ m'.log.size = m.log.size := by
  have empty : m.store.isEmpty = values.isEmpty := by rw [Store.isEmpty_eq, h.store]
  have locks : (algorithm d).solo choose .lookLock m =
      ⟨{ m with mutex := true }, .running .look, []⟩ := by
    simp [Algorithm.solo, algorithm, step, h.mutex]
  rw [← empty]
  exact ⟨{ m with mutex := false }, .silent locks (.silent rfl (.now rfl)), { h with mutex := rfl }, rfl⟩

/-- A request is answered as a list answers it, and tells that its own record was applied. -/
theorem Rests.serves (h : Rests m values records) (r : Request) (room : records.length < m.log.size)
    (small : m.log.size < 2 ^ 64) :
    ∃ m', Returns ((Container.combining d).solo choose) 10 ((Container.combining d).enter r) m m'
        (.ok (d.serve r values).1) [.passApplied records.length (records.length + 1)] ∧
      Rests m' (d.serve r values).2 (records ++ [finished r (d.serve r values).1]) ∧
      m'.log.size = m.log.size := by
  obtain ⟨m', run, rests, size⟩ := h.submits r room small
  exact ⟨m', run.via .submit _, rests, size⟩

end FlatCombining

end SharedMemory
