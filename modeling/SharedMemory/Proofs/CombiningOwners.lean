import Mathlib.Algebra.Group.Nat.Defs
import SharedMemory.Proofs.CombiningLog
import SharedMemory.Proofs.LinearOrder

/-!
# Who owns which record of the log

Records are reserved in index order, by as many operations as the programs submit at most. A record
is written by its owner alone while it is vacant, and carries the owner's request from then on.
-/
namespace SharedMemory.FlatCombining

def Call.submits : Call → Bool
  | .submit _ => true
  | .isEmpty => false

def submissions (programs : List (List Call)) : Nat := programs.flatten.countP Call.submits

section Owners

variable (programs : List (List Call)) (owners : List Operation) (m : Memory) (o : Operation)

/-- `owners` lists the operations that have reserved a record, in index order. A record that is not
vacant carries the request of its owner. -/
structure Owned (d : Discipline) : Prop where
  applied : Applied d m
  next : m.next.toNat = owners.length
  distinct : owners.Nodup
  called : ∀ o ∈ owners, ∃ r, o.call? programs = some (.submit r)
  published : ∀ k < m.log.size, (m.record k).state ≠ .vacant →
    ∃ o, owners[k]? = some o ∧ o.call? programs = some (.submit (m.record k).request)

structure Holds (i : Nat) : Prop where
  owner : owners[i]? = some o
  inside : i < m.log.size

/-- The operation has the record `i`, and has still to publish the request `r` there. -/
structure Writes (i : Nat) (r : Request) : Prop extends Holds owners m o i where
  vacant : (m.record i).state = .vacant
  called : o.call? programs = some (.submit r)

/-- The operation's request is published in the record `i`. -/
structure Waits (i : Nat) : Prop extends Holds owners m o i where
  published : (m.record i).state ≠ .vacant

def Served (result : Option Value) : Prop :=
  ∃ i, Holds owners m o i ∧ (m.record i).outcome? = some result

end Owners

/-- How the log changes by a step of the operation `mover`: reservations are added, and a record that
is vacant is written by its owner alone. -/
structure Later (owners : List Operation) (m : Memory) (mover : Operation) (owners' : List Operation)
    (m' : Memory) : Prop where
  reserved : owners <+: owners'
  size : m'.log.size = m.log.size
  watermark : m.watermark ≤ m'.watermark
  vacant : ∀ k, (m.record k).state = .vacant → owners[k]? ≠ some mover → m'.record k = m.record k
  published : ∀ k, (m.record k).state ≠ .vacant →
    (m'.record k).state ≠ .vacant ∧ (m'.record k).request = (m.record k).request
  outcome : ∀ k result, (m.record k).outcome? = some result → (m'.record k).outcome? = some result

section Later

variable {programs : List (List Call)} {owners owners' : List Operation} {m m' : Memory}
  {mover o : Operation} {i : Nat} {r : Request}

theorem Later.of_log (log : m'.log = m.log) (watermark : m'.watermark = m.watermark)
    (mover : Operation) : Later owners m mover owners m' := by
  have record : m'.record = m.record := by
    funext k
    rw [Memory.record, Memory.record, log]
  constructor
  · exact List.prefix_rfl
  · rw [log]
  · rw [watermark]
  · exact fun k _ _ => by rw [record]
  · exact fun k h => by rw [record]; exact ⟨h, rfl⟩
  · exact fun k result h => by rw [record]; exact h

theorem Later.owner (later : Later owners m mover owners' m') (h : owners[i]? = some o) :
    owners'[i]? = some o := by
  obtain ⟨rest, hr⟩ := later.reserved
  rw [← hr, List.getElem?_append_left (List.getElem?_eq_some_iff.mp h).1, h]

theorem Holds.later (h : Holds owners m o i) (later : Later owners m mover owners' m') :
    Holds owners' m' o i :=
  ⟨later.owner h.owner, later.size ▸ h.inside⟩

theorem Writes.kept (h : Writes programs owners m o i r) (later : Later owners m mover owners' m')
    (other : o ≠ mover) : m'.record i = m.record i := by
  refine later.vacant i h.vacant fun hm => other ?_
  exact Option.some.inj (h.owner.symm.trans hm)

theorem Writes.later (h : Writes programs owners m o i r) (later : Later owners m mover owners' m')
    (kept : m'.record i = m.record i) : Writes programs owners' m' o i r where
  toHolds := h.toHolds.later later
  vacant := by rw [kept, h.vacant]
  called := h.called

theorem Waits.later (h : Waits owners m o i) (later : Later owners m mover owners' m') :
    Waits owners' m' o i where
  toHolds := h.toHolds.later later
  published := (later.published i h.published).1

theorem Served.later {result : Option Value} (h : Served owners m o result)
    (later : Later owners m mover owners' m') : Served owners' m' o result := by
  obtain ⟨i, holds, outcome⟩ := h
  exact ⟨i, holds.later later, later.outcome i result outcome⟩

theorem Later.replayed {d : Discipline} (applied : Applied d m)
    (later : Later owners m mover owners' m') {k : Nat} (hk : k ≤ m.watermark) :
    m'.replayed d k = m.replayed d k := by
  have same : m'.requests k = m.requests k := by
    refine Memory.requests_congr fun i hi => (later.published i ?_).2
    have hlt : i < m.watermark := by omega
    have hsize : i < m.log.size := Nat.lt_of_lt_of_le hlt applied.bounded
    exact ((m.record i).isDone_iff.mp ((applied.done i hsize).mpr hlt)).1
  rw [Memory.replayed, Memory.replayed, same]

end Later

section Log

variable {programs : List (List Call)} {owners : List Operation} {m m' : Memory} {o : Operation}
  {d : Discipline} {i : Nat} {r : Request}

theorem Owned.of_log (h : Owned programs owners m d) (log : m'.log = m.log)
    (watermark : m'.watermark = m.watermark) (store : m'.store = m.store) (next : m'.next = m.next) :
    Owned programs owners m' d := by
  have record : m'.record = m.record := by
    funext k
    rw [Memory.record, Memory.record, log]
  constructor
  · apply h.applied.congr (by rw [log]) watermark store
    · intro k _
      rw [record]
    · intro k hk above
      rw [record, h.applied.done k hk]
      omega
  · rw [next, h.next]
  · exact h.distinct
  · exact h.called
  · rw [log, record]
    exact h.published

theorem record_modifyRecord (f : Record → Record) (h : i < m.log.size) (k : Nat) :
    (m.modifyRecord i f).record k = if k = i then f (m.record k) else m.record k :=
  Memory.record_modify m f h k

@[simp] theorem size_modifyRecord (m : Memory) (i : Nat) (f : Record → Record) :
    (m.modifyRecord i f).log.size = m.log.size := by
  simp [Memory.modifyRecord]

/-- The owner of a vacant record writes there. -/
theorem Later.write (writes : Writes programs owners m o i r) (f : Record → Record) :
    Later owners m o owners (m.modifyRecord i f) := by
  have record := record_modifyRecord f writes.inside
  have other : ∀ k, (m.record k).state ≠ .vacant →
      (m.modifyRecord i f).record k = m.record k := by
    intro k published
    have ne : k ≠ i := by
      intro same
      exact published (same ▸ writes.vacant)
    rw [record, if_neg ne]
  constructor
  · exact List.prefix_rfl
  · simp
  · exact Nat.le_refl _
  · intro k _ foreign
    have ne : k ≠ i := by
      intro same
      exact foreign (same ▸ writes.owner)
    rw [record, if_neg ne]
  · intro k published
    rw [other k published]
    exact ⟨published, rfl⟩
  · intro k result outcome
    have published : (m.record k).state ≠ .vacant := by
      intro vacant
      simp [Record.outcome?, vacant] at outcome
    rw [other k published]
    exact outcome

theorem Owned.write (h : Owned programs owners m d) (writes : Writes programs owners m o i r)
    {f : Record → Record} (undone : ¬ (f (m.record i)).isDone)
    (requests : (f (m.record i)).state ≠ .vacant → (f (m.record i)).request = r) :
    Owned programs owners (m.modifyRecord i f) d := by
  have record := record_modifyRecord f writes.inside
  have above : m.watermark ≤ i := by
    have waiting : ¬ (m.record i).isDone := by simp [Record.isDone_iff, writes.vacant]
    rw [h.applied.done i writes.inside] at waiting
    omega
  constructor
  · apply h.applied.congr (size_modifyRecord m i f) rfl rfl
    · intro k hk
      have ne : k ≠ i := by omega
      rw [record, if_neg ne]
    · intro k hk hw
      rw [record]
      split
      · next same =>
        rw [same]
        exact undone
      · rw [h.applied.done k hk]
        omega
  · exact h.next
  · exact h.distinct
  · exact h.called
  · intro k hk
    rw [size_modifyRecord] at hk
    rw [record]
    split
    · next same =>
      intro published
      rw [same] at published ⊢
      refine ⟨o, writes.owner, ?_⟩
      rw [requests published, writes.called]
    · exact h.published k hk

theorem record_applyNext (ready : m.ready) (k : Nat) :
    (m.applyNext d).record k =
      if k = m.watermark then
        (m.record k).complete (m.store.serve d (m.record m.watermark).request).1
      else m.record k :=
  Memory.record_modify m _ (Memory.lt_size_of_ready ready) k

theorem Later.applyNext (ready : m.ready) (o : Operation) :
    Later owners m o owners (m.applyNext d) := by
  have record := record_applyNext (d := d) ready
  have pending : (m.record m.watermark).state = .pending := by simpa [Memory.ready] using ready
  constructor
  · exact List.prefix_rfl
  · simp [Memory.applyNext]
  · exact Nat.le_succ _
  · intro k vacant _
    have ne : k ≠ m.watermark := by
      intro same
      rw [same, pending] at vacant
      cases vacant
    rw [record, if_neg ne]
  · intro k published
    rw [record]
    split
    · exact ⟨((Record.isDone_iff _).mp (Record.isDone_complete _ _)).1, Record.request_complete _ _⟩
    · exact ⟨published, rfl⟩
  · intro k result outcome
    have ne : k ≠ m.watermark := by
      intro same
      simp [same, Record.outcome?, pending] at outcome
    rw [record, if_neg ne]
    exact outcome

theorem Owned.applyNext (h : Owned programs owners m d) (ready : m.ready) :
    Owned programs owners (m.applyNext d) d := by
  constructor
  · exact h.applied.applyNext ready
  · exact h.next
  · exact h.distinct
  · exact h.called
  · intro k hk
    have hk : k < m.log.size := by simpa [Memory.applyNext] using hk
    rw [record_applyNext ready]
    split
    · next same =>
      intro _
      rw [Record.request_complete]
      apply h.published k hk
      have pending : (m.record m.watermark).state = .pending := by
        simpa [Memory.ready] using ready
      simp [same, pending]
    · exact h.published k hk

theorem Owned.vacant (h : Owned programs owners m d) (inside : m.next.toNat < m.log.size) :
    (m.record m.next.toNat).state = .vacant := by
  by_contra published
  obtain ⟨o, owner, _⟩ := h.published m.next.toNat inside published
  rw [h.next, List.getElem?_eq_none (Nat.le_refl _)] at owner
  cases owner

/-- With as many reservations as there are submissions at most, the counter does not wrap. -/
theorem Owned.reserve (h : Owned programs owners m d) (bound : submissions programs < 2 ^ 64)
    (fresh : o ∉ owners) (called : o.call? programs = some (.submit r)) :
    Owned programs (owners ++ [o]) { m with next := m.next + 1 } d := by
  have distinct : (owners ++ [o]).Nodup := by
    rw [List.nodup_append]
    refine ⟨h.distinct, by simp, ?_⟩
    intro a ha b hb same
    rw [List.mem_singleton.mp hb] at same
    exact fresh (same ▸ ha)
  have all : ∀ o' ∈ owners ++ [o], ∃ r, o'.call? programs = some (.submit r) := by
    intro o' ho'
    rcases List.mem_append.mp ho' with ho' | ho'
    · exact h.called o' ho'
    · rw [List.mem_singleton.mp ho']
      exact ⟨r, called⟩
  have counted : (owners ++ [o]).length ≤ submissions programs := by
    apply length_le_countP distinct
    intro o' ho'
    obtain ⟨r', called'⟩ := all o' ho'
    exact ⟨_, called', rfl⟩
  constructor
  · exact h.applied.congr rfl rfl rfl (fun _ _ => rfl) fun k hk above => by
      change ¬ (m.record k).isDone
      rw [h.applied.done k hk]
      omega
  · have len : (owners ++ [o]).length = owners.length + 1 := by simp
    have next := h.next
    rw [len] at counted
    change (m.next + 1).toNat = _
    rw [UInt64.toNat_add, next, len, UInt64.toNat_one]
    omega
  · exact distinct
  · exact all
  · intro k hk published
    obtain ⟨o', owner, called'⟩ := h.published k hk published
    refine ⟨o', ?_, called'⟩
    rw [List.getElem?_append_left (List.getElem?_eq_some_iff.mp owner).1, owner]

theorem Later.reserve (m : Memory) (owners : List Operation) (o : Operation) :
    Later owners m o (owners ++ [o]) { m with next := m.next + 1 } where
  reserved := List.prefix_append _ _
  size := rfl
  watermark := Nat.le_refl _
  vacant _ _ _ := rfl
  published _ published := ⟨published, rfl⟩
  outcome _ _ outcome := outcome

end Log

end SharedMemory.FlatCombining
