import Mathlib.Data.List.Nodup
import SharedMemory.Container
import SharedMemory.Proofs.CombiningReservations
import SharedMemory.Proofs.PairedPrograms

/-!
# No removal of the paired workload finds the log short of inserts

A thread reserves a record for its insert before it reserves one for its removal. So in front of every
removal the log has more inserts than removals, and a removal that is applied there finds a value.
-/
namespace SharedMemory

def Request.inserts : Request → Bool
  | .insert _ => true
  | .remove => false

@[simp] theorem Request.inserts_insert (v : Value) : (Request.insert v).inserts = true := rfl

@[simp] theorem Request.inserts_remove : Request.remove.inserts = false := rfl

theorem Discipline.getElem?_serveAll (d : Discipline) (rs : List Request) (values : List Value) (k : Nat) :
    (d.serveAll rs values).1[k]? =
      rs[k]?.map fun r => (d.serve r (d.serveAll (rs.take k) values).2).1 := by
  induction rs generalizing values k with
  | nil => rfl
  | cons r rs ih =>
    cases k with
    | zero => rfl
    | succ k => exact ih (d.serve r values).2 k

/-- In front of every removal there are more inserts than removals. -/
def Supplied (rs : List Request) : Prop :=
  ∀ k, rs[k]? = some Request.remove → (rs.take k).countP (! ·.inserts) < (rs.take k).countP (·.inserts)

namespace Supplied

variable {rs : List Request} {r : Request}

theorem take (h : Supplied rs) (n : Nat) : Supplied (rs.take n) := by
  intro k hk
  rw [List.getElem?_take] at hk
  split at hk
  · next below =>
    rw [List.take_take, Nat.min_eq_left (Nat.le_of_lt below)]
    exact h k hk
  · cases hk

/-- Every removal takes a value, so the inserts that no removal has met are left. -/
theorem balance (h : Supplied rs) (d : Discipline) :
    (d.serveAll rs []).2.length + rs.countP (! ·.inserts) = rs.countP (·.inserts) := by
  induction rs using List.reverseRecOn with
  | nil => rfl
  | append_singleton rs r ih =>
    have before := ih (@List.take_left _ rs [r] ▸ h.take rs.length)
    rw [Discipline.serveAll_concat, List.countP_append, List.countP_append]
    cases r with
    | insert v =>
      have grown : (d.insert v (d.serveAll rs []).2).length = (d.serveAll rs []).2.length + 1 := by
        cases d <;> simp [Discipline.insert]
      simp only [Discipline.serve, grown, Request.inserts_insert, List.countP_singleton, Bool.not_true,
        Bool.false_eq_true, if_false, if_true]
      omega
    | remove =>
      have ahead := h rs.length (by rw [List.getElem?_append_right (Nat.le_refl _), Nat.sub_self]; rfl)
      rw [List.take_left] at ahead
      have shrunk : (Discipline.remove (d.serveAll rs []).2).2.length + 1 =
          (d.serveAll rs []).2.length := by
        generalize (d.serveAll rs []).2 = left at before
        cases left with
        | nil =>
          rw [List.length_nil] at before
          omega
        | cons v left => rfl
      simp only [Discipline.serve, Request.inserts_remove, List.countP_singleton, Bool.not_false,
        Bool.false_eq_true, if_false, if_true]
      omega

theorem finds (h : Supplied rs) (d : Discipline) {k : Nat} (removes : rs[k]? = some .remove) :
    ∃ v, (d.serveAll rs []).1[k]? = some (some v) := by
  have balance := (h.take k).balance d
  have ahead := h k removes
  rw [d.getElem?_serveAll, removes, Option.map_some, Discipline.serve]
  generalize (d.serveAll (rs.take k) []).2 = left at balance
  cases left with
  | nil =>
    rw [List.length_nil] at balance
    omega
  | cons v left => exact ⟨v, rfl⟩

end Supplied

namespace FlatCombining

section Order

variable {d : Discipline} {config : LogConfig} {programs : List (List Call)} {schedule : List (Turn Bool)}

/-- What a thread has submitted has its record before what it submits next. -/
theorem reserved_in_order (bound : submissions programs < 2 ^ 64)
    (submit : ∀ o c, Operation.call? programs o = some c → ∃ r, c = .submit r) {i k n : Nat}
    (owner : (reserved d config programs schedule)[k]? = some ⟨i, n + 1⟩) :
    ∃ j < k, (reserved d config programs schedule)[j]? = some ⟨i, n⟩ := by
  induction schedule generalizing k with
  | nil => simp [reserved, Algorithm.journal] at owner
  | cons t earlier ih =>
    rw [reserved_cons] at owner ⊢
    rcases Nat.lt_or_ge k (reserved d config programs earlier).length with old | new
    · rw [List.getElem?_append_left old] at owner
      obtain ⟨j, before, own⟩ := ih owner
      exact ⟨j, before, by rwa [List.getElem?_append_left (Nat.lt_trans before old)]⟩
    · rw [List.getElem?_append_right new] at owner
      obtain ⟨r, here, current⟩ :=
        reserving?_eq_some.mp (Option.mem_toList.mp (List.mem_of_getElem? owner))
      have inv := invariant_reserved d config bound earlier
      have called : Operation.call? programs ⟨i, n + 1⟩ = some (.submit r) :=
        current ▸ inv.stands _ _ here
      have answered : (after d config programs earlier).Answered ⟨i, n⟩ := by
        obtain ⟨rfl, count⟩ := Operation.mk.inj current
        exact Nat.lt_of_lt_of_eq (Nat.lt_succ_self n) count.symm
      obtain ⟨c, asked⟩ : ∃ c, Operation.call? programs ⟨i, n⟩ = some c :=
        ⟨_, List.getElem?_eq_getElem (Nat.lt_of_succ_lt (List.getElem?_eq_some_iff.mp called).1)⟩
      obtain ⟨r', rfl⟩ := submit _ c asked
      have place := inv.owner (.inl answered) asked
      have inside := (List.getElem?_eq_some_iff.mp place).1
      exact ⟨_, Nat.lt_of_lt_of_le inside new, by rwa [List.getElem?_append_left inside]⟩

/-- If each operation of a thread stands behind the one before it, then to any removal, at an odd index, there
is an insert, at the even index before, that stands in front of it. -/
theorem odd_le_even {owners : List Operation} (distinct : owners.Nodup)
    (ordered : ∀ i k n : Nat, owners[k]? = some (Operation.mk i (n + 1)) →
      ∃ j < k, owners[j]? = some (Operation.mk i n)) (k : Nat) :
    (owners.take (k + 1)).countP (fun o => ! decide (o.index % 2 = 0)) ≤
      (owners.take k).countP fun o => decide (o.index % 2 = 0) := by
  let previous (o : Operation) : Operation := ⟨o.thread, o.index - 1⟩
  have odd (o : Operation) (mem : o ∈ (owners.take (k + 1)).filter fun o => ! decide (o.index % 2 = 0)) :
      ∃ i n, o = ⟨i, n + 1⟩ ∧ n % 2 = 0 := by
    have parity : o.index % 2 ≠ 0 := by simpa using (List.mem_filter.mp mem).2
    exact ⟨o.thread, o.index - 1, congrArg (Operation.mk o.thread) (by omega), by omega⟩
  have apart : (((owners.take (k + 1)).filter fun o => ! decide (o.index % 2 = 0)).map previous).Nodup := by
    refine List.Nodup.map_on (fun o ho o' ho' same => ?_)
      ((distinct.sublist (List.take_sublist _ _)).filter _)
    obtain ⟨i, n, rfl, _⟩ := odd o ho
    obtain ⟨i', n', rfl, _⟩ := odd o' ho'
    simpa [previous] using same
  have inserted : ((owners.take (k + 1)).filter fun o => ! decide (o.index % 2 = 0)).map previous ⊆
      (owners.take k).filter fun o => decide (o.index % 2 = 0) := by
    intro o' ho'
    obtain ⟨o, mem, rfl⟩ := List.mem_map.mp ho'
    obtain ⟨i, n, rfl, even⟩ := odd o mem
    obtain ⟨l, owner⟩ := List.mem_iff_getElem?.mp (List.mem_filter.mp mem).1
    rw [List.getElem?_take, Option.ite_none_right_eq_some] at owner
    obtain ⟨j, before, own⟩ := ordered i l n owner.2
    refine List.mem_filter.mpr ⟨List.mem_of_getElem? (i := j) ?_, by simpa [previous] using even⟩
    rw [List.getElem?_take_of_lt (by omega)]
    exact own
  calc _ = (((owners.take (k + 1)).filter fun o => ! decide (o.index % 2 = 0)).map previous).length := by
        rw [List.length_map, List.countP_eq_length_filter]
    _ ≤ ((owners.take k).filter fun o => decide (o.index % 2 = 0)).length :=
        (apart.subperm inserted).length_le
    _ = _ := List.countP_eq_length_filter.symm

theorem Memory.requests_take {m : Memory} {k n : Nat} (below : k ≤ n) :
    (m.requests n).take k = m.requests k := by
  rw [requests, ← List.map_take, List.take_range, Nat.min_eq_left below, requests]

end Order

def paired (threads : Nat) (values : List Value) : List (List Call) :=
  (Paired.programs threads values).map (List.map .submit)

section Paired

variable {d : Discipline} {config : LogConfig} {threads : Nat} {values : List Value}
  {schedule : List (Turn Bool)} {o : Operation} {r : Request}

theorem call?_paired {c : Call} (called : o.call? (paired threads values) = some c) :
    ∃ r, c = .submit r ∧ (Paired.work values)[o.index]? = some r := by
  rw [Operation.call?, paired, callsOf_map, List.getElem?_map] at called
  obtain ⟨r, asked, rfl⟩ := Option.map_eq_some_iff.mp called
  refine ⟨r, rfl, ?_⟩
  rcases Nat.lt_or_ge o.thread threads with inside | beyond
  · rwa [Paired.callsOf_programs inside] at asked
  · rw [callsOf, Paired.programs, List.getD_eq_getElem?_getD, List.getElem?_replicate,
      if_neg (Nat.not_lt.mpr beyond)] at asked
    cases asked

/-- A thread inserts at its even calls. -/
theorem inserts_of_work {n : Nat} (asked : (Paired.work values)[n]? = some r) :
    r.inserts = decide (n % 2 = 0) := by
  obtain ⟨k, rfl | rfl⟩ : ∃ k, n = 2 * k ∨ n = 2 * k + 1 := ⟨n / 2, by omega⟩
  · rw [(Paired.getElem?_work _ _).1] at asked
    obtain ⟨v, _, rfl⟩ := Option.map_eq_some_iff.mp asked
    simp
  · rw [(Paired.getElem?_work _ _).2] at asked
    obtain ⟨v, _, rfl⟩ := Option.map_eq_some_iff.mp asked
    simp

theorem inserts_paired (threads : Nat) (values : List Value) :
    (paired threads values).flatten.countP (fun | .submit r => r.inserts | .isEmpty => false) =
      threads * values.length := by
  have one : ((Paired.work values).map Call.submit).countP
      (fun | .submit r => r.inserts | .isEmpty => false) = values.length := by
    rw [List.countP_map]
    induction values with
    | nil => rfl
    | cons v values ih =>
      rw [Paired.work_cons, List.countP_cons, List.countP_cons, ih]
      rfl
  rw [paired, Paired.programs, List.map_replicate, List.countP_flatten, List.map_replicate, one,
    List.sum_replicate_nat]

theorem submissions_paired (threads : Nat) (values : List Value) :
    submissions (paired threads values) = 2 * threads * values.length := by
  have one : ((Paired.work values).map Call.submit).countP Call.submits = 2 * values.length := by
    rw [List.countP_map]
    induction values with
    | nil => rfl
    | cons v values ih =>
      rw [Paired.work_cons, List.countP_cons, List.countP_cons, ih]
      rfl
  rw [submissions, paired, Paired.programs, List.map_replicate, List.countP_flatten, List.map_replicate,
    one, List.sum_replicate_nat, Nat.mul_left_comm, Nat.mul_assoc]

section Count

variable (bound : submissions (paired threads values) < 2 ^ 64)
include bound

theorem inserts_record {k : Nat}
    (below : k < (after d config (paired threads values) schedule).memory.watermark) :
    ∃ o, (reserved d config (paired threads values) schedule)[k]? = some o ∧
      ((after d config (paired threads values) schedule).memory.record k).request.inserts =
        decide (o.index % 2 = 0) := by
  have owned := (invariant_reserved d config bound schedule).owned
  have inside := Nat.lt_of_lt_of_le below owned.applied.bounded
  have done := (owned.applied.done k inside).mpr below
  obtain ⟨o, owner, called⟩ := owned.published k inside ((Record.isDone_iff _).mp done).1
  obtain ⟨r, same, asked⟩ := call?_paired called
  cases same
  exact ⟨o, owner, inserts_of_work asked⟩

theorem map_inserts (d : Discipline) (config : LogConfig) (schedule : List (Turn Bool)) {n : Nat}
    (below : n ≤ (after d config (paired threads values) schedule).memory.watermark) :
    ((after d config (paired threads values) schedule).memory.requests n).map Request.inserts =
      ((reserved d config (paired threads values) schedule).take n).map
        fun o => decide (o.index % 2 = 0) := by
  have long := Nat.le_trans below
    (invariant_reserved d config bound schedule).owned.watermark_le
  refine List.ext_getElem (by simp [Nat.min_eq_left long]) fun k hk _ => ?_
  rw [List.length_map, Memory.length_requests] at hk
  obtain ⟨o, owner, same⟩ := inserts_record bound (Nat.lt_of_lt_of_le hk below)
  obtain ⟨_, rfl⟩ := List.getElem?_eq_some_iff.mp owner
  simpa [Memory.requests] using same

/-- In front of every removal that is applied there are more inserts than removals. -/
theorem supplied (d : Discipline) (config : LogConfig) (schedule : List (Turn Bool)) :
    Supplied ((after d config (paired threads values) schedule).memory.requests
      (after d config (paired threads values) schedule).memory.watermark) := by
  intro k removes
  have below := (List.getElem?_eq_some_iff.mp removes).1
  rw [Memory.length_requests] at below
  have removal : ((after d config (paired threads values) schedule).memory.record k).request = .remove := by
    simpa [Memory.requests, below] using removes
  obtain ⟨o, owner, own⟩ := inserts_record bound below
  rw [removal, Request.inserts_remove] at own
  have counts (p : Bool → Bool) := congrArg (List.countP p)
    (map_inserts bound d config schedule (Nat.le_of_lt below))
  have inserts := counts id
  have removals := counts (!·)
  simp only [List.countP_map, Function.comp_def, id] at inserts removals
  have distinct : (reserved d config (paired threads values) schedule).Nodup := nodup_reserved bound
  have met := odd_le_even distinct
    (fun i k n => reserved_in_order bound (fun o c called => (call?_paired called).imp fun r h => h.1)) k
  rw [List.take_add_one, owner, Option.toList_some, List.countP_append, List.countP_singleton, ← own,
    Bool.not_false, if_pos rfl] at met
  rw [Memory.requests_take (Nat.le_of_lt below)]
  omega

/-- A removal that is answered has found a value. -/
theorem found_of_removal {o : Operation} {found : Option Value}
    (called : o.call? (paired threads values) = some (.submit .remove))
    (gives : (after d config (paired threads values) schedule).answer? o = some (.served (.ok found))) :
    ∃ v, found = some v := by
  have inv := invariant_reserved d config bound schedule
  obtain ⟨below, own, outcome⟩ := inv.served gives
  have removes := own.symm.trans called
  rw [Option.some_inj, Call.submit.injEq] at removes
  rw [inv.owned.applied.outcomes _ below] at outcome
  obtain ⟨v, hv⟩ := (supplied bound d config schedule).finds d
    (k := place d config (paired threads values) schedule o) (by simp [Memory.requests, below, removes])
  exact ⟨v, Option.some.inj (outcome.symm.trans hv)⟩

theorem not_refused {e : Error} (enough : 2 * threads * values.length ≤ config.capacity.toNat)
    (o : Operation) :
    (after d config (paired threads values) schedule).answer? o ≠ some (.served (.error e)) := by
  intro gives
  have owned := (invariant_reserved d config bound schedule).owned
  obtain ⟨_, late⟩ := refused_of_error bound gives
  have short := List.length_pos_of_mem late
  have counted : (reserved d config (paired threads values) schedule).length ≤
      submissions (paired threads values) := by
    refine length_le_countP owned.distinct _ fun o' mem => ?_
    obtain ⟨r, called⟩ := owned.called o' mem
    exact ⟨_, called, rfl⟩
  rw [List.length_drop] at short
  rw [submissions_paired] at counted
  omega

/-- Once all requests are applied, nothing is left. -/
theorem store_of_all (all : (after d config (paired threads values) schedule).memory.watermark =
    2 * threads * values.length) :
    (after d config (paired threads values) schedule).memory.store.toList = [] := by
  have owned := (invariant_reserved d config bound schedule).owned
  have balance := (supplied bound d config schedule).balance d
  have whole := List.length_eq_countP_add_countP (fun r : Request => r.inserts)
    (l := (after d config (paired threads values) schedule).memory.requests
      (after d config (paired threads values) schedule).memory.watermark)
  have few : ((after d config (paired threads values) schedule).memory.requests
      (after d config (paired threads values) schedule).memory.watermark).countP (·.inserts) ≤
        threads * values.length := by
    have same := congrArg (List.countP id)
      (map_inserts bound d config schedule (Nat.le_refl _))
    simp only [List.countP_map, Function.comp_def, id] at same
    rw [same, List.countP_eq_length_filter, ← inserts_paired]
    refine length_le_countP ((owned.distinct.sublist (List.take_sublist _ _)).filter _) _ fun o mem => ?_
    obtain ⟨mem, even⟩ := List.mem_filter.mp mem
    obtain ⟨r, called⟩ := owned.called o (List.mem_of_mem_take mem)
    obtain ⟨r', same, asked⟩ := call?_paired called
    cases same
    exact ⟨_, called, (inserts_of_work asked).trans even⟩
  rw [Nat.mul_assoc] at all
  simp only [Memory.length_requests, Bool.not_eq_true, Bool.decide_eq_false] at whole
  rw [owned.applied.contents, Memory.replayed]
  refine List.length_eq_zero_iff.mp ?_
  omega

end Count

end Paired

end FlatCombining

end SharedMemory
