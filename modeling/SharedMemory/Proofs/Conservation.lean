import Mathlib.Algebra.BigOperators.Group.List.Basic
import Mathlib.Algebra.BigOperators.Group.Multiset.Basic
import Mathlib.Algebra.Order.BigOperators.Group.List
import Mathlib.Algebra.Order.Group.Int
import Mathlib.Data.UInt
import SharedMemory.Proofs.Schedule
import SharedMemory.Workload

/-!
# What goes into a container comes out again

A step of a workload moves a value from a thread to the container or back, or pays one of the counters
what the thread still owes it. Whatever the quantity, values or counts or sums, the share of the memory
and the shares of the threads add up to the same total before and after, so they do at the end of every
run. A thread that removes right after it has inserted finds something, because the container holds at
least one value for each thread between its two calls.
-/
namespace SharedMemory

namespace Crew

variable {Memory Call Label Choice Answer : Type} {alg : Algorithm Memory Call Label Choice Answer}
  {c : Crew Memory Label Answer}

/-- What each thread keeps at its own steps, wherever a run has got to, holds of all its threads. -/
theorem forall_after {P : Nat → Status Label Answer → Prop}
    (start : ∀ i s, c.threads[i]? = some s → P i s)
    (keeps : ∀ earlier (i : Nat) choice l, (c.after alg earlier).threads[i]? = some (.running l) →
      P i (.running l) → P i (alg.step choice l (c.after alg earlier).memory).status)
    (schedule : List (Turn Choice)) :
    ∀ i s, (c.after alg schedule).threads[i]? = some s → P i s := by
  induction schedule with
  | nil => exact start
  | cons t earlier ih =>
    rw [after, act]
    split
    · next l here =>
      intro i s hs
      by_cases hi : t.thread = i
      · subst hi
        rw [List.getElem?_set_self (List.getElem?_eq_some_iff.mp here).1] at hs
        cases hs
        exact keeps earlier _ _ _ here (ih _ _ here)
      · rw [List.getElem?_set_ne hi] at hs
        exact ih i s hs
    · exact ih

theorem sum_split {α M : Type} [AddCommMonoid M] (f : α → M) {xs : List α} {i : Nat} {x : α}
    (here : xs[i]? = some x) :
    ∃ rest, (xs.map f).sum = f x + rest ∧ ∀ y, ((xs.set i y).map f).sum = f y + rest := by
  induction xs generalizing i with
  | nil => simp at here
  | cons z zs ih =>
    cases i with
    | zero =>
      obtain rfl : z = x := by simpa using here
      exact ⟨(zs.map f).sum, rfl, fun _ => rfl⟩
    | succ i =>
      obtain ⟨rest, whole, replaced⟩ := ih (by simpa using here)
      refine ⟨f z + rest, ?_, fun y => ?_⟩
      · rw [List.map_cons, List.sum_cons, whole, add_left_comm]
      · rw [List.set_cons_succ, List.map_cons, List.sum_cons, replaced, add_left_comm]

/-- If no step of a run changes the share `g` of the memory and the share `f` of its thread together, the
shares of memory and threads always add up to the same. -/
theorem conserved {M : Type} [AddCommMonoid M] (g : Memory → M) (f : Status Label Answer → M)
    (step : ∀ earlier (i : Nat) choice l, (c.after alg earlier).threads[i]? = some (.running l) →
      let m := (c.after alg earlier).memory
      g (alg.step choice l m).memory + f (alg.step choice l m).status = g m + f (.running l))
    (schedule : List (Turn Choice)) :
    g (c.after alg schedule).memory + ((c.after alg schedule).threads.map f).sum =
      g c.memory + (c.threads.map f).sum := by
  induction schedule with
  | nil => rfl
  | cons t earlier ih =>
    rw [← ih, after, act]
    split
    · next l here =>
      obtain ⟨rest, whole, replaced⟩ := sum_split f here
      rw [whole, replaced, ← add_assoc, ← add_assoc, step earlier t.thread _ l here]
    · rfl

theorem threads_of_answers {answers : List Answer} (h : c.answers? = some answers) :
    c.threads = answers.map .returned := by
  rw [answers?] at h
  generalize c.threads = threads at h
  induction threads generalizing answers with
  | nil =>
    cases h
    rfl
  | cons s rest ih =>
    rw [List.mapM_cons] at h
    obtain ⟨a, ha, h⟩ := Option.bind_eq_some_iff.mp h
    obtain ⟨as, has, h⟩ := Option.bind_eq_some_iff.mp h
    cases h
    rw [ih has]
    cases s with
    | running l => cases ha
    | returned b =>
      cases ha
      rfl

end Crew

namespace Value

theorem sort_perm (values : List Value) : (sort values).Perm values := List.mergeSort_perm _ _

theorem sort_ascending (values : List Value) : (sort values).Pairwise (· ≤ ·) := by
  have sorted : (sort values).Pairwise fun a b => decide (a ≤ b) = true :=
    List.pairwise_mergeSort
      (fun a b c hab hbc => by
        simp only [decide_eq_true_eq] at *
        exact Int64.le_trans hab hbc)
      (fun a b => by simpa using Int64.le_total a b) values
  exact sorted.imp of_decide_eq_true

theorem toUInt64_wrappingSum (values : List Value) :
    (wrappingSum values).toUInt64 = (values.map Int64.toUInt64).sum := by
  have fold : ∀ start : Value, (values.foldl (· + ·) start).toUInt64 =
      start.toUInt64 + (values.map Int64.toUInt64).sum := by
    induction values with
    | nil =>
      intro start
      exact (add_zero _).symm
    | cons v values ih =>
      intro start
      rw [List.foldl_cons, ih, Int64.toUInt64_add, List.map_cons, List.sum_cons, add_assoc]
  rw [wrappingSum, fold]
  exact zero_add _

theorem eq_wrappingSum {total : Value} {values sorted : List Value}
    (h : total.toUInt64 = (values.map Int64.toUInt64).sum) (perm : sorted.Perm values) :
    total = wrappingSum sorted := by
  have words : total.toUInt64 = (wrappingSum sorted).toUInt64 := by
    rw [toUInt64_wrappingSum, h]
    exact ((perm.map _).sum_eq).symm
  cases total
  cases hs : wrappingSum sorted
  rw [hs] at words
  exact congrArg Int64.ofUInt64 words

end Value

theorem gather_ok (joined rest : List (List Value)) :
    gather (joined.map .ok) (rest.map .ok) = .ok (Value.sort joined.flatten) := by
  have fine : ∀ lists : List (List Value),
      (lists.map .ok).any (fun r : Except Panic (List Value) => !r.isOk) = false := by
    intro lists
    simp [Except.isOk, Except.toBool]
  have together : (joined.map .ok).flatMap (fun r : Except Panic (List Value) => (r.toOption).getD []) =
      joined.flatten := by
    simp [List.flatMap_def, Function.comp_def, Except.toOption]
  rw [gather, fine, fine, together]
  rfl

theorem Paired.observe_ok {Memory : Type} (inserted : UInt64) (lists : List (List Value)) (m : Tally Memory) :
    Paired.observe (some inserted) (lists.map .ok) m =
      .ok ⟨inserted, UInt64.ofNat (Value.sort lists.flatten).length, m.sum, Value.sort lists.flatten⟩ :=
  congrArg (Except.bind · _) (gather_ok lists [])

theorem eq_map_ok {answers : List (Except Panic (List Value))}
    (h : ∀ r ∈ answers, ∃ got, r = .ok got) : ∃ lists : List (List Value), answers = lists.map .ok := by
  induction answers with
  | nil => exact ⟨[], rfl⟩
  | cons r rest ih =>
    obtain ⟨got, rfl⟩ := h r List.mem_cons_self
    obtain ⟨lists, rfl⟩ := ih fun r hr => h r (List.mem_cons_of_mem _ hr)
    exact ⟨got :: lists, rfl⟩

/-- Whichever end it enters at, a value is one more in the container. -/
theorem Discipline.coe_insert (d : Discipline) (v : Value) (values : List Value) :
    (↑(d.insert v values) : Multiset Value) = v ::ₘ ↑values := by
  cases d
  · rfl
  · exact Multiset.coe_eq_coe.mpr (List.perm_append_singleton v values)

theorem sum_flatten {Sum : Type} [AddMonoid Sum] {f : List Value → Sum} (nil : f [] = 0)
    (append : ∀ values values', f (values ++ values') = f values + f values')
    (lists : List (List Value)) : (lists.map f).sum = f lists.flatten := by
  induction lists with
  | nil => exact nil.symm
  | cons values lists ih => rw [List.map_cons, List.sum_cons, ih, List.flatten_cons, append]

theorem sum_coe (lists : List (List Value)) :
    (lists.map fun values => Multiset.ofList values).sum = ↑lists.flatten :=
  sum_flatten rfl (fun values values' => (Multiset.coe_add values values').symm) lists

theorem sum_neg (lists : List (List Value)) :
    (lists.map fun values => -(values.map Int64.toUInt64).sum).sum =
      -(lists.flatten.map Int64.toUInt64).sum :=
  sum_flatten rfl (fun _ _ => by rw [List.map_append, List.sum_append, neg_add]) lists

theorem nsmul_coe (copies : Nat) (values : List Value) :
    copies • Multiset.ofList values = ↑(List.replicate copies values).flatten := by
  rw [← sum_coe, List.map_replicate, List.sum_replicate]

theorem nsmul_nsmul_one (copies count : Nat) :
    copies • count • (1 : UInt64) = UInt64.ofNat (copies * count) := by
  have ones : ∀ n : Nat, n • (1 : UInt64) = UInt64.ofNat n := by
    intro n
    induction n with
    | zero => rfl
    | succ n ih => rw [succ_nsmul, ih, UInt64.ofNat_add, UInt64.ofNat_one]
  rw [← mul_nsmul', ones]

/-- What `copies` threads, each with all of `values`, have done when they have left `left` behind in a
container that had `preload` in it. -/
structure Conserves (preload values : List Value) (copies : Nat) (left : List Value)
    (o : Observation) : Prop where
  inserted : o.inserted = UInt64.ofNat (copies * values.length)
  removed : o.removed = UInt64.ofNat (copies * values.length)
  removed_length : o.removedSorted.length = copies * values.length
  ascending : o.removedSorted.Pairwise (· ≤ ·)
  perm : (o.removedSorted ++ left).Perm (preload ++ (List.replicate copies values).flatten)
  sum : o.sum = Value.wrappingSum o.removedSorted

namespace Conserves

variable {preload values left : List Value} {copies : Nat} {o : Observation}

theorem of_lists {got : List (List Value)} {inserted removed : UInt64} {sum : Value}
    (insertedEq : inserted = UInt64.ofNat (copies * values.length))
    (removedEq : removed = UInt64.ofNat (copies * values.length))
    (lengthEq : got.flatten.length = copies * values.length)
    (valuesEq : (↑left + ↑got.flatten : Multiset Value) =
      ↑preload + ↑(List.replicate copies values).flatten)
    (sumEq : sum.toUInt64 = (got.flatten.map Int64.toUInt64).sum) :
    Conserves preload values copies left ⟨inserted, removed, sum, Value.sort got.flatten⟩ where
  inserted := insertedEq
  removed := removedEq
  removed_length := (Value.sort_perm _).length_eq.trans lengthEq
  ascending := Value.sort_ascending _
  perm := by
    rw [Multiset.coe_add, Multiset.coe_add, Multiset.coe_eq_coe] at valuesEq
    exact (((Value.sort_perm _).append_right left).trans List.perm_append_comm).trans valuesEq
  sum := Value.eq_wrappingSum sumEq (Value.sort_perm _)

theorem left_length (h : Conserves preload values copies left o) : left.length = preload.length := by
  have whole := h.perm.length_eq
  simp only [List.length_append, h.removed_length, List.length_flatten, List.map_replicate,
    List.sum_replicate_nat] at whole
  omega

end Conserves

namespace Stress

abbrev AtomicStatus : Type := Status (Label Request) (Except Panic (List Value))

/-- What thread `i` does when the first `pairs` threads insert and the others remove `count` values. -/
def Fits (pairs count i : Nat) : AtomicStatus → Prop
  | .running (.produce _) | .running (.countInsert _) => i < pairs
  | .running (.inserting r _) => i < pairs ∧ ∃ v, r = .insert v
  | .running (.consume left got) => pairs ≤ i ∧ got.length + left = count
  | .running (.removing r left got) => pairs ≤ i ∧ r = .remove ∧ got.length + (left + 1) = count
  | .running (.countRemoval _ left got) | .running (.addToSum _ left got) =>
    pairs ≤ i ∧ got.length + (left + 1) = count
  | .returned r => ∃ got, r = .ok got ∧ got.length = if i < pairs then 0 else count

/-- The values a thread has yet to insert, or has removed. -/
def holds : AtomicStatus → List Value
  | .running (.produce left) | .running (.countInsert left) => left
  | .running (.inserting (.insert v) left) => v :: left
  | .running (.inserting .remove left) => left
  | .running (.consume _ got) | .running (.removing _ _ got) => got
  | .running (.countRemoval v _ got) | .running (.addToSum v _ got) => v :: got
  | .returned r => (r.toOption).getD []

def insertsDue : AtomicStatus → Nat
  | .running (.produce left) => left.length
  | .running (.inserting _ left) | .running (.countInsert left) => left.length + 1
  | _ => 0

def removalsDue : AtomicStatus → Nat
  | .running (.consume left _) | .running (.addToSum _ left _) => left
  | .running (.removing _ left _) | .running (.countRemoval _ left _) => left + 1
  | _ => 0

/-- The values a thread has added to the sum. -/
def added : AtomicStatus → List Value
  | .running (.consume _ got) | .running (.removing _ _ got) => got
  | .running (.countRemoval _ _ got) | .running (.addToSum _ _ got) => got
  | .returned r => (r.toOption).getD []
  | _ => []

variable {d : Discipline} {pairs : Nat} {values preload : List Value}

theorem fits_step {i : Nat} {choice : Unit} {l : Label Request} {m : Tally (List Value)} {count : Nat}
    (h : Fits pairs count i (.running l)) :
    Fits pairs count i ((algorithm (Container.atomic d)).step choice l m).status := by
  cases l with
  | produce left =>
    cases left with
    | nil => exact ⟨[], rfl, by rw [if_pos (show i < pairs from h), List.length_nil]⟩
    | cons v left => exact ⟨h, v, rfl⟩
  | inserting r left =>
    obtain ⟨producer, v, rfl⟩ := h
    exact producer
  | countInsert left => exact h
  | consume left got =>
    obtain ⟨consumer, total⟩ := h
    cases left with
    | zero =>
      refine ⟨got.reverse, rfl, ?_⟩
      rw [if_neg (Nat.not_lt.mpr consumer), List.length_reverse]
      exact total
    | succ left => exact ⟨consumer, rfl, total⟩
  | removing r left got =>
    obtain ⟨consumer, rfl, total⟩ := h
    obtain ⟨container, _, _, _⟩ := m
    cases container with
    | nil => exact ⟨consumer, total⟩
    | cons v container => exact ⟨consumer, total⟩
  | countRemoval v left got => exact h
  | addToSum v left got =>
    refine ⟨h.1, ?_⟩
    rw [List.length_cons]
    have := h.2
    omega

theorem fits_after (d : Discipline) (pairs : Nat) (values preload : List Value)
    (schedule : List (Turn Unit)) :
    ∀ i s, ((crew (Container.atomic d) pairs values preload).after (algorithm (Container.atomic d))
      schedule).threads[i]? = some s → Fits pairs values.length i s := by
  refine Crew.forall_after (fun i s hs => ?_) (fun _ _ _ _ _ h => fits_step h) schedule
  simp only [crew, Crew.start, List.map_append, List.map_replicate, List.getElem?_append,
    List.length_replicate, List.getElem?_replicate] at hs
  split at hs
  · next producer =>
    cases hs
    exact producer
  · next consumer =>
    split at hs
    · cases hs
      exact ⟨Nat.not_lt.mp consumer, Nat.zero_add _⟩
    · cases hs

/-- The container, the values to come and the removed values are together what there was. -/
theorem values_step {i count : Nat} {choice : Unit} {l : Label Request} {m : Tally (List Value)}
    (h : Fits pairs count i (.running l)) :
    let e := (algorithm (Container.atomic d)).step choice l m
    (↑e.memory.container + ↑(holds e.status) : Multiset Value) =
      ↑m.container + ↑(holds (.running l)) := by
  cases l with
  | produce left => cases left <;> rfl
  | inserting r left =>
    obtain ⟨-, v, rfl⟩ := h
    calc (↑(d.insert v m.container) + ↑left : Multiset Value)
        = v ::ₘ (↑m.container + ↑left) := by rw [Discipline.coe_insert, Multiset.cons_add]
      _ = ↑m.container + (v ::ₘ ↑left) := (Multiset.add_cons ..).symm
  | countInsert left => rfl
  | consume left got =>
    cases left with
    | zero => exact congrArg _ (Multiset.coe_reverse got)
    | succ left => rfl
  | removing r left got =>
    obtain ⟨-, rfl, -⟩ := h
    obtain ⟨container, _, _, _⟩ := m
    cases container with
    | nil => rfl
    | cons v container =>
      calc (↑container + ↑(v :: got) : Multiset Value)
          = v ::ₘ (↑container + ↑got) := by rw [← Multiset.cons_coe, Multiset.add_cons]
        _ = ↑(v :: container) + ↑got := by rw [← Multiset.cons_coe, Multiset.cons_add]
  | countRemoval v left got => rfl
  | addToSum v left got => rfl

theorem inserted_step {i count : Nat} {choice : Unit} {l : Label Request} {m : Tally (List Value)}
    (h : Fits pairs count i (.running l)) :
    let e := (algorithm (Container.atomic d)).step choice l m
    e.memory.inserted + insertsDue e.status • (1 : UInt64) =
      m.inserted + insertsDue (.running l) • (1 : UInt64) := by
  cases l with
  | produce left => cases left <;> rfl
  | inserting r left => rfl
  | countInsert left =>
    change m.inserted + 1 + left.length • (1 : UInt64) = m.inserted + (left.length + 1) • (1 : UInt64)
    rw [succ_nsmul', add_assoc]
  | consume left got => cases left <;> rfl
  | removing r left got =>
    obtain ⟨-, rfl, -⟩ := h
    obtain ⟨container, _, _, _⟩ := m
    cases container <;> rfl
  | countRemoval v left got => rfl
  | addToSum v left got => rfl

theorem removed_step {i count : Nat} {choice : Unit} {l : Label Request} {m : Tally (List Value)}
    (h : Fits pairs count i (.running l)) :
    let e := (algorithm (Container.atomic d)).step choice l m
    e.memory.removed + removalsDue e.status • (1 : UInt64) =
      m.removed + removalsDue (.running l) • (1 : UInt64) := by
  cases l with
  | produce left => cases left <;> rfl
  | inserting r left => rfl
  | countInsert left => rfl
  | consume left got => cases left <;> rfl
  | removing r left got =>
    obtain ⟨-, rfl, -⟩ := h
    obtain ⟨container, _, _, _⟩ := m
    cases container <;> rfl
  | countRemoval v left got =>
    change m.removed + 1 + left • (1 : UInt64) = m.removed + (left + 1) • (1 : UInt64)
    rw [succ_nsmul', add_assoc]
  | addToSum v left got => rfl

theorem sum_step {i count : Nat} {choice : Unit} {l : Label Request} {m : Tally (List Value)}
    (h : Fits pairs count i (.running l)) :
    let e := (algorithm (Container.atomic d)).step choice l m
    e.memory.sum.toUInt64 + -((added e.status).map Int64.toUInt64).sum =
      m.sum.toUInt64 + -((added (.running l)).map Int64.toUInt64).sum := by
  cases l with
  | produce left => cases left <;> rfl
  | inserting r left => rfl
  | countInsert left => rfl
  | consume left got =>
    cases left with
    | zero =>
      change _ + -(got.reverse.map Int64.toUInt64).sum = _ + -(got.map Int64.toUInt64).sum
      rw [((List.reverse_perm got).map _).sum_eq]
      rfl
    | succ left => rfl
  | removing r left got =>
    obtain ⟨-, rfl, -⟩ := h
    obtain ⟨container, _, _, _⟩ := m
    cases container <;> rfl
  | countRemoval v left got => rfl
  | addToSum v left got =>
    change (m.sum + v).toUInt64 + -((v :: got).map Int64.toUInt64).sum =
      _ + -(got.map Int64.toUInt64).sum
    rw [Int64.toUInt64_add, List.map_cons, List.sum_cons, neg_add, add_assoc, add_neg_cancel_left]

theorem threads_crew :
    (crew (Container.atomic d) pairs values preload).threads =
      List.replicate pairs (.running (.produce values)) ++
        List.replicate pairs (.running (.consume values.length [])) := by
  simp only [crew, Crew.start, List.map_append, List.map_replicate]
  rfl

/-- Producers bring nothing home and every consumer as many values as there are. -/
theorem lists_of_answers {schedule : List (Turn Unit)} {answers : List (Except Panic (List Value))}
    (done : ((crew (Container.atomic d) pairs values preload).after (algorithm (Container.atomic d))
      schedule).answers? = some answers) :
    ∃ lists : List (List Value), answers = lists.map .ok ∧ lists.flatten = (lists.drop pairs).flatten ∧
      (lists.drop pairs).flatten.length = pairs * values.length := by
  have threads := Crew.threads_of_answers done
  have home : ∀ i r, answers[i]? = some r →
      ∃ got, r = .ok got ∧ got.length = if i < pairs then 0 else values.length := by
    intro i r hr
    exact fits_after d pairs values preload schedule i (.returned r)
      (by rw [threads, List.getElem?_map, hr]; rfl)
  have size : answers.length = pairs + pairs := by
    have := Crew.length_after (algorithm (Container.atomic d))
      (crew (Container.atomic d) pairs values preload) schedule
    rwa [threads, threads_crew, List.length_map, List.length_append, List.length_replicate,
      List.length_replicate] at this
  obtain ⟨lists, rfl⟩ := eq_map_ok fun r hr => by
    obtain ⟨i, hi⟩ := List.getElem?_of_mem hr
    obtain ⟨got, rfl, -⟩ := home i r hi
    exact ⟨got, rfl⟩
  have lengths : ∀ i got, lists[i]? = some got →
      got.length = if i < pairs then 0 else values.length := by
    intro i got hi
    obtain ⟨_, same, length⟩ := home i (.ok got) (by rw [List.getElem?_map, hi]; rfl)
    cases same
    exact length
  have producers : (lists.take pairs).flatten = [] := by
    refine List.flatten_eq_nil_iff.mpr fun got hgot => ?_
    obtain ⟨i, hi⟩ := List.getElem?_of_mem hgot
    rw [List.getElem?_take] at hi
    split at hi
    · next producer => exact List.length_eq_zero_iff.mp ((lengths i got hi).trans (if_pos producer))
    · cases hi
  have consumers : (lists.drop pairs).map List.length = List.replicate pairs values.length := by
    refine List.eq_replicate_iff.mpr ⟨?_, fun n hn => ?_⟩
    · rw [List.length_map] at size
      rw [List.length_map, List.length_drop, size, Nat.add_sub_cancel]
    · obtain ⟨got, hgot, rfl⟩ := List.mem_map.mp hn
      obtain ⟨i, hi⟩ := List.getElem?_of_mem hgot
      rw [List.getElem?_drop] at hi
      exact (lengths _ got hi).trans (if_neg (Nat.not_lt.mpr (Nat.le_add_right pairs i)))
  refine ⟨lists, rfl, ?_, ?_⟩
  · rw [← List.take_append_drop pairs lists, List.flatten_append, producers, List.nil_append,
      List.take_append_drop]
  · rw [List.length_flatten, consumers, List.sum_replicate_nat]

theorem conserves {schedule : List (Turn Unit)} {answers : List (Except Panic (List Value))}
    (done : ((crew (Container.atomic d) pairs values preload).after (algorithm (Container.atomic d))
      schedule).answers? = some answers) :
    let m := ((crew (Container.atomic d) pairs values preload).after (algorithm (Container.atomic d))
      schedule).memory
    ∃ o, observe pairs answers m = .ok o ∧ Conserves preload values pairs m.container o := by
  have threads := Crew.threads_of_answers done
  obtain ⟨lists, rfl, flat, length⟩ := lists_of_answers done
  have fits := fits_after d pairs values preload
  have inserted := Crew.conserved (fun m : Tally (List Value) => m.inserted)
    (fun s => insertsDue s • (1 : UInt64))
    (fun earlier i _ l here => inserted_step (fits earlier i _ here)) schedule
  have removed := Crew.conserved (fun m : Tally (List Value) => m.removed)
    (fun s => removalsDue s • (1 : UInt64))
    (fun earlier i _ l here => removed_step (fits earlier i _ here)) schedule
  have sum := Crew.conserved (fun m : Tally (List Value) => m.sum.toUInt64)
    (fun s => -((added s).map Int64.toUInt64).sum)
    (fun earlier i _ l here => sum_step (fits earlier i _ here)) schedule
  have held := Crew.conserved (fun m : Tally (List Value) => Multiset.ofList m.container)
    (fun s => ↑(holds s)) (fun earlier i _ l here => values_step (fits earlier i _ here)) schedule
  simp only [threads, threads_crew, List.map_append, List.map_replicate, List.sum_append,
    List.sum_replicate, List.map_map, Function.comp_def, insertsDue, removalsDue, added, holds,
    Except.toOption, Option.getD_some, zero_nsmul, nsmul_zero, List.map_const', add_zero, zero_add,
    nsmul_nsmul_one, sum_coe, sum_neg, flat, nsmul_coe, List.map_nil, List.sum_nil, neg_zero,
    Multiset.coe_nil] at inserted removed sum held
  refine ⟨_, ?_, .of_lists (inserted.trans (zero_add _)) (removed.trans (zero_add _)) length held
    (add_neg_eq_zero.mp sum)⟩
  rw [observe, ← List.map_drop, ← List.map_take, gather_ok]
  rfl

end Stress

namespace Paired

abbrev AtomicStatus : Type := Status (Label Request) (Except Panic (List Value))

def Fits (count : Nat) : AtomicStatus → Prop
  | .running (.next left got) => got.length + left.length = count
  | .running (.inserting r left got) => (∃ v, r = .insert v) ∧ got.length + (left.length + 1) = count
  | .running (.removing r left got) => r = .remove ∧ got.length + (left.length + 1) = count
  | .running (.addToSum _ left got) => got.length + (left.length + 1) = count
  | .returned (.ok got) => got.length = count
  | .returned (.error _) => True

def holds : AtomicStatus → List Value
  | .running (.next left got) => left ++ got
  | .running (.inserting (.insert v) left got) => v :: (left ++ got)
  | .running (.inserting .remove left got) => left ++ got
  | .running (.removing _ left got) => left ++ got
  | .running (.addToSum v left got) => left ++ v :: got
  | .returned r => (r.toOption).getD []

def added : AtomicStatus → List Value
  | .running (.next _ got) | .running (.inserting _ _ got) => got
  | .running (.removing _ _ got) | .running (.addToSum _ _ got) => got
  | .returned r => (r.toOption).getD []

/-- Between its insert and its removal a thread has one value to its credit. -/
def credit : AtomicStatus → Int
  | .running (.removing ..) | .returned (.error _) => 1
  | _ => 0

variable {d : Discipline} {threads : Nat} {values preload : List Value}

theorem credit_nonneg (s : AtomicStatus) : 0 ≤ credit s := by
  rw [credit.eq_def]
  split <;> decide

theorem fits_step {choice : Unit} {l : Label Request} {m : Tally (List Value)} {count : Nat}
    (h : Fits count (.running l)) :
    Fits count ((algorithm (Container.atomic d)).step choice l m).status := by
  cases l with
  | next left got =>
    cases left with
    | nil => exact (List.length_reverse ..).trans h
    | cons v left => exact ⟨⟨v, rfl⟩, h⟩
  | inserting r left got =>
    obtain ⟨⟨v, rfl⟩, total⟩ := h
    exact ⟨rfl, total⟩
  | removing r left got =>
    obtain ⟨rfl, total⟩ := h
    obtain ⟨container, _, _, _⟩ := m
    cases container with
    | nil => exact trivial
    | cons v container => exact total
  | addToSum v left got =>
    change (v :: got).length + left.length = count
    rw [List.length_cons, Nat.add_right_comm]
    exact h

theorem threads_crew :
    (crew (Container.atomic d) threads values preload).threads =
      List.replicate threads (.running (.next values [])) := by
  simp only [crew, Crew.start, List.map_replicate]
  rfl

theorem fits_after (d : Discipline) (threads : Nat) (values preload : List Value)
    (schedule : List (Turn Unit)) :
    ∀ (i : Nat) s, ((crew (Container.atomic d) threads values preload).after (algorithm (Container.atomic d))
      schedule).threads[i]? = some s → Fits values.length s := by
  refine Crew.forall_after (fun i s hs => ?_) (fun _ _ _ _ _ h => fits_step h) schedule
  rw [threads_crew, List.getElem?_replicate] at hs
  cases (Option.ite_none_right_eq_some.mp hs).2
  exact Nat.zero_add _

theorem credit_step {choice : Unit} {l : Label Request} {m : Tally (List Value)} {count : Nat}
    (h : Fits count (.running l)) :
    let e := (algorithm (Container.atomic d)).step choice l m
    (-e.memory.container.length : Int) + credit e.status = -m.container.length + credit (.running l) := by
  cases l with
  | next left got => cases left <;> rfl
  | inserting r left got =>
    obtain ⟨⟨v, rfl⟩, -⟩ := h
    have one_more : (d.insert v m.container).length = m.container.length + 1 :=
      congrArg Multiset.card (Discipline.coe_insert d v m.container)
    change -((d.insert v m.container).length : Int) + 1 = -m.container.length + 0
    rw [one_more]
    omega
  | removing r left got =>
    obtain ⟨rfl, -⟩ := h
    obtain ⟨container, _, _, _⟩ := m
    cases container with
    | nil => rfl
    | cons v container =>
      change -(container.length : Int) + 0 = -((v :: container).length : Int) + 1
      rw [List.length_cons]
      omega
  | addToSum v left got => rfl

/-- The container holds a value for every thread between its insert and its removal, so no removal
finds it empty. -/
theorem container_ne_nil {schedule : List (Turn Unit)} {i : Nat} {r : Request} {left got : List Value} :
    let c := (crew (Container.atomic d) threads values preload).after (algorithm (Container.atomic d))
      schedule
    c.threads[i]? = some (.running (.removing r left got)) → c.memory.container ≠ [] := by
  intro c here empty
  have balance := Crew.conserved (fun m : Tally (List Value) => -(m.container.length : Int)) credit
    (fun earlier i _ l here => credit_step (fits_after d threads values preload earlier i _ here)) schedule
  rw [threads_crew, List.map_replicate, List.sum_replicate, show c.memory.container = [] from empty]
    at balance
  have total : -(0 : Int) + (c.threads.map credit).sum = -preload.length + threads • (0 : Int) := balance
  have own : 1 ≤ (c.threads.map credit).sum := by
    refine List.single_le_sum (fun x hx => ?_) 1
      (List.mem_map.mpr ⟨_, List.mem_of_getElem? here, rfl⟩)
    obtain ⟨s, -, rfl⟩ := List.mem_map.mp hx
    exact credit_nonneg s
  rw [nsmul_zero] at total
  omega

theorem no_panic {schedule : List (Turn Unit)} {i : Nat} {p : Panic} :
    ((crew (Container.atomic d) threads values preload).after (algorithm (Container.atomic d))
      schedule).threads[i]? ≠ some (.returned (.error p)) := by
  suffices fine : ∀ (i : Nat) s, ((crew (Container.atomic d) threads values preload).after
      (algorithm (Container.atomic d)) schedule).threads[i]? = some s →
      ∀ p, s ≠ .returned (.error p) from fun here => fine i _ here p rfl
  refine Crew.forall_after (fun i s hs => ?_) (fun earlier i choice l here _ => ?_) schedule
  · rw [threads_crew, List.getElem?_replicate] at hs
    cases (Option.ite_none_right_eq_some.mp hs).2
    nofun
  · have fits := fits_after d threads values preload earlier i _ here
    cases l with
    | next left got => cases left <;> nofun
    | inserting r left got => nofun
    | removing r left got =>
      obtain ⟨rfl, -⟩ := fits
      have filled := container_ne_nil here
      revert filled
      generalize (Crew.after _ _ earlier).memory = m
      obtain ⟨container, _, _, _⟩ := m
      cases container with
      | nil => exact fun filled => absurd rfl filled
      | cons v container => exact fun _ => nofun
    | addToSum v left got => nofun

theorem values_step {count : Nat} {choice : Unit} {l : Label Request} {m : Tally (List Value)}
    (h : Fits count (.running l))
    (filled : ∀ r left got, l = .removing r left got → m.container ≠ []) :
    let e := (algorithm (Container.atomic d)).step choice l m
    (↑e.memory.container + ↑(holds e.status) : Multiset Value) =
      ↑m.container + ↑(holds (.running l)) := by
  cases l with
  | next left got =>
    cases left with
    | nil => exact congrArg _ (Multiset.coe_reverse got)
    | cons v left => rfl
  | inserting r left got =>
    obtain ⟨⟨v, rfl⟩, -⟩ := h
    calc (↑(d.insert v m.container) + ↑(left ++ got) : Multiset Value)
        = v ::ₘ (↑m.container + ↑(left ++ got)) := by rw [Discipline.coe_insert, Multiset.cons_add]
      _ = ↑m.container + (v ::ₘ ↑(left ++ got)) := (Multiset.add_cons ..).symm
  | removing r left got =>
    obtain ⟨rfl, -⟩ := h
    obtain ⟨container, _, _, _⟩ := m
    cases container with
    | nil => exact absurd rfl (filled _ _ _ rfl)
    | cons v container =>
      calc (↑container + ↑(left ++ v :: got) : Multiset Value)
          = v ::ₘ (↑container + ↑(left ++ got)) := by
            rw [Multiset.coe_eq_coe.mpr List.perm_middle, ← Multiset.cons_coe, Multiset.add_cons]
        _ = ↑(v :: container) + ↑(left ++ got) := by rw [← Multiset.cons_coe, Multiset.cons_add]
  | addToSum v left got => rfl

theorem sum_step {choice : Unit} {count : Nat} {l : Label Request} {m : Tally (List Value)}
    (h : Fits count (.running l))
    (filled : ∀ r left got, l = .removing r left got → m.container ≠ []) :
    let e := (algorithm (Container.atomic d)).step choice l m
    e.memory.sum.toUInt64 + -((added e.status).map Int64.toUInt64).sum =
      m.sum.toUInt64 + -((added (.running l)).map Int64.toUInt64).sum := by
  cases l with
  | next left got =>
    cases left with
    | nil =>
      change _ + -(got.reverse.map Int64.toUInt64).sum = _ + -(got.map Int64.toUInt64).sum
      rw [((List.reverse_perm got).map _).sum_eq]
      rfl
    | cons v left => rfl
  | inserting r left got => rfl
  | removing r left got =>
    obtain ⟨rfl, -⟩ := h
    obtain ⟨container, _, _, _⟩ := m
    cases container with
    | nil => exact absurd rfl (filled _ _ _ rfl)
    | cons v container => rfl
  | addToSum v left got =>
    change (m.sum + v).toUInt64 + -((v :: got).map Int64.toUInt64).sum =
      _ + -(got.map Int64.toUInt64).sum
    rw [Int64.toUInt64_add, List.map_cons, List.sum_cons, neg_add, add_assoc, add_neg_cancel_left]

theorem lists_of_answers {schedule : List (Turn Unit)} {answers : List (Except Panic (List Value))}
    (done : ((crew (Container.atomic d) threads values preload).after (algorithm (Container.atomic d))
      schedule).answers? = some answers) :
    ∃ lists : List (List Value), answers = lists.map .ok ∧
      lists.flatten.length = threads * values.length := by
  have returned := Crew.threads_of_answers done
  obtain ⟨lists, rfl⟩ := eq_map_ok fun r hr => by
    obtain ⟨i, hi⟩ := List.getElem?_of_mem hr
    cases r with
    | ok got => exact ⟨got, rfl⟩
    | error p =>
      refine absurd ?_ (no_panic : ((crew (Container.atomic d) threads values preload).after
        (algorithm (Container.atomic d)) schedule).threads[i]? ≠ some (.returned (.error p)))
      rw [returned, List.getElem?_map, hi]
      rfl
  have size := Crew.length_after (algorithm (Container.atomic d))
    (crew (Container.atomic d) threads values preload) schedule
  rw [returned, threads_crew, List.length_map, List.length_map, List.length_replicate] at size
  have lengths : lists.map List.length = List.replicate threads values.length := by
    refine List.eq_replicate_iff.mpr ⟨by rw [List.length_map, size], fun n hn => ?_⟩
    obtain ⟨got, hgot, rfl⟩ := List.mem_map.mp hn
    obtain ⟨i, hi⟩ := List.getElem?_of_mem hgot
    exact fits_after d threads values preload schedule i (.returned (.ok got))
      (by rw [returned, List.map_map, List.getElem?_map, hi]; rfl)
  exact ⟨lists, rfl, by rw [List.length_flatten, lengths, List.sum_replicate_nat]⟩

theorem conserves {schedule : List (Turn Unit)} {answers : List (Except Panic (List Value))}
    (done : ((crew (Container.atomic d) threads values preload).after (algorithm (Container.atomic d))
      schedule).answers? = some answers) :
    let m := ((crew (Container.atomic d) threads values preload).after (algorithm (Container.atomic d))
      schedule).memory
    ∃ o, observe (some (UInt64.ofNat (threads * values.length))) answers m = .ok o ∧
      Conserves preload values threads m.container o := by
  have returned := Crew.threads_of_answers done
  obtain ⟨lists, rfl, length⟩ := lists_of_answers done
  have fits := fits_after d threads values preload
  have sum := Crew.conserved (fun m : Tally (List Value) => m.sum.toUInt64)
    (fun s => -((added s).map Int64.toUInt64).sum)
    (fun earlier i _ l here => sum_step (fits earlier i _ here) fun _ _ _ removing =>
      container_ne_nil (removing ▸ here)) schedule
  have held := Crew.conserved (fun m : Tally (List Value) => Multiset.ofList m.container)
    (fun s => ↑(holds s))
    (fun earlier i _ l here => values_step (fits earlier i _ here) fun _ _ _ removing =>
      container_ne_nil (removing ▸ here)) schedule
  simp only [returned, threads_crew, List.map_replicate, List.sum_replicate, List.map_map,
    Function.comp_def, added, holds, Except.toOption, Option.getD_some, nsmul_zero, List.append_nil,
    sum_coe, sum_neg, nsmul_coe, List.map_nil, List.sum_nil, neg_zero] at sum held
  have counted : UInt64.ofNat (Value.sort lists.flatten).length =
      UInt64.ofNat (threads * values.length) := by rw [(Value.sort_perm _).length_eq, length]
  exact ⟨_, observe_ok _ lists _, .of_lists rfl counted length held (add_neg_eq_zero.mp sum)⟩

end Paired

namespace Workload

section Runs

variable {Memory L Choice : Type}

variable (c : Container Memory L Choice) (choose : L → Memory → Choice) (d : Discipline)

/-- Threads that are taken in turn follow one of the schedules. -/
theorem finish_inTurn {Call Label : Type}
    (observe : List (Except Panic (List Value)) → Tally Memory → Except Panic Observation)
    (alg : Algorithm (Tally Memory) Call Label Choice (Except Panic (List Value)))
    (habit : Label → Tally Memory → Choice) (budget : Nat)
    (crew : Crew (Tally Memory) Label (Except Panic (List Value))) :
    ∃ schedule, finish c choose d observe (crew.inTurn alg habit budget) =
      finish c choose d observe (crew.after alg schedule) := by
  obtain ⟨schedule, same⟩ := (Crew.reaches_iff_after alg).mp (Crew.reaches_inTurn alg habit budget crew)
  exact ⟨schedule, by rw [same]⟩

theorem stress_eq_finish (idle : Choice) (pairs : Nat) (values : List Value) (m : Memory) :
    ∃ schedule, stress c choose idle d pairs values m = finish c choose d (Stress.observe pairs)
      ((Stress.crew c pairs values m).after (Stress.algorithm c) schedule) :=
  finish_inTurn c choose d _ _ _ _ _

theorem paired_eq_finish (idle : Choice) (threads : Nat) (values : List Value) (m : Memory) :
    ∃ schedule, paired c choose idle d threads values m = finish c choose d
      (Paired.observe (Paired.inserted? threads values))
      ((Paired.crew c threads values m).after (Paired.algorithm c) schedule) :=
  finish_inTurn c choose d _ _ _ _ _

end Runs

/-- What `copies` threads observe when they have all returned, and how the call that started them ends:
over a container that was empty it returns, else it panics over a value that is left. -/
def EndsWell (d : Discipline) (preload values : List Value) (copies : Nat) (left : List Value)
    (observed : Except Panic Observation) (result : Result) : Prop :=
  ∃ o, observed = .ok o ∧ Conserves preload values copies left o ∧
    (preload = [] → result = some (.ok (some o))) ∧
    (preload ≠ [] → ∃ v, result = some (.error (.mismatch (some (emptyLabel d))
      (DebugText.ofOption (some v)) (DebugText.ofOption none))))

variable {d : Discipline} {preload values : List Value} {copies : Nat} {Label : Type}
  {observe : List (Except Panic (List Value)) → Tally (List Value) → Except Panic Observation}
  {crew : Crew (Tally (List Value)) Label (Except Panic (List Value))}
  {answers : List (Except Panic (List Value))}

/-- The thread that started the others finds as many values as were preloaded. -/
theorem endsWell_finish (choose : Request → List Value → Unit) (done : crew.answers? = some answers)
    (observed : ∃ o, observe answers crew.memory = .ok o ∧
      Conserves preload values copies crew.memory.container o) :
    EndsWell d preload values copies crew.memory.container (observe answers crew.memory)
      (finish (Container.atomic d) choose d observe crew).2 := by
  obtain ⟨o, observed, conserves⟩ := observed
  have same_size := conserves.left_length
  refine ⟨o, observed, conserves, fun fresh => ?_, fun filled => ?_⟩
  · rw [fresh, List.length_nil, List.length_eq_zero_iff] at same_size
    simp only [finish, done, observed, same_size]
    rfl
  · cases left : crew.memory.container with
    | nil =>
      rw [left, List.length_nil, eq_comm, List.length_eq_zero_iff] at same_size
      exact absurd same_size filled
    | cons v rest =>
      refine ⟨v, ?_⟩
      simp only [finish, done, observed, left]
      rfl

/-- Workloads over a container that serves every request at once conserve the values under every
schedule, and no thread that removes after it has inserted finds the container empty. The number of inserts
is the product, as long as it fits the width. -/
theorem conserves_of_atomic (d : Discipline) (choose : Request → List Value → Unit) (copies : Nat)
    (values preload : List Value) :
    (∀ schedule,
      let c := (Stress.crew (Container.atomic d) copies values preload).after
        (Stress.algorithm (Container.atomic d)) schedule
      ∀ answers, c.answers? = some answers →
        EndsWell d preload values copies c.memory.container (Stress.observe copies answers c.memory)
          (finish (Container.atomic d) choose d (Stress.observe copies) c).2) ∧
    (copies * values.length < 2 ^ 64 →
      Paired.inserted? copies values = some (UInt64.ofNat (copies * values.length))) ∧
    ∀ schedule,
      let c := (Paired.crew (Container.atomic d) copies values preload).after
        (Paired.algorithm (Container.atomic d)) schedule
      (∀ (i : Nat) r left got, c.threads[i]? = some (.running (.removing r left got)) →
        r = .remove ∧ c.memory.container ≠ []) ∧
      (∀ (i : Nat) p, c.threads[i]? ≠ some (.returned (.error p))) ∧
      ∀ answers, c.answers? = some answers →
        let inserted? := some (UInt64.ofNat (copies * values.length))
        EndsWell d preload values copies c.memory.container
          (Paired.observe inserted? answers c.memory)
          (finish (Container.atomic d) choose d (Paired.observe inserted?) c).2 := by
  refine ⟨?_, Size.mul?_ofNat, ?_⟩
  · intro schedule c answers done
    exact endsWell_finish choose done (Stress.conserves done)
  · intro schedule c
    refine ⟨fun i r left got here => ⟨?_, ?_⟩, fun i p => Paired.no_panic, fun answers done => ?_⟩
    · exact (Paired.fits_after d copies values preload schedule i _ here).1
    · exact Paired.container_ne_nil here
    · exact endsWell_finish choose done (Paired.conserves done)

/-- One producer and one consumer over a queue that holds a nine, and one thread over an empty stack. -/
theorem conserves_of_atomic_one :
    EndsWell .fifo [9] [5] 1 [5] (.ok ⟨1, 1, 9, [9]⟩)
      (some (.error (.mismatch (some (emptyLabel .fifo)) (DebugText.ofOption (some 5))
        (DebugText.ofOption none)))) ∧
    Paired.inserted? 1 [5] = some 1 ∧
    EndsWell .lifo [] [5] 1 [] (.ok ⟨1, 1, 5, [5]⟩) (some (.ok (some ⟨1, 1, 5, [5]⟩))) := by
  have sorted : ∀ v, Value.sort [v] = [v] := fun v => List.mergeSort_singleton v
  have stress := (conserves_of_atomic .fifo (fun _ _ => ()) 1 [5] [9]).1
    (List.replicate 5 ⟨1, ()⟩ ++ List.replicate 4 ⟨0, ()⟩) [.ok [], .ok [9]] rfl
  obtain ⟨-, counted, runs⟩ := conserves_of_atomic .lifo (fun _ _ => ()) 1 [5] []
  have paired := (runs (List.replicate 5 ⟨0, ()⟩)).2.2 [.ok [5]] rfl
  change EndsWell .fifo [9] [5] 1 [5] (.ok ⟨1, 1, 9, Value.sort [9]⟩) (some (.error _)) at stress
  change EndsWell .lifo [] [5] 1 []
    (.ok ⟨1, UInt64.ofNat (Value.sort [5]).length, 5, Value.sort [5]⟩)
    (some (.ok (some ⟨1, UInt64.ofNat (Value.sort [5]).length, 5, Value.sort [5]⟩))) at paired
  rw [sorted] at stress paired
  exact ⟨stress, counted (by decide), paired⟩

end Workload

end SharedMemory
