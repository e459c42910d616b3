import Mathlib.Data.List.Nodup
import Mathlib.Data.List.Perm.Basic

/-!
# The accounts of a container's nodes

A node is allocated by a thread and is in the hands of that thread until it is linked or dropped. Once
it is unlinked it is retired. The accounts balance if every node that was ever allocated is in exactly
one of these places.
-/
namespace SharedMemory

/-- Dropping a container frees one node after the other from a link on, until a link leads nowhere. -/
inductive Frees (next : Nat → Option Nat) : Option Nat → List Nat → Prop
  | done : Frees next none []
  | free {node : Nat} {rest : List Nat} (more : Frees next (next node) rest) :
    Frees next (some node) (node :: rest)

/-- What a memory shows of its nodes, which are numbered as they are allocated. -/
structure NodeBooks where
  size : Nat
  next : Nat → Option Nat
  head : Option Nat
  reachable : List Nat
  retired : List Nat
  dropped : List Nat

namespace NodeBooks

def settled (b : NodeBooks) : List Nat := b.reachable ++ b.retired ++ b.dropped

/-- Every allocated node is once in one place, and the walk from the head ends. -/
structure Balanced (b : NodeBooks) (holds : Nat → Nat → Prop) : Prop where
  walk : Frees b.next b.head b.reachable
  distinct : b.settled.Nodup
  whole : ∀ n, n < b.size ↔ n ∈ b.settled ∨ ∃ i, holds i n
  apart : ∀ i n, holds i n → n ∉ b.settled
  alone : ∀ i j n, holds i n → holds j n → i = j

namespace Balanced

variable {b b' : NodeBooks} {holds holds' : Nat → Nat → Prop}

theorem of_nobody (walk : Frees b.next b.head b.reachable) (perm : b.settled.Perm (List.range b.size))
    (nobody : ∀ i n, ¬ holds i n) : b.Balanced holds where
  walk := walk
  distinct := perm.nodup_iff.mpr List.nodup_range
  whole n := by simp [perm.mem_iff, nobody]
  apart i n hn := absurd hn (nobody i n)
  alone i j n hn := absurd hn (nobody i n)

/-- When nobody holds a node, all have been freed, retired or dropped, each once. -/
theorem perm (h : b.Balanced holds) (nobody : ∀ i n, ¬ holds i n) :
    b.settled.Perm (List.range b.size) := by
  rw [List.perm_ext_iff_of_nodup h.distinct List.nodup_range]
  intro n
  rw [List.mem_range, h.whole n]
  exact ⟨.inl, fun place => place.resolve_right fun ⟨i, hi⟩ => nobody i n hi⟩

theorem same (h : b.Balanced holds) (walk : Frees b'.next b'.head b'.reachable)
    (settled : b'.settled.Perm b.settled) (size : b'.size = b.size)
    (hands : ∀ i n, holds' i n ↔ holds i n) : b'.Balanced holds' where
  walk := walk
  distinct := settled.nodup_iff.mpr h.distinct
  whole n := by simp only [size, h.whole n, settled.mem_iff, hands]
  apart i n hn := settled.mem_iff.not.mpr (h.apart i n ((hands i n).mp hn))
  alone i j n hi hj := h.alone i j n ((hands i n).mp hi) ((hands j n).mp hj)

theorem grow (h : b.Balanced holds) (i : Nat) (walk : Frees b'.next b'.head b'.reachable)
    (settled : b'.settled.Perm b.settled) (size : b'.size = b.size + 1)
    (hands : ∀ j n, holds' j n ↔ holds j n ∨ j = i ∧ n = b.size) : b'.Balanced holds' := by
  have old : ∀ {n}, (n ∈ b.settled ∨ ∃ i, holds i n) → n ≠ b.size := fun place =>
    Nat.ne_of_lt ((h.whole _).mpr place)
  refine ⟨walk, settled.nodup_iff.mpr h.distinct, fun n => ?_, fun j n hn => ?_, fun j k n hj hk => ?_⟩
  · rw [settled.mem_iff, size, Nat.lt_succ_iff_lt_or_eq, h.whole n]
    simp only [hands]
    constructor
    · rintro ((place | ⟨j, hj⟩) | new)
      · exact .inl place
      · exact .inr ⟨j, .inl hj⟩
      · exact .inr ⟨i, .inr ⟨rfl, new⟩⟩
    · rintro (place | ⟨j, hj | ⟨_, new⟩⟩)
      · exact .inl (.inl place)
      · exact .inl (.inr ⟨j, hj⟩)
      · exact .inr new
  · rw [settled.mem_iff]
    rcases (hands j n).mp hn with hj | ⟨_, new⟩
    · exact h.apart j n hj
    · exact fun place => old (.inl place) new
  · rcases (hands j n).mp hj with hj | ⟨hj, new⟩ <;> rcases (hands k n).mp hk with hk | ⟨hk, new'⟩
    · exact h.alone j k n hj hk
    · exact absurd new' (old (.inr ⟨j, hj⟩))
    · exact absurd new (old (.inr ⟨k, hk⟩))
    · rw [hj, hk]

theorem settle (h : b.Balanced holds) {i node : Nat} (mine : holds i node)
    (walk : Frees b'.next b'.head b'.reachable) (settled : b'.settled.Perm (node :: b.settled))
    (size : b'.size = b.size) (hands : ∀ j n, holds' j n ↔ holds j n ∧ n ≠ node) :
    b'.Balanced holds' := by
  refine ⟨walk, ?_, fun n => ?_, fun j n hn => ?_, fun j k n hj hk => ?_⟩
  · rw [settled.nodup_iff, List.nodup_cons]
    exact ⟨h.apart i node mine, h.distinct⟩
  · rw [size, h.whole n, settled.mem_iff, List.mem_cons]
    simp only [hands]
    constructor
    · rintro (place | ⟨j, hj⟩)
      · exact .inl (.inr place)
      · by_cases same : n = node
        · exact .inl (.inl same)
        · exact .inr ⟨j, hj, same⟩
    · rintro ((rfl | place) | ⟨j, hj, _⟩)
      · exact .inr ⟨i, mine⟩
      · exact .inl place
      · exact .inr ⟨j, hj⟩
  · obtain ⟨hj, other⟩ := (hands j n).mp hn
    rw [settled.mem_iff, List.mem_cons, not_or]
    exact ⟨other, h.apart j n hj⟩
  · exact h.alone j k n ((hands j n).mp hj).1 ((hands k n).mp hk).1

end Balanced

/-- The accounts of a run. The nodes that are retired are those that were `unlinked`, the dropped ones
those of requests that were `eliminated`. Once the run is `finished`, dropping the container frees the
others, so that every node has gone one of the three ways, and once. -/
structure Accounted (b : NodeBooks) (holds : Nat → Nat → Prop) (unlinked eliminated : List Nat)
    (finished : Prop) : Prop where
  balanced : b.Balanced holds
  retired : b.retired = unlinked
  dropped : b.dropped = eliminated
  closed : finished → ∃ freed, Frees b.next b.head freed ∧
    (freed ++ unlinked ++ eliminated).Perm (List.range b.size)

theorem Balanced.accounted {b : NodeBooks} {holds : Nat → Nat → Prop} {unlinked eliminated : List Nat}
    {finished : Prop} (h : b.Balanced holds) (retired : b.retired = unlinked)
    (dropped : b.dropped = eliminated) (nobody : finished → ∀ i n, ¬ holds i n) :
    b.Accounted holds unlinked eliminated finished where
  balanced := h
  retired := retired
  dropped := dropped
  closed ended := ⟨b.reachable, h.walk, retired ▸ dropped ▸ h.perm (nobody ended)⟩

end NodeBooks

end SharedMemory
