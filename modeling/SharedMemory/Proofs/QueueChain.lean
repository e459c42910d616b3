import Mathlib.Data.List.Perm.Subperm
import SharedMemory.MichaelScottQueue

/-!
# The chain of a lock-free queue

A `Shape` lists every node that was ever linked, in link order, with the places of head and tail
among them. Each step leaves the shape alone or makes it grow: a node is linked at the end, or the
head or the tail moves one place on. What a thread has read from the chain stays true while the shape
grows, so `Knows` says once for each label what its thread may rely on.
-/
namespace SharedMemory.MichaelScottQueue

structure Shape where
  linked : List Nat
  head : Nat
  tail : Nat

namespace Shape

/-- The node stands at most at the place `bound`. -/
def Passed (s : Shape) (bound node : Nat) : Prop := ∃ k, k ≤ bound ∧ s.linked[k]? = some node

/-- The second node was linked right behind the first. -/
def Adjacent (s : Shape) (node next : Nat) : Prop :=
  ∃ k, s.linked[k]? = some node ∧ s.linked[k + 1]? = some next

/-- A sentinel read before a tail: it stands no later, and both have been reached. -/
def Window (s : Shape) (head tail : Nat) : Prop :=
  ∃ j k, s.linked[j]? = some head ∧ s.linked[k]? = some tail ∧ j ≤ s.head ∧ j ≤ k ∧ k ≤ s.tail

end Shape

/-- The first of all nodes is the sentinel that the queue was made with. -/
structure Represents (m : Memory) (s : Shape) : Prop where
  first : s.linked[0]? = some 0
  distinct : s.linked.Nodup
  allocated : ∀ n ∈ s.linked, n < m.nodes.size
  next : ∀ {k n}, s.linked[k]? = some n → m.next n = s.linked[k + 1]?
  head : s.linked[s.head]? = some m.head
  tail : s.linked[s.tail]? = some m.tail
  order : s.head ≤ s.tail
  lag : s.linked.length ≤ s.tail + 2

def Memory.link (m : Memory) (tail node : Nat) : Memory :=
  { m with nodes := m.nodes.modify tail (fun n => { n with next := some node }) }

namespace Memory

variable (m : Memory) (tail node : Nat)

@[simp] theorem size_link : (m.link tail node).nodes.size = m.nodes.size := by simp [link]

@[simp] theorem value_link (n : Nat) : (m.link tail node).value n = m.value n := by
  simp only [link, value, Array.getElem?_modify]
  split
  · simp [Option.map_map, Function.comp_def]
  · rfl

theorem next_link {m : Memory} {tail : Nat} (h : tail < m.nodes.size) (node n : Nat) :
    (m.link tail node).next n = if n = tail then some node else m.next n := by
  simp only [link, next, Array.getElem?_modify]
  by_cases hn : tail = n
  · subst hn
    simp [h]
  · simp [hn, Ne.symm hn]

end Memory

/-- Oldest first. -/
def contents (m : Memory) (s : Shape) : List Value := (s.linked.drop (s.head + 1)).map m.value

/-- A node in the hands of the thread that allocated it. -/
structure Private (m : Memory) (s : Shape) (node : Nat) : Prop where
  allocated : node < m.nodes.size
  apart : node ∉ s.linked
  next : m.next node = none

structure Grows (m : Memory) (s : Shape) (m' : Memory) (s' : Shape) : Prop where
  linked : s.linked <+: s'.linked
  head : s.head ≤ s'.head
  tail : s.tail ≤ s'.tail
  size : m.nodes.size ≤ m'.nodes.size
  value : ∀ n < m.nodes.size, m'.value n = m.value n

/-- What the thread at a label has learned about the chain. -/
def Knows (m : Memory) (s : Shape) : Label → Prop
  | .putNext _ tail => s.Passed s.tail tail
  | .putCheck _ tail next => s.Passed s.tail tail ∧ ∀ n, next = some n → s.Adjacent tail n
  | .putHelp _ tail next => s.Adjacent tail next
  | .putLink _ tail => s.Passed s.tail tail
  | .putSwing node tail => s.Adjacent tail node
  | .takeTail head => s.Passed s.head head
  | .takeNext head tail => s.Window head tail
  | .takeCheck head tail next =>
    s.Window head tail ∧ (∀ n, next = some n → s.Adjacent head n) ∧ (next = none → head = tail)
  | .takeHelp tail next => s.Adjacent tail next
  | .takeSwing head next v =>
    (∃ j, s.linked[j]? = some head ∧ s.linked[j + 1]? = some next ∧ j + 1 ≤ s.tail) ∧
      next < m.nodes.size ∧ v = m.value next
  | .lookNext head => s.Passed s.head head
  | .allocate _ | .putTail _ | .takeHead | .lookHead => True

/-- The node that the thread at a label has allocated and not yet linked. -/
def Label.owns : Label → Option Nat
  | .putTail node | .putNext node _ | .putCheck node _ _ | .putHelp node _ _ | .putLink node _ =>
    some node
  | _ => none

namespace Grows

variable {m m' : Memory} {s s' : Shape}

theorem refl (m : Memory) (s : Shape) : Grows m s m s :=
  ⟨List.prefix_rfl, Nat.le_refl _, Nat.le_refl _, Nat.le_refl _, fun _ _ => rfl⟩

theorem place (h : Grows m s m' s') {k n : Nat} (hk : s.linked[k]? = some n) :
    s'.linked[k]? = some n := by
  obtain ⟨rest, hr⟩ := h.linked
  rw [← hr, List.getElem?_append_left (List.getElem?_eq_some_iff.mp hk).1, hk]

theorem passed (h : Grows m s m' s') {bound bound' node : Nat} (hb : bound ≤ bound')
    (hp : s.Passed bound node) : s'.Passed bound' node := by
  obtain ⟨k, hk, hn⟩ := hp
  exact ⟨k, Nat.le_trans hk hb, h.place hn⟩

theorem adjacent (h : Grows m s m' s') {node next : Nat} (ha : s.Adjacent node next) :
    s'.Adjacent node next := by
  obtain ⟨k, hk, hn⟩ := ha
  exact ⟨k, h.place hk, h.place hn⟩

theorem window (h : Grows m s m' s') {head tail : Nat} (hw : s.Window head tail) :
    s'.Window head tail := by
  obtain ⟨j, k, hj, hk, h₁, h₂, h₃⟩ := hw
  exact ⟨j, k, h.place hj, h.place hk, Nat.le_trans h₁ h.head, h₂, Nat.le_trans h₃ h.tail⟩

theorem knows (h : Grows m s m' s') {l : Label} (hl : Knows m s l) : Knows m' s' l := by
  cases l with
  | allocate | putTail | takeHead | lookHead => trivial
  | putNext | putLink => exact h.passed h.tail hl
  | putCheck => exact ⟨h.passed h.tail hl.1, fun n hn => h.adjacent (hl.2 n hn)⟩
  | putHelp | putSwing | takeHelp => exact h.adjacent hl
  | takeTail | lookNext => exact h.passed h.head hl
  | takeNext => exact h.window hl
  | takeCheck => exact ⟨h.window hl.1, fun n hn => h.adjacent (hl.2.1 n hn), hl.2.2⟩
  | takeSwing =>
    obtain ⟨⟨j, hj, hn, ht⟩, hs, hv⟩ := hl
    refine ⟨⟨j, h.place hj, h.place hn, Nat.le_trans ht h.tail⟩, ?_, ?_⟩
    · exact Nat.lt_of_lt_of_le hs h.size
    · rw [hv, h.value _ hs]

end Grows

section Steps

variable {m : Memory} {s : Shape}

theorem size_push (m : Memory) (n : Node) : (m.nodes.push n).size = m.nodes.size + 1 := by simp

theorem value_push {n : Nat} (hn : n < m.nodes.size) (node : Node) :
    Memory.value { m with nodes := m.nodes.push node } n = m.value n := by
  simp [Memory.value, Array.getElem?_push, Nat.ne_of_lt hn]

theorem next_push (m : Memory) (v : Value) (n : Nat) :
    Memory.next { m with nodes := m.nodes.push ⟨v, none⟩ } n = m.next n := by
  simp only [Memory.next, Array.getElem?_push]
  split
  · next hn => simp [hn]
  · rfl

theorem nodes_swingTail (m : Memory) (seen next : Nat) : (m.swingTail seen next).nodes = m.nodes := by
  unfold Memory.swingTail
  split <;> rfl

theorem value_of_nodes {m m' : Memory} (h : m'.nodes = m.nodes) (n : Nat) : m'.value n = m.value n := by
  simp [Memory.value, h]

theorem next_of_nodes {m m' : Memory} (h : m'.nodes = m.nodes) (n : Nat) : m'.next n = m.next n := by
  simp [Memory.next, h]

theorem contents_of_nodes {m' : Memory} (h : m'.nodes = m.nodes) (s : Shape) :
    contents m' s = contents m s := by
  simp only [contents, funext (value_of_nodes h)]

/-- Head and tail move on and no node changes. -/
theorem Grows.of_nodes {m' : Memory} (h : m'.nodes = m.nodes) {head tail : Nat} (hh : s.head ≤ head)
    (ht : s.tail ≤ tail) : Grows m s m' { s with head, tail } :=
  ⟨List.prefix_rfl, hh, ht, Nat.le_of_eq (by rw [h]), fun n _ => value_of_nodes h n⟩

theorem Grows.allocate (m : Memory) (s : Shape) (node : Node) :
    Grows m s { m with nodes := m.nodes.push node } s :=
  ⟨List.prefix_rfl, Nat.le_refl _, Nat.le_refl _, by simp, fun _ hn => value_push hn node⟩

theorem Grows.link (m : Memory) (s : Shape) (tail node : Nat) :
    Grows m s (m.link tail node) { s with linked := s.linked ++ [node] } :=
  ⟨List.prefix_append _ _, Nat.le_refl _, Nat.le_refl _, by simp, fun n _ => by simp⟩

theorem Private.of_nodes {m' : Memory} (h : m'.nodes = m.nodes) {node : Nat} (hp : Private m s node)
    (head tail : Nat) : Private m' { s with head, tail } node :=
  ⟨by rw [h]; exact hp.allocated, hp.apart, by rw [next_of_nodes h, hp.next]⟩

theorem Private.allocate {node : Nat} (hp : Private m s node) (v : Value) :
    Private { m with nodes := m.nodes.push ⟨v, none⟩ } s node :=
  ⟨by have := hp.allocated; simp; omega, hp.apart, by rw [next_push, hp.next]⟩

theorem Private.link {node other tail : Nat} (hp : Private m s other) (ne : other ≠ node)
    (ht : tail ∈ s.linked) (hs : tail < m.nodes.size) :
    Private (m.link tail node) { s with linked := s.linked ++ [node] } other where
  allocated := by simpa using hp.allocated
  apart := by simpa [ne] using hp.apart
  next := by
    have : other ≠ tail := fun heq => hp.apart (heq ▸ ht)
    rw [Memory.next_link hs, if_neg this, hp.next]

end Steps

namespace Represents

variable {m : Memory} {s : Shape}

theorem fresh (h : Represents m s) (v : Value) :
    Private { m with nodes := m.nodes.push ⟨v, none⟩ } s m.nodes.size where
  allocated := by simp
  apart hn := Nat.lt_irrefl _ (h.allocated _ hn)
  next := by simp [Memory.next]

theorem start : Represents {} ⟨[0], 0, 0⟩ where
  first := rfl
  distinct := by simp
  allocated := by simp
  next {k n} hk := by
    cases k with
    | zero =>
      obtain rfl : 0 = n := by simpa using hk
      rfl
    | succ k => simp at hk
  head := rfl
  tail := rfl
  order := Nat.le_refl _
  lag := by simp

theorem place_unique (h : Represents m s) {j k n : Nat} (hj : s.linked[j]? = some n)
    (hk : s.linked[k]? = some n) : j = k :=
  (List.getElem?_inj (List.getElem?_eq_some_iff.mp hj).1 h.distinct).mp (hj.trans hk.symm)

/-- A link that is read is the next place of the chain. -/
theorem adjacent_of_next (h : Represents m s) {bound node next : Nat} (hp : s.Passed bound node)
    (hn : m.next node = some next) : s.Adjacent node next := by
  obtain ⟨k, _, hk⟩ := hp
  exact ⟨k, hk, (h.next hk).symm.trans hn⟩

theorem passed_head (h : Represents m s) : s.Passed s.head m.head := ⟨s.head, Nat.le_refl _, h.head⟩

theorem passed_tail (h : Represents m s) : s.Passed s.tail m.tail := ⟨s.tail, Nat.le_refl _, h.tail⟩

/-- A tail read after a head stands no earlier. -/
theorem window (h : Represents m s) {head : Nat} (hp : s.Passed s.head head) :
    s.Window head m.tail := by
  obtain ⟨j, hj, hn⟩ := hp
  exact ⟨j, s.tail, hn, h.tail, hj, Nat.le_trans hj h.order, Nat.le_refl _⟩

/-- Once the head has reached a node without a successor, the queue is empty. -/
theorem contents_of_last (h : Represents m s) {node : Nat} (hp : s.Passed s.head node)
    (hn : m.next node = none) : contents m s = [] := by
  obtain ⟨k, hk, hnode⟩ := hp
  have last := List.getElem?_eq_none_iff.mp ((h.next hnode).symm.trans hn)
  rw [contents, List.map_eq_nil_iff, List.drop_eq_nil_iff]
  omega

/-- The window of a node without a successor holds that node alone. -/
theorem window_of_last (h : Represents m s) {head tail : Nat} (hw : s.Window head tail)
    (hn : m.next head = none) : head = tail := by
  obtain ⟨j, k, hj, hk, _, hjk, _⟩ := hw
  have last := List.getElem?_eq_none_iff.mp ((h.next hj).symm.trans hn)
  have := (List.getElem?_eq_some_iff.mp hk).1
  obtain rfl : j = k := by omega
  exact Option.some.inj (hj.symm.trans hk)

/-- Behind a sentinel that is not the tail, the tail has reached the next node at least. -/
theorem step_of_window (h : Represents m s) {head tail next : Nat} (hw : s.Window head tail)
    (ha : s.Adjacent head next) (ne : head ≠ tail) :
    ∃ j, s.linked[j]? = some head ∧ s.linked[j + 1]? = some next ∧ j + 1 ≤ s.tail := by
  obtain ⟨j, k, hj, hk, _, hjk, hkt⟩ := hw
  obtain ⟨i, hi, hn⟩ := ha
  obtain rfl : i = j := h.place_unique hi hj
  have : i ≠ k := by
    rintro rfl
    exact ne (Option.some.inj (hj.symm.trans hk))
  exact ⟨i, hi, hn, by omega⟩

theorem contents_eq_nil_iff (h : Represents m s) : contents m s = [] ↔ m.next m.head = none := by
  rw [h.next h.head, List.getElem?_eq_none_iff, contents, List.map_eq_nil_iff, List.drop_eq_nil_iff]

theorem walk_eq (h : Represents m s) {k : Nat} (n : Nat) :
    m.walk n s.linked[k]? = (s.linked.drop k).take n := by
  induction n generalizing k with
  | zero => simp [Memory.walk]
  | succ n ih =>
    cases hk : s.linked[k]? with
    | none => simp [Memory.walk, List.drop_eq_nil_of_le (List.getElem?_eq_none_iff.mp hk)]
    | some node =>
      obtain ⟨hlt, rfl⟩ := List.getElem?_eq_some_iff.mp hk
      rw [Memory.walk, h.next hk, ih, List.drop_eq_getElem_cons hlt, List.take_succ_cons]

theorem length_le_size (h : Represents m s) : s.linked.length ≤ m.nodes.size := by
  have sub : s.linked ⊆ List.range m.nodes.size := fun n hn =>
    List.mem_range.mpr (h.allocated n hn)
  simpa using (h.distinct.subperm sub).length_le

theorem toList_eq (h : Represents m s) : m.toList = contents m s := by
  have size := h.length_le_size
  rw [Memory.toList, Memory.linked, ← h.head, h.walk_eq, List.take_of_length_le, List.tail_drop]
  · rfl
  · rw [List.length_drop]
    omega

/-- Nodes that are only allocated change nothing. -/
theorem allocate (h : Represents m s) (v : Value) :
    Represents { m with nodes := m.nodes.push ⟨v, none⟩ } s where
  first := h.first
  distinct := h.distinct
  allocated n hn := by
    rw [size_push]
    exact Nat.lt_succ_of_lt (h.allocated n hn)
  next hk := by rw [next_push, h.next hk]
  head := h.head
  tail := h.tail
  order := h.order
  lag := h.lag

theorem swingTail (h : Represents m s) {seen next : Nat} (ha : s.Adjacent seen next) :
    ∃ tail, s.tail ≤ tail ∧ Represents (m.swingTail seen next) { s with tail } := by
  unfold Memory.swingTail
  split
  · next here =>
    obtain ⟨k, hk, hn⟩ := ha
    obtain rfl : s.tail = k := h.place_unique (here ▸ h.tail) hk
    have order := h.order
    have lag := h.lag
    exact ⟨s.tail + 1, by omega, { h with tail := hn, order := by simp; omega, lag := by simp; omega }⟩
  · exact ⟨s.tail, Nat.le_refl _, h⟩

theorem link (h : Represents m s) {node tail : Nat} (hp : s.Passed s.tail tail)
    (hn : m.next tail = none) (hnode : Private m s node) :
    Represents (m.link tail node) { s with linked := s.linked ++ [node] } := by
  obtain ⟨k, hk, htail⟩ := hp
  have last := List.getElem?_eq_none_iff.mp ((h.next htail).symm.trans hn)
  have inside := (List.getElem?_eq_some_iff.mp htail).1
  have lag := h.lag
  refine ⟨?_, ?_, ?_, ?_, ?_, ?_, h.order, by simp; omega⟩
  · rw [List.getElem?_append_left (List.getElem?_eq_some_iff.mp h.first).1]
    exact h.first
  · refine List.nodup_append.mpr ⟨h.distinct, by simp, ?_⟩
    intro a ha b hb same
    rw [same, List.mem_singleton.mp hb] at ha
    exact hnode.apart ha
  · intro n hmem
    rw [Memory.size_link]
    rcases List.mem_append.mp hmem with hmem | hmem
    · exact h.allocated n hmem
    · exact List.mem_singleton.mp hmem ▸ hnode.allocated
  · intro j n hj
    rw [Memory.next_link (h.allocated tail (List.mem_of_getElem? htail))]
    rcases Nat.lt_or_ge j s.linked.length with hlt | hge
    · rw [List.getElem?_append_left hlt] at hj
      split
      · next heq =>
        obtain rfl : j = k := h.place_unique hj (heq ▸ htail)
        simp [show j + 1 = s.linked.length by omega]
      · next hne =>
        have : j ≠ k := by
          rintro rfl
          exact hne (Option.some.inj (hj.symm.trans htail))
        rw [h.next hj, List.getElem?_append_left (by omega)]
    · obtain rfl : j = s.linked.length := by
        have := (List.getElem?_eq_some_iff.mp hj).1
        simp at this
        omega
      obtain rfl : node = n := by simpa using hj
      have : node ≠ tail := fun heq => hnode.apart (heq ▸ List.mem_of_getElem? htail)
      simp [this, hnode.next]
  · rw [List.getElem?_append_left (List.getElem?_eq_some_iff.mp h.head).1]
    exact h.head
  · rw [List.getElem?_append_left (List.getElem?_eq_some_iff.mp h.tail).1]
    exact h.tail

theorem contents_allocate (h : Represents m s) (v : Value) :
    contents { m with nodes := m.nodes.push ⟨v, none⟩ } s = contents m s :=
  List.map_congr_left fun node hn => value_push (h.allocated node (List.mem_of_mem_drop hn)) _

theorem contents_link (h : Represents m s) (tail node : Nat) :
    contents (m.link tail node) { s with linked := s.linked ++ [node] } =
      contents m s ++ [m.value node] := by
  have := (List.getElem?_eq_some_iff.mp h.head).1
  simp only [contents, funext (Memory.value_link m tail node)]
  rw [List.drop_append_of_le_length this]
  simp

/-- The node behind the sentinel holds the oldest value. -/
theorem contents_take (h : Represents m s) {next : Nat} (hn : m.next m.head = some next) :
    contents m s = m.value next :: contents m { s with head := s.head + 1 } := by
  obtain ⟨hlt, rfl⟩ := List.getElem?_eq_some_iff.mp ((h.next h.head).symm.trans hn)
  rw [contents, List.drop_eq_getElem_cons hlt, List.map_cons]
  rfl

theorem take (h : Represents m s) {next j : Nat} (hj : s.linked[j]? = some m.head)
    (hn : s.linked[j + 1]? = some next) (ht : j + 1 ≤ s.tail) (retired : List Nat) :
    Represents { m with head := next, retired } { s with head := s.head + 1 } := by
  obtain rfl : s.head = j := h.place_unique h.head hj
  exact { h with head := hn, order := ht }

end Represents

end SharedMemory.MichaelScottQueue
