import SharedMemory.Proofs.QueueLinearization

/-!
# The chain of a lock-free queue only grows

All that a queue run changes, apart from allocating nodes, it changes by a compare-and-swap: on the
successor of a node, on the tail or on the head. A `Swap` that succeeds links one node behind the last
or moves one pointer one place on, so the chain, the places of head and tail and the list of retired
sentinels can be read off the swaps of a run.
-/
namespace SharedMemory.MichaelScottQueue

namespace Memory

/-- All nodes that were ever linked, from the first sentinel on. -/
def chain (m : Memory) : List Nat := m.walk m.nodes.size (some 0)

def place (m : Memory) (node : Nat) : Nat := m.chain.idxOf node

def shape (m : Memory) : Shape := ⟨m.chain, m.place m.head, m.place m.tail⟩

end Memory

/-- A compare-and-swap on the successor of the node `tail`, on the tail or on the head. -/
inductive Swap
  | link (tail node : Nat)
  | swing (seen next : Nat)
  | take (seen next : Nat)
  deriving DecidableEq

namespace Swap

def Meets (m : Memory) : Swap → Prop
  | .link tail _ => m.next tail = none
  | .swing seen _ => m.tail = seen
  | .take seen _ => m.head = seen

instance (m : Memory) : DecidablePred (Meets m)
  | .link tail _ => inferInstanceAs (Decidable (m.next tail = none))
  | .swing seen _ => inferInstanceAs (Decidable (m.tail = seen))
  | .take seen _ => inferInstanceAs (Decidable (m.head = seen))

def apply (m : Memory) : Swap → Memory
  | .link tail node => m.link tail node
  | .swing _ next => { m with tail := next }
  | .take seen next => { m with head := next, retired := seen :: m.retired }

/-- The successor that a node is given, and the node. -/
def linked? : Swap → Option (Nat × Nat)
  | .link tail node => some (tail, node)
  | .swing _ _ | .take _ _ => none

def taken? : Swap → Option Nat
  | .take seen _ => some seen
  | .link _ _ | .swing _ _ => none

def movesTail : Swap → Bool
  | .swing _ _ => true
  | .link _ _ | .take _ _ => false

def movesHead : Swap → Bool
  | .take _ _ => true
  | .link _ _ | .swing _ _ => false

end Swap

/-- The swap that a thread tries at a label. -/
def Label.swap? : Label → Option Swap
  | .putHelp _ tail next | .takeHelp tail next => some (.swing tail next)
  | .putLink node tail => some (.link tail node)
  | .putSwing node tail => some (.swing tail node)
  | .takeSwing head next _ => some (.take head next)
  | _ => none

def swapped? (m : Memory) (l : Label) : Option Swap := l.swap?.filter (fun w => w.Meets m)

def Shape.apply (s : Shape) : Swap → Shape
  | .link _ node => { s with linked := s.linked ++ [node] }
  | .swing _ _ => { s with tail := s.tail + 1 }
  | .take _ _ => { s with head := s.head + 1 }

section Steps

variable {m : Memory} {s : Shape} {l : Label} {w : Swap}

theorem swapped?_eq_some : swapped? m l = some w ↔ l.swap? = some w ∧ w.Meets m := by
  simp [swapped?, Option.filter_eq_some_iff]

/-- A step makes a swap, allocates a node or leaves the memory as it is. -/
theorem step_memory (l : Label) (m : Memory) :
    (∃ w, swapped? m l = some w ∧ (step l m).1 = w.apply m) ∨
      swapped? m l = none ∧ ((step l m).1 = m ∨
        ∃ v, (step l m).1 = { m with nodes := m.nodes.push ⟨v, none⟩ }) := by
  cases l with
  | allocate v => exact .inr ⟨rfl, .inr ⟨v, rfl⟩⟩
  | putHelp _ tail next | takeHelp tail next | putSwing next tail =>
    by_cases h : m.tail = tail
    · exact .inl ⟨.swing tail next, by simp [swapped?, Label.swap?, Swap.Meets, h], by
        simp [step, Memory.swingTail, Swap.apply, h]⟩
    · exact .inr ⟨by simp [swapped?, Label.swap?, Swap.Meets, h], .inl (by
        simp [step, Memory.swingTail, h])⟩
  | putLink node tail =>
    by_cases h : m.next tail = none
    · exact .inl ⟨.link tail node, by simp [swapped?, Label.swap?, Swap.Meets, h], by
        simp [step, Swap.apply, Memory.link, h]⟩
    · exact .inr ⟨by simp [swapped?, Label.swap?, Swap.Meets, h], .inl (by simp [step, h])⟩
  | takeSwing head next v =>
    by_cases h : m.head = head
    · exact .inl ⟨.take head next, by simp [swapped?, Label.swap?, Swap.Meets, h], by
        simp [step, Swap.apply, h]⟩
    · exact .inr ⟨by simp [swapped?, Label.swap?, Swap.Meets, h], .inl (by simp [step, h])⟩
  | _ => exact .inr ⟨rfl, .inl rfl⟩

namespace Represents

theorem shape_eq (h : Represents m s) : m.shape = s := by
  have chain : m.chain = s.linked := by
    rw [Memory.chain, ← h.first, h.walk_eq, List.drop_zero, List.take_of_length_le h.length_le_size]
  have place : ∀ {k n}, s.linked[k]? = some n → m.place n = k := by
    intro k n hk
    obtain ⟨hlt, rfl⟩ := List.getElem?_eq_some_iff.mp hk
    rw [Memory.place, chain, h.distinct.idxOf_getElem]
  rw [Memory.shape, chain, place h.head, place h.tail]

theorem swing (h : Represents m s) {next : Nat} (ha : s.Adjacent m.tail next) :
    Represents { m with tail := next } { s with tail := s.tail + 1 } := by
  obtain ⟨k, hk, hn⟩ := ha
  obtain rfl : s.tail = k := h.place_unique h.tail hk
  have order := h.order
  have lag := h.lag
  exact { h with tail := hn, order := by simp; omega, lag := by simp; omega }

/-- A swap changes the shape by one place. -/
theorem apply (h : Represents m s) (knows : Knows m s l)
    (owns : ∀ node, l.owns = some node → Private m s node) (made : swapped? m l = some w) :
    Represents (w.apply m) (s.apply w) := by
  obtain ⟨tried, meets⟩ := swapped?_eq_some.mp made
  cases l with
  | putHelp _ tail next | takeHelp tail next | putSwing next tail =>
    cases tried
    exact h.swing (meets ▸ knows)
  | putLink node tail =>
    cases tried
    exact h.link knows meets (owns node rfl)
  | takeSwing head next v =>
    cases tried
    obtain ⟨⟨j, hj, hn, ht⟩, _⟩ := knows
    exact h.take (meets ▸ hj) hn ht _
  | _ => cases tried

end Represents

end Steps

section Ledger

variable {m m' : Memory} {s s' : Shape} {ws : List Swap} {w? : Option Swap}

/-- What a turn makes of the memory and its shape, with the swap it makes. -/
inductive Turned (m : Memory) (s : Shape) : Option Swap → Memory → Shape → Prop
  | still : Turned m s none m s
  | allocate (v : Value) : Turned m s none { m with nodes := m.nodes.push ⟨v, none⟩ } s
  | swap {l : Label} {w : Swap} (knows : Knows m s l)
    (owns : ∀ node, l.owns = some node → Private m s node) (made : swapped? m l = some w) :
    Turned m s (some w) (w.apply m) (s.apply w)

theorem Turned.represents (h : Turned m s w? m' s') (chain : Represents m s) : Represents m' s' := by
  cases h with
  | still => exact chain
  | allocate v => exact chain.allocate v
  | swap knows owns made => exact chain.apply knows owns made

theorem Turned.grows (h : Turned m s w? m' s') : Grows m s m' s' := by
  cases h with
  | still => exact .refl m s
  | allocate v => exact .allocate m s ⟨v, none⟩
  | @swap l w _ _ _ =>
    cases w with
    | link tail node => exact .link m s tail node
    | swing seen next =>
      have nodes : (Swap.apply m (.swing seen next)).nodes = m.nodes := rfl
      exact .of_nodes nodes (Nat.le_refl s.head) (Nat.le_succ s.tail)
    | take seen next =>
      have nodes : (Swap.apply m (.take seen next)).nodes = m.nodes := rfl
      exact .of_nodes nodes (Nat.le_succ s.head) (Nat.le_refl s.tail)

/-- A link goes behind the last node. -/
theorem Represents.last_of_link (h : Represents m s) {l : Label} {tail node : Nat} (knows : Knows m s l)
    (made : swapped? m l = some (.link tail node)) : s.linked.getLast? = some tail := by
  obtain ⟨tried, last⟩ := swapped?_eq_some.mp made
  cases l with
  | putLink node tail =>
    cases tried
    obtain ⟨k, _, htail⟩ := knows
    have stop := List.getElem?_eq_none_iff.mp ((h.next htail).symm.trans last)
    have inside := (List.getElem?_eq_some_iff.mp htail).1
    obtain rfl : k = s.linked.length - 1 := by omega
    rw [List.getLast?_eq_getElem?, htail]
  | _ => cases tried

/-- What the swaps that were made, the latest first, say about the memory they led to. -/
structure Ledger (ws : List Swap) (m : Memory) (s : Shape) : Prop where
  links : ws.reverse.filterMap Swap.linked? = s.linked.zip s.linked.tail
  heads : ws.countP Swap.movesHead = s.head
  tails : ws.countP Swap.movesTail = s.tail
  handed : ws.filterMap Swap.taken? = m.retired
  loose : ∀ n, n ∉ s.linked → m.next n = none
  retired : m.retired.reverse = s.linked.take s.head

theorem Ledger.start : Ledger [] {} ⟨[0], 0, 0⟩ where
  links := rfl
  heads := rfl
  tails := rfl
  handed := rfl
  loose n hn := by
    have : n ≠ 0 := fun zero => hn (zero ▸ List.mem_singleton.mpr rfl)
    simp [Memory.next, this]
  retired := rfl

theorem zip_tail_concat {nodes : List Nat} {last : Nat} (h : nodes.getLast? = some last) (node : Nat) :
    (nodes ++ [node]).zip (nodes ++ [node]).tail = nodes.zip nodes.tail ++ [(last, node)] := by
  induction nodes with
  | nil => simp at h
  | cons first rest ih =>
    cases rest with
    | nil =>
      obtain rfl : first = last := by simpa using h
      rfl
    | cons second rest =>
      have h : (second :: rest).getLast? = some last := by simpa using h
      simpa using ih h

theorem Ledger.link (h : Ledger ws m s) (chain : Represents m s) {tail : Nat}
    (last : s.linked.getLast? = some tail) (node : Nat) :
    Ledger (.link tail node :: ws) (m.link tail node) (s.apply (.link tail node)) where
  links := by
    rw [Shape.apply, zip_tail_concat last]
    simp [Swap.linked?, h.links]
  heads := h.heads
  tails := h.tails
  handed := h.handed
  loose n hn := by
    rw [Shape.apply, List.mem_append, not_or] at hn
    have inside : tail ∈ s.linked := List.mem_of_getLast? last
    have other : n ≠ tail := fun same => hn.1 (same ▸ inside)
    rw [Memory.next_link (chain.allocated tail inside), if_neg other, h.loose n hn.1]
  retired := by
    have inside := (List.getElem?_eq_some_iff.mp chain.head).1
    rw [Shape.apply, List.take_append_of_le_length (Nat.le_of_lt inside)]
    exact h.retired

theorem Ledger.swing (h : Ledger ws m s) (seen next : Nat) :
    Ledger (.swing seen next :: ws) { m with tail := next } (s.apply (.swing seen next)) where
  links := by simpa [List.filterMap_cons, Swap.linked?, Shape.apply] using h.links
  heads := h.heads
  tails := by simp [List.countP_cons, Swap.movesTail, Shape.apply, h.tails]
  handed := h.handed
  loose := h.loose
  retired := h.retired

theorem Ledger.take (h : Ledger ws m s) (chain : Represents m s) (next : Nat) :
    Ledger (.take m.head next :: ws) { m with head := next, retired := m.head :: m.retired }
      (s.apply (.take m.head next)) where
  links := by simpa [List.filterMap_cons, Swap.linked?, Shape.apply] using h.links
  heads := by simp [List.countP_cons, Swap.movesHead, Shape.apply, h.heads]
  tails := h.tails
  handed := by simp [Swap.taken?, h.handed]
  loose := h.loose
  retired := by
    calc (m.head :: m.retired).reverse = s.linked.take s.head ++ [m.head] := by
          rw [List.reverse_cons, h.retired]
      _ = s.linked.take (s.head + 1) := by rw [List.take_add_one, chain.head, Option.toList_some]

theorem Turned.ledger (h : Turned m s w? m' s') (chain : Represents m s) (ledger : Ledger ws m s) :
    Ledger (w?.toList ++ ws) m' s' := by
  cases h with
  | still => exact ledger
  | allocate v =>
    refine { ledger with loose := fun n hn => ?_ }
    rw [next_push, ledger.loose n hn]
  | @swap l w knows owns made =>
    have meets := (swapped?_eq_some.mp made).2
    cases w with
    | link tail node => exact ledger.link chain (chain.last_of_link knows made) node
    | swing seen next =>
      exact ledger.swing seen next
    | take seen next =>
      obtain rfl : m.head = seen := meets
      exact ledger.take chain next

end Ledger

section Runs

variable {programs : List (List Call)} {schedule : List (Turn Unit)} {i : Nat} {l : Label}

/-- The latest first. -/
abbrev swaps (programs : List (List Call)) (schedule : List (Turn Unit)) : List Swap :=
  algorithm.notes {} programs swapped? schedule

theorem represents_after (programs : List (List Call)) (schedule : List (Turn Unit)) :
    Represents (after programs schedule).memory (after programs schedule).memory.shape := by
  obtain ⟨s, _, h⟩ := exists_invariant programs schedule
  rw [h.chain.shape_eq]
  exact h.chain

theorem knows_after (here : (after programs schedule).label i = some l) :
    Knows (after programs schedule).memory (after programs schedule).memory.shape l ∧
      ∀ node, l.owns = some node →
        Private (after programs schedule).memory (after programs schedule).memory.shape node := by
  obtain ⟨s, _, h⟩ := exists_invariant programs schedule
  rw [h.chain.shape_eq]
  exact ⟨(h.stands i l here).knows, (h.stands i l here).owns⟩

theorem turned_after (programs : List (List Call)) (t : Turn Unit) (earlier : List (Turn Unit)) :
    Turned (after programs earlier).memory (after programs earlier).memory.shape
      ((after programs earlier).noted swapped? t.thread) (after programs (t :: earlier)).memory
      (after programs (t :: earlier)).memory.shape := by
  have chain := represents_after programs earlier
  suffices ∃ s', Turned (after programs earlier).memory (after programs earlier).memory.shape
      ((after programs earlier).noted swapped? t.thread) (after programs (t :: earlier)).memory s' by
    obtain ⟨s', turned⟩ := this
    rwa [(turned.represents chain).shape_eq]
  have turn := algorithm.viewAfter_cons {} programs t earlier
  rcases turn.rest_or_enter_or_take with ⟨outside, same⟩ | ⟨c, outside, _, same⟩ | ⟨l, here, same⟩
  · rw [congrArg View.memory same, View.noted, outside]
    exact ⟨_, .still⟩
  · rw [congrArg View.memory same, View.noted, outside]
    exact ⟨_, .still⟩
  · obtain ⟨knows, owns⟩ := knows_after here
    have memory : (after programs (t :: earlier)).memory =
        (step l (after programs earlier).memory).1 := by
      rw [congrArg View.memory same, View.memory_take]
      rfl
    rw [memory, View.noted, here, Option.bind_some]
    rcases step_memory l (after programs earlier).memory with ⟨w, made, memory⟩ |
      ⟨unmade, memory | ⟨v, memory⟩⟩
    · rw [made, memory]
      exact ⟨_, .swap knows owns made⟩
    · rw [unmade, memory]
      exact ⟨_, .still⟩
    · rw [unmade, memory]
      exact ⟨_, .allocate v⟩

theorem ledger_after (programs : List (List Call)) (schedule : List (Turn Unit)) :
    Ledger (swaps programs schedule) (after programs schedule).memory
      (after programs schedule).memory.shape := by
  induction schedule with
  | nil =>
    have shape : (after programs []).memory.shape = ⟨[0], 0, 0⟩ := by
      simpa [after, View.start] using Represents.start.shape_eq
    rw [shape, after, algorithm.viewAfter_nil]
    exact Ledger.start
  | cons t earlier ih =>
    exact (turned_after programs t earlier).ledger (represents_after programs earlier) ih

namespace Memory

/-- The nodes that were linked form one chain without a cycle. Head and tail stand on it, the head not
behind the tail and the tail at the last node or the one before it. What dequeues have retired is
exactly the part before the head. -/
structure Chained (m : Memory) : Prop where
  distinct : m.chain.Nodup
  next : ∀ {k n}, m.chain[k]? = some n → m.next n = m.chain[k + 1]?
  loose : ∀ n, n ∉ m.chain → m.next n = none
  head : m.head ∈ m.chain
  tail : m.tail ∈ m.chain
  order : m.place m.head ≤ m.place m.tail
  lag : m.next m.tail = none ∨ ∃ last, m.next m.tail = some last ∧ m.next last = none
  retired : m.retired.reverse = m.chain.take (m.place m.head)
  once : m.retired.Nodup
  behind : ∀ n ∈ m.retired, n ∈ m.chain ∧ m.place n < m.place m.head ∧ m.place n < m.place m.tail

/-- Nodes are only linked at the end, a successor that is set stays, and head and tail only move
forward. -/
structure Continues (m m' : Memory) : Prop where
  chain : m.chain <+: m'.chain
  next : ∀ n next, m.next n = some next → m'.next n = some next
  head : m.place m.head ≤ m'.place m'.head
  tail : m.place m.tail ≤ m'.place m'.tail
  retired : m.retired <:+ m'.retired

end Memory

theorem chained_after (programs : List (List Call)) (schedule : List (Turn Unit)) :
    (after programs schedule).memory.Chained := by
  have chain := represents_after programs schedule
  have ledger := ledger_after programs schedule
  generalize (after programs schedule).memory = m at *
  have order : m.place m.head ≤ m.place m.tail := chain.order
  have distinct : m.chain.Nodup := chain.distinct
  have taken : m.retired.reverse = m.chain.take (m.place m.head) := ledger.retired
  refine ⟨distinct, chain.next, ledger.loose, List.mem_of_getElem? chain.head,
    List.mem_of_getElem? chain.tail, order, ?_, taken, ?_, ?_⟩
  · cases hn : m.next m.tail with
    | none => exact .inl rfl
    | some last =>
      have place : m.chain[m.place m.tail + 1]? = some last := (chain.next chain.tail).symm.trans hn
      have lag : m.chain.length ≤ m.place m.tail + 2 := chain.lag
      refine .inr ⟨last, rfl, ?_⟩
      rw [chain.next place, List.getElem?_eq_none_iff]
      exact lag
  · rw [← (List.reverse_perm m.retired).nodup_iff, taken]
    exact distinct.sublist (List.take_sublist _ _)
  · intro n hn
    rw [← List.mem_reverse, taken] at hn
    have before : m.place n < m.place m.head := by
      obtain ⟨k, hk, rfl⟩ := List.mem_take_iff_getElem.mp hn
      rw [Memory.place, distinct.idxOf_getElem]
      omega
    exact ⟨List.mem_of_mem_take hn, before, Nat.lt_of_lt_of_le before order⟩

namespace Memory.Continues

theorem refl (m : Memory) : m.Continues m :=
  ⟨List.prefix_rfl, fun _ _ h => h, Nat.le_refl _, Nat.le_refl _, List.suffix_rfl⟩

theorem trans {m m' m'' : Memory} (h : m.Continues m') (k : m'.Continues m'') : m.Continues m'' where
  chain := h.chain.trans k.chain
  next n next hn := k.next n next (h.next n next hn)
  head := Nat.le_trans h.head k.head
  tail := Nat.le_trans h.tail k.tail
  retired := h.retired.trans k.retired

end Memory.Continues

/-- A turn changes no successor but by a link, which gives the last node its successor. -/
theorem Turned.next {m m' : Memory} {s s' : Shape} {w? : Option Swap} (h : Turned m s w? m' s')
    (chain : Represents m s) (n : Nat) :
    m'.next n = m.next n ∨
      ∃ node, w? = some (.link n node) ∧ m.next n = none ∧ m'.next n = some node := by
  cases h with
  | still => exact .inl rfl
  | allocate v => exact .inl (next_push m v n)
  | @swap l w knows owns made =>
    cases w with
    | swing seen next => exact .inl rfl
    | take seen next => exact .inl rfl
    | link tail node =>
      have meets : m.next tail = none := (swapped?_eq_some.mp made).2
      have inside := List.mem_of_getLast? (chain.last_of_link knows made)
      have written := Memory.next_link (chain.allocated tail inside) node n
      by_cases same : n = tail
      · subst same
        exact .inr ⟨node, rfl, meets, by rwa [if_pos rfl] at written⟩
      · exact .inl (by rwa [if_neg same] at written)

theorem Turned.retired {m m' : Memory} {s s' : Shape} {w? : Option Swap} (h : Turned m s w? m' s') :
    m.retired <:+ m'.retired := by
  cases h with
  | still => exact List.suffix_rfl
  | allocate v => exact List.suffix_rfl
  | @swap l w _ _ _ =>
    cases w with
    | link tail node => exact List.suffix_rfl
    | swing seen next => exact List.suffix_rfl
    | take seen next => exact List.suffix_cons _ _

theorem continues_turn (programs : List (List Call)) (t : Turn Unit) (earlier : List (Turn Unit)) :
    (after programs earlier).memory.Continues (after programs (t :: earlier)).memory := by
  have turned := turned_after programs t earlier
  have grows := turned.grows
  refine ⟨grows.linked, fun n next hn => ?_, grows.head, grows.tail, turned.retired⟩
  rcases turned.next (represents_after programs earlier) n with same | ⟨_, _, unset, _⟩
  · rw [same, hn]
  · cases unset.symm.trans hn

theorem continues_after (programs : List (List Call)) {moment schedule : List (Turn Unit)}
    (suffix : moment <:+ schedule) :
    (after programs moment).memory.Continues (after programs schedule).memory :=
  Turn.later (P := fun s => (after programs moment).memory.Continues (after programs s).memory)
    (fun t earlier h => h.trans (continues_turn programs t earlier)) suffix (.refl _)

/-- A dequeue that finds the head apart from the tail has read a successor. -/
theorem step_ne_crashed {m : Memory} {s : Shape} {l : Label} (knows : Knows m s l) :
    (step l m).2 ≠ .returned .crashed := by
  cases l with
  | takeCheck head tail next =>
    cases next with
    | none =>
      obtain rfl : head = tail := knows.2.2 rfl
      by_cases here : m.head = head <;> simp [step, afterCheck, here]
    | some next =>
      simp only [step, afterCheck]
      split
      · split <;> simp
      · simp
  | putLink node tail => by_cases last : m.next tail = none <;> simp [step, last]
  | takeSwing head next v => by_cases here : m.head = head <;> simp [step, here]
  | _ => simp [step]

theorem not_crashed (programs : List (List Call)) (schedule : List (Turn Unit)) (o : Operation) :
    (after programs schedule).answer? o ≠ some .crashed := by
  induction schedule with
  | nil => simp [after, View.start, View.answer?]
  | cons t earlier ih =>
    intro crashed
    rcases (algorithm.viewAfter_cons {} programs t earlier).answer? crashed with before |
      ⟨_, l, here, gives⟩
    · exact ih before
    · exact step_ne_crashed (knows_after here).1 gives

/-- What holds of the chain at every moment of a run, and what one more turn may change. -/
structure Intact (programs : List (List Call)) (schedule : List (Turn Unit)) : Prop where
  chained : (after programs schedule).memory.Chained
  /-- The links in the order in which they were made. -/
  links : (swaps programs schedule).reverse.filterMap Swap.linked? =
    (after programs schedule).memory.chain.zip (after programs schedule).memory.chain.tail
  handed : (swaps programs schedule).filterMap Swap.taken? = (after programs schedule).memory.retired
  continues : ∀ moment, moment <:+ schedule →
    (after programs moment).memory.Continues (after programs schedule).memory
  written : ∀ t n,
    (after programs (t :: schedule)).memory.next n = (after programs schedule).memory.next n ∨
      ∃ node, (after programs schedule).noted swapped? t.thread = some (.link n node) ∧
        (after programs schedule).memory.next n = none ∧
        (after programs (t :: schedule)).memory.next n = some node
  successor : ∀ i head tail next,
    (after programs schedule).label i = some (.takeCheck head tail next) → head ≠ tail → next ≠ none
  safe : ∀ o, (after programs schedule).answer? o ≠ some .crashed

/-- Whatever the programs and the schedule, the nodes form one chain without a cycle in the order in
which they were linked. A successor is written at most once and only where there was none, head and
tail only move forward, the head never overtakes the tail and the tail never lags by more than one
node. So no dequeue follows a successor that is not there, and the nodes that dequeues retire, each
once, stand before head and tail. -/
theorem queue_chain_grows (programs : List (List Call)) (schedule : List (Turn Unit)) :
    Intact programs schedule where
  chained := chained_after programs schedule
  links := (ledger_after programs schedule).links
  handed := (ledger_after programs schedule).handed
  continues _ suffix := continues_after programs suffix
  written t n := (turned_after programs t schedule).next (represents_after programs schedule) n
  successor _ _ _ _ here apart last := apart ((knows_after here).1.2.2 last)
  safe := not_crashed programs schedule

end Runs

end SharedMemory.MichaelScottQueue
