import SharedMemory.Proofs.OrderPerProducer
import SharedMemory.Proofs.QueueLinearization

/-!
# What a client may expect of the lock-free queue

An insert takes effect when its node is linked, and a removal that finds a value when it swings the
head. A removal that finds nothing has no such step: by the time it knows that its view was current,
values may have come in. What a thread knows of the chain is the same whichever calls it makes and in
whichever order, so the queue serves any clients, and its consumers find each producer's values in order.
-/
namespace SharedMemory.MichaelScottQueue

open Container (Outcome callAfter)

def callOf : Request → Call
  | .insert v => .enqueue v
  | .remove => .dequeue

def reply : Answer → Reply
  | .dequeued found => .ok found
  | .crashed => .error .nullNode
  | _ => .ok none

def fixed : Label → Option (Option Value)
  | .putSwing _ _ => some none
  | _ => none

/-- What holds of a thread at a label inside a call. -/
structure Sits (m : Memory) (s : Shape) (r : Request) (l : Label) : Prop where
  knows : Knows m s l
  owns : ∀ node, l.owns = some node → Private m s node
  called : callAt m l = callOf r

structure Good (calls : Nat → Option (Request × Label)) (m : Memory) (s : Shape) : Prop where
  chain : Represents m s
  sits : ∀ i r l, calls i = some (r, l) → Sits m s r l
  apart : ∀ i j r r' k l node, calls i = some (r, k) → calls j = some (r', l) → k.owns = some node →
    l.owns = some node → i = j

variable {calls : Nat → Option (Request × Label)} {m m' : Memory} {s s' : Shape} {i : Nat} {r : Request}
  {l l' : Label}

theorem Sits.carry (h : Sits m s r l) (chain : Represents m s) (grows : Grows m s m' s')
    (owns : ∀ node, l.owns = some node → Private m' s' node) : Sits m' s' r l where
  knows := grows.knows h.knows
  owns := owns
  called := by rw [callAt_grows chain grows h.knows h.owns, h.called]

/-- One thread moves, and may come to hold the node it held before or a new one. -/
theorem Good.advance (h : Good calls m s) {new : Option (Request × Label)} (chain : Represents m' s')
    (grows : Grows m s m' s')
    (owns : ∀ j r l node, j ≠ i → calls j = some (r, l) → l.owns = some node → Private m' s' node)
    (own : ∀ r l, new = some (r, l) → Sits m' s' r l)
    (apart : ∀ r l node, new = some (r, l) → l.owns = some node →
      ∀ j r' k, j ≠ i → calls j = some (r', k) → k.owns ≠ some node) :
    Good (Function.update calls i new) m' s' := by
  refine ⟨chain, ?_, ?_⟩
  · apply (Function.forall_update_iff calls fun _ call => ∀ r l, call = some (r, l) → Sits m' s' r l).mpr
    exact ⟨own, fun j other r l hj => (h.sits j r l hj).carry h.chain grows
      fun node => owns j r l node other hj⟩
  · intro j j' r r' k l node hk hl hkn hln
    by_cases hj : j = i <;> by_cases hj' : j' = i
    · exact hj.trans hj'.symm
    · rw [hj, Function.update_self] at hk
      rw [Function.update_of_ne hj'] at hl
      exact absurd hln (apart r k node hk hkn j' r' l hj' hl)
    · rw [hj', Function.update_self] at hl
      rw [Function.update_of_ne hj] at hk
      exact absurd hkn (apart r' l node hl hln j r k hj hk)
    · rw [Function.update_of_ne hj] at hk
      rw [Function.update_of_ne hj'] at hl
      exact h.apart j j' r r' k l node hk hl hkn hln

def Steps (calls : Nat → Option (Request × Label)) (m : Memory) (s : Shape) (i : Nat) (r : Request)
    (l : Label) (stepped : Memory × Status Label Answer) : Prop :=
  ∃ s', Outcome .fifo fixed r l (contents m s) (stepped.2.mapAnswer reply) (contents stepped.1 s') ∧
    Good (Function.update calls i (callAfter r (stepped.2.mapAnswer reply))) stepped.1 s'

theorem Silent.fixed_eq (silent : Silent l l') : fixed l' = none ∧ fixed l = none := by
  constructor
  · cases l' with
    | putSwing node tail => exact absurd rfl (silent.pending' node tail)
    | _ => rfl
  · cases l with
    | putSwing node tail => exact absurd rfl (silent.pending node tail)
    | _ => rfl

/-- A step by which the call does not take effect: no node changes, and at most the tail moves on. -/
theorem Good.silent (h : Good calls m s) (here : calls i = some (r, l)) {tail : Nat}
    (nodes : m'.nodes = m.nodes) (chain : Represents m' { s with tail }) (ht : s.tail ≤ tail)
    (silent : Silent l l') (knows : Knows m' { s with tail } l') :
    Steps calls m s i r l (m', .running l') := by
  have sits := h.sits i r l here
  obtain ⟨pending', pending⟩ := silent.fixed_eq
  have same : contents m' { s with tail } = contents m s := contents_of_nodes nodes _
  refine ⟨{ s with tail }, ?_, ?_⟩
  · rw [same]
    exact .goes l' (pending'.trans pending.symm)
  · refine h.advance chain (.of_nodes nodes (Nat.le_refl _) ht) ?_ ?_ ?_
    · exact fun j r' k node _ hk hn => ((h.sits j r' k hk).owns node hn).of_nodes nodes _ _
    · rintro _ _ ⟨⟩
      refine ⟨knows, fun node hn => ?_, ?_⟩
      · exact (sits.owns node (silent.owns node hn)).of_nodes nodes _ _
      · rw [callAt_of_nodes nodes, silent.called, sits.called]
    · rintro _ _ node ⟨⟩ hn j r' k hj hk hkn
      exact hj (h.apart j i r' r k l node hk here hkn (silent.owns node hn))

theorem Good.read (h : Good calls m s) (here : calls i = some (r, l)) (silent : Silent l l')
    (knows : Knows m s l') : Steps calls m s i r l (m, .running l') :=
  h.silent here rfl h.chain (Nat.le_refl _) silent knows

theorem Good.help (h : Good calls m s) (here : calls i = some (r, l)) {seen next : Nat}
    (adjacent : s.Adjacent seen next) (silent : Silent l l') (knows : ∀ m s, Knows m s l') :
    Steps calls m s i r l (m.swingTail seen next, .running l') := by
  obtain ⟨tail, ht, chain⟩ := h.chain.swingTail adjacent
  exact h.silent here (nodes_swingTail _ _ _) chain ht silent (knows _ _)

theorem Good.leave (h : Good calls m s) {head tail : Nat} (nodes : m'.nodes = m.nodes)
    (chain : Represents m' { s with head, tail }) (hh : s.head ≤ head) (ht : s.tail ≤ tail) :
    Good (Function.update calls i none) m' { s with head, tail } := by
  refine h.advance chain (.of_nodes nodes hh ht) ?_ nofun nofun
  exact fun j r' k node _ hk hn => ((h.sits j r' k hk).owns node hn).of_nodes nodes _ _

theorem Good.allocate (h : Good calls m s) {v : Value} (here : calls i = some (r, .allocate v)) :
    Steps calls m s i r (.allocate v) (step (.allocate v) m) := by
  have sits := h.sits i r _ here
  refine ⟨s, ?_, ?_⟩
  · rw [step, h.chain.contents_allocate]
    exact .goes _ rfl
  · refine h.advance (h.chain.allocate v) (.allocate _ _ _) ?_ ?_ ?_
    · exact fun j r' k node _ hk hn => ((h.sits j r' k hk).owns node hn).allocate v
    · rintro _ _ ⟨⟩
      refine ⟨trivial, ?_, ?_⟩
      · rintro _ ⟨⟩
        exact h.chain.fresh v
      · rw [← sits.called]
        simp [callAt, Memory.value, step]
    · rintro _ _ _ ⟨⟩ ⟨⟩ j r' k _ hk hkn
      exact Nat.lt_irrefl _ ((h.sits j r' k hk).owns _ hkn).allocated

/-- The link by which an insert takes effect. -/
theorem Good.link (h : Good calls m s) {node tail : Nat} (here : calls i = some (r, .putLink node tail))
    (last : m.next tail = none) :
    Steps calls m s i r (.putLink node tail) (m.link tail node, .running (.putSwing node tail)) := by
  have sits := h.sits i r _ here
  have mine : Private m s node := sits.owns node rfl
  obtain ⟨k, hk, htail⟩ := sits.knows
  have hmem := List.mem_of_getElem? htail
  have hsize := h.chain.allocated tail hmem
  have chain := h.chain.link ⟨k, hk, htail⟩ last mine
  have grows := Grows.link m s tail node
  cases r with
  | remove => cases sits.called
  | insert v =>
    obtain rfl : m.value node = v := by
      have called := sits.called
      cases called
      rfl
    refine ⟨{ s with linked := s.linked ++ [node] }, ?_, ?_⟩
    · rw [h.chain.contents_link]
      exact .fixes _ rfl rfl
    · refine h.advance chain grows ?_ ?_ ?_
      · intro j r' l other hj hl hn
        refine ((h.sits j r' l hl).owns other hn).link ?_ hmem hsize
        rintro rfl
        exact hj (h.apart j i r' _ l _ other hl here hn rfl)
      · rintro _ _ ⟨⟩
        refine ⟨?_, nofun, ?_⟩
        · apply chain.adjacent_of_next (grows.passed hk ⟨k, Nat.le_refl _, htail⟩)
          rw [Memory.next_link hsize, if_pos rfl]
        · simp [callAt, callOf]
      · rintro _ _ other ⟨⟩ ⟨⟩

theorem Good.swing (h : Good calls m s) {node tail : Nat}
    (here : calls i = some (r, .putSwing node tail)) :
    Steps calls m s i r (.putSwing node tail) (m.swingTail tail node, .returned .enqueued) := by
  have sits := h.sits i r _ here
  obtain ⟨place, hp, chain⟩ := h.chain.swingTail (show s.Adjacent tail node from sits.knows)
  have nodes := nodes_swingTail m tail node
  have same : contents (m.swingTail tail node) { s with tail := place } = contents m s :=
    contents_of_nodes nodes _
  refine ⟨{ s with tail := place }, ?_, h.leave nodes chain (Nat.le_refl _) hp⟩
  rw [same]
  exact .done none rfl

/-- The head is swung by a removal, which takes effect and answers at once. -/
theorem Good.take (h : Good calls m s) {next : Nat} {v : Value}
    (here : calls i = some (r, .takeSwing m.head next v)) :
    Steps calls m s i r (.takeSwing m.head next v)
      ({ m with head := next, retired := m.head :: m.retired }, .returned (.dequeued (some v))) := by
  have sits := h.sits i r _ here
  obtain ⟨⟨j, hj, hn, hle⟩, -, value⟩ := sits.knows
  have chain := h.chain.take hj hn hle (m.head :: m.retired)
  obtain rfl : s.head = j := h.chain.place_unique h.chain.head hj
  have found : contents m s = v :: contents m { s with head := s.head + 1 } := by
    rw [value]
    exact h.chain.contents_take ((h.chain.next h.chain.head).trans hn)
  cases r with
  | insert v => cases sits.called
  | remove =>
    refine ⟨{ s with head := s.head + 1 }, ?_, h.leave rfl chain (Nat.le_succ _) (Nat.le_refl _)⟩
    rw [found]
    exact .serves rfl

/-- An insert that has read the tail and its successor looks whether the tail is still the same. -/
theorem Good.putCheck (h : Good calls m s) {node tail : Nat} {next : Option Nat}
    (here : calls i = some (r, .putCheck node tail next)) :
    Steps calls m s i r (.putCheck node tail next) (step (.putCheck node tail next) m) := by
  have sits := h.sits i r _ here
  cases next with
  | none =>
    change Steps _ _ _ _ _ _ (m, .running (if m.tail = tail then .putLink node tail else .putTail node))
    split
    · exact h.read here {} sits.knows.1
    · exact h.read here {} trivial
  | some next =>
    change Steps _ _ _ _ _ _
      (m, .running (if m.tail = tail then .putHelp node tail next else .putTail node))
    split
    · exact h.read here {} (sits.knows.2 next rfl)
    · exact h.read here {} trivial

/-- A removal that has read the head, the tail and the successor looks whether the head is still the
same. If it has seen no successor, its view was of an empty queue. -/
theorem Good.takeCheck (h : Good calls m s) {head tail : Nat} {next : Option Nat}
    (here : calls i = some (r, .takeCheck head tail next)) :
    Steps calls m s i r (.takeCheck head tail next) (step (.takeCheck head tail next) m) := by
  have sits := h.sits i r _ here
  have chain := h.chain
  by_cases current : m.head = head
  · cases next with
    | none =>
      have same : head = tail := sits.knows.2.2 rfl
      change Steps _ _ _ _ _ _ (m, if m.head = head then
        (if head = tail then .returned (.dequeued none) else .returned .crashed)
          else .running .takeHead)
      rw [if_pos current, if_pos same]
      refine ⟨s, .misses rfl ?_, h.leave rfl chain (Nat.le_refl _) (Nat.le_refl _)⟩
      cases r with
      | insert v => cases sits.called
      | remove => rfl
    | some next =>
      have adjacent := sits.knows.2.1 next rfl
      change Steps _ _ _ _ _ _ (m, if m.head = head then
        (if head = tail then .running (.takeHelp tail next)
          else .running (.takeSwing head next (m.value next))) else .running .takeHead)
      rw [if_pos current]
      split
      · next same => exact h.read here {} (same ▸ adjacent)
      · next differ =>
        refine h.read here {} ⟨chain.step_of_window sits.knows.1 adjacent differ, ?_, rfl⟩
        obtain ⟨k, _, hk⟩ := adjacent
        exact chain.allocated next (List.mem_of_getElem? hk)
  · change Steps _ _ _ _ _ _
      (m, if m.head = head then afterCheck m head tail next else .running .takeHead)
    rw [if_neg current]
    exact h.read here {} trivial

theorem Good.step (h : Good calls m s) (here : calls i = some (r, l)) :
    Steps calls m s i r l (step l m) := by
  have sits := h.sits i r l here
  have chain := h.chain
  cases l with
  | allocate v => exact h.allocate here
  | putTail node => exact h.read here {} chain.passed_tail
  | putNext node tail =>
    exact h.read here {} ⟨sits.knows, fun n hn => chain.adjacent_of_next sits.knows hn⟩
  | putCheck node tail next => exact h.putCheck here
  | putHelp node tail next => exact h.help here sits.knows {} fun _ _ => trivial
  | putLink node tail =>
    change Steps _ _ _ _ _ _ (if m.next tail = none then _ else (m, .running (.putTail node)))
    split
    · next last => exact h.link here last
    · exact h.read here {} trivial
  | putSwing node tail => exact h.swing here
  | takeHead => exact h.read here {} chain.passed_head
  | takeTail head => exact h.read here {} (chain.window sits.knows)
  | takeNext head tail =>
    have passed : s.Passed s.head head := by
      obtain ⟨j, _, hj, _, hle, _⟩ := sits.knows
      exact ⟨j, hle, hj⟩
    exact h.read here {} ⟨sits.knows, fun n hn => chain.adjacent_of_next passed hn,
      chain.window_of_last sits.knows⟩
  | takeCheck head tail next => exact h.takeCheck here
  | takeHelp tail next => exact h.help here sits.knows {} fun _ _ => trivial
  | takeSwing head next v =>
    change Steps _ _ _ _ _ _ (if m.head = head then _ else (m, .running .takeHead))
    split
    · next current =>
      subst current
      exact h.take here
    · exact h.read here {} trivial
  | lookHead | lookNext =>
    cases r with
    | insert | remove => cases sits.called

theorem Good.enter (h : Good calls m s) (r : Request) :
    Good (Function.update calls i (some (r, algorithm.enter (callOf r)))) m s := by
  have fresh : (algorithm.enter (callOf r)).owns = none := by cases r <;> rfl
  refine h.advance h.chain (.refl _ _) ?_ ?_ ?_
  · exact fun j r' k node _ hk hn => (h.sits j r' k hk).owns node hn
  · rintro _ _ ⟨⟩
    refine ⟨?_, ?_, ?_⟩
    · cases r <;> trivial
    · rw [fresh]
      exact nofun
    · cases r <;> rfl
  · rintro _ _ node ⟨⟩ owned
    rw [fresh] at owned
    cases owned

/-- The lock-free queue serves inserts and removals first in, first out. -/
def containerLaw : Container.Law .fifo Container.michaelScottQueue where
  contents := Memory.toList
  fixed := fixed
  Good calls m := ∃ s, Good calls m s
  enter {calls m i} r good _ := by
    obtain ⟨s, good⟩ := good
    have same : Container.michaelScottQueue.enter r = algorithm.enter (callOf r) := by cases r <;> rfl
    rw [same]
    refine ⟨?_, s, good.enter r⟩
    cases r <;> rfl
  step {calls m i r l} choice good here := by
    obtain ⟨s, good⟩ := good
    obtain ⟨s', outcome, good'⟩ := good.step here
    have status : (Container.michaelScottQueue.step choice l m).status =
        (step l m).2.mapAnswer reply := by
      change (step l m).2.mapAnswer _ = _
      congr 1
    rw [status, good.chain.toList_eq]
    change Outcome _ _ _ _ _ _ (Memory.toList (step l m).1) ∧ _
    rw [good'.chain.toList_eq]
    exact ⟨outcome, s', good'⟩

theorem containerLaw_fresh : containerLaw.Fresh {} where
  good := ⟨⟨[0], 0, 0⟩, Represents.start, nofun, nofun⟩
  empty := rfl

/-- The consumers of the lock-free queue find each producer's values in order, and it ends empty. -/
theorem producers_in_order {producers perProducer : UInt64}
    (fits : producers.toNat * perProducer.toNat < 2 ^ 63) :
    let plan := ProducerOrder.Plan.ofSizes producers perProducer
    (∀ schedule,
      let now := (ProducerOrder.crew plan Container.michaelScottQueue {}).after
        (ProducerOrder.algorithm plan Container.michaelScottQueue) schedule
      ProducerOrder.Accepts plan now.memory.container.toList
        (ProducerOrder.inserts plan Container.michaelScottQueue {} schedule) now) ∧
    ∀ choose idle panic,
      (Workload.producerOrder Container.michaelScottQueue choose idle producers perProducer {}).2 ≠
        some (.error panic) :=
  have sized := ProducerOrder.Plan.sized_ofSizes fits
  ⟨ProducerOrder.accepts_after sized containerLaw_fresh,
    ProducerOrder.producerOrder_accepts sized containerLaw_fresh⟩

end SharedMemory.MichaelScottQueue
