import SharedMemory.Proofs.LinearOrder
import SharedMemory.Proofs.QueueChain
import SharedMemory.Store

/-!
# The lock-free queue serves its operations one after another

An enqueue takes effect when its node is linked, a dequeue that finds a value when it swings the
head. A dequeue that finds nothing and a look at the queue take effect at a moment that only a later
step reveals; until then the invariant keeps the place of that moment in the order.
-/
namespace SharedMemory.MichaelScottQueue

def serve : Call → List Value → Answer × List Value
  | .enqueue v, values => (.enqueued, Discipline.fifo.insert v values)
  | .dequeue, values => (.dequeued (Discipline.remove values).1, (Discipline.remove values).2)
  | .isEmpty, values => (.emptiness values.isEmpty, values)

/-- The node is linked, and the tail has still to be swung. -/
def Linked (_ : Memory) (l : Label) : Prop := ∃ node tail, l = .putSwing node tail

def callAt (m : Memory) : Label → Call
  | .allocate v => .enqueue v
  | .putTail node | .putNext node _ | .putCheck node _ _ | .putHelp node _ _ | .putLink node _
  | .putSwing node _ => .enqueue (m.value node)
  | .takeHead | .takeTail _ | .takeNext _ _ | .takeCheck _ _ _ | .takeHelp _ _ | .takeSwing _ _ _ =>
    .dequeue
  | .lookHead | .lookNext _ => .isEmpty

/-- A step inside an operation, by which it does not take effect. -/
structure Silent (l l' : Label) : Prop where
  pending : ∀ node tail, l ≠ .putSwing node tail := by nofun
  pending' : ∀ node tail, l' ≠ .putSwing node tail := by nofun
  owns : ∀ node, l'.owns = some node → l.owns = some node := by exact fun _ owned => owned
  called : ∀ m, callAt m l' = callAt m l := by exact fun _ => rfl

variable {programs : List (List Call)} {t : Turn Unit} {earlier schedule : List (Turn Unit)}
  {order : List (Entry Call Answer)} {m : Memory} {s : Shape}

abbrev Saw (programs : List (List Call)) (schedule : List (Turn Unit))
    (order : List (Entry Call Answer)) (o : Operation) (P : List Value → Prop) : Prop :=
  SharedMemory.Saw serve [] algorithm {} programs schedule order o P

/-- A dequeue that read no successor has seen the queue empty. A look at a sentinel that has a
successor by now has seen the queue non-empty. -/
def Sees (programs : List (List Call)) (schedule : List (Turn Unit)) (m : Memory)
    (order : List (Entry Call Answer)) (o : Operation) : Label → Prop
  | .takeCheck _ _ none => Saw programs schedule order o (· = [])
  | .lookNext head => m.next head ≠ none → Saw programs schedule order o (· ≠ [])
  | _ => True

/-- What holds of a thread that stands at a label inside the operation `o`. -/
structure Stands (programs : List (List Call)) (schedule : List (Turn Unit)) (m : Memory) (s : Shape)
    (order : List (Entry Call Answer)) (o : Operation) (l : Label) : Prop where
  knows : Knows m s l
  owns : ∀ node, l.owns = some node → Private m s node
  called : o.call? programs = some (callAt m l)
  sees : Sees programs schedule m order o l

abbrev after (programs : List (List Call)) (schedule : List (Turn Unit)) : View Memory Label Answer :=
  algorithm.viewAfter {} programs schedule

structure Invariant (programs : List (List Call)) (schedule : List (Turn Unit)) (s : Shape)
    (order : List (Entry Call Answer)) : Prop where
  chain : Represents (after programs schedule).memory s
  stands : ∀ i l, (after programs schedule).label i = some l →
    Stands programs schedule (after programs schedule).memory s order
      ((after programs schedule).current i) l
  apart : ∀ i j k l node, (after programs schedule).label i = some k →
    (after programs schedule).label j = some l → k.owns = some node → l.owns = some node → i = j
  linear : Linearization serve [] algorithm {} programs Linked schedule order
    (contents (after programs schedule).memory s)

theorem Invariant.start (programs : List (List Call)) : Invariant programs [] ⟨[0], 0, 0⟩ [] where
  chain := by simpa [after, View.start] using Represents.start
  stands i l h := by simp [after, View.start] at h
  apart i j k l node h := by simp [after, View.start] at h
  linear := by simpa [after, View.start, contents] using Linearization.nil

theorem begun_current {i : Nat} {l : Label} (here : (after programs earlier).label i = some l) :
    (after programs earlier).Begun ((after programs earlier).current i) :=
  .inr ⟨l, rfl, here⟩

theorem begun_later {o : Operation} (h : (after programs earlier).Begun o) :
    (after programs (t :: earlier)).Begun o :=
  (algorithm.viewAfter_cons {} programs t earlier).begun h

/-- A thread keeps what it has seen if the order does and no node is linked. -/
theorem Sees.carry {m' : Memory} {order' : List (Entry Call Answer)} {o : Operation} {l : Label}
    (h : Sees programs earlier m order o l)
    (carry : ∀ P, Saw programs earlier order o P → Saw programs (t :: earlier) order' o P)
    (next : ∀ node, m'.next node ≠ none → m.next node ≠ none) :
    Sees programs (t :: earlier) m' order' o l := by
  cases l with
  | takeCheck head tail found =>
    cases found with
    | none => exact carry _ h
    | some found => trivial
  | lookNext head => exact fun hn => carry _ (h (next head hn))
  | _ => trivial

theorem callAt_grows {m' : Memory} {s' : Shape} (chain : Represents m s) (grows : Grows m s m' s')
    {l : Label} (knows : Knows m s l) (owns : ∀ node, l.owns = some node → Private m s node) :
    callAt m' l = callAt m l := by
  cases l with
  | putTail node | putNext node _ | putCheck node _ _ | putHelp node _ _ | putLink node _ =>
    simp only [callAt, grows.value node (owns node rfl).allocated]
  | putSwing node tail =>
    obtain ⟨k, _, hnode⟩ := knows
    simp only [callAt, grows.value node (chain.allocated node (List.mem_of_getElem? hnode))]
  | _ => rfl

theorem Stands.carry {m' : Memory} {s' : Shape} {order' : List (Entry Call Answer)} {o : Operation}
    {l : Label} (h : Stands programs earlier m s order o l) (chain : Represents m s)
    (grows : Grows m s m' s') (owns : ∀ node, l.owns = some node → Private m' s' node)
    (sees : Sees programs (t :: earlier) m' order' o l) :
    Stands programs (t :: earlier) m' s' order' o l where
  knows := grows.knows h.knows
  owns := owns
  called := by rw [h.called, callAt_grows chain grows h.knows h.owns]
  sees := sees

/-- The threads that do not move keep all that holds of them; the thread that moves may come to hold
the node it held before or a new one. -/
theorem Invariant.advance (h : Invariant programs earlier s order) {new : Option Label} {s' : Shape}
    {order' : List (Entry Call Answer)} {v' : View Memory Label Answer}
    (hv : after programs (t :: earlier) = v')
    (label : v'.label = Function.update (after programs earlier).label t.thread new)
    (current : ∀ j, v'.label j ≠ none → v'.current j = (after programs earlier).current j)
    (chain : Represents v'.memory s') (grows : Grows (after programs earlier).memory s v'.memory s')
    (owns : ∀ j l node, j ≠ t.thread → (after programs earlier).label j = some l →
      l.owns = some node → Private v'.memory s' node)
    (sees : ∀ j l, j ≠ t.thread → (after programs earlier).label j = some l →
      Sees programs (t :: earlier) v'.memory order' ((after programs earlier).current j) l)
    (own : ∀ l, new = some l → Stands programs (t :: earlier) v'.memory s' order'
      ((after programs earlier).current t.thread) l)
    (apart : ∀ l node, new = some l → l.owns = some node → ∀ j k, j ≠ t.thread →
      (after programs earlier).label j = some k → k.owns ≠ some node)
    (linear : Linearization serve [] algorithm {} programs Linked (t :: earlier) order'
      (contents v'.memory s')) : Invariant programs (t :: earlier) s' order' := by
  have others : ∀ {j l}, j ≠ t.thread → v'.label j = some l →
      (after programs earlier).label j = some l := by
    intro j l hj hl
    rwa [label, Function.update_of_ne hj] at hl
  have mine : ∀ {l}, v'.label t.thread = some l → new = some l := by
    intro l hl
    rwa [label, Function.update_self] at hl
  subst hv
  refine ⟨chain, ?_, ?_, linear⟩
  · intro j l hl
    rw [current j (by simp [hl])]
    by_cases hj : j = t.thread
    · subst hj
      exact own l (mine hl)
    · have hl := others hj hl
      exact (h.stands j l hl).carry h.chain grows (fun node hn => owns j l node hj hl hn)
        (sees j l hj hl)
  · intro j j' k l node hk hl hkn hln
    by_cases hj : j = t.thread
    · subst hj
      by_contra hne
      exact apart k node (mine hk) hkn j' l (Ne.symm hne) (others (Ne.symm hne) hl) hln
    · by_cases hj' : j' = t.thread
      · subst hj'
        exact absurd hkn (apart l node (mine hl) hln j k hj (others hj hk))
      · exact h.apart j j' k l node (others hj hk) (others hj' hl) hkn hln

theorem callAt_of_nodes {m' : Memory} (h : m'.nodes = m.nodes) (l : Label) :
    callAt m' l = callAt m l := by
  cases l <;> simp [callAt, value_of_nodes h]

theorem not_linked {m : Memory} {l : Label} (h : ∀ node tail, l ≠ .putSwing node tail) :
    ¬ Linked m l := fun ⟨node, tail, hl⟩ => h node tail hl

theorem linked_irrelevant {i : Nat} {v : View Memory Label Answer} {m m' : Memory} :
    ∀ j k, j ≠ i → v.label j = some k → (Linked m k ↔ Linked m' k) :=
  fun _ _ _ _ => Iff.rfl

theorem Invariant.rest (h : Invariant programs earlier s order)
    (hv : after programs (t :: earlier) = after programs earlier) :
    Invariant programs (t :: earlier) s order where
  chain := hv ▸ h.chain
  stands i l here := by
    rw [hv] at here ⊢
    have stand := h.stands i l here
    have begun : (after programs (t :: earlier)).Begun ((after programs earlier).current i) :=
      begun_later (begun_current here)
    exact { stand with sees := stand.sees.carry (fun P hP => hP.later begun) fun _ hn => hn }
  apart := hv ▸ h.apart
  linear := by
    rw [hv]
    exact h.linear.unmoved hv

theorem Invariant.enter (h : Invariant programs earlier s order) {c : Call}
    (outside : (after programs earlier).label t.thread = none)
    (next : (callsOf programs t.thread)[((after programs earlier).answers t.thread).length]? = some c)
    (hv : after programs (t :: earlier) =
      (after programs earlier).enter t.thread (algorithm.enter c)) :
    Invariant programs (t :: earlier) s order := by
  have fresh : (algorithm.enter c).owns = none := by cases c <;> rfl
  refine h.advance hv (View.label_enter _ _ _) (fun _ _ => rfl) h.chain (.refl _ _) ?_ ?_ ?_ ?_ ?_
  · exact fun j k node _ hk hn => (h.stands j k hk).owns node hn
  · intro j k _ hk
    refine (h.stands j k hk).sees.carry (fun P hP => ?_) fun _ hn => hn
    exact hP.later (begun_later (begun_current hk))
  · rintro _ ⟨⟩
    refine ⟨?_, ?_, ?_, ?_⟩
    · cases c <;> trivial
    · simp [fresh]
    · rw [Operation.call?, View.current, next]
      cases c <;> rfl
    · cases c <;> trivial
  · rintro _ node ⟨⟩ hn
    simp [fresh] at hn
  · apply h.linear.enter outside _ hv
    rintro ⟨node, tail, hl⟩
    cases c <;> cases hl

/-- A step by which no operation takes effect: no node changes, and at most the tail moves on. -/
theorem Invariant.silent (h : Invariant programs earlier s order) {l l' : Label} {m' : Memory}
    {tail : Nat} (here : (after programs earlier).label t.thread = some l)
    (hv : after programs (t :: earlier) = (after programs earlier).move t.thread m' l' [])
    (nodes : m'.nodes = (after programs earlier).memory.nodes)
    (chain : Represents m' { s with tail }) (ht : s.tail ≤ tail) (silent : Silent l l')
    (knows : Knows m' { s with tail } l')
    (sees : Sees programs (t :: earlier) m' order ((after programs earlier).current t.thread) l') :
    Invariant programs (t :: earlier) { s with tail } order := by
  have grows : Grows (after programs earlier).memory s m' { s with tail } :=
    Grows.of_nodes nodes (Nat.le_refl _) ht
  have stand := h.stands _ _ here
  refine h.advance hv (View.label_move _ _ _ _ _) (fun _ _ => rfl) chain grows ?_ ?_ ?_ ?_ ?_
  · intro j k node _ hk hn
    exact ((h.stands j k hk).owns node hn).of_nodes nodes _ _
  · intro j k _ hk
    refine (h.stands j k hk).sees.carry (fun P hP => ?_) (fun node hn => ?_)
    · exact hP.later (begun_later (begun_current hk))
    · rwa [View.memory_move, next_of_nodes nodes] at hn
  · rintro _ ⟨⟩
    refine ⟨knows, fun node hn => ?_, ?_, sees⟩
    · exact (stand.owns node (silent.owns node hn)).of_nodes nodes _ _
    · rw [stand.called, View.memory_move, callAt_of_nodes nodes, silent.called]
  · rintro _ node ⟨⟩ hn j k hj hk hkn
    exact hj (h.apart j _ k l node hk here hkn (silent.owns node hn))
  · have same : contents m' { s with tail } = contents (after programs earlier).memory s :=
      contents_of_nodes nodes _
    rw [View.memory_move, same]
    apply h.linear.move here linked_irrelevant _ hv
    exact iff_of_false (not_linked silent.pending') (not_linked silent.pending)

theorem Invariant.allocate (h : Invariant programs earlier s order) {v : Value}
    (here : (after programs earlier).label t.thread = some (.allocate v))
    (hv : after programs (t :: earlier) = (after programs earlier).move t.thread
      { (after programs earlier).memory with
        nodes := (after programs earlier).memory.nodes.push ⟨v, none⟩ }
      (.putTail (after programs earlier).memory.nodes.size) []) :
    Invariant programs (t :: earlier) s order := by
  have stand := h.stands _ _ here
  refine h.advance hv (View.label_move _ _ _ _ _) (fun _ _ => rfl) (h.chain.allocate v)
    (.allocate _ _ _) ?_ ?_ ?_ ?_ ?_
  · exact fun j k node _ hk hn => ((h.stands j k hk).owns node hn).allocate _
  · intro j k _ hk
    refine (h.stands j k hk).sees.carry (fun P hP => ?_) (fun node hn => ?_)
    · exact hP.later (begun_later (begun_current hk))
    · rwa [View.memory_move, next_push] at hn
  · rintro _ ⟨⟩
    refine ⟨trivial, ?_, ?_, trivial⟩
    · rintro _ ⟨⟩
      exact h.chain.fresh v
    · rw [stand.called]
      simp [callAt, Memory.value]
  · rintro _ node ⟨⟩ ⟨⟩ j k _ hk hkn
    exact Nat.lt_irrefl _ ((h.stands j k hk).owns _ hkn).allocated
  · rw [View.memory_move, h.chain.contents_allocate]
    apply h.linear.move here linked_irrelevant _ hv
    exact iff_of_false (not_linked (by simp)) (not_linked (by simp))

/-- The link by which an enqueue takes effect. A queue that was empty is empty no longer, which every
look that still holds the sentinel has seen by now. -/
theorem Invariant.link (h : Invariant programs earlier s order) {node tail : Nat}
    (here : (after programs earlier).label t.thread = some (.putLink node tail))
    (last : (after programs earlier).memory.next tail = none)
    (hv : after programs (t :: earlier) = (after programs earlier).move t.thread
      ((after programs earlier).memory.link tail node) (.putSwing node tail) []) :
    Invariant programs (t :: earlier) { s with linked := s.linked ++ [node] }
      (order ++ [⟨(after programs earlier).current t.thread,
        .enqueue ((after programs earlier).memory.value node), .enqueued⟩]) := by
  have stand := h.stands _ _ here
  have mine : Private (after programs earlier).memory s node := stand.owns node rfl
  obtain ⟨k, hk, htail⟩ := stand.knows
  have hmem := List.mem_of_getElem? htail
  have hsize := h.chain.allocated tail hmem
  have present : ¬ (after programs earlier).Covers Linked
      ((after programs earlier).current t.thread) :=
    View.not_covers_current here (not_linked nofun)
  have linear : Linearization serve [] algorithm {} programs Linked (t :: earlier)
      (order ++ [⟨(after programs earlier).current t.thread,
        .enqueue ((after programs earlier).memory.value node), .enqueued⟩])
      (contents ((after programs earlier).memory.link tail node)
        { s with linked := s.linked ++ [node] }) := by
    rw [h.chain.contents_link]
    exact h.linear.commit here linked_irrelevant (not_linked nofun) ⟨node, tail, rfl⟩ stand.called hv
  have chain := h.chain.link ⟨k, hk, htail⟩ last mine
  refine h.advance hv (View.label_move _ _ _ _ _) (fun _ _ => rfl) chain (.link _ _ _ _) ?_ ?_ ?_ ?_
    linear
  · intro j l other hj hl hn
    refine ((h.stands j l hl).owns other hn).link ?_ hmem hsize
    rintro rfl
    exact hj (h.apart j _ l _ other hl here hn rfl)
  · intro j l _ hl
    have carry : ∀ P, Saw programs earlier order ((after programs earlier).current j) P →
        Saw programs (t :: earlier) (order ++ [⟨(after programs earlier).current t.thread,
          .enqueue ((after programs earlier).memory.value node), .enqueued⟩])
          ((after programs earlier).current j) P := by
      intro P hP
      refine (hP.append ?_).later (begun_later (begun_current hl))
      simpa using fun ho => present (.inl ho)
    have sees := (h.stands j l hl).sees
    cases l with
    | takeCheck head tail found =>
      cases found with
      | none => exact carry _ sees
      | some found => trivial
    | lookNext head =>
      intro hn
      rw [View.memory_move, Memory.next_link hsize] at hn
      by_cases heq : head = tail
      · refine .now linear.legal ?_ _
        simp [h.chain.contents_link]
      · rw [if_neg heq] at hn
        exact carry _ (sees hn)
    | _ => trivial
  · rintro _ ⟨⟩
    refine ⟨?_, by simp [Label.owns], ?_, trivial⟩
    · have grows := Grows.link (after programs earlier).memory s tail node
      exact chain.adjacent_of_next (grows.passed hk ⟨k, Nat.le_refl _, htail⟩)
        (by rw [Memory.next_link hsize, if_pos rfl])
    · rw [stand.called]
      simp [callAt]
  · rintro _ other ⟨⟩ ⟨⟩

/-- A step that answers. No node changes, and what other threads have seen carries over to the new
order. -/
theorem Invariant.answered (h : Invariant programs earlier s order) {m' : Memory} {a : Answer}
    {head tail : Nat} {order' : List (Entry Call Answer)}
    (hv : after programs (t :: earlier) = (after programs earlier).answer t.thread m' a [])
    (nodes : m'.nodes = (after programs earlier).memory.nodes)
    (chain : Represents m' { s with head, tail }) (hh : s.head ≤ head) (ht : s.tail ≤ tail)
    (carry : ∀ o P, Saw programs earlier order o P → Saw programs earlier order' o P)
    (linear : Linearization serve [] algorithm {} programs Linked (t :: earlier) order'
      (contents m' { s with head, tail })) :
    Invariant programs (t :: earlier) { s with head, tail } order' := by
  refine h.advance hv (View.label_answer _ _ _ _ _) ?_ chain (.of_nodes nodes hh ht) ?_ ?_ ?_ ?_
    linear
  · intro j hj
    have : j ≠ t.thread := by
      rintro rfl
      simp at hj
    simp [View.current, this]
  · exact fun j k node _ hk hn => ((h.stands j k hk).owns node hn).of_nodes nodes _ _
  · intro j k _ hk
    refine (h.stands j k hk).sees.carry (fun P hP => ?_) fun node hn => ?_
    · exact (carry _ P hP).later (begun_later (begun_current hk))
    · rwa [View.memory_answer, next_of_nodes nodes] at hn
  · rintro _ ⟨⟩
  · rintro _ _ ⟨⟩

theorem Invariant.swing (h : Invariant programs earlier s order) {node tail : Nat}
    (here : (after programs earlier).label t.thread = some (.putSwing node tail))
    (hv : after programs (t :: earlier) = (after programs earlier).answer t.thread
      ((after programs earlier).memory.swingTail tail node) .enqueued []) :
    ∃ s', Invariant programs (t :: earlier) s' order := by
  have stand := h.stands _ _ here
  obtain ⟨place, hp, chain⟩ := h.chain.swingTail (show s.Adjacent tail node from stand.knows)
  have nodes := nodes_swingTail (after programs earlier).memory tail node
  refine ⟨_, h.answered hv nodes chain (Nat.le_refl _) hp (fun _ _ saw => saw) ?_⟩
  have same : contents ((after programs earlier).memory.swingTail tail node) { s with tail := place } =
      contents (after programs earlier).memory s := contents_of_nodes nodes _
  rw [same]
  apply h.linear.report here linked_irrelevant ⟨node, tail, rfl⟩ _ hv
  intro e he ho
  have call : e.call = .enqueue ((after programs earlier).memory.value node) :=
    Option.some.inj ((h.linear.called e he).symm.trans (ho ▸ stand.called))
  obtain ⟨between, answer⟩ := h.linear.legal.answer_of_mem he
  rw [← answer, call]
  rfl

theorem Invariant.take (h : Invariant programs earlier s order) {next : Nat} {v : Value}
    (here : (after programs earlier).label t.thread =
      some (.takeSwing (after programs earlier).memory.head next v))
    (hv : after programs (t :: earlier) = (after programs earlier).answer t.thread
      { (after programs earlier).memory with
        head := next,
        retired := (after programs earlier).memory.head :: (after programs earlier).memory.retired }
      (.dequeued (some v)) []) :
    ∃ s' order', Invariant programs (t :: earlier) s' order' := by
  have stand := h.stands _ _ here
  obtain ⟨⟨j, hj, hn, hle⟩, _, value⟩ := stand.knows
  have chain := h.chain.take hj hn hle
    ((after programs earlier).memory.head :: (after programs earlier).memory.retired)
  obtain rfl : s.head = j := h.chain.place_unique h.chain.head hj
  have found : contents (after programs earlier).memory s =
      v :: contents (after programs earlier).memory { s with head := s.head + 1 } := by
    rw [value]
    exact h.chain.contents_take ((h.chain.next h.chain.head).trans hn)
  have present : ¬ (after programs earlier).Covers Linked
      ((after programs earlier).current t.thread) :=
    View.not_covers_current here (not_linked (by simp))
  have fresh : ∀ o P, Saw programs earlier order o P →
      Saw programs earlier (order ++ [⟨(after programs earlier).current t.thread, .dequeue,
        .dequeued (some v)⟩]) o P := by
    intro o P saw
    exact saw.append (by simpa using fun ho => present (.inl ho))
  refine ⟨_, _, h.answered hv rfl chain (Nat.le_succ _) (Nat.le_refl _) fresh ?_⟩
  have linear := h.linear
  rw [found] at linear
  exact linear.answerNow here linked_irrelevant (not_linked (by simp)) stand.called hv

/-- The answer of an operation that only looked takes the place where it saw what it answers. -/
theorem Invariant.look (h : Invariant programs earlier s order) {l : Label} {a : Answer}
    {P : List Value → Prop} (here : (after programs earlier).label t.thread = some l)
    (pending : ¬ Linked (after programs earlier).memory l)
    (saw : Saw programs earlier order ((after programs earlier).current t.thread) P)
    (looks : ∀ values, P values →
      serve (callAt (after programs earlier).memory l) values = (a, values))
    (hv : after programs (t :: earlier) =
      (after programs earlier).answer t.thread (after programs earlier).memory a []) :
    ∃ order', Invariant programs (t :: earlier) s order' := by
  have stand := h.stands _ _ here
  have present : ¬ (after programs earlier).Covers Linked
      ((after programs earlier).current t.thread) := View.not_covers_current here pending
  obtain ⟨before, rest, between, rfl, legal, looks', linear⟩ := saw.place h.linear looks present
    (fun o => by
      rw [show algorithm.viewAfter {} programs (t :: earlier) = _ from hv]
      exact View.covers_answer linked_irrelevant)
    stand.called (by
      rw [show algorithm.viewAfter {} programs (t :: earlier) = _ from hv]
      exact View.answer?_answer _ _ _ _ _)
  refine ⟨_, h.answered hv rfl h.chain (Nat.le_refl _) (Nat.le_refl _) (fun o P saw => ?_) linear⟩
  exact saw.insert legal looks' fun ho => present (.inl ho)

theorem Invariant.read (h : Invariant programs earlier s order) {l l' : Label}
    (here : (after programs earlier).label t.thread = some l)
    (hv : after programs (t :: earlier) =
      (after programs earlier).move t.thread (after programs earlier).memory l' [])
    (silent : Silent l l') (knows : Knows (after programs earlier).memory s l')
    (sees : Sees programs earlier (after programs earlier).memory order
      ((after programs earlier).current t.thread) l') :
    ∃ s' order', Invariant programs (t :: earlier) s' order' := by
  refine ⟨_, _, h.silent here hv rfl h.chain (Nat.le_refl _) silent knows ?_⟩
  exact sees.carry (fun P hP => hP.later (begun_later (begun_current here))) fun _ hn => hn

theorem Invariant.help (h : Invariant programs earlier s order) {l l' : Label} {seen next : Nat}
    (here : (after programs earlier).label t.thread = some l)
    (hv : after programs (t :: earlier) = (after programs earlier).move t.thread
      ((after programs earlier).memory.swingTail seen next) l' [])
    (adjacent : s.Adjacent seen next) (silent : Silent l l') (knows : ∀ m s, Knows m s l')
    (sees : Sees programs (t :: earlier) ((after programs earlier).memory.swingTail seen next) order
      ((after programs earlier).current t.thread) l') :
    ∃ s' order', Invariant programs (t :: earlier) s' order' := by
  obtain ⟨tail, ht, chain⟩ := h.chain.swingTail adjacent
  exact ⟨_, _, h.silent here hv (nodes_swingTail _ _ _) chain ht silent (knows _ _) sees⟩

theorem Invariant.move (h : Invariant programs earlier s order) {l l' : Label}
    (here : (after programs earlier).label t.thread = some l)
    (goes : (step l (after programs earlier).memory).2 = .running l')
    (hv : after programs (t :: earlier) = (after programs earlier).move t.thread
      (step l (after programs earlier).memory).1 l' []) :
    ∃ s' order', Invariant programs (t :: earlier) s' order' := by
  have stand := h.stands _ _ here
  have chain := h.chain
  cases l with
  | allocate v =>
    cases goes
    exact ⟨_, _, h.allocate here hv⟩
  | putTail node =>
    cases goes
    exact h.read here hv {} chain.passed_tail trivial
  | putNext node tail =>
    cases goes
    refine h.read here hv {} ⟨stand.knows, fun n hn => ?_⟩ trivial
    exact chain.adjacent_of_next stand.knows hn
  | putCheck node tail next =>
    simp only [step] at goes hv
    split at goes
    · cases next with
      | none =>
        cases goes
        exact h.read here hv {} stand.knows.1 trivial
      | some next =>
        cases goes
        exact h.read here hv {} (stand.knows.2 next rfl) trivial
    · cases goes
      exact h.read here hv {} trivial trivial
  | putHelp node tail next =>
    cases goes
    exact h.help here hv stand.knows {} (fun _ _ => trivial) trivial
  | putLink node tail =>
    by_cases last : (after programs earlier).memory.next tail = none
    · simp only [step, last, if_true] at goes hv
      cases goes
      exact ⟨_, _, h.link here last hv⟩
    · simp only [step, last, if_false] at goes hv
      cases goes
      exact h.read here hv {} trivial trivial
  | putSwing node tail => cases goes
  | takeHead =>
    cases goes
    exact h.read here hv {} chain.passed_head trivial
  | takeTail head =>
    cases goes
    exact h.read here hv {} (chain.window stand.knows) trivial
  | takeNext head tail =>
    cases goes
    have passed : s.Passed s.head head := by
      obtain ⟨j, _, hj, _, hle, _⟩ := stand.knows
      exact ⟨j, hle, hj⟩
    refine h.read here hv {} ⟨stand.knows, fun n hn => ?_, ?_⟩ ?_
    · exact chain.adjacent_of_next passed hn
    · exact chain.window_of_last stand.knows
    · cases hn : (after programs earlier).memory.next head with
      | none => exact .now h.linear.legal (chain.contents_of_last passed hn) _
      | some next => trivial
  | takeCheck head tail next =>
    simp only [step] at goes hv
    split at goes
    · cases next with
      | none =>
        simp only [afterCheck] at goes
        split at goes <;> cases goes
      | some next =>
        have adjacent := stand.knows.2.1 next rfl
        simp only [afterCheck] at goes
        split at goes
        · next heq =>
          cases goes
          exact h.read here hv {} (heq ▸ adjacent) trivial
        · next hne =>
          cases goes
          refine h.read here hv {} ⟨?_, ?_, rfl⟩ trivial
          · exact chain.step_of_window stand.knows.1 adjacent hne
          · obtain ⟨k, _, hk⟩ := adjacent
            exact chain.allocated next (List.mem_of_getElem? hk)
    · cases goes
      exact h.read here hv {} trivial trivial
  | takeHelp tail next =>
    cases goes
    exact h.help here hv stand.knows {} (fun _ _ => trivial) trivial
  | takeSwing head next v =>
    simp only [step] at goes hv
    split at goes
    · cases goes
    · next hne =>
      cases goes
      rw [if_neg hne] at hv
      exact h.read here hv {} trivial trivial
  | lookHead =>
    cases goes
    refine h.read here hv {} chain.passed_head ?_
    exact fun hn => .now h.linear.legal (fun empty => hn (chain.contents_eq_nil_iff.mp empty)) _
  | lookNext head => cases goes

theorem Invariant.answer (h : Invariant programs earlier s order) {l : Label} {a : Answer}
    (here : (after programs earlier).label t.thread = some l)
    (gives : (step l (after programs earlier).memory).2 = .returned a)
    (hv : after programs (t :: earlier) = (after programs earlier).answer t.thread
      (step l (after programs earlier).memory).1 a []) :
    ∃ s' order', Invariant programs (t :: earlier) s' order' := by
  have stand := h.stands _ _ here
  have chain := h.chain
  cases l with
  | putSwing node tail =>
    cases gives
    obtain ⟨s', h'⟩ := h.swing here hv
    exact ⟨s', order, h'⟩
  | takeCheck head tail next =>
    simp only [step] at gives hv
    split at gives
    · cases next with
      | none =>
        have same : head = tail := stand.knows.2.2 rfl
        simp only [afterCheck, same, if_true] at gives
        cases gives
        refine ⟨s, h.look here (not_linked nofun) stand.sees ?_ hv⟩
        rintro _ rfl
        rfl
      | some next =>
        simp only [afterCheck] at gives
        split at gives <;> cases gives
    · cases gives
  | takeSwing head next v =>
    simp only [step] at gives hv
    split at gives
    · next heq =>
      subst heq
      cases gives
      rw [if_pos rfl] at hv
      exact h.take here hv
    · cases gives
  | lookNext head =>
    cases gives
    refine ⟨s, ?_⟩
    cases hn : (after programs earlier).memory.next head with
    | none =>
      have saw : Saw programs earlier order ((after programs earlier).current t.thread) (· = []) :=
        .now h.linear.legal (chain.contents_of_last stand.knows hn) _
      refine h.look here (not_linked nofun) saw ?_ hv
      rintro _ rfl
      simp [serve, callAt, hn]
    | some next =>
      refine h.look here (not_linked nofun) (stand.sees (by simp [hn])) ?_ hv
      intro values nonempty
      simp [serve, callAt, hn, nonempty]
  | putCheck node tail next =>
    simp only [step] at gives
    split at gives
    · cases next <;> cases gives
    · cases gives
  | putLink node tail =>
    simp only [step] at gives
    split at gives <;> cases gives
  | _ => cases gives

theorem exists_invariant (programs : List (List Call)) (schedule : List (Turn Unit)) :
    ∃ s order, Invariant programs schedule s order := by
  induction schedule with
  | nil => exact ⟨_, _, .start programs⟩
  | cons t earlier ih =>
    obtain ⟨s, order, h⟩ := ih
    have turn := algorithm.viewAfter_cons {} programs t earlier
    generalize hv : algorithm.viewAfter {} programs (t :: earlier) = v' at turn
    cases turn with
    | rest => exact ⟨s, order, h.rest hv⟩
    | enter c outside next => exact ⟨s, order, h.enter outside next hv⟩
    | move l l' here goes => exact h.move here goes hv
    | answer l a here gives => exact h.answer here gives hv

/-- Whatever the programs and the schedule, the answered operations and the enqueues whose node is
linked stand in one order that respects real time and in which a sequential queue gives every answer;
it ends with the values that are in the chain. A dequeue that swings the head is answered by that very
step. -/
theorem queue_linearizable (programs : List (List Call)) (schedule : List (Turn Unit)) :
    ∃ order, Linearization serve [] algorithm {} programs Linked schedule order
      (after programs schedule).memory.toList := by
  obtain ⟨s, order, h⟩ := exists_invariant programs schedule
  exact ⟨order, h.chain.toList_eq ▸ h.linear⟩

end SharedMemory.MichaelScottQueue
