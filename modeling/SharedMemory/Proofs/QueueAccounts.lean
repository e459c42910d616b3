import SharedMemory.Proofs.EliminationAccounts

/-!
# The accounts of the lock-free queue

An enqueue gives its node away when it links it, and a dequeue retires the sentinel that it moves the
head past. The nodes that are retired or reachable are those of the chain.
-/
namespace SharedMemory.MichaelScottQueue

def Memory.books (m : Memory) : NodeBooks := ⟨m.nodes.size, m.next, some m.head, m.linked, m.retired, []⟩

def HasNode (v : View Memory Label Answer) (i n : Nat) : Prop := (v.label i).bind Label.owns = some n

section Chain

variable {m m' : Memory} {s s' : Shape} {w? : Option Swap} {ws : List Swap}

theorem Represents.linked_eq (h : Represents m s) : m.linked = s.linked.drop s.head := by
  have size := h.length_le_size
  rw [Memory.linked, ← h.head, h.walk_eq, List.take_of_length_le]
  rw [List.length_drop]
  omega

theorem Represents.frees (h : Represents m s) (k : Nat) :
    Frees m.next s.linked[k]? (s.linked.drop k) := by
  induction left : s.linked.length - k generalizing k with
  | zero =>
    rw [List.drop_eq_nil_of_le (by omega), List.getElem?_eq_none (by omega)]
    exact .done
  | succ n ih =>
    have inside : k < s.linked.length := by omega
    rw [List.drop_eq_getElem_cons inside, List.getElem?_eq_getElem inside]
    refine .free ?_
    rw [h.next (List.getElem?_eq_getElem inside)]
    exact ih (k + 1) (by omega)

theorem Represents.walk (h : Represents m s) : Frees m.books.next m.books.head m.books.reachable := by
  have walk := h.frees s.head
  rwa [h.head, ← h.linked_eq] at walk

theorem Ledger.settled (h : Ledger ws m s) (chain : Represents m s) :
    m.books.settled.Perm s.linked := by
  have parts : m.books.settled = s.linked.drop s.head ++ m.retired := by
    rw [← chain.linked_eq]
    exact List.append_nil _
  rw [parts]
  calc (s.linked.drop s.head ++ m.retired).Perm (m.retired.reverse ++ s.linked.drop s.head) :=
        List.perm_append_comm.trans ((List.reverse_perm _).symm.append_right _)
    _ = s.linked := by rw [h.retired, List.take_append_drop]

/-- The chain grows by the node that is linked. -/
theorem Turned.linked (h : Turned m s w? m' s') :
    s'.linked = s.linked ++ ((w?.bind Swap.linked?).map Prod.snd).toList := by
  cases h with
  | still | allocate => exact (List.append_nil _).symm
  | @swap l w _ _ _ =>
    cases w with
    | link => rfl
    | swing | take => exact (List.append_nil _).symm

end Chain

section Run

variable {programs : List (List Call)} {t : Turn Unit} {earlier schedule : List (Turn Unit)}

/-- A step allocates a node for its thread, links the node of its thread, or leaves the thread with what
it has. -/
theorem owns_step (l : Label) (m : Memory) :
    ((swapped? m l).bind Swap.linked? = none ∧ (step l m).1.nodes.size = m.nodes.size + 1 ∧
        l.owns = none ∧ (step l m).2.label?.bind Label.owns = some m.nodes.size) ∨
      (∃ tail node, swapped? m l = some (.link tail node) ∧
        (step l m).1.nodes.size = m.nodes.size ∧ l.owns = some node ∧
        (step l m).2.label?.bind Label.owns = none) ∨
      ((swapped? m l).bind Swap.linked? = none ∧ (step l m).1.nodes.size = m.nodes.size ∧
        (step l m).2.label?.bind Label.owns = l.owns) := by
  cases l with
  | allocate v => exact .inl ⟨rfl, by simp [step], rfl, rfl⟩
  | putLink node tail =>
    by_cases last : m.next tail = none
    · refine .inr (.inl ⟨tail, node, ?_, ?_, rfl, ?_⟩)
      · simp [swapped?, Label.swap?, Swap.Meets, last]
      · simp [step, last]
      · simp [step, last, Status.label?, Label.owns]
    · refine .inr (.inr ⟨?_, ?_, ?_⟩)
      · simp [swapped?, Label.swap?, Swap.Meets, last]
      · simp [step, last]
      · simp [step, last, Status.label?, Label.owns]
  | putHelp node tail next | putSwing node tail | takeHelp tail next =>
    refine .inr (.inr ⟨?_, ?_, rfl⟩)
    · unfold swapped?
      cases h : Option.filter _ _ with
      | none => rfl
      | some w =>
        cases (Option.filter_eq_some_iff.mp h).1
        rfl
    · exact congrArg Array.size (nodes_swingTail m _ _)
  | takeSwing head next v =>
    by_cases met : m.head = head
    · exact .inr (.inr ⟨by simp [swapped?, Label.swap?, Swap.Meets, met, Swap.linked?],
        by simp [step, met], by simp [step, met, Status.label?, Label.owns]⟩)
    · exact .inr (.inr ⟨by simp [swapped?, Label.swap?, Swap.Meets, met],
        by simp [step, met], by simp [step, met, Status.label?, Label.owns]⟩)
  | putCheck node tail next =>
    refine .inr (.inr ⟨rfl, rfl, ?_⟩)
    simp only [step]
    split
    · cases next <;> rfl
    · rfl
  | takeCheck head tail next =>
    refine .inr (.inr ⟨rfl, rfl, ?_⟩)
    simp only [step, afterCheck]
    repeat' split
    all_goals rfl
  | putTail | putNext | takeHead | takeTail | takeNext | lookHead | lookNext =>
    exact .inr (.inr ⟨rfl, rfl, rfl⟩)

theorem hasNode_update {v v' : View Memory Label Answer} {i : Nat} {new : Option Label}
    (label : v'.label = Function.update v.label i new) (j n : Nat) :
    HasNode v' j n ↔ if j = i then new.bind Label.owns = some n else HasNode v j n := by
  unfold HasNode
  rw [label]
  split
  · next hj => rw [hj, Function.update_self]
  · next hj => rw [Function.update_of_ne hj]

theorem alone_after (programs : List (List Call)) (schedule : List (Turn Unit)) {i j n : Nat}
    (hi : HasNode (after programs schedule) i n) (hj : HasNode (after programs schedule) j n) :
    i = j := by
  obtain ⟨s, _, h⟩ := exists_invariant programs schedule
  obtain ⟨k, at_k, mine⟩ := Option.bind_eq_some_iff.mp hi
  obtain ⟨l, at_l, theirs⟩ := Option.bind_eq_some_iff.mp hj
  exact h.apart i j k l n at_k at_l mine theirs

theorem balanced_turn (balanced : (after programs earlier).memory.books.Balanced
    (HasNode (after programs earlier))) :
    (after programs (t :: earlier)).memory.books.Balanced (HasNode (after programs (t :: earlier))) := by
  have settled : ∀ s, (after programs s).memory.books.settled.Perm (after programs s).memory.chain :=
    fun s => (ledger_after programs s).settled (represents_after programs s)
  have walk := (represents_after programs (t :: earlier)).walk
  have before := settled earlier
  have now := settled (t :: earlier)
  have turned := turned_after programs t earlier
  have alone := fun i j n => alone_after programs earlier (i := i) (j := j) (n := n)
  have turn : (after programs earlier).Step algorithm programs t.thread t.choice
    (after programs (t :: earlier)) := algorithm.viewAfter_cons {} programs t earlier
  generalize after programs (t :: earlier) = v', after programs earlier = v at *
  rcases turn.rest_or_enter_or_take with ⟨_, rfl⟩ | ⟨c, outside, _, rfl⟩ | ⟨l, here, hv⟩
  · exact balanced
  · refine balanced.same walk (.refl _) rfl fun j n => ?_
    rw [hasNode_update rfl]
    split
    · next hj =>
      rw [HasNode, hj, outside]
      cases c <;> simp [algorithm, Label.owns]
    · rfl
  · have label : v'.label = Function.update v.label t.thread (step l v.memory).2.label? := by
      rw [hv, View.label_take]
      rfl
    have memory : v'.memory = (step l v.memory).1 := by
      rw [hv, View.memory_take]
      rfl
    have chain : v'.memory.chain = _ := turned.linked
    rw [View.noted, here, Option.bind_some] at chain
    rw [chain] at now
    rcases owns_step l v.memory with ⟨unlinked, size, empty, new⟩ | ⟨tail, node, links, size, own, gone⟩ |
      ⟨unlinked, size, kept⟩
    · rw [unlinked] at now
      have nothing : ∀ n, ¬ HasNode v t.thread n := by simp [HasNode, here, empty]
      refine balanced.grow t.thread walk ((List.append_nil _ ▸ now).trans before.symm)
        ((congrArg (·.nodes.size) memory).trans size) fun j n => ?_
      rw [hasNode_update label, new]
      by_cases hj : j = t.thread
      · simp [hj, nothing, Memory.books, eq_comm]
      · simp [hj]
    · rw [links] at now
      have mine : HasNode v t.thread node := by simp [HasNode, here, own]
      refine balanced.settle mine walk ?_ ((congrArg (·.nodes.size) memory).trans size) fun j n => ?_
      · exact now.trans (List.perm_append_comm.trans (before.symm.cons node))
      rw [hasNode_update label, gone]
      by_cases hj : j = t.thread
      · have only : HasNode v t.thread n ↔ node = n := by simp [HasNode, here, own]
        simp [hj, only, eq_comm]
      · rw [if_neg hj, iff_self_and]
        rintro theirs rfl
        exact hj (alone j t.thread n theirs mine)
    · rw [unlinked] at now
      refine balanced.same walk ((List.append_nil _ ▸ now).trans before.symm)
        ((congrArg (·.nodes.size) memory).trans size) fun j n => ?_
      rw [hasNode_update label, kept]
      by_cases hj : j = t.thread
      · simp [hj, HasNode, here]
      · simp [hj]

theorem balanced_after (programs : List (List Call)) (schedule : List (Turn Unit)) :
    (after programs schedule).memory.books.Balanced (HasNode (after programs schedule)) := by
  induction schedule with
  | nil =>
    rw [after, algorithm.viewAfter_nil]
    exact .of_nobody (.free .done) (.refl _) fun i n => by simp [HasNode, View.start]
  | cons t earlier ih => exact balanced_turn ih

/-- No node that is reachable from the tail has been retired. -/
theorem ahead_of_tail (programs : List (List Call)) (schedule : List (Turn Unit)) :
    ∃ ahead, Frees (after programs schedule).memory.next (some (after programs schedule).memory.tail) ahead ∧
      ahead.Disjoint (after programs schedule).memory.retired := by
  have chain := represents_after programs schedule
  have ledger := ledger_after programs schedule
  generalize (after programs schedule).memory = m at *
  refine ⟨m.chain.drop (m.place m.tail), chain.tail ▸ chain.frees (m.place m.tail), ?_⟩
  have retired : m.retired.reverse = m.chain.take (m.place m.head) := ledger.retired
  intro n ahead passed
  exact List.disjoint_take_drop chain.distinct chain.order (retired ▸ List.mem_reverse.mpr passed) ahead

theorem accounted (programs : List (List Call)) (schedule : List (Turn Unit)) :
    (after programs schedule).memory.books.Accounted (HasNode (after programs schedule))
      ((swaps programs schedule).filterMap Swap.taken?) [] (∀ i, (after programs schedule).label i = none) :=
  (balanced_after programs schedule).accounted (ledger_after programs schedule).handed.symm rfl
    fun idle i n => by simp [HasNode, idle]

end Run

end SharedMemory.MichaelScottQueue

namespace SharedMemory

/-- In every run of a lock-free container the accounts of the nodes balance: a node is in the hands of
one thread, or can be reached from the head, or has been retired by the swap that unlinked it, or has
been dropped with the request of a push that was eliminated, and never two of these. The walk that drops
the container ends. If all threads have finished, it frees the nodes that were neither retired nor
dropped. -/
theorem every_node_accounted :
    (∀ (programs : List (List (AttemptStack.Call TreiberStack.Item))) (schedule : List (Turn Unit)),
      TreiberStack.owning programs schedule →
        (TreiberStack.after programs schedule).memory.books.Accounted
          (TreiberStack.HasNode programs (TreiberStack.after programs schedule))
          (TreiberStack.attempts.retrying.notes {} programs TreiberStack.unlinked? schedule) []
          (TreiberStack.Finished programs (TreiberStack.after programs schedule))) ∧
    (∀ (config : EliminationConfig) (programs : List (List Request))
      (schedule : List (Turn EliminationArray.Choice)), config.slots ≠ 0 →
        (EliminationStack.overTreiber config programs schedule).memory.inner.books.Accounted
          (TreiberStack.Possesses
            (EliminationStack.phase ∘ (EliminationStack.overTreiber config programs schedule).label))
          ((EliminationStack.algorithm TreiberStack.attempts).notes ⟨{}, .ofConfig config⟩ programs
            EliminationStack.unlinked? schedule)
          ((EliminationStack.algorithm TreiberStack.attempts).notes ⟨{}, .ofConfig config⟩ programs
            EliminationStack.eliminated? schedule)
          (∀ i, (EliminationStack.overTreiber config programs schedule).label i = none)) ∧
    ∀ (programs : List (List MichaelScottQueue.Call)) (schedule : List (Turn Unit)),
      (MichaelScottQueue.after programs schedule).memory.books.Accounted
          (MichaelScottQueue.HasNode (MichaelScottQueue.after programs schedule))
          ((MichaelScottQueue.swaps programs schedule).filterMap MichaelScottQueue.Swap.taken?) []
          (∀ i, (MichaelScottQueue.after programs schedule).label i = none) ∧
        ∃ ahead, Frees (MichaelScottQueue.after programs schedule).memory.next
            (some (MichaelScottQueue.after programs schedule).memory.tail) ahead ∧
          ahead.Disjoint (MichaelScottQueue.after programs schedule).memory.retired :=
  ⟨fun _ schedule own => TreiberStack.accounted schedule own,
    fun _ _ schedule slots => EliminationStack.accounted slots schedule,
    fun programs schedule => ⟨MichaelScottQueue.accounted programs schedule,
      MichaelScottQueue.ahead_of_tail programs schedule⟩⟩

/-- A pop retires node 0 and node 1 is still linked, though an attempt to push failed meanwhile. Beside
the stack, the request with node 1 is dropped, as a pop took its offer. -/
theorem accounted_while_disturbed :
    (∃ freed, Frees (TreiberStack.after TreiberStack.disturbedPrograms TreiberStack.disturbedPush).memory.next
        (some 1) freed ∧ (freed ++ [0] ++ []).Perm [0, 1]) ∧
      ∃ freed, Frees (EliminationStack.overTreiber { slots := 1 }
          [[.insert 7], [.remove], [.insert 5, .insert 6]] EliminationStack.disturbed).memory.inner.next
        (some 2) freed ∧ (freed ++ [] ++ [1]).Perm [0, 1, 2] := by
  constructor
  · refine (every_node_accounted.1 TreiberStack.disturbedPrograms TreiberStack.disturbedPush
      (by decide)).closed fun i => ?_
    match i with
    | 0 | 1 | i + 2 => exact ⟨rfl, rfl⟩
  · refine (every_node_accounted.2.1 { slots := 1 } [[.insert 7], [.remove], [.insert 5, .insert 6]]
      EliminationStack.disturbed (by decide)).closed fun i => ?_
    match i with
    | 0 | 1 | 2 | i + 3 => rfl

end SharedMemory
