import SharedMemory.Proofs.LockFreedom
import SharedMemory.Proofs.QueueGrowth

/-!
# The lock-free queue makes progress

What a thread has read in an iteration of its loop is `fresh` until some swap succeeds. A fresh
iteration ends with a swap or an answer, so each swap can spoil one iteration of every thread, and an
enqueue or a dequeue that moves alone has at most a lagging tail to help before it succeeds.
-/
namespace SharedMemory.MichaelScottQueue

/-- The beginning of the loop of an enqueue or of a dequeue. -/
def begins : Label → Bool
  | .putTail _ | .takeHead => true
  | _ => false

/-- What the thread has read since its loop began is still so. -/
def fresh (m : Memory) : Label → Bool
  | .putNext _ tail | .putHelp _ tail _ | .takeHelp tail _ => m.tail = tail
  | .putCheck _ tail next => m.tail = tail ∧ m.next tail = next
  | .putLink _ tail => m.next tail = none
  | .takeTail head | .takeSwing head _ _ => m.head = head
  | .takeNext head tail | .takeCheck head tail _ => m.head = head ∧ m.tail = tail
  | .allocate _ | .putTail _ | .putSwing _ _ | .takeHead | .lookHead | .lookNext _ => true

def Label.distance : Label → Nat
  | .allocate _ => 6
  | .putTail _ | .takeHead => 5
  | .putNext _ _ | .takeTail _ => 4
  | .putCheck _ _ _ | .takeNext _ _ => 3
  | .putHelp _ _ _ | .putLink _ _ | .takeCheck _ _ _ | .lookHead => 2
  | .putSwing _ _ | .takeHelp _ _ | .takeSwing _ _ _ | .lookNext _ => 1

/-- An iteration that is not fresh has another one to come. -/
def weight (m : Memory) (l : Label) : Nat := l.distance + if fresh m l then 0 else 5

section Weight

variable {m : Memory} {l l' : Label}

theorem weight_le (m : Memory) (l : Label) : weight m l ≤ 11 := by
  have : l.distance ≤ 6 := by cases l <;> simp [Label.distance]
  unfold weight
  split <;> omega

theorem weight_begins (m : Memory) (l : Label) (h : begins l) : weight m l = 5 := by
  cases l with
  | putTail | takeHead => rfl
  | _ => cases h

theorem fresh_push (m : Memory) (v : Value) (l : Label) :
    fresh { m with nodes := m.nodes.push ⟨v, none⟩ } l = fresh m l := by
  cases l with
  | putCheck | putLink => simp only [fresh, next_push]
  | _ => rfl

theorem fresh_still (quiet : swapped? m l = none) (k : Label) : fresh (step l m).1 k = fresh m k := by
  rcases step_memory l m with ⟨w, made, _⟩ | ⟨_, same | ⟨v, pushed⟩⟩
  · cases quiet.symm.trans made
  · rw [same]
  · rw [pushed, fresh_push]

/-- A step leads on towards the end of the iteration or back to its beginning. -/
theorem begins_or_distance_lt (goes : (step l m).2 = .running l') :
    begins l' ∨ l'.distance < l.distance := by
  cases l with
  | putCheck node tail next =>
    simp only [step, Status.running.injEq] at goes
    subst goes
    split
    · cases next <;> exact .inr (by simp [Label.distance])
    · exact .inl rfl
  | putLink node tail =>
    simp only [step] at goes
    split at goes <;> cases goes
    · exact .inr (by simp [Label.distance])
    · exact .inl rfl
  | takeCheck head tail next =>
    simp only [step] at goes
    split at goes
    · cases next with
      | none =>
        simp only [afterCheck] at goes
        split at goes <;> cases goes
      | some next =>
        simp only [afterCheck] at goes
        split at goes <;> cases goes <;> exact .inr (by simp [Label.distance])
    · cases goes
      exact .inl rfl
  | takeSwing head next v =>
    simp only [step] at goes
    split at goes <;> cases goes
    exact .inl rfl
  | putHelp | takeHelp =>
    cases goes
    exact .inl rfl
  | allocate | putTail | putNext | takeHead | takeTail | takeNext | lookHead =>
    cases goes
    exact .inr (by simp [Label.distance])
  | putSwing | lookNext => cases goes

/-- A fresh iteration leads on, and stays fresh, until it swaps. -/
theorem fresh_step (here : fresh m l) (quiet : swapped? m l = none)
    (goes : (step l m).2 = .running l') : fresh m l' ∧ l'.distance < l.distance := by
  cases l with
  | putHelp | takeHelp | putLink | takeSwing =>
    simp only [fresh, decide_eq_true_eq] at here
    simp [swapped?, Label.swap?, Swap.Meets, here] at quiet
  | putNext node tail =>
    cases goes
    simpa [fresh, Label.distance] using here
  | putCheck node tail next =>
    simp only [fresh, decide_eq_true_eq] at here
    obtain ⟨rfl, rfl⟩ := here
    simp only [step, if_true, Status.running.injEq] at goes
    subst goes
    split <;> simp_all [fresh, Label.distance]
  | takeTail head =>
    cases goes
    simpa [fresh, Label.distance] using here
  | takeNext head tail =>
    cases goes
    simpa [fresh, Label.distance] using here
  | takeCheck head tail next =>
    simp only [fresh, decide_eq_true_eq] at here
    obtain ⟨rfl, rfl⟩ := here
    simp only [step, if_true] at goes
    cases next with
    | none =>
      simp only [afterCheck] at goes
      split at goes <;> cases goes
    | some next =>
      simp only [afterCheck] at goes
      split at goes <;> cases goes <;> simp [fresh, Label.distance]
  | allocate | putTail | takeHead | lookHead =>
    cases goes
    simp [fresh, Label.distance]
  | putSwing | lookNext => cases goes

theorem weight_falls (quiet : swapped? m l = none) (goes : (step l m).2 = .running l') :
    weight m l' < weight m l := by
  unfold weight
  by_cases here : fresh m l
  · obtain ⟨here', less⟩ := fresh_step here quiet goes
    rw [if_pos here, if_pos here']
    exact less
  · rw [if_neg here]
    rcases begins_or_distance_lt goes with again | less
    · have full := weight_begins m l' again
      have : 0 < l.distance := by cases l <;> simp [Label.distance]
      rw [weight] at full
      omega
    · split <;> omega

def ranking : Ranking algorithm swapped? begins where
  weight := weight
  most := 11
  full := 5
  weight_le := weight_le
  weight_begins := weight_begins
  still quiet _ k := congrArg (fun b : Bool => k.distance + if b then 0 else 5) (fresh_still quiet k)
  falls quiet _ _ goes := weight_falls quiet goes

end Weight

section Counts

variable {programs : List (List Call)} {schedule : List (Turn Unit)}

def Call.enqueues : Call → Bool
  | .enqueue _ => true
  | .dequeue | .isEmpty => false

def Call.dequeues : Call → Bool
  | .dequeue => true
  | .enqueue _ | .isEmpty => false

def Swap.links : Swap → Bool
  | .link _ _ => true
  | .swing _ _ | .take _ _ => false

theorem called_after {i : Nat} {l : Label} (here : (after programs schedule).label i = some l) :
    ((after programs schedule).current i).call? programs =
      some (callAt (after programs schedule).memory l) := by
  obtain ⟨s, order, h⟩ := exists_invariant programs schedule
  exact (h.stands i l here).called

theorem label_of_link {m : Memory} {l : Label} {w : Swap} (swap : swapped? m l = some w)
    (links : w.links) : ∃ node tail, l = .putLink node tail ∧ m.next tail = none := by
  obtain ⟨tried, meets⟩ := swapped?_eq_some.mp swap
  cases l with
  | putLink node tail =>
    cases tried
    exact ⟨node, tail, rfl, meets⟩
  | putHelp | takeHelp | putSwing | takeSwing =>
    cases tried
    cases links
  | _ => cases tried

theorem label_of_take {m : Memory} {l : Label} {w : Swap} (swap : swapped? m l = some w)
    (moves : w.movesHead) : ∃ head next v, l = .takeSwing head next v ∧ m.head = head := by
  obtain ⟨tried, meets⟩ := swapped?_eq_some.mp swap
  cases l with
  | takeSwing head next v =>
    cases tried
    exact ⟨head, next, v, rfl, meets⟩
  | putHelp | takeHelp | putSwing | putLink =>
    cases tried
    cases moves
  | _ => cases tried

/-- Only enqueues link, each of them once. -/
theorem countP_links_le (programs : List (List Call)) (schedule : List (Turn Unit)) :
    (swaps programs schedule).countP Swap.links ≤ programs.flatten.countP Call.enqueues := by
  refine countP_notes_le (Linked {}) ?_ ?_ ?_ schedule
  · rintro m l w swap links ⟨node, tail, rfl⟩
    obtain ⟨_, _, here, _⟩ := label_of_link swap links
    cases here
  · rintro schedule i l choice l' _ (⟨node, tail, rfl⟩ | ⟨w, swap, links⟩) goes
    · cases goes
    · obtain ⟨node, tail, rfl, last⟩ := label_of_link swap links
      change (step (.putLink node tail) _).2 = _ at goes
      simp only [step, last, if_true, Status.running.injEq] at goes
      exact ⟨node, tail, goes.symm⟩
  · intro schedule i l w here swap links
    obtain ⟨node, tail, rfl, _⟩ := label_of_link swap links
    exact ⟨_, called_after here, rfl⟩

/-- Only dequeues move the head, and return. -/
theorem countP_movesHead_le (programs : List (List Call)) (schedule : List (Turn Unit)) :
    (swaps programs schedule).countP Swap.movesHead ≤ programs.flatten.countP Call.dequeues := by
  refine countP_notes_le (fun _ => False) (fun _ _ _ _ _ h => h) ?_ ?_ schedule
  · rintro schedule i l choice l' _ (impossible | ⟨w, swap, moves⟩) goes
    · exact impossible
    · obtain ⟨head, next, v, rfl, here⟩ := label_of_take swap moves
      change (step (.takeSwing head next v) _).2 = _ at goes
      simp [step, here] at goes
  · intro schedule i l w here swap moves
    obtain ⟨head, next, v, rfl, _⟩ := label_of_take swap moves
    exact ⟨_, called_after here, rfl⟩

/-- The tail is moved on once for each link at most. -/
theorem countP_movesTail_le (programs : List (List Call)) (schedule : List (Turn Unit)) :
    (swaps programs schedule).countP Swap.movesTail ≤ (swaps programs schedule).countP Swap.links := by
  have ledger := ledger_after programs schedule
  have chain := represents_after programs schedule
  have links : (swaps programs schedule).countP Swap.links =
      (after programs schedule).memory.shape.linked.length - 1 := by
    have := congrArg List.length ledger.links
    rw [List.length_zip, List.length_tail, List.filterMap_reverse, List.length_reverse] at this
    have linked : (fun w : Swap => w.linked?.isSome) = Swap.links := by
      funext w
      cases w <;> rfl
    rw [List.length_filterMap_eq_countP, linked] at this
    omega
  have tail := (List.getElem?_eq_some_iff.mp chain.tail).1
  rw [links, ledger.tails]
  omega

theorem length_eq_countP (ws : List Swap) :
    ws.length = ws.countP Swap.links + ws.countP Swap.movesTail + ws.countP Swap.movesHead := by
  induction ws with
  | nil => rfl
  | cons w ws ih => cases w <;> simp [List.countP_cons, Swap.links, Swap.movesTail, Swap.movesHead] <;> omega

end Counts

section Alone

variable {choose : Label → Memory → Unit} {m : Memory} {s : Shape} {n k : Nat}

theorem Represents.next_of_lag (chain : Represents m s) (lag : m.next m.tail = some n) :
    m.next n = none := by
  have place := (chain.next chain.tail).symm.trans lag
  rw [chain.next place, List.getElem?_eq_none_iff]
  exact chain.lag

theorem Represents.head_ne_next (chain : Represents m s) (next : m.next m.head = some n) :
    m.head ≠ n := by
  rintro rfl
  have := chain.place_unique chain.head ((chain.next chain.head).symm.trans next)
  omega

/-- An enqueue that finds the tail at the last node links its own behind it. -/
theorem settles_put_last (node : Nat) (last : m.next m.tail = none) (enough : 1 ≤ k) :
    Settles algorithm begins choose k m (.putTail node) := by
  refine .step (j := 0) (.putNext node m.tail) rfl ?_ enough
  refine .step (j := 0) (.putCheck node m.tail none) ?_ ?_ (Nat.le_refl _)
  · simp [algorithm, step, last]
  refine .step (j := 0) (.putLink node m.tail) ?_ ?_ (Nat.le_refl _)
  · simp [algorithm, step]
  refine .step (j := 0) (.putSwing node m.tail) ?_ ?_ (Nat.le_refl _)
  · simp [algorithm, step, last]
  exact .last rfl (Nat.le_refl _)

/-- One that finds the tail lagging helps it to the last node first. -/
theorem settles_put (chain : Represents m s) (node : Nat) :
    Settles algorithm begins choose 2 m (.putTail node) := by
  cases lag : m.next m.tail with
  | none => exact settles_put_last node lag (Nat.le_succ 1)
  | some n =>
    refine .step (j := 1) (.putNext node m.tail) rfl ?_ (Nat.le_refl _)
    refine .step (j := 1) (.putCheck node m.tail (some n)) ?_ ?_ (Nat.le_refl _)
    · simp [algorithm, step, lag]
    refine .step (j := 1) (.putHelp node m.tail n) ?_ ?_ (Nat.le_refl _)
    · simp [algorithm, step]
    refine .step (j := 1) (.putTail node) rfl ?_ (Nat.le_refl _)
    have helped : m.swingTail m.tail n = { m with tail := n } := by simp [Memory.swingTail]
    simp only [algorithm, step, helped]
    exact settles_put_last node (chain.next_of_lag lag) (Nat.le_refl 1)

theorem settles_take_empty (empty : m.next m.head = none) (enough : 1 ≤ k) :
    Settles algorithm begins choose k m .takeHead := by
  refine .step (j := 0) (.takeTail m.head) rfl ?_ enough
  refine .step (j := 0) (.takeNext m.head m.tail) rfl ?_ (Nat.le_refl _)
  refine .step (j := 0) (.takeCheck m.head m.tail none) ?_ ?_ (Nat.le_refl _)
  · simp [algorithm, step, empty]
  by_cases same : m.head = m.tail
  · exact .last (a := .dequeued none) (by simp [algorithm, step, afterCheck, same]) (Nat.le_refl _)
  · exact .last (a := .crashed) (by simp [algorithm, step, afterCheck, same]) (Nat.le_refl _)

/-- A dequeue that finds the tail apart from the head swings the head. -/
theorem settles_take_apart (next : m.next m.head = some n) (apart : m.head ≠ m.tail) (enough : 1 ≤ k) :
    Settles algorithm begins choose k m .takeHead := by
  refine .step (j := 0) (.takeTail m.head) rfl ?_ enough
  refine .step (j := 0) (.takeNext m.head m.tail) rfl ?_ (Nat.le_refl _)
  refine .step (j := 0) (.takeCheck m.head m.tail (some n)) ?_ ?_ (Nat.le_refl _)
  · simp [algorithm, step, next]
  refine .step (j := 0) (.takeSwing m.head n (m.value n)) ?_ ?_ (Nat.le_refl _)
  · simp [algorithm, step, afterCheck, apart]
  exact .last (a := .dequeued (some (m.value n))) (by simp [algorithm, step]) (Nat.le_refl _)

theorem settles_take (chain : Represents m s) : Settles algorithm begins choose 2 m .takeHead := by
  cases next : m.next m.head with
  | none => exact settles_take_empty next (Nat.le_succ 1)
  | some n =>
    by_cases same : m.head = m.tail
    swap
    · exact settles_take_apart next same (Nat.le_succ 1)
    refine .step (j := 1) (.takeTail m.head) rfl ?_ (Nat.le_refl _)
    refine .step (j := 1) (.takeNext m.head m.tail) rfl ?_ (Nat.le_refl _)
    refine .step (j := 1) (.takeCheck m.head m.tail (some n)) ?_ ?_ (Nat.le_refl _)
    · simp [algorithm, step, next]
    refine .step (j := 1) (.takeHelp m.tail n) ?_ ?_ (Nat.le_refl _)
    · simp [algorithm, step, afterCheck, same]
    refine .step (j := 1) .takeHead rfl ?_ (Nat.le_refl _)
    have helped : m.swingTail m.tail n = { m with tail := n } := by simp [Memory.swingTail]
    simp only [algorithm, step, helped]
    exact settles_take_apart next (chain.head_ne_next next) (Nat.le_refl 1)

theorem settles_putHelp (chain : Represents m s) {node tail next : Nat}
    (adjacent : s.Adjacent tail next) :
    Settles algorithm begins choose 2 m (.putHelp node tail next) := by
  obtain ⟨_, _, helped⟩ := chain.swingTail adjacent
  exact .step (.putTail node) rfl (settles_put helped node) (Nat.le_refl _)

theorem settles_putLink (chain : Represents m s) {node tail : Nat} :
    Settles algorithm begins choose 2 m (.putLink node tail) := by
  by_cases last : m.next tail = none
  · refine .step (j := 0) (.putSwing node tail) ?_ (.last rfl (Nat.le_refl 0)) (Nat.zero_le _)
    simp [algorithm, step, last]
  · refine .step (j := 2) (.putTail node) ?_ ?_ (Nat.le_refl _)
    · simp [algorithm, step, last]
    · simpa only [algorithm, step, last, if_false] using settles_put chain node

theorem settles_takeHelp (chain : Represents m s) {tail next : Nat} (adjacent : s.Adjacent tail next) :
    Settles algorithm begins choose 2 m (.takeHelp tail next) := by
  obtain ⟨_, _, helped⟩ := chain.swingTail adjacent
  exact .step .takeHead rfl (settles_take helped) (Nat.le_refl _)

theorem settles_takeSwing (chain : Represents m s) {head next : Nat} {v : Value} :
    Settles algorithm begins choose 2 m (.takeSwing head next v) := by
  by_cases here : m.head = head
  · refine .last (a := .dequeued (some v)) ?_ (Nat.zero_le _)
    simp [algorithm, step, here]
  · refine .step (j := 2) .takeHead ?_ ?_ (Nat.le_refl _)
    · simp [algorithm, step, here]
    · simpa only [algorithm, step, here, if_false] using settles_take chain

/-- An enqueue that read the tail before ends its present iteration and begins two more at most. -/
theorem settles_putCheck (chain : Represents m s) {node tail : Nat} {next : Option Nat}
    (knows : Knows m s (.putCheck node tail next)) :
    Settles algorithm begins choose 2 m (.putCheck node tail next) := by
  by_cases here : m.tail = tail
  swap
  · refine .step (j := 2) (.putTail node) ?_ (settles_put chain node) (Nat.le_refl _)
    simp [algorithm, step, here]
  cases next with
  | none =>
    refine .step (j := 2) (.putLink node tail) ?_ (settles_putLink chain) (Nat.le_refl _)
    simp [algorithm, step, here]
  | some next =>
    refine .step (j := 2) (.putHelp node tail next) ?_ (settles_putHelp chain (knows.2 next rfl))
      (Nat.le_refl _)
    simp [algorithm, step, here]

/-- A dequeue that read head and tail before ends its present iteration and begins two more at most. -/
theorem settles_takeCheck (chain : Represents m s) {head tail : Nat} {next : Option Nat}
    (knows : Knows m s (.takeCheck head tail next)) :
    Settles algorithm begins choose 2 m (.takeCheck head tail next) := by
  by_cases here : m.head = head
  swap
  · refine .step (j := 2) .takeHead ?_ (settles_take chain) (Nat.le_refl _)
    simp [algorithm, step, here]
  cases next with
  | none =>
    obtain rfl : head = tail := knows.2.2 rfl
    exact .last (a := .dequeued none) (by simp [algorithm, step, afterCheck, here]) (Nat.zero_le _)
  | some next =>
    by_cases same : head = tail
    · subst same
      refine .step (j := 2) (.takeHelp head next) ?_
        (settles_takeHelp chain (knows.2.1 next rfl)) (Nat.le_refl _)
      simp [algorithm, step, afterCheck, here]
    · refine .step (j := 2) (.takeSwing head next (m.value next)) ?_ (settles_takeSwing chain)
        (Nat.le_refl _)
      simp [algorithm, step, afterCheck, here, same]

theorem settles_takeNext (chain : Represents m s) {head tail : Nat} (window : s.Window head tail) :
    Settles algorithm begins choose 2 m (.takeNext head tail) := by
  have passed : s.Passed s.head head := by
    obtain ⟨j, _, hj, _, hle, _⟩ := window
    exact ⟨j, hle, hj⟩
  refine .step (j := 2) (.takeCheck head tail (m.next head)) rfl ?_ (Nat.le_refl _)
  refine settles_takeCheck chain ⟨window, fun _ next => chain.adjacent_of_next passed next, ?_⟩
  exact chain.window_of_last window

theorem settles (chain : Represents m s) {l : Label} (knows : Knows m s l) :
    Settles algorithm begins choose 2 m l := by
  cases l with
  | allocate v =>
    exact .step (.putTail m.nodes.size) rfl (settles_put (chain.allocate v) _) (Nat.le_refl _)
  | putTail node => exact settles_put chain node
  | putNext node tail =>
    refine .step (j := 2) (.putCheck node tail (m.next tail)) rfl ?_ (Nat.le_refl _)
    exact settles_putCheck chain ⟨knows, fun _ next => chain.adjacent_of_next knows next⟩
  | putCheck node tail next => exact settles_putCheck chain knows
  | putHelp node tail next => exact settles_putHelp chain knows
  | putLink node tail => exact settles_putLink chain
  | putSwing node tail => exact .last rfl (Nat.zero_le _)
  | takeHead => exact settles_take chain
  | takeTail head =>
    refine .step (j := 2) (.takeNext head m.tail) rfl ?_ (Nat.le_refl _)
    exact settles_takeNext chain (chain.window knows)
  | takeNext head tail => exact settles_takeNext chain knows
  | takeCheck head tail next => exact settles_takeCheck chain knows
  | takeHelp tail next => exact settles_takeHelp chain knows
  | takeSwing head next v => exact settles_takeSwing chain
  | lookHead => exact .step (.lookNext m.head) rfl (.last rfl (Nat.le_refl 0)) (Nat.zero_le _)
  | lookNext head => exact .last rfl (Nat.zero_le _)

end Alone

theorem lockFree (programs : List (List Call)) :
    LockFree algorithm {} swapped? begins 2 programs := by
  refine ranking.lockFree (2 * programs.flatten.countP Call.enqueues +
    programs.flatten.countP Call.dequeues) ?_ ?_
  · intro schedule
    have links := countP_links_le programs schedule
    have tails := countP_movesTail_le programs schedule
    have heads := countP_movesHead_le programs schedule
    calc (swaps programs schedule).length
        = (swaps programs schedule).countP Swap.links + (swaps programs schedule).countP Swap.movesTail +
            (swaps programs schedule).countP Swap.movesHead := length_eq_countP _
      _ ≤ 2 * programs.flatten.countP Call.enqueues + programs.flatten.countP Call.dequeues := by
        omega
  · rintro schedule l (⟨i, here⟩ | ⟨c, rfl⟩) choose
    · exact settles (represents_after programs schedule) (knows_after here).1
    · refine settles (represents_after programs schedule) ?_
      cases c <;> trivial

end SharedMemory.MichaelScottQueue
