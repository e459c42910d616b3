import SharedMemory.Proofs.AttemptLaw
import SharedMemory.Proofs.Schedule
import SharedMemory.TreiberStack

/-!
# The lock-free stack keeps the law of attempts

The nodes linked from the head carry the values of the stack, top first. A node that is not linked
yet belongs to the one thread that holds its item, and only the owner changes its link; an address
that a popper has read is nobody's, so the link behind it stays what it was.
-/
namespace SharedMemory.TreiberStack

open AttemptStack

/-- The nodes met from a link on. -/
def Chain (m : Memory) : Option Nat → List Nat → Prop
  | link, [] => link = none
  | link, node :: nodes => link = some node ∧ node < m.nodes.size ∧ Chain m (m.next node) nodes

def node? : Phase Item Label → Option Nat
  | .holding item | .pushing item _ => some item.node
  | _ => none

structure Carries (m : Memory) (item : Item) : Prop where
  allocated : item.node < m.nodes.size
  value : m.value item.node = item.value

/-- A node that no thread has to itself. -/
structure Public (phases : Nat → Phase Item Label) (m : Memory) (node : Nat) : Prop where
  allocated : node < m.nodes.size
  nobody : ∀ i, node? (phases i) ≠ some node

def Stands (phases : Nat → Phase Item Label) (m : Memory) : Phase Item Label → Prop
  | .idle | .popping .popLoad => True
  | .holding item => Carries m item
  | .pushing item (.pushLoad node) | .pushing item (.pushLink node _) =>
    Carries m item ∧ node = item.node
  | .pushing item (.pushSwing node seen) => Carries m item ∧ node = item.node ∧ m.next node = seen
  | .popping (.popNext seen) => Public phases m seen
  | .popping (.popSwing seen next) => Public phases m seen ∧ m.next seen = next
  | _ => False

/-- The nodes from the head on carry the values, and no thread has one of them to itself. -/
structure Holds (phases : Nat → Phase Item Label) (m : Memory) (values : List Value)
    (nodes : List Nat) : Prop where
  chain : Chain m m.head nodes
  values : nodes.map m.value = values
  nobody : ∀ i node, node? (phases i) = some node → node ∉ nodes

structure Good (phases : Nat → Phase Item Label) (m : Memory) (values : List Value) : Prop where
  holds : ∃ nodes, Holds phases m values nodes
  apart : ∀ i j node, node? (phases i) = some node → node? (phases j) = some node → i = j
  stands : ∀ i, Stands phases m (phases i)

section Chain

variable {m m' : Memory} {link : Option Nat} {nodes : List Nat}

theorem Chain.allocated (h : Chain m link nodes) : ∀ node ∈ nodes, node < m.nodes.size := by
  induction nodes generalizing link with
  | nil => simp
  | cons node nodes ih =>
    intro n hn
    rcases List.mem_cons.mp hn with same | hn
    · rw [same]
      exact h.2.1
    · exact ih h.2.2 n hn

/-- A chain stays while the links of its nodes do. -/
theorem Chain.frame (h : Chain m link nodes) (size : m.nodes.size ≤ m'.nodes.size)
    (next : ∀ node ∈ nodes, m'.next node = m.next node) : Chain m' link nodes := by
  induction nodes generalizing link with
  | nil => exact h
  | cons node nodes ih =>
    obtain ⟨first, allocated, rest⟩ := h
    refine ⟨first, Nat.lt_of_lt_of_le allocated size, ?_⟩
    rw [next node List.mem_cons_self]
    apply ih rest
    exact fun n hn => next n (List.mem_cons_of_mem _ hn)

end Chain

section Good

variable {phases : Nat → Phase Item Label} {m m' : Memory} {values values' : List Value} {i : Nat}
  {p : Phase Item Label} {item : Item}

theorem Good.carries (h : Good phases m values) {node : Nat} (hn : node? (phases i) = some node) :
    ∃ item, item.node = node ∧ Carries m item := by
  have stands := h.stands i
  revert hn stands
  generalize phases i = q
  intro hn stands
  cases q with
  | idle => cases hn
  | popping => cases hn
  | holding item =>
    cases hn
    exact ⟨item, rfl, stands⟩
  | pushing item l =>
    cases hn
    cases l with
    | pushLoad | pushLink | pushSwing => exact ⟨item, rfl, stands.1⟩
    | _ => exact absurd stands id

/-- Where a thread stands, it stands on: its own node keeps its link, and so does what is nobody's. -/
theorem Stands.carry {phases' : Nat → Phase Item Label} {q : Phase Item Label}
    (h : Stands phases m q) (carries : ∀ item, Carries m item → Carries m' item)
    (next : ∀ n < m.nodes.size, node? q = some n → m'.next n = m.next n)
    (visible : ∀ n, Public phases m n → Public phases' m' n ∧ m'.next n = m.next n) :
    Stands phases' m' q := by
  cases q with
  | idle => trivial
  | holding item => exact carries item h
  | pushing item l =>
    cases l with
    | pushLoad | pushLink => exact ⟨carries item h.1, h.2⟩
    | pushSwing node seen =>
      obtain ⟨own, same, behind⟩ := h
      refine ⟨carries item own, same, ?_⟩
      rw [next node (same ▸ own.allocated) (congrArg some same.symm)]
      exact behind
    | _ => exact absurd h id
  | popping l =>
    cases l with
    | popLoad => trivial
    | popNext seen => exact (visible seen h).1
    | popSwing seen link =>
      obtain ⟨seen_public, behind⟩ := h
      obtain ⟨seen_public', same⟩ := visible seen seen_public
      exact ⟨seen_public', same.trans behind⟩
    | _ => exact absurd h id

/-- A turn of thread `i` that changes at most the link behind its own node. -/
theorem Good.advance (h : Good phases m values) (size : m.nodes.size ≤ m'.nodes.size)
    (value : ∀ n < m.nodes.size, m'.value n = m.value n)
    (next : ∀ n < m.nodes.size, node? (phases i) ≠ some n → m'.next n = m.next n)
    (node : ∀ n, node? p = some n → node? (phases i) = some n ∨ m.nodes.size ≤ n)
    (own : Stands (Function.update phases i p) m' p)
    (holds : ∃ nodes, Holds (Function.update phases i p) m' values' nodes) :
    Good (Function.update phases i p) m' values' := by
  have foreign : ∀ j n, j ≠ i → node? (phases j) = some n → node? (phases i) ≠ some n :=
    fun j n hj hn hi => hj (h.apart j i n hn hi)
  have carries : ∀ item, Carries m item → Carries m' item := by
    intro item carries
    exact ⟨Nat.lt_of_lt_of_le carries.allocated size,
      (value _ carries.allocated).trans carries.value⟩
  have fresh : ∀ j n, j ≠ i → node? (phases j) = some n → node? p ≠ some n := by
    intro j n hj hn hp
    rcases node n hp with mine | beyond
    · exact foreign j n hj hn mine
    · obtain ⟨item, same, carries⟩ := h.carries hn
      have allocated := carries.allocated
      omega
  have visible : ∀ n, Public phases m n →
      Public (Function.update phases i p) m' n ∧ m'.next n = m.next n := by
    intro n ⟨allocated, nobody⟩
    refine ⟨⟨Nat.lt_of_lt_of_le allocated size, ?_⟩, next n allocated (nobody i)⟩
    apply (Function.forall_update_iff phases fun _ q => node? q ≠ some n).mpr
    refine ⟨?_, fun j _ => nobody j⟩
    intro hn
    rcases node n hn with mine | beyond
    · exact nobody i mine
    · omega
  refine ⟨holds, ?_, ?_⟩
  · exact owner_update (fun q n => node? q = some n) h.apart fresh
  · apply (Function.forall_update_iff phases fun _ q =>
      Stands (Function.update phases i p) m' q).mpr
    refine ⟨own, ?_⟩
    intro j hj
    apply (h.stands j).carry carries _ visible
    exact fun n hn mine => next n hn (foreign j n hj mine)

theorem Holds.keep {nodes : List Nat} (h : Holds phases m values nodes)
    (size : m.nodes.size ≤ m'.nodes.size) (head : m'.head = m.head)
    (value : ∀ n < m.nodes.size, m'.value n = m.value n)
    (next : ∀ n < m.nodes.size, node? (phases i) ≠ some n → m'.next n = m.next n)
    (node : ∀ n, node? p = some n → node? (phases i) = some n ∨ m.nodes.size ≤ n) :
    Holds (Function.update phases i p) m' values nodes := by
  have allocated := h.chain.allocated
  constructor
  · rw [head]
    apply h.chain.frame size
    intro n hn
    apply next n (allocated n hn)
    intro mine
    exact h.nobody i n mine hn
  · rw [← h.values]
    exact List.map_congr_left fun n hn => value n (allocated n hn)
  · apply (Function.forall_update_iff phases fun _ q => ∀ n, node? q = some n → n ∉ nodes).mpr
    refine ⟨?_, fun j _ => h.nobody j⟩
    intro n hn mem
    rcases node n hn with mine | beyond
    · exact h.nobody i n mine mem
    · have inside := allocated n mem
      omega

theorem Good.look (h : Good phases m values) (nodes : m'.nodes = m.nodes) (head : m'.head = m.head)
    (node : ∀ n, node? p = some n → node? (phases i) = some n)
    (own : Stands (Function.update phases i p) m' p) :
    Good (Function.update phases i p) m' values := by
  obtain ⟨linked, holds⟩ := h.holds
  have size : m.nodes.size ≤ m'.nodes.size := Nat.le_of_eq (by rw [nodes])
  have value : ∀ n < m.nodes.size, m'.value n = m.value n := by
    intro n _
    rw [Memory.value, Memory.value, nodes]
  have next : ∀ n < m.nodes.size, node? (phases i) ≠ some n → m'.next n = m.next n := by
    intro n _ _
    rw [Memory.next, Memory.next, nodes]
  have node' := fun n hn => Or.inl (b := m.nodes.size ≤ n) (node n hn)
  exact h.advance size value next node' own ⟨linked, holds.keep size head value next node'⟩

theorem Public.update {node : Nat} (h : Public phases m node) (unowned : node? p = none) :
    Public (Function.update phases i p) m node := by
  refine ⟨h.allocated, ?_⟩
  apply (Function.forall_update_iff phases fun _ q => node? q ≠ some node).mpr
  refine ⟨?_, fun j _ => h.nobody j⟩
  rw [unowned]
  nofun

theorem value_modify (m : Memory) (node : Nat) (link : Option Nat) (n : Nat) :
    ({ m with nodes := m.nodes.modify node fun x => { x with next := link } } : Memory).value n =
      m.value n := by
  simp only [Memory.value, Array.getElem?_modify]
  split
  · cases m.nodes[n]? <;> rfl
  · rfl

theorem good_start : Good (fun _ => .idle) {} [] where
  holds := ⟨[], rfl, rfl, by simp⟩
  apart i j node h := by cases h
  stands _ := trivial

theorem Good.prepare (h : Good phases m values) (v : Value) :
    Good (Function.update phases i (.holding (prepare v m).2)) (prepare v m).1 values := by
  obtain ⟨linked, holds⟩ := h.holds
  have size : m.nodes.size ≤ (TreiberStack.prepare v m).1.nodes.size := by
    simp [TreiberStack.prepare]
  have value : ∀ n < m.nodes.size, (TreiberStack.prepare v m).1.value n = m.value n := by
    intro n hn
    simp [TreiberStack.prepare, Memory.value, Array.getElem?_push, Nat.ne_of_lt hn]
  have next : ∀ n < m.nodes.size, node? (phases i) ≠ some n →
      (TreiberStack.prepare v m).1.next n = m.next n := by
    intro n hn _
    simp [TreiberStack.prepare, Memory.next, Array.getElem?_push, Nat.ne_of_lt hn]
  have node : ∀ n, node? (.holding (TreiberStack.prepare v m).2) = some n →
      node? (phases i) = some n ∨ m.nodes.size ≤ n := by
    intro n hn
    cases hn
    exact .inr (Nat.le_refl _)
  apply h.advance size value next node _ ⟨linked, holds.keep size rfl value next node⟩
  constructor
  · simp [TreiberStack.prepare]
  · simp [TreiberStack.prepare, Memory.value]

theorem Good.pushing {l : Label} (h : Good phases m values) (here : phases i = .pushing item l) :
    ∃ values', Outcome (fun _ => none) (.insert item.value) l values (step l m).2 values' ∧
      Good (Function.update phases i (.afterPush item (step l m).2)) (step l m).1 values' := by
  have stands := h.stands i
  rw [here] at stands
  have same : ∀ n, node? (phases i) = some n ↔ item.node = n := by
    intro n
    rw [here, node?, Option.some_inj]
  cases l with
  | pushLoad node =>
    refine ⟨values, .goes _ rfl, h.look rfl rfl ?_ stands⟩
    exact fun n hn => (same n).mpr (Option.some.inj hn)
  | pushLink node seen =>
    obtain ⟨carries, own⟩ := stands
    subst own
    refine ⟨values, .goes _ rfl, ?_⟩
    obtain ⟨linked, holds⟩ := h.holds
    have size : m.nodes.size ≤ (step (.pushLink item.node seen) m).1.nodes.size := by simp [step]
    have value : ∀ n < m.nodes.size, (step (.pushLink item.node seen) m).1.value n = m.value n :=
      fun n _ => value_modify _ _ _ n
    have next : ∀ n < m.nodes.size, node? (phases i) ≠ some n →
        (step (.pushLink item.node seen) m).1.next n = m.next n := by
      intro n _ other
      rw [Ne, same] at other
      simp [step, Memory.next, Array.getElem?_modify, other]
    have node : ∀ n, node? (.pushing item (.pushSwing item.node seen)) = some n →
        node? (phases i) = some n ∨ m.nodes.size ≤ n :=
      fun n hn => .inl ((same n).mpr (Option.some.inj hn))
    apply h.advance size value next node _ ⟨linked, holds.keep size rfl value next node⟩
    refine ⟨⟨Nat.lt_of_lt_of_le carries.allocated size, ?_⟩, rfl, ?_⟩
    · exact (value _ carries.allocated).trans carries.value
    · simp [step, Memory.next, carries.allocated, Array.getElem_modify]
  | pushSwing node seen =>
    obtain ⟨carries, own, behind⟩ := stands
    obtain ⟨linked, holds⟩ := h.holds
    by_cases met : m.head = seen
    · simp only [step, met, if_true]
      refine ⟨item.value :: values, .serves rfl, ?_⟩
      refine h.advance (Nat.le_refl _) (fun _ _ => rfl) (fun _ _ _ => rfl) ?_ trivial
        ⟨node :: linked, ?_, ?_, ?_⟩
      · intro n hn
        cases hn
      · refine ⟨rfl, own ▸ carries.allocated, ?_⟩
        have rest : Chain { m with head := some node } m.head linked :=
          holds.chain.frame (Nat.le_refl _) fun _ _ => rfl
        rw [met, ← behind] at rest
        exact rest
      · rw [List.map_cons, ← holds.values, ← carries.value, ← own]
        rfl
      · apply (Function.forall_update_iff phases fun _ q =>
          ∀ n, node? q = some n → n ∉ node :: linked).mpr
        refine ⟨nofun, ?_⟩
        intro j hji n hj
        rw [List.mem_cons, not_or]
        refine ⟨?_, holds.nobody j n hj⟩
        intro taken
        apply hji
        apply h.apart j i n hj
        rw [same, taken, own]
    · simp only [step, met, if_false]
      refine ⟨values, .refused rfl, h.look rfl rfl ?_ carries⟩
      exact fun n hn => (same n).mpr (Option.some.inj hn)
  | _ => exact absurd stands id

theorem Good.popping {l : Label} (h : Good phases m values) (here : phases i = .popping l) :
    ∃ values', Outcome (fun _ => none) .remove l values (step l m).2 values' ∧
      Good (Function.update phases i (.afterPop (step l m).2)) (step l m).1 values' := by
  have stands := h.stands i
  rw [here] at stands
  obtain ⟨linked, holds⟩ := h.holds
  cases l with
  | popLoad =>
    cases head : m.head with
    | none =>
      have empty : values = [] := by
        rw [← holds.values]
        have chain := holds.chain
        rw [head] at chain
        cases linked with
        | nil => rfl
        | cons node nodes => cases chain.1
      subst empty
      simp only [step, head]
      exact ⟨[], .serves rfl, h.look rfl rfl nofun trivial⟩
    | some seen =>
      simp only [step, head]
      refine ⟨values, .goes _ rfl, h.look rfl rfl nofun (Public.update ⟨?_, ?_⟩ rfl)⟩
      · have chain := holds.chain
        rw [head] at chain
        cases linked with
        | nil => cases chain
        | cons node nodes =>
          cases chain.1
          exact chain.2.1
      · intro j hj
        have chain := holds.chain
        rw [head] at chain
        cases linked with
        | nil => cases chain
        | cons node nodes =>
          cases chain.1
          exact holds.nobody j _ hj List.mem_cons_self
  | popNext seen =>
    exact ⟨values, .goes _ rfl, h.look rfl rfl nofun ⟨Public.update stands rfl, rfl⟩⟩
  | popSwing seen next =>
    by_cases met : m.head = some seen
    · have chain := holds.chain
      rw [met] at chain
      cases linked with
      | nil => cases chain
      | cons node nodes =>
        obtain ⟨first, allocated, rest⟩ := chain
        cases first
        obtain ⟨_, behind⟩ := stands
        rw [behind] at rest
        have split : values = m.value seen :: nodes.map m.value := holds.values.symm
        subst split
        simp only [step, met, if_true]
        refine ⟨nodes.map m.value, .serves rfl, ?_⟩
        refine h.advance (Nat.le_refl _) (fun _ _ => rfl) (fun _ _ _ => rfl) ?_ trivial
          ⟨nodes, rest.frame (Nat.le_refl _) fun _ _ => rfl, rfl, ?_⟩
        · intro n hn
          cases hn
        · apply (Function.forall_update_iff phases fun _ q =>
            ∀ n, node? q = some n → n ∉ nodes).mpr
          refine ⟨nofun, ?_⟩
          intro j _ n hj mem
          exact holds.nobody j n hj (List.mem_cons_of_mem _ mem)
    · simp only [step, met, if_false]
      exact ⟨values, .refused rfl, h.look rfl rfl nofun trivial⟩
  | _ => exact absurd stands id

/-- A push takes effect when it swings the head to its node; a pop when it swings the head past its
node, or when it loads the head and finds none. -/
def law : Law attempts where
  start := {}
  fixed _ := none
  Good := Good
  good_start := good_start
  prepare v h _ := ⟨rfl, h.prepare v⟩
  discard h _ := h.look rfl rfl nofun trivial
  push {phases m values i item} h here := by
    have carries := h.stands i
    rw [here] at carries
    refine ⟨rfl, h.look rfl rfl ?_ ⟨carries, rfl⟩⟩
    intro n hn
    rw [here]
    exact hn
  pop h _ := ⟨rfl, h.look rfl rfl nofun trivial⟩
  pushing h here := h.pushing here
  popping h here := h.popping here

end Good

end SharedMemory.TreiberStack
