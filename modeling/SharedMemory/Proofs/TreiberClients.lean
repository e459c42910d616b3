import Mathlib.Data.List.Nodup
import Mathlib.Data.List.Perm.Subperm
import SharedMemory.Proofs.LinearOrder
import SharedMemory.Proofs.TreiberLaw

/-!
# Programs on the lock-free stack

Threads push, pop, look, and attempt single pushes and pops. An item that a thread has prepared, or
has been handed back, stays with it until an attempt pushes it. The law of attempts knows parties that
have one item at most, so a thread is seen as several: one for its pops, and one for each of its items,
named after the item's node.
-/
namespace SharedMemory.TreiberStack

open AttemptStack (Call Position Answer Phase Outcome)

section Chain

variable {m : Memory} {link : Option Nat} {nodes nodes' : List Nat}

theorem Chain.unique (h : Chain m link nodes) (h' : Chain m link nodes') : nodes = nodes' := by
  induction nodes generalizing link nodes' with
  | nil =>
    cases nodes' with
    | nil => rfl
    | cons node' nodes' =>
      have first := h.symm.trans h'.1
      cases first
  | cons node nodes ih =>
    cases nodes' with
    | nil =>
      have first := h'.symm.trans h.1
      cases first
    | cons node' nodes' =>
      obtain rfl : node = node' := Option.some.inj (h.1.symm.trans h'.1)
      rw [ih h.2.2 h'.2.2]

/-- From each of its nodes on, a chain is a shorter one. -/
theorem Chain.from_mem (h : Chain m link nodes) {node : Nat} (mem : node ∈ nodes) :
    ∃ rest, Chain m (some node) rest ∧ rest.length ≤ nodes.length := by
  induction nodes generalizing link with
  | nil => cases mem
  | cons first nodes ih =>
    rcases List.mem_cons.mp mem with rfl | mem
    · exact ⟨node :: nodes, h.1 ▸ h, Nat.le_refl _⟩
    · obtain ⟨rest, chain, short⟩ := ih h.2.2 mem
      exact ⟨rest, chain, Nat.le_succ_of_le short⟩

/-- A chain that ends has no cycle. -/
theorem Chain.nodup (h : Chain m link nodes) : nodes.Nodup := by
  induction nodes generalizing link with
  | nil => exact List.nodup_nil
  | cons node nodes ih =>
    obtain ⟨first, allocated, chain⟩ := h
    refine List.nodup_cons.mpr ⟨fun mem => ?_, ih chain⟩
    obtain ⟨rest, again, short⟩ := chain.from_mem mem
    have whole : Chain m (some node) (node :: nodes) := ⟨rfl, allocated, chain⟩
    have same := again.unique whole
    rw [same, List.length_cons] at short
    omega

theorem Chain.walk_eq (h : Chain m link nodes) {n : Nat} (enough : nodes.length ≤ n) :
    m.walk n link = nodes := by
  induction nodes generalizing link n with
  | nil =>
    obtain rfl : link = none := h
    cases n <;> rfl
  | cons node nodes ih =>
    obtain ⟨rfl, _, chain⟩ := h
    cases n with
    | zero => simp at enough
    | succ n => rw [Memory.walk, ih chain (Nat.le_of_succ_le_succ enough)]

theorem Chain.linked_eq (h : Chain m m.head nodes) : m.linked = nodes := by
  apply h.walk_eq
  have sub : nodes ⊆ List.range m.nodes.size :=
    fun n hn => List.mem_range.mpr (h.allocated n hn)
  simpa using (h.nodup.subperm sub).length_le

theorem Good.toList_eq {phases : Nat → Phase Item Label} {values : List Value}
    (h : Good phases m values) : m.toList = values := by
  obtain ⟨nodes, holds⟩ := h.holds
  rw [Memory.toList, holds.chain.linked_eq, holds.values]

theorem Good.isEmpty_eq {phases : Nat → Phase Item Label} {values : List Value}
    (h : Good phases m values) : values.isEmpty = m.head.isNone := by
  obtain ⟨nodes, holds⟩ := h.holds
  have chain := holds.chain
  rw [← holds.values]
  cases nodes with
  | nil => simp [show m.head = none from chain]
  | cons node nodes => simp [chain.1]

end Chain

def keep (items : List Item) : Call Item × Answer Item → List Item
  | (.prepare _, .prepared item) => item :: items
  | (.attemptPush item, .pushed) => items.erase item
  | _ => items

/-- The items that a thread has prepared and not pushed, between two calls. -/
def hand (calls : List (Call Item)) (answers : List (Answer Item)) : List Item :=
  (calls.zip answers).foldl keep []

/-- A push until served carries its own item. -/
def carried : Option (Position Item Label) → List Item
  | some (.pushing item true _) => [item]
  | _ => []

def callAt : Position Item Label → Call Item
  | .prepare v untilServed => if untilServed then .push v else .prepare v
  | .pushing item untilServed _ => if untilServed then .push item.value else .attemptPush item
  | .popping untilServed _ => if untilServed then .pop else .attemptPop
  | .looking _ => .isEmpty

abbrev after (programs : List (List (Call Item))) (schedule : List (Turn Unit)) :
    View Memory (Position Item Label) (Answer Item) :=
  attempts.retrying.viewAfter {} programs schedule

section Items

variable (programs : List (List (Call Item)))

def items (v : View Memory (Position Item Label) (Answer Item)) (i : Nat) : List Item :=
  carried (v.label i) ++ hand (callsOf programs i) (v.answers i)

/-- Nobody attempts to push an item that it does not have. -/
def owning : List (Turn Unit) → Bool
  | [] => true
  | t :: earlier =>
    let v := after programs earlier
    owning earlier && match (callsOf programs t.thread)[(v.answers t.thread).length]? with
      | some (.attemptPush item) => item ∈ hand (callsOf programs t.thread) (v.answers t.thread)
      | _ => true

def popper (i : Nat) : Nat := 2 * i

/-- The party that has the item with a node. -/
def holder (node : Nat) : Nat := 2 * node + 1

def popPhase : Option (Position Item Label) → Phase Item Label
  | some (.popping _ l) => .popping l
  | _ => .idle

def itemPhase (item : Item) : Option (Position Item Label) → Phase Item Label
  | some (.pushing item' _ l) => if item' = item then .pushing item l else .holding item
  | _ => .holding item

/-- Where the parties stand. No two threads have one item, and no thread has one twice. -/
structure Seated (v : View Memory (Position Item Label) (Answer Item))
    (phases : Nat → Phase Item Label) : Prop where
  pops : ∀ i, phases (popper i) = popPhase (v.label i)
  holds : ∀ i, ∀ item ∈ items programs v i, phases (holder item.node) = itemPhase item (v.label i)
  vacant : ∀ n, v.memory.nodes.size ≤ n → phases (holder n) = .idle
  pushes : ∀ i item untilServed l, v.label i = some (.pushing item untilServed l) →
    item ∈ items programs v i
  distinct : ∀ i, ((items programs v i).map Item.node).Nodup
  apart : ∀ i j n, n ∈ (items programs v i).map Item.node →
    n ∈ (items programs v j).map Item.node → i = j

end Items

section Seated

variable {programs : List (List (Call Item))} {v v' : View Memory (Position Item Label) (Answer Item)}
  {phases phases' : Nat → Phase Item Label} {i : Nat} {item : Item} {p : Phase Item Label}

theorem itemPhase_ne_idle (item : Item) (l : Option (Position Item Label)) :
    itemPhase item l ≠ .idle := by
  unfold itemPhase
  split
  · split <;> nofun
  · nofun

@[simp] theorem itemPhase_pushing (item : Item) (untilServed : Bool) (l : Label) :
    itemPhase item (some (.pushing item untilServed l)) = .pushing item l := by
  simp [itemPhase]

theorem itemPhase_other {item item' : Item} (h : item' ≠ item) (untilServed : Bool) (l : Label) :
    itemPhase item' (some (.pushing item untilServed l)) = .holding item' := by
  simp [itemPhase, Ne.symm h]

theorem holder_ne_popper (n i : Nat) : holder n ≠ popper i := by
  unfold holder popper
  omega

theorem holder_inj {n k : Nat} (h : holder n = holder k) : n = k := by
  unfold holder at h
  omega

theorem popper_inj {i j : Nat} (h : popper i = popper j) : i = j := by
  unfold popper at h
  omega

theorem Seated.allocated (h : Seated programs v phases) (mem : item ∈ items programs v i) :
    item.node < v.memory.nodes.size := by
  by_contra beyond
  have idle := h.vacant item.node (Nat.le_of_not_lt beyond)
  rw [h.holds i item mem] at idle
  exact itemPhase_ne_idle item _ idle

theorem Seated.node_inj (h : Seated programs v phases) {item' : Item} (mem : item ∈ items programs v i)
    (mem' : item' ∈ items programs v i) (same : item'.node = item.node) : item' = item :=
  List.inj_on_of_nodup_map (h.distinct i) mem' mem same

/-- The nodes of another thread are old and not of thread `i`. -/
theorem Seated.foreign (h : Seated programs v phases) {j : Nat} (hj : j ≠ i) {n : Nat}
    (hn : n ∈ (items programs v j).map Item.node) :
    n ∉ (items programs v i).map Item.node ∧ n < v.memory.nodes.size := by
  refine ⟨fun mine => hj (h.apart j i n hn mine), ?_⟩
  obtain ⟨item, mem, rfl⟩ := List.mem_map.mp hn
  exact h.allocated mem

/-- No two threads have the same node after a turn by which thread `i` gets new ones only. -/
theorem Seated.apart_advance (h : Seated programs v phases)
    (same : ∀ j, j ≠ i → items programs v' j = items programs v j)
    (fresh : ∀ n ∈ (items programs v' i).map Item.node,
      n ∈ (items programs v i).map Item.node ∨ v.memory.nodes.size ≤ n)
    {j k n : Nat} (hj : n ∈ (items programs v' j).map Item.node)
    (hk : n ∈ (items programs v' k).map Item.node) : j = k := by
  have mine : ∀ j', j' ≠ i → n ∈ (items programs v' j').map Item.node →
      n ∉ (items programs v' i).map Item.node := by
    intro j' hj' mem mem'
    rw [same j' hj'] at mem
    obtain ⟨other, old⟩ := h.foreign hj' mem
    rcases fresh n mem' with before | beyond
    · exact other before
    · omega
  by_cases hji : j = i
  · by_cases hki : k = i
    · rw [hji, hki]
    · exact absurd (hji ▸ hj) (mine k hki hk)
  · by_cases hki : k = i
    · exact absurd (hki ▸ hk) (mine j hji hj)
    · rw [same j hji] at hj
      rw [same k hki] at hk
      exact h.apart j k n hj hk

/-- A turn of thread `i` that moves no party but the one for its pops and those for its own items, new
ones included. -/
theorem Seated.advance (h : Seated programs v phases)
    (others : ∀ j, j ≠ i → v'.label j = v.label j ∧ v'.answers j = v.answers j)
    (size : v.memory.nodes.size ≤ v'.memory.nodes.size)
    (frame : ∀ s, s ≠ popper i → (∀ n ∈ (items programs v i).map Item.node, s ≠ holder n) →
      (∀ n, v.memory.nodes.size ≤ n → n < v'.memory.nodes.size → s ≠ holder n) → phases' s = phases s)
    (pops : phases' (popper i) = popPhase (v'.label i))
    (holds : ∀ item ∈ items programs v' i, phases' (holder item.node) = itemPhase item (v'.label i))
    (pushes : ∀ item untilServed l, v'.label i = some (.pushing item untilServed l) →
      item ∈ items programs v' i)
    (distinct : ((items programs v' i).map Item.node).Nodup)
    (fresh : ∀ n ∈ (items programs v' i).map Item.node,
      n ∈ (items programs v i).map Item.node ∨ v.memory.nodes.size ≤ n) :
    Seated programs v' phases' := by
  have same : ∀ j, j ≠ i → items programs v' j = items programs v j := by
    intro j hj
    rw [items, items, (others j hj).1, (others j hj).2]
  constructor
  · intro j
    by_cases hj : j = i
    · rw [hj, pops]
    · rw [frame, h.pops, (others j hj).1]
      · exact fun eq => hj (popper_inj eq)
      · exact fun n _ eq => holder_ne_popper n j eq.symm
      · exact fun n _ _ eq => holder_ne_popper n j eq.symm
  · intro j item mem
    by_cases hj : j = i
    · subst hj
      exact holds item mem
    · rw [same j hj] at mem
      obtain ⟨other, old⟩ := h.foreign hj (List.mem_map_of_mem mem)
      rw [frame, h.holds j item mem, (others j hj).1]
      · exact holder_ne_popper _ _
      · intro n hn eq
        exact other (holder_inj eq ▸ hn)
      · intro n hn _ eq
        have := holder_inj eq
        omega
  · intro n beyond
    rw [frame, h.vacant n (Nat.le_trans size beyond)]
    · exact holder_ne_popper _ _
    · intro k hk eq
      obtain ⟨item, mem, rfl⟩ := List.mem_map.mp hk
      have old := h.allocated mem
      have := holder_inj eq
      omega
    · intro k _ hk eq
      have := holder_inj eq
      omega
  · intro j item untilServed l here
    by_cases hj : j = i
    · subst hj
      exact pushes item untilServed l here
    · rw [same j hj]
      exact h.pushes j item untilServed l ((others j hj).1 ▸ here)
  · intro j
    by_cases hj : j = i
    · rw [hj]
      exact distinct
    · rw [same j hj]
      exact h.distinct j
  · exact fun j k n hj hk => h.apart_advance same fresh hj hk

theorem Seated.pop (h : Seated programs v phases)
    (others : ∀ j, j ≠ i → v'.label j = v.label j ∧ v'.answers j = v.answers j)
    (size : v'.memory.nodes.size = v.memory.nodes.size)
    (own : items programs v' i = items programs v i)
    (aside : ∀ item, itemPhase item (v'.label i) = itemPhase item (v.label i))
    (pushes : ∀ item untilServed l, v'.label i ≠ some (.pushing item untilServed l)) :
    Seated programs v' (Function.update phases (popper i) (popPhase (v'.label i))) := by
  apply h.advance others (Nat.le_of_eq size.symm)
  · intro s other _ _
    rw [Function.update_of_ne other]
  · rw [Function.update_self]
  · intro item mem
    rw [own] at mem
    rw [Function.update_of_ne (holder_ne_popper _ _), aside, h.holds i item mem]
  · exact fun item untilServed l here => absurd here (pushes item untilServed l)
  · rw [own]
    exact h.distinct i
  · intro n hn
    exact .inl (own ▸ hn)

theorem Seated.still (h : Seated programs v phases)
    (others : ∀ j, j ≠ i → v'.label j = v.label j ∧ v'.answers j = v.answers j)
    (size : v'.memory.nodes.size = v.memory.nodes.size)
    (own : items programs v' i = items programs v i)
    (pops : popPhase (v'.label i) = popPhase (v.label i))
    (aside : ∀ item, itemPhase item (v'.label i) = itemPhase item (v.label i))
    (pushes : ∀ item untilServed l, v'.label i ≠ some (.pushing item untilServed l)) :
    Seated programs v' phases := by
  have moved := h.pop others size own aside pushes
  rwa [pops, ← h.pops, Function.update_eq_self] at moved

/-- A turn of a thread with one of its items, or with the one that it prepares. -/
theorem Seated.hold (h : Seated programs v phases)
    (others : ∀ j, j ≠ i → v'.label j = v.label j ∧ v'.answers j = v.answers j)
    (size : v.memory.nodes.size ≤ v'.memory.nodes.size)
    (mine : item ∈ items programs v i ∨
      v.memory.nodes.size ≤ item.node ∧ item.node < v'.memory.nodes.size)
    (own : ∀ item' ∈ items programs v' i, item' = item ∨ item' ∈ items programs v i)
    (distinct : ((items programs v' i).map Item.node).Nodup)
    (pops : popPhase (v'.label i) = popPhase (v.label i))
    (now : item ∈ items programs v' i → p = itemPhase item (v'.label i))
    (aside : ∀ item', item' ≠ item →
      itemPhase item' (v'.label i) = itemPhase item' (v.label i))
    (pushes : ∀ item' untilServed l, v'.label i = some (.pushing item' untilServed l) →
      item' ∈ items programs v' i) :
    Seated programs v' (Function.update phases (holder item.node) p) := by
  apply h.advance others size
  · intro s _ other fresh
    rw [Function.update_of_ne]
    rcases mine with mem | ⟨beyond, inside⟩
    · exact other _ (List.mem_map_of_mem mem)
    · exact fresh _ beyond inside
  · rw [Function.update_of_ne (holder_ne_popper _ _).symm, pops, h.pops]
  · intro item' mem'
    by_cases same : item' = item
    · subst same
      rw [Function.update_self, now mem']
    · have before := (own item' mem').resolve_left same
      rw [Function.update_of_ne, aside item' same, h.holds i item' before]
      intro eq
      rcases mine with mem | ⟨beyond, _⟩
      · exact same (h.node_inj mem before (holder_inj eq))
      · have old := h.allocated before
        have := holder_inj eq
        omega
  · exact pushes
  · exact distinct
  · intro n hn
    obtain ⟨item', mem', rfl⟩ := List.mem_map.mp hn
    rcases own item' mem' with rfl | before
    · exact mine.imp List.mem_map_of_mem And.left
    · exact .inl (List.mem_map_of_mem before)

end Seated

theorem hand_concat {calls : List (Call Item)} {answers : List (Answer Item)} {c : Call Item}
    (next : calls[answers.length]? = some c) (a : Answer Item) :
    hand calls (answers ++ [a]) = keep (hand calls answers) (c, a) := by
  obtain ⟨before, rest, rfl, same⟩ : ∃ before rest, calls = before ++ c :: rest ∧
      before.length = answers.length := by
    obtain ⟨inside, rfl⟩ := List.getElem?_eq_some_iff.mp next
    refine ⟨calls.take answers.length, calls.drop (answers.length + 1), ?_, ?_⟩
    · rw [← List.drop_eq_getElem_cons inside, List.take_append_drop]
    · rw [List.length_take]
      omega
  have shown : (before ++ c :: rest).zip (answers ++ [a]) = before.zip answers ++ [(c, a)] := by
    rw [List.zip_append same]
    simp
  have shown' : (before ++ c :: rest).zip answers = before.zip answers := by
    rw [← List.append_nil answers, List.zip_append same]
    simp
  rw [hand, hand, shown, shown', List.foldl_concat]

end SharedMemory.TreiberStack
