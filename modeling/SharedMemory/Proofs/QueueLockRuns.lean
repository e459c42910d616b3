import SharedMemory.Proofs.LockExclusion
import SharedMemory.Proofs.QueueLockBook

/-!
# Users of queue locks

Any number of users take and give back any number of locks over and over, each time with a node of
their own that nobody else uses meanwhile, or with one that the lock allocates. However their steps
interleave, each lock has at most one user inside, lets the users in in the order of their swaps, and is
handed from each to the next.
-/
namespace SharedMemory.QueueLock

def tick {L : Type} (lock : Lock Memory L Guard) (m : Memory) :
    Lock.Phase L Guard → Memory × Lock.Phase L Guard
  | .entering l => ((lock.step l m).1, .afterEnter (lock.step l m).2)
  | .leaving l => ((lock.step l m).1, .afterLeave (lock.step l m).2)
  | p => (m, p)

def letGo {L : Type} (lock : Lock Memory L Guard) : Lock.Phase L Guard → Lock.Phase L Guard
  | .holding g => .leaving (lock.release g)
  | p => p

/-- Where a user stands, with a node of its own or with one of the lock's. -/
abbrev Place : Type := Lock.Phase Label Guard ⊕ Lock.Phase OwnLabel Guard

namespace Place

def stand : Place → Stand
  | .inl (.entering l) | .inl (.leaving l) => .at l
  | .inr (.entering (.within l _)) | .inr (.leaving (.within l _)) => .at l
  | .inl (.holding g) | .inr (.holding g) => .holds g
  | _ => .away

def idle : Place → Bool
  | .inl .outside | .inr .outside => true
  | _ => false

def turn (m : Memory) : Place → Memory × Place
  | .inl p => (tick onCallerNodes m p).map id .inl
  | .inr p => (tick onOwnNodes m p).map id .inr

def giveUp (p : Place) : Place := p.map (letGo onCallerNodes) (letGo onOwnNodes)

end Place

/-- A user that is outside may begin to take a lock, with a node it brings or with one of the lock's;
one that holds a lock may begin to give it back; and any other may take a step. -/
inductive Move | bring (g : Guard) | own (lock : Nat) | giveUp | turn

structure Action where
  user : Nat
  move : Move

def deedsOf (user : Nat) (m : Memory) : Stand → List Deed
  | .at l => deedsAt user l m
  | _ => []

/-- The deeds are listed oldest first. -/
structure Scene where
  memory : Memory
  places : List Place
  deeds : List Deed := []

namespace Scene

/-- The first `callers` nodes are the users' own. A node is brought only while nobody uses it. -/
def act (callers : Nat) (a : Action) (s : Scene) : Scene :=
  match s.places[a.user]? with
  | none => s
  | some place =>
    match a.move with
    | .bring g =>
      if place.idle ∧ g.lock < s.memory.tails.length ∧ g.node < callers ∧
          ∀ p ∈ s.places, p.stand.guard?.map Guard.node ≠ some g.node then
        { s with places := s.places.set a.user (.inl (.entering g.acquire)) }
      else s
    | .own lock =>
      if place.idle ∧ lock < s.memory.tails.length then
        { s with places := s.places.set a.user (.inr (.entering (.allocate lock))) }
      else s
    | .giveUp => { s with places := s.places.set a.user place.giveUp }
    | .turn =>
      ⟨(place.turn s.memory).1, s.places.set a.user (place.turn s.memory).2,
        s.deeds ++ deedsOf a.user s.memory place.stand⟩

/-- After the actions, the latest of which comes first. -/
def after (locks callers users : Nat) : List Action → Scene
  | [] => ⟨.ofSizes locks callers, List.replicate users (.inl .outside), []⟩
  | a :: earlier => (after locks callers users earlier).act callers a

def stands (s : Scene) (i : Nat) : Stand := (s.places[i]?).elim .away Place.stand

end Scene

def Label.leaves : Label → Bool
  | .look _ | .clear _ | .await _ | .pass _ _ => true
  | _ => false

namespace Place

/-- Whoever gives a lock back is in the code for that, and whoever waits for a node of the lock's wants
a lock that there is. -/
def Proper (locks : Nat) : Place → Prop
  | .inl (.leaving l) | .inr (.leaving (.within l _)) => l.leaves
  | .inr (.leaving (.allocate _)) => False
  | .inr (.entering (.allocate lock)) => lock < locks
  | _ => True

end Place

section Turn

variable {m : Memory} {l : Label} {p : Place}

theorem step_leaves (h : l.leaves) (m : Memory) :
    (∃ l', (step l m).2 = .running l' ∧ l'.leaves) ∨ (step l m).2 = .returned .released := by
  cases l with
  | unlink | raise | swap | link | spin => cases h
  | look g | await g =>
    rw [step]
    split
    all_goals exact .inl ⟨_, rfl, rfl⟩
  | clear g =>
    rw [step]
    split
    · exact .inr rfl
    · exact .inl ⟨_, rfl, rfl⟩
  | pass g n => exact .inr rfl

theorem node_push (m : Memory) : Memory.node { m with nodes := m.nodes.push {} } = m.node := by
  funext n
  simp only [Memory.node, Array.getD_eq_getD_getElem?, Array.getElem?_push]
  split
  · next h => simp [h]
  · rfl

/-- A turn takes a step of the locks' code, or is one around it that no lock sees, or has a node
allocated to begin with. -/
theorem Place.turn_cases (h : p.Proper m.tails.length) :
    (∃ l, p.stand = .at l ∧ (p.turn m).2.stand = .after (step l m).2 ∧ (p.turn m).1 = (step l m).1) ∨
    (∀ l, p.stand ≠ .at l) ∧ (p.turn m).1.node = m.node ∧ (p.turn m).1.tails = m.tails ∧
      ((p.turn m).2.stand = p.stand ∧ (p.turn m).1.nodes.size = m.nodes.size ∨
        ∃ lock < m.tails.length, p.stand = .away ∧
          (p.turn m).2.stand = .at (Guard.acquire ⟨lock, m.nodes.size⟩) ∧
          (p.turn m).1.nodes.size = m.nodes.size + 1) := by
  rcases p with (_ | l | g | l) | (_ | (lock | ⟨l, g⟩ | n) | g | (lock | ⟨l, g⟩ | n))
  case inl.entering =>
    refine .inl ⟨l, rfl, ?_, rfl⟩
    obtain ⟨l', status, -⟩ | status | status := step_status l m
    all_goals simp [turn, tick, onCallerNodes, status, Lock.Phase.afterEnter, stand, Stand.after]
  case inl.leaving =>
    refine .inl ⟨l, rfl, ?_, rfl⟩
    obtain ⟨l', status, -⟩ | status := step_leaves h m
    all_goals simp [turn, tick, onCallerNodes, status, Lock.Phase.afterLeave, stand, Stand.after]
  case inr.entering.within =>
    refine .inl ⟨l, rfl, ?_, rfl⟩
    obtain ⟨l', status, -⟩ | status | status := step_status l m
    all_goals simp [turn, tick, onOwnNodes, ownStep, status, Lock.Phase.afterEnter, stand, Stand.after]
  case inr.leaving.within =>
    refine .inl ⟨l, rfl, ?_, rfl⟩
    obtain ⟨l', status, -⟩ | status := step_leaves h m
    all_goals simp [turn, tick, onOwnNodes, ownStep, status, Lock.Phase.afterLeave, stand, Stand.after]
  case inr.entering.allocate =>
    refine .inr ⟨fun l here => ?_, node_push m, rfl, .inr ⟨lock, h, rfl, rfl, Array.size_push _⟩⟩
    cases here
  case inr.leaving.allocate => cases h
  all_goals
    refine .inr ⟨fun l here => ?_, rfl, rfl, .inl ⟨rfl, rfl⟩⟩
    cases here

theorem Place.proper_turn (h : p.Proper m.tails.length) : (p.turn m).2.Proper m.tails.length := by
  rcases p with (_ | l | g | l) | (_ | (lock | ⟨l, g⟩ | n) | g | (lock | ⟨l, g⟩ | n))
  case inl.entering =>
    obtain ⟨l', status, -⟩ | status | status := step_status l m
    all_goals simp [turn, tick, onCallerNodes, status, Lock.Phase.afterEnter, Proper]
  case inl.leaving =>
    obtain ⟨l', status, leaves⟩ | status := step_leaves h m
    · simpa [turn, tick, onCallerNodes, status, Lock.Phase.afterLeave, Proper] using leaves
    · simp [turn, tick, onCallerNodes, status, Lock.Phase.afterLeave, Proper]
  case inr.entering.within =>
    obtain ⟨l', status, -⟩ | status | status := step_status l m
    all_goals simp [turn, tick, onOwnNodes, ownStep, status, Lock.Phase.afterEnter, Proper]
  case inr.leaving.within =>
    obtain ⟨l', status, leaves⟩ | status := step_leaves h m
    · simpa [turn, tick, onOwnNodes, ownStep, status, Lock.Phase.afterLeave, Proper] using leaves
    · simp [turn, tick, onOwnNodes, ownStep, status, Lock.Phase.afterLeave, Proper]
  case inr.leaving.allocate => cases h
  all_goals trivial

theorem Place.stand_giveUp (p : Place) :
    p.giveUp.stand = p.stand ∨ ∃ g, p.stand = .holds g ∧ p.giveUp.stand = .at g.release := by
  rcases p with (_ | l | g | l) | (_ | (lock | ⟨l, g⟩ | n) | g | (lock | ⟨l, g⟩ | n))
  case inl.holding => exact .inr ⟨g, rfl, rfl⟩
  case inr.holding => exact .inr ⟨g, rfl, rfl⟩
  all_goals exact .inl rfl

theorem Place.proper_giveUp {locks : Nat} (h : p.Proper locks) : p.giveUp.Proper locks := by
  rcases p with (_ | l | g | l) | (_ | (lock | ⟨l, g⟩ | n) | g | (lock | ⟨l, g⟩ | n))
  case inl.holding => rfl
  case inr.holding => rfl
  all_goals exact h

theorem Place.stand_of_idle (h : p.idle) : p.stand = .away := by
  rcases p with (_ | l | g | l) | (_ | l | g | l)
  case inl.outside => rfl
  case inr.outside => rfl
  all_goals cases h

theorem Place.sizes_turn (h : p.Proper m.tails.length) :
    (p.turn m).1.tails.length = m.tails.length ∧ m.nodes.size ≤ (p.turn m).1.nodes.size := by
  rcases p.turn_cases h with ⟨l, -, -, memory⟩ | ⟨-, -, tails, ⟨-, size⟩ | ⟨-, -, -, -, size⟩⟩
  · rw [memory, (step_sizes l m).1, (step_sizes l m).2]
    exact ⟨rfl, Nat.le_refl _⟩
  · exact ⟨by rw [tails], size.ge⟩
  · exact ⟨by rw [tails], by omega⟩

/-- A turn keeps what the locks go by, whether or not they see it. -/
theorem Inv.place_turn {stands : Nat → Stand} {deeds : List Deed} {i : Nat} (h : Inv stands m deeds)
    (proper : p.Proper m.tails.length) (here : stands i = p.stand) :
    Inv (Function.update stands i (p.turn m).2.stand) (p.turn m).1 (deeds ++ deedsOf i m p.stand) := by
  rcases p.turn_cases proper with ⟨l, at_l, after, memory⟩ | ⟨none, nodes, tails, rest⟩
  · rw [after, memory, at_l]
    exact h.turn (here.trans at_l)
  · have idle : deedsOf i m p.stand = [] := by
      cases at_l : p.stand with
      | «at» l => exact absurd at_l (none l)
      | away | holds => rfl
    have inv := h.apart nodes tails (p.sizes_turn proper).2
    rw [idle, List.append_nil]
    rcases rest with ⟨unmoved, -⟩ | ⟨lock, bound, away, moved, grown⟩
    · rw [unmoved, ← here, Function.update_eq_self]
      exact inv
    · rw [moved]
      apply inv.start (here.trans away)
      · rw [tails]
        exact bound
      · simp only [grown]
        omega
      · intro j k hk node
        have := (h.bound j k hk).2
        rw [node] at this
        exact Nat.lt_irrefl _ this

end Turn

/-- What is read off the entries of a list changes where the list does. -/
theorem read_set {Entry Reading : Type} (read : Option Entry → Reading) {entries : List Entry} {i : Nat}
    {old : Entry} (here : entries[i]? = some old) (new : Entry) :
    (fun j => read (entries.set i new)[j]?) =
      Function.update (fun j => read entries[j]?) i (read (some new)) := by
  funext j
  have bound := (List.getElem?_eq_some_iff.mp here).1
  by_cases same : j = i
  · rw [same, Function.update_self, List.getElem?_set_self bound]
  · rw [Function.update_of_ne same, List.getElem?_set_ne (Ne.symm same)]

theorem forall_mem_set {Entry : Type} {P : Entry → Prop} {entries : List Entry}
    (h : ∀ entry ∈ entries, P entry) {i : Nat} {new : Entry} (hn : P new) :
    ∀ entry ∈ entries.set i new, P entry := by
  intro entry mem
  rcases List.mem_or_eq_of_mem_set mem with mem | rfl
  · exact h entry mem
  · exact hn

namespace Scene

/-- What the actions keep. -/
structure Sound (callers : Nat) (s : Scene) : Prop where
  inv : Inv s.stands s.memory s.deeds
  proper : ∀ p ∈ s.places, p.Proper s.memory.tails.length
  callers : callers ≤ s.memory.nodes.size

variable {s : Scene} {i callers : Nat} {p place : Place}

theorem stands_of_place (here : s.places[i]? = some place) : s.stands i = place.stand := by
  rw [stands, here]
  rfl

theorem stands_set (here : s.places[i]? = some place) (m : Memory) (deeds : List Deed) :
    (Scene.mk m (s.places.set i p) deeds).stands = Function.update s.stands i p.stand :=
  read_set (fun entry => entry.elim Stand.away Place.stand) here p

theorem guard_of_stands {j : Nat} {g : Guard} (h : (s.stands j).guard? = some g) :
    ∃ p ∈ s.places, p.stand.guard? = some g := by
  cases place : s.places[j]? with
  | none =>
    rw [stands, place] at h
    cases h
  | some p =>
    rw [stands_of_place place] at h
    exact ⟨p, List.mem_of_getElem? place, h⟩

theorem Sound.turn (h : s.Sound callers) (here : s.places[i]? = some place) :
    Sound callers ⟨(place.turn s.memory).1, s.places.set i (place.turn s.memory).2,
      s.deeds ++ deedsOf i s.memory place.stand⟩ := by
  have proper := h.proper place (List.mem_of_getElem? here)
  obtain ⟨tails, nodes⟩ := Place.sizes_turn proper
  constructor
  · rw [stands_set here]
    exact h.inv.place_turn proper (stands_of_place here)
  · rw [tails]
    exact forall_mem_set h.proper (Place.proper_turn proper)
  · exact h.callers.trans nodes

theorem Sound.act (h : s.Sound callers) (a : Action) : (s.act callers a).Sound callers := by
  unfold Scene.act
  split
  · exact h
  · next place here =>
    have stand := stands_of_place here
    have proper := h.proper place (List.mem_of_getElem? here)
    split
    · next g _ =>
      split
      · next free =>
        obtain ⟨idle, lock, node, free⟩ := free
        refine ⟨?_, forall_mem_set h.proper trivial, h.callers⟩
        rw [stands_set here]
        apply h.inv.start (stand.trans (Place.stand_of_idle idle)) lock
        · exact Nat.lt_of_lt_of_le node h.callers
        · intro j k hk same
          obtain ⟨p, hp, guard⟩ := guard_of_stands hk
          exact free p hp (by rw [guard, Option.map_some, same])
      · exact h
    · next lock _ =>
      split
      · next free =>
        refine ⟨?_, forall_mem_set h.proper free.2, h.callers⟩
        rw [stands_set here]
        have same : Place.stand (.inr (.entering (.allocate lock))) = s.stands a.user :=
          (stand.trans (Place.stand_of_idle free.1)).symm
        rw [same, Function.update_eq_self]
        exact h.inv
      · exact h
    · refine ⟨?_, forall_mem_set h.proper (Place.proper_giveUp proper), h.callers⟩
      rw [stands_set here]
      rcases Place.stand_giveUp place with same | ⟨g, holds, release⟩
      · rw [same, ← stand, Function.update_eq_self]
        exact h.inv
      · rw [release]
        exact h.inv.release (stand.trans holds)
    · exact h.turn here

theorem tail_ofSizes (locks callers lock : Nat) : (Memory.ofSizes locks callers).tail lock = none := by
  rw [Memory.tail, Memory.ofSizes, List.getElem?_replicate]
  split <;> rfl

theorem sound (locks callers users : Nat) (actions : List Action) :
    (after locks callers users actions).Sound callers := by
  induction actions with
  | nil =>
    refine ⟨.free (fun i => ?_) (tail_ofSizes locks callers), ?_, ?_⟩
    · rw [stands, after, List.getElem?_replicate]
      split <;> rfl
    · intro p hp
      rw [List.eq_of_mem_replicate hp]
      trivial
    · exact Array.size_replicate.ge
  | cons a earlier ih => exact ih.act a

end Scene

/-- The guard of a user that has swapped its node in and has not come through the entrance. -/
def Stand.waits? : Stand → Option Guard
  | .at (.link g _) | .at (.spin g) => some g
  | _ => none

namespace Scene

def book (s : Scene) (lock : Nat) : Book := .ofDeeds lock s.deeds

/-- How a lock treats its users. A user holds the lock as soon as its flag has been cleared, before it
finds out. The `k`-th of the swaps, entries and exits are about the same acquisition. -/
structure Fair (s : Scene) (lock : Nat) : Prop where
  /-- At most one user has come through the entrance without having handed over or cleared the tail. -/
  exclusive : ∀ i j g k, (s.stands i).inside? = some g → (s.stands j).inside? = some k →
    g.lock = lock → k.lock = lock → i = j
  inside : ∀ c : Spot, (s.stands c.user).inside? = some (c.guard lock) ↔
    c ∈ (s.book lock).entries.drop (s.book lock).exits.length
  waits : ∀ c : Spot, (s.stands c.user).waits? = some (c.guard lock) ↔
    c ∈ (s.book lock).swaps.drop (s.book lock).entries.length
  /-- Users come in, and leave, in the order of their swaps. -/
  enter : (s.book lock).entries <+: (s.book lock).swaps
  leave : (s.book lock).exits.map Prod.fst <+: (s.book lock).entries
  /-- The tail is null while no user is between its swap and the effect of its release. -/
  tail : s.memory.tail lock = none ↔ ∀ i g, (s.stands i).queued? = some g → g.lock ≠ lock
  /-- Who hands over clears the flag of the user right behind it. -/
  handed : ∀ k a n, (s.book lock).exits[k]? = some (a, some n) →
    (s.book lock).swaps[k]? = some a ∧ ∃ c, (s.book lock).swaps[k + 1]? = some c ∧ c.node = n
  /-- A waiting user's flag is down exactly if the user right before it has handed over. -/
  flag : ∀ k c, (s.book lock).entries.length ≤ k + 1 → (s.book lock).swaps[k + 1]? = some c →
    ((s.memory.node c.node).locked = false ↔ ∃ a, (s.book lock).exits[k]? = some (a, some c.node))
  /-- While a user waits, somebody is inside or has been handed the lock. -/
  held : ∀ i g, (s.stands i).waits? = some g → g.lock = lock → ∃ j k, k.lock = lock ∧
    ((s.stands j).inside? = some k ∨ s.stands j = .at (.spin k) ∧ (s.memory.node k.node).locked = false)
  /-- A release awaits no link but one that a user is about to make. -/
  linked : ∀ i g, s.stands i = .at (.await g) → g.lock = lock → (s.memory.node g.node).next = none →
    ∃ j k, s.stands j = .at (.link k g.node) ∧ k.lock = lock

end Scene

section Fair

variable {stands : Nat → Stand} {m : Memory} {deeds : List Deed} {lock i : Nat} {b : Book}
  {line rest : List Spot} {c : Spot} {g : Guard} {s : Stand}

theorem Stand.waits_iff : s.waits? = some g ↔ s.queued? = some g ∧ s.inside? ≠ some g := by
  cases s with
  | away | holds => simp [waits?, queued?, inside?, guard?]
  | «at» l => cases l <;> simp [waits?, queued?, inside?, guard?, Label.guard]

theorem entered_heads_line (stands : Nat → Stand) (line : List Spot) : entered stands line <+: line := by
  cases line with
  | nil => exact List.nil_prefix
  | cons a rest =>
    rw [entered]
    split
    · exact List.prefix_append [a] rest
    · exact List.nil_prefix

theorem Kept.mem_entered (h : Kept stands m lock b line) :
    c ∈ entered stands line ↔ (stands c.user).inside? = some (c.guard lock) := by
  constructor
  · intro mem
    have queued := (h.member c).mp ((entered_heads_line stands line).subset mem)
    cases line with
    | nil => cases mem
    | cons a rest =>
      rw [entered] at mem
      split at mem
      · next inside =>
        obtain rfl := List.mem_singleton.mp mem
        obtain ⟨g, inside⟩ := Option.isSome_iff_exists.mp inside
        rw [inside, ← Stand.queued_of_inside inside, queued]
      · cases mem
  · intro inside
    obtain ⟨rest, rfl⟩ := h.front inside
    rw [entered_cons (by rw [inside]; rfl)]
    exact List.mem_singleton_self c

theorem Kept.length_entries (h : Kept stands m lock b line) :
    b.entries.length = b.exits.length + (entered stands line).length := by
  rw [h.entries, List.length_append, List.length_map]

theorem Kept.drop_entries (h : Kept stands m lock b line) :
    b.entries.drop b.exits.length = entered stands line := by
  rw [h.entries]
  exact List.drop_left' (List.length_map _)

theorem Kept.swaps_eq (h : Kept stands m lock b line) :
    ∃ rest, entered stands line ++ rest = line ∧ b.swaps = b.entries ++ rest := by
  obtain ⟨rest, split⟩ := entered_heads_line stands line
  refine ⟨rest, split, ?_⟩
  rw [h.entries, List.append_assoc, split, h.swaps]

theorem Kept.mem_waits (h : Kept stands m lock b line) :
    (stands c.user).waits? = some (c.guard lock) ↔ c ∈ b.swaps.drop b.entries.length := by
  obtain ⟨rest, split, swaps⟩ := h.swaps_eq
  have distinct := h.distinct
  rw [← split, List.nodup_append] at distinct
  have mem : c ∈ line ↔ c ∈ entered stands line ∨ c ∈ rest := by
    rw [← List.mem_append, split]
  rw [swaps, List.drop_left]
  rw [Stand.waits_iff, ← h.member, Ne, ← h.mem_entered, mem]
  constructor
  · rintro ⟨here | here, out⟩
    · exact absurd here out
    · exact here
  · exact fun here => ⟨.inr here, fun front => distinct.2.2 c front c here rfl⟩

/-- The first of the line that is not inside has been handed the lock. -/
theorem Kept.down (h : Kept stands m lock b (c :: rest)) (out : entered stands (c :: rest) = []) :
    (m.node c.node).locked = false := by
  cases h.shows.1 with
  | handed _ down => exact down
  | holds here | looks here | clears here | awaits here | passes here =>
    rw [entered_cons (by rw [here]; rfl)] at out
    cases out

/-- A waiter's flag is down exactly if the user right before it has handed over. -/
theorem Kept.flag {k : Nat} (h : Kept stands m lock b line) (late : b.entries.length ≤ k + 1)
    (at_k : b.swaps[k + 1]? = some c) :
    (m.node c.node).locked = false ↔ ∃ a, b.exits[k]? = some (a, some c.node) := by
  have length := h.length_entries
  rw [h.swaps, List.getElem?_append_right (by simp; omega), List.length_map] at at_k
  constructor
  · intro down
    cases line with
    | nil => cases at_k
    | cons a rest =>
      rcases Nat.eq_zero_or_pos (k + 1 - b.exits.length) with first | behind
      · rw [first, List.getElem?_cons_zero, Option.some.injEq] at at_k
        subst at_k
        have last : b.exits.length = k + 1 := by omega
        have out : entered stands (a :: rest) = [] := List.length_eq_zero_iff.mp (by omega)
        obtain ⟨d, exit⟩ := h.given a rfl out
        rw [List.getLast?_eq_getElem?, last] at exit
        exact ⟨d, exit⟩
      · rw [List.getElem?_cons, if_neg (Nat.ne_of_gt behind)] at at_k
        have up := (h.shows.2.waits (List.mem_of_getElem? at_k)).1
        rw [down] at up
        cases up
  · rintro ⟨a, exit⟩
    have bound := (List.getElem?_eq_some_iff.mp exit).1
    have first : k + 1 - b.exits.length = 0 := by omega
    have out : entered stands line = [] := List.length_eq_zero_iff.mp (by omega)
    cases line with
    | nil => cases at_k
    | cons d rest =>
      rw [first, List.getElem?_cons_zero, Option.some.injEq] at at_k
      subst at_k
      exact h.down out

/-- Once somebody waits, the first of the line is inside or has been handed the lock. -/
theorem Kept.held (h : Kept stands m lock b line) (mem : c ∈ line) :
    ∃ j k, k.lock = lock ∧ ((stands j).inside? = some k ∨
      stands j = .at (.spin k) ∧ (m.node k.node).locked = false) := by
  cases line with
  | nil => cases mem
  | cons a rest =>
    refine ⟨a.user, a.guard lock, rfl, ?_⟩
    cases h.shows.1 with
    | handed here down => exact .inr ⟨here, down⟩
    | holds here | looks here | clears here | awaits here | passes here =>
      left
      rw [here]
      rfl

theorem Kept.linked (h : Kept stands m g.lock b line) (here : stands i = .at (.await g))
    (next : (m.node g.node).next = none) :
    ∃ j k, stands j = .at (.link k g.node) ∧ k.lock = g.lock := by
  obtain ⟨rest, rfl⟩ := h.front (by rw [here]; rfl)
  obtain ⟨first, behind⟩ := h.shows
  cases first with
  | @awaits d more =>
    obtain ⟨-, ⟨link, -⟩ | ⟨-, linked⟩, -⟩ := behind
    · exact ⟨d.user, d.guard g.lock, link, rfl⟩
    · rw [next] at linked
      cases linked
  | handed at_i | holds at_i | looks at_i | clears at_i | passes at_i =>
    rw [here] at at_i
    cases at_i

theorem Kept.free_iff (h : Kept stands m lock b line) :
    m.tail lock = none ↔ ∀ i g, (stands i).queued? = some g → g.lock ≠ lock := by
  rw [h.tail, Option.map_eq_none_iff, List.getLast?_eq_none_iff]
  constructor
  · rintro rfl i g queued rfl
    exact List.not_mem_nil ((h.member ⟨i, g.node⟩).mpr queued)
  · intro none
    refine List.eq_nil_iff_forall_not_mem.mpr fun a ha => ?_
    exact none a.user _ ((h.member a).mp ha) rfl

theorem Kept.exclusive {j : Nat} {k : Guard} (h : Kept stands m lock b line)
    (hi : (stands i).inside? = some g) (hj : (stands j).inside? = some k) (lock_i : g.lock = lock)
    (lock_j : k.lock = lock) : i = j := by
  subst lock_i
  obtain ⟨rest, rfl⟩ := h.front hi
  rw [← lock_j] at h
  obtain ⟨_, same⟩ := h.front hj
  exact congrArg Spot.user (List.cons.inj same).1

end Fair

/-- However users come and go and their steps interleave, each queue lock has one of them inside at
most, lets them in in the order of their swaps, is free exactly while nobody is in its queue, and is
handed from each to the next, whose flag nobody else clears. -/
theorem queue_lock_fair (locks callers users : Nat) (actions : List Action) (lock : Nat) :
    (Scene.after locks callers users actions).Fair lock := by
  have sound := Scene.sound locks callers users actions
  generalize Scene.after locks callers users actions = s at sound
  obtain ⟨line, kept⟩ := sound.inv.kept lock
  refine ⟨?_, ?_, ?_, ?_, ?_, kept.free_iff, ?_, ?_, ?_, ?_⟩
  · exact fun i j g k hi hj => kept.exclusive hi hj
  · intro c
    rw [Scene.book, kept.drop_entries]
    exact kept.mem_entered.symm
  · exact fun c => kept.mem_waits
  · obtain ⟨rest, -, swaps⟩ := kept.swaps_eq
    exact ⟨rest, swaps.symm⟩
  · exact ⟨_, kept.entries.symm⟩
  · intro k a n exit
    refine ⟨?_, kept.handed k a n exit⟩
    have bound := (List.getElem?_eq_some_iff.mp exit).1
    rw [Scene.book, kept.swaps, List.getElem?_append_left (by rwa [List.length_map]),
      List.getElem?_map]
    exact congrArg _ exit
  · exact fun k c => kept.flag
  · rintro i g waits rfl
    exact kept.held ((kept.member ⟨i, g.node⟩).mpr (Stand.waits_iff.mp waits).1)
  · rintro i g here rfl next
    exact kept.linked here next

/-- User 1 has swapped its node in behind user 0 and has still to link it when user 0 releases: the
release finds no successor, cannot clear the tail and awaits the link. -/
example :
    let s := Scene.after 1 1 2 [⟨0, .turn⟩, ⟨0, .turn⟩, ⟨0, .giveUp⟩,
      ⟨1, .turn⟩, ⟨1, .turn⟩, ⟨1, .turn⟩, ⟨1, .turn⟩, ⟨1, .own 0⟩,
      ⟨0, .turn⟩, ⟨0, .turn⟩, ⟨0, .turn⟩, ⟨0, .bring ⟨0, 0⟩⟩]
    s.stands 0 = .at (.await ⟨0, 0⟩) ∧ s.stands 1 = .at (.link ⟨0, 1⟩ 0) ∧
      s.memory.tail 0 = some 1 := by
  decide

end SharedMemory.QueueLock
