import SharedMemory.Proofs.QueueLockRuns

/-!
# How long a node of a queue lock is in use

The users in front of a waiter and behind it read and write the node it has brought, when the schedule
lets them. All of that is over when the release of the node returns: nobody sees the node or changes it
until a user brings it again, so that its owner may do with it what it likes, or free it.
-/
namespace SharedMemory.QueueLock

/-- The node that a step reads a field of, or writes one of. -/
def Label.field? : Label → Option Nat
  | .unlink g | .raise g | .spin g | .look g | .await g => some g.node
  | .link _ n | .pass _ n => some n
  | .swap _ | .clear _ => none

def Memory.put (m : Memory) (n : Nat) (fields : Node) : Memory :=
  { m with nodes := m.nodes.setIfInBounds n fields }

section Put

variable (m : Memory) {n k : Nat} (fields : Node)

@[simp] theorem Memory.size_put : (m.put n fields).nodes.size = m.nodes.size :=
  Array.size_setIfInBounds

@[simp] theorem Memory.tail_put (lock : Nat) : (m.put n fields).tail lock = m.tail lock := rfl

theorem Memory.node_put_of_ne (h : k ≠ n) : (m.put n fields).node k = m.node k := by
  simp only [node, put, Array.getD_eq_getD_getElem?]
  rw [Array.getElem?_setIfInBounds_ne (Ne.symm h)]

theorem Memory.node_put_self (bound : n < m.nodes.size) : (m.put n fields).node n = fields := by
  simp only [node, put, Array.getD_eq_getD_getElem?]
  rw [Array.getElem?_setIfInBounds_self_of_lt bound, Option.getD_some]

theorem Memory.put_node : m.put n (m.node n) = m := by
  have same : m.nodes.setIfInBounds n (m.node n) = m.nodes := by
    apply Array.ext_getElem?
    intro k
    rw [Array.getElem?_setIfInBounds, node]
    split
    · next h =>
      subst h
      split
      · next bound => simp [bound]
      · next out => simp [out]
    · rfl
  rw [put, same]

theorem modify_put (h : k ≠ n) (f : Node → Node) (nodes : Array Node) :
    (nodes.setIfInBounds n fields).modify k f = (nodes.modify k f).setIfInBounds n fields := by
  apply Array.ext_getElem?
  intro j
  simp only [Array.getElem?_modify, Array.getElem?_setIfInBounds, Array.size_modify]
  grind

theorem Memory.setNext_put (h : k ≠ n) (next : Option Nat) :
    (m.put n fields).setNext k next = (m.setNext k next).put n fields := by
  rw [setNext, put, modify_put fields h]
  rfl

theorem Memory.setLocked_put (h : k ≠ n) (locked : Bool) :
    (m.put n fields).setLocked k locked = (m.setLocked k locked).put n fields := by
  rw [setLocked, put, modify_put fields h]
  rfl

/-- A step neither sees nor changes the nodes it does not read or write. -/
theorem step_put {l : Label} (h : l.field? ≠ some n) :
    step l (m.put n fields) = ((step l m).1.put n fields, (step l m).2) := by
  have other {k : Nat} (field : l.field? = some k) : k ≠ n := fun same => h (same ▸ field)
  cases l with
  | unlink g => rw [step, m.setNext_put fields (other rfl), step]
  | raise g => rw [step, m.setLocked_put fields (other rfl), step]
  | link g before => rw [step, m.setNext_put fields (other rfl), step]
  | pass g next => rw [step, m.setLocked_put fields (other rfl), step]
  | spin g | look g | await g => rw [step, m.node_put_of_ne fields (other rfl), step]
  | swap g => rfl
  | clear g =>
    rw [step, step, m.tail_put]
    split <;> rfl

theorem push_put {nodes : Array Node} (bound : n < nodes.size) (fresh : Node) :
    (nodes.setIfInBounds n fields).push fresh = (nodes.push fresh).setIfInBounds n fields := by
  apply Array.ext_getElem?
  intro j
  simp only [Array.getElem?_push, Array.getElem?_setIfInBounds, Array.size_setIfInBounds, Array.size_push]
  grind

theorem ownStep_put {l : OwnLabel} (bound : n < m.nodes.size)
    (apart : ∀ k g, l = .within k g → k.field? ≠ some n) :
    ownStep l (m.put n fields) = ((ownStep l m).1.put n fields, (ownStep l m).2) := by
  cases l with
  | allocate lock =>
    rw [ownStep, m.size_put, Memory.put, push_put fields bound]
    rfl
  | within k g =>
    rw [ownStep, step_put m fields (apart k g rfl)]
    rfl
  | free k => rfl

/-- A turn that reads and writes no field of a node has nothing to do with it. -/
theorem Place.turn_put {p : Place} (bound : n < m.nodes.size)
    (apart : ∀ l, p.stand = .at l → l.field? ≠ some n) :
    p.turn (m.put n fields) = ((p.turn m).1.put n fields, (p.turn m).2) := by
  rcases p with (_ | l | g | l) | (_ | l | g | l)
  case inl.entering | inl.leaving => simp [turn, tick, onCallerNodes, step_put m fields (apart l rfl)]
  case inr.entering | inr.leaving =>
    have same := ownStep_put m fields (l := l) bound fun k g here => apart k (by rw [here]; rfl)
    simp [turn, tick, onOwnNodes, same]
  all_goals rfl

end Put

namespace Scene

def put (s : Scene) (n : Nat) (fields : Node) : Scene := { s with memory := s.memory.put n fields }

/-- An action reads and writes no field of a node: it would do the same with any other fields there, and
would leave these. -/
structure Spares (callers : Nat) (s : Scene) (a : Action) (n : Nat) : Prop where
  apart : a.move = .turn → ∀ l, s.stands a.user = .at l → l.field? ≠ some n
  blind : ∀ fields, (s.put n fields).act callers a = (s.act callers a).put n fields

/-- A user has begun to take a lock with the node and its release has not returned. -/
def Uses (s : Scene) (i n : Nat) : Prop := ∃ g, (s.stands i).guard? = some g ∧ g.node = n

def Gone (s : Scene) (n : Nat) : Prop := n < s.memory.nodes.size ∧ ∀ i, ¬ s.Uses i n

variable {s : Scene} {i n callers : Nat} {l : Label}

theorem act_put {a : Action} (bound : n < s.memory.nodes.size)
    (apart : a.move = .turn → ∀ l, s.stands a.user = .at l → l.field? ≠ some n) (fields : Node) :
    (s.put n fields).act callers a = (s.act callers a).put n fields := by
  obtain ⟨user, move⟩ := a
  have places : (s.put n fields).places = s.places := rfl
  unfold act
  rw [places]
  cases here : s.places[user]? with
  | none => rfl
  | some place =>
    cases move with
    | bring | own =>
      dsimp only
      rw [apply_ite (put · n fields)]
      rfl
    | giveUp => rfl
    | turn =>
      have stand := stands_of_place here
      have same := Place.turn_put s.memory fields bound fun l at_l => apart rfl l (stand.trans at_l)
      have deeds : deedsOf user (s.memory.put n fields) place.stand = deedsOf user s.memory place.stand := by
        cases at_l : place.stand with
        | away | holds => rfl
        | «at» l =>
          rw [deedsOf, deedsAt, step_put s.memory fields (apart rfl l (stand.trans at_l))]
          rfl
      simp only [put, same, deeds]

/-- Who reads or writes a node does so while a user uses it. -/
theorem uses_of_field (inv : Inv s.stands s.memory s.deeds) (here : s.stands i = .at l)
    (field : l.field? = some n) : ∃ j, s.Uses j n := by
  have own : ∀ k, l.guard.node = k → ∃ j, s.Uses j k :=
    fun k node => ⟨i, l.guard, by rw [here]; rfl, node⟩
  have written (k : Nat) (h : l.written? = some k) : ∃ j, s.Uses j k := by
    rcases inv.written here h with node | ⟨-, j, g, queued, -, node⟩
    · exact own k node.symm
    · exact ⟨j, g, Stand.guard_of_queued queued, node⟩
  cases l with
  | unlink g | raise g | spin g | look g | await g => exact own n (Option.some.inj field)
  | link g before | pass g next => exact written n field
  | swap | clear => cases field

theorem Gone.spares (h : s.Gone n) (sound : s.Sound callers) (a : Action) : Spares callers s a n := by
  have apart (l : Label) (here : s.stands a.user = .at l) : l.field? ≠ some n := by
    intro field
    obtain ⟨j, uses⟩ := uses_of_field sound.inv here field
    exact h.2 j uses
  exact ⟨fun _ => apart, act_put h.1 fun _ => apart⟩

/-- The ways in which an action changes a scene. -/
inductive Acts (callers : Nat) (s : Scene) (i : Nat) : Move → Scene → Prop
  | rest {move : Move} : Acts callers s i move s
  | bring {place : Place} (here : s.places[i]? = some place) (idle : place.idle) (g : Guard)
      (lock : g.lock < s.memory.tails.length) (node : g.node < callers)
      (free : ∀ p ∈ s.places, p.stand.guard?.map Guard.node ≠ some g.node) :
      Acts callers s i (.bring g) { s with places := s.places.set i (.inl (.entering g.acquire)) }
  | own {place : Place} (here : s.places[i]? = some place) (idle : place.idle) (lock : Nat)
      (bound : lock < s.memory.tails.length) :
      Acts callers s i (.own lock) { s with places := s.places.set i (.inr (.entering (.allocate lock))) }
  | giveUp {place : Place} (here : s.places[i]? = some place) :
      Acts callers s i .giveUp { s with places := s.places.set i place.giveUp }
  | turn {place : Place} (here : s.places[i]? = some place) :
      Acts callers s i .turn ⟨(place.turn s.memory).1, s.places.set i (place.turn s.memory).2,
        s.deeds ++ deedsOf i s.memory place.stand⟩

theorem acts (s : Scene) (callers : Nat) (a : Action) :
    Acts callers s a.user a.move (s.act callers a) := by
  unfold act
  split
  · exact .rest
  · next place here =>
    split
    · next g move =>
      rw [move]
      split
      · next free => exact .bring here free.1 g free.2.1 free.2.2.1 free.2.2.2
      · exact .rest
    · next lock move =>
      rw [move]
      split
      · next free => exact .own here free.1 lock free.2
      · exact .rest
    · next move =>
      rw [move]
      exact .giveUp here
    · next move =>
      rw [move]
      exact .turn here

theorem Gone.move {p place : Place} {m : Memory} {deeds : List Deed} (h : s.Gone n)
    (here : s.places[i]? = some place) (size : s.memory.nodes.size ≤ m.nodes.size)
    (apart : ∀ g, p.stand.guard? = some g → g.node ≠ n) :
    (Scene.mk m (s.places.set i p) deeds).Gone n := by
  refine ⟨Nat.lt_of_lt_of_le h.1 size, fun j uses => ?_⟩
  rw [Uses, stands_set here] at uses
  obtain ⟨g, guard, node⟩ := uses
  by_cases same : j = i
  · rw [same, Function.update_self] at guard
    exact apart g guard node
  · rw [Function.update_of_ne same] at guard
    exact h.2 j ⟨g, guard, node⟩

/-- A node that nobody uses is not used before somebody brings it. -/
theorem Gone.acts {s' : Scene} {move : Move} (h : s.Gone n) (sound : s.Sound callers)
    (step : Acts callers s i move s')
    (unbrought : ∀ g, move = .bring g → g.node = n → callers ≤ n) : s'.Gone n := by
  have unused {g : Guard} (guard : (s.stands i).guard? = some g) : g.node ≠ n :=
    fun node => h.2 i ⟨g, guard, node⟩
  cases step with
  | rest => exact h
  | bring here idle g lock node free =>
    apply h.move here (Nat.le_refl _)
    intro k guard same
    obtain rfl : g = k := Option.some.inj guard
    have := unbrought g rfl same
    omega
  | own here idle lock bound => exact h.move here (Nat.le_refl _) nofun
  | @giveUp place here =>
    have stand := stands_of_place here
    apply h.move here (Nat.le_refl _)
    intro g guard
    rcases Place.stand_giveUp place with same | ⟨k, holds, release⟩
    · rw [same, ← stand] at guard
      exact unused guard
    · rw [release] at guard
      obtain rfl : k = g := Option.some.inj guard
      exact unused (by rw [stand, holds]; rfl)
  | @turn place here =>
    have stand := stands_of_place here
    have proper := sound.proper place (List.mem_of_getElem? here)
    apply h.move here (Place.sizes_turn proper).2
    intro g guard
    rcases Place.turn_cases proper with ⟨l, at_l, moved, -⟩ | ⟨-, -, -, ⟨unmoved, -⟩ | ⟨k, -, -, moved, -⟩⟩
    · rw [moved] at guard
      rw [guard_after guard]
      exact unused (by rw [stand, at_l]; rfl)
    · rw [unmoved, ← stand] at guard
      exact unused guard
    · rw [moved] at guard
      obtain rfl : Guard.mk k s.memory.nodes.size = g := Option.some.inj guard
      exact (Nat.ne_of_lt h.1).symm

theorem place_of_stands (here : s.stands i = .at l) :
    ∃ place, s.places[i]? = some place ∧ place.stand = .at l := by
  cases place : s.places[i]? with
  | none =>
    rw [stands, place] at here
    cases here
  | some p => exact ⟨p, rfl, (stands_of_place place).symm.trans here⟩

theorem act_turn {place : Place} (here : s.places[i]? = some place) :
    s.act callers ⟨i, .turn⟩ = ⟨(place.turn s.memory).1, s.places.set i (place.turn s.memory).2,
      s.deeds ++ deedsOf i s.memory place.stand⟩ := by
  rw [act, here]

/-- Once its release has returned, nobody uses a node. -/
theorem gone_of_released (sound : s.Sound callers) (here : s.stands i = .at l)
    (returned : (step l s.memory).2 = .returned .released) :
    (s.act callers ⟨i, .turn⟩).Gone l.guard.node := by
  have mine : (s.stands i).guard? = some l.guard := by rw [here]; rfl
  obtain ⟨place, at_i, stand⟩ := place_of_stands here
  have proper := sound.proper place (List.mem_of_getElem? at_i)
  have away : (place.turn s.memory).2.stand = .away := by
    rcases Place.turn_cases proper with ⟨k, at_k, moved, -⟩ | ⟨none, -⟩
    · obtain rfl : l = k := Stand.at.inj (stand.symm.trans at_k)
      rw [moved, returned]
      rfl
    · exact absurd stand (none l)
  rw [act_turn at_i]
  refine ⟨Nat.lt_of_lt_of_le (sound.inv.bound i _ mine).2 (Place.sizes_turn proper).2, fun j uses => ?_⟩
  rw [Uses, stands_set at_i, away] at uses
  obtain ⟨g, guard, node⟩ := uses
  by_cases same : j = i
  · rw [same, Function.update_self] at guard
    cases guard
  · rw [Function.update_of_ne same] at guard
    exact same (sound.inv.owned j i g _ guard mine node)

/-- What nobody sees nobody changes. -/
theorem Gone.node_act (h : s.Gone n) (sound : s.Sound callers) {a : Action}
    (next : (s.act callers a).Gone n) : (s.act callers a).memory.node n = s.memory.node n := by
  have same := (h.spares sound a).blind (s.memory.node n)
  have put : s.put n (s.memory.node n) = s := by
    rw [Scene.put, s.memory.put_node]
  rw [put] at same
  rw [same]
  exact Memory.node_put_self (s.act callers a).memory (s.memory.node n) next.1

/-- A node stays as it is, and nobody uses it, until somebody brings it. -/
theorem gone_after {locks users : Nat} {earlier : List Action}
    (h : (after locks callers users earlier).Gone n) {later : List Action}
    (unbrought : ∀ a ∈ later, ∀ g, a.move = .bring g → g.node = n → callers ≤ n) :
    (after locks callers users (later ++ earlier)).Gone n ∧
      (after locks callers users (later ++ earlier)).memory.node n =
        (after locks callers users earlier).memory.node n := by
  induction later with
  | nil => exact ⟨h, rfl⟩
  | cons a later ih =>
    have sound := sound locks callers users (later ++ earlier)
    obtain ⟨gone, same⟩ := ih fun b hb => unbrought b (List.mem_cons_of_mem a hb)
    have next := gone.acts sound (acts _ callers a) (unbrought a List.mem_cons_self)
    exact ⟨next, (gone.node_act sound next).trans same⟩

end Scene

section Freed

def Place.frees? : Place → Option Nat
  | .inr (.entering (.free n)) | .inr (.leaving (.free n)) => some n
  | _ => none

def Place.Own (callers : Nat) : Place → Prop
  | .inr (.entering (.within l g)) | .inr (.leaving (.within l g)) => l.guard = g ∧ callers ≤ g.node
  | .inr (.entering (.free n)) | .inr (.leaving (.free n)) => callers ≤ n
  | .inr (.holding g) => callers ≤ g.node
  | _ => True

theorem step_freed (l : Label) (m : Memory) : (step l m).1.freed = m.freed := by
  cases l with
  | clear g =>
    rw [step]
    split <;> rfl
  | unlink | raise | swap | link | spin | look | await | pass => rfl

variable {m : Memory} {p : Place} {callers : Nat}

theorem Place.own_turn (h : p.Own callers) (size : callers ≤ m.nodes.size) :
    (p.turn m).2.Own callers := by
  rcases p with (_ | l | g | l) | (_ | (lock | ⟨l, g⟩ | n) | g | (lock | ⟨l, g⟩ | n))
  case inr.entering.within =>
    obtain ⟨rfl, bound⟩ := h
    obtain ⟨l', status, guard⟩ | status | status := step_status l m
    · simpa [turn, tick, onOwnNodes, ownStep, status, Lock.Phase.afterEnter, Own, guard] using bound
    · simpa [turn, tick, onOwnNodes, ownStep, status, Lock.Phase.afterEnter, Own] using bound
    · simpa [turn, tick, onOwnNodes, ownStep, status, Lock.Phase.afterEnter, Own] using bound
  case inr.leaving.within =>
    obtain ⟨rfl, bound⟩ := h
    obtain ⟨l', status, guard⟩ | status | status := step_status l m
    · simpa [turn, tick, onOwnNodes, ownStep, status, Lock.Phase.afterLeave, Own, guard] using bound
    · simp [turn, tick, onOwnNodes, ownStep, status, Lock.Phase.afterLeave, Own]
    · simpa [turn, tick, onOwnNodes, ownStep, status, Lock.Phase.afterLeave, Own] using bound
  case inr.entering.allocate => exact ⟨rfl, size⟩
  case inr.leaving.allocate => exact ⟨rfl, size⟩
  all_goals trivial

/-- A turn frees the node that its user was about to free, or its user is about to free the node whose
release returns. -/
theorem Place.frees_turn (p : Place) (m : Memory) :
    (p.turn m).2.frees? = none ∧
        ((p.turn m).1.freed = m.freed ∨ ∃ n, p.frees? = some n ∧ (p.turn m).1.freed = n :: m.freed) ∨
      (p.turn m).1.freed = m.freed ∧ ∃ l g,
        (p = .inr (.entering (.within l g)) ∨ p = .inr (.leaving (.within l g))) ∧
          (step l m).2 = .returned .released ∧ (p.turn m).2.frees? = some g.node := by
  have stays (l : Label) : (step l m).1.freed = m.freed := step_freed l m
  rcases p with (_ | l | g | l) | (_ | (lock | ⟨l, g⟩ | n) | g | (lock | ⟨l, g⟩ | n))
  case inl.entering | inl.leaving => exact .inl ⟨rfl, .inl (stays l)⟩
  case inr.entering.within =>
    obtain ⟨l', status, -⟩ | status | status := step_status l m
    · left
      simp [turn, tick, onOwnNodes, ownStep, status, Lock.Phase.afterEnter, frees?, stays]
    · left
      simp [turn, tick, onOwnNodes, ownStep, status, Lock.Phase.afterEnter, frees?, stays]
    · right
      refine ⟨stays l, l, g, .inl rfl, status, ?_⟩
      simp [turn, tick, onOwnNodes, ownStep, status, Lock.Phase.afterEnter, frees?]
  case inr.leaving.within =>
    obtain ⟨l', status, -⟩ | status | status := step_status l m
    · left
      simp [turn, tick, onOwnNodes, ownStep, status, Lock.Phase.afterLeave, frees?, stays]
    · left
      simp [turn, tick, onOwnNodes, ownStep, status, Lock.Phase.afterLeave, frees?, stays]
    · right
      refine ⟨stays l, l, g, .inr rfl, status, ?_⟩
      simp [turn, tick, onOwnNodes, ownStep, status, Lock.Phase.afterLeave, frees?]
  case inr.entering.free | inr.leaving.free => exact .inl ⟨rfl, .inr ⟨n, rfl, rfl⟩⟩
  all_goals exact .inl ⟨rfl, .inl rfl⟩

theorem Place.own_giveUp (h : p.Own callers) : p.giveUp.Own callers := by
  rcases p with (_ | l | g | l) | (_ | l | g | l)
  case inr.holding => exact ⟨rfl, h⟩
  case inl.holding => trivial
  all_goals exact h

theorem Place.frees_giveUp (p : Place) : p.giveUp.frees? = p.frees? := by
  rcases p with (_ | l | g | l) | (_ | l | g | l)
  all_goals rfl

namespace Scene

variable {s s' : Scene} {i n : Nat} {place : Place}

def frees (s : Scene) (i : Nat) : Option Nat := (s.places[i]?).bind Place.frees?

theorem frees_of_place (here : s.places[i]? = some place) : s.frees i = place.frees? := by
  rw [frees, here]
  rfl

theorem frees_set (here : s.places[i]? = some place) (m : Memory) (deeds : List Deed) :
    (Scene.mk m (s.places.set i p) deeds).frees = Function.update s.frees i p.frees? :=
  read_set (fun entry => entry.bind Place.frees?) here p

/-- Nodes are freed once, by the lock that has allocated them, and while nobody uses them. -/
structure Shed (callers : Nat) (s : Scene) : Prop where
  own : ∀ p ∈ s.places, p.Own callers
  freeing : ∀ i n, s.frees i = some n → callers ≤ n ∧ s.Gone n ∧ n ∉ s.memory.freed
  freed : ∀ n ∈ s.memory.freed, callers ≤ n ∧ s.Gone n
  once : ∀ i j n, s.frees i = some n → s.frees j = some n → i = j
  distinct : s.memory.freed.Nodup

/-- One user moves. It may be about to free a node that no one else is about to free, or it may have freed
the one that it was about to. -/
theorem Shed.move {m : Memory} {deeds : List Deed} (h : s.Shed callers)
    (here : s.places[i]? = some place) (own : p.Own callers)
    (gone : ∀ n, callers ≤ n → s.Gone n → (Scene.mk m (s.places.set i p) deeds).Gone n)
    (frees : ∀ n, p.frees? = some n → callers ≤ n ∧ (Scene.mk m (s.places.set i p) deeds).Gone n ∧
      n ∉ m.freed ∧ ∀ j, j ≠ i → s.frees j ≠ some n)
    (freed : m.freed = s.memory.freed ∨ ∃ n, s.frees i = some n ∧ m.freed = n :: s.memory.freed) :
    (Scene.mk m (s.places.set i p) deeds).Shed callers := by
  constructor
  · exact forall_mem_set h.own own
  · intro j n about
    rw [frees_set here] at about
    by_cases same : j = i
    · rw [same, Function.update_self] at about
      obtain ⟨apart, gone, fresh, -⟩ := frees n about
      exact ⟨apart, gone, fresh⟩
    · rw [Function.update_of_ne same] at about
      obtain ⟨apart, unused, fresh⟩ := h.freeing j n about
      refine ⟨apart, gone n apart unused, ?_⟩
      rcases freed with freed | ⟨k, mine, freed⟩
      · rwa [freed]
      · rw [freed, List.mem_cons, not_or]
        refine ⟨?_, fresh⟩
        rintro rfl
        exact same (h.once j i n about mine)
  · intro n mem
    rcases freed with freed | ⟨k, mine, freed⟩
    · obtain ⟨apart, unused⟩ := h.freed n (freed ▸ mem)
      exact ⟨apart, gone n apart unused⟩
    · rcases List.mem_cons.mp (freed ▸ mem) with rfl | mem
      · obtain ⟨apart, unused, -⟩ := h.freeing i n mine
        exact ⟨apart, gone n apart unused⟩
      · obtain ⟨apart, unused⟩ := h.freed n mem
        exact ⟨apart, gone n apart unused⟩
  · intro j k n about about'
    rw [frees_set here] at about about'
    by_cases hj : j = i <;> by_cases hk : k = i
    · exact hj.trans hk.symm
    · rw [hj, Function.update_self] at about
      rw [Function.update_of_ne hk] at about'
      exact absurd about' ((frees n about).2.2.2 k hk)
    · rw [hk, Function.update_self] at about'
      rw [Function.update_of_ne hj] at about
      exact absurd about ((frees n about').2.2.2 j hj)
    · rw [Function.update_of_ne hj] at about
      rw [Function.update_of_ne hk] at about'
      exact h.once j k n about about'
  · rcases freed with freed | ⟨k, mine, freed⟩
    · exact freed ▸ h.distinct
    · exact freed ▸ List.nodup_cons.mpr ⟨(h.freeing i k mine).2.2, h.distinct⟩

theorem Shed.acts {move : Move} (h : s.Shed callers) (sound : s.Sound callers)
    (step : Acts callers s i move s') : s'.Shed callers := by
  -- a node that is none of the callers' cannot be brought
  have gone (n : Nat) (apart : callers ≤ n) (unused : s.Gone n) : s'.Gone n :=
    unused.acts sound step fun _ _ _ => apart
  cases step with
  | rest => exact h
  | bring here idle g lock node free => exact h.move here trivial gone nofun (.inl rfl)
  | own here idle lock bound => exact h.move here trivial gone nofun (.inl rfl)
  | @giveUp place here =>
    refine h.move here (Place.own_giveUp (h.own place (List.mem_of_getElem? here))) gone ?_ (.inl rfl)
    intro n about
    rw [place.frees_giveUp, ← frees_of_place here] at about
    obtain ⟨apart, unused, fresh⟩ := h.freeing i n about
    exact ⟨apart, gone n apart unused, fresh, fun j other theirs => other (h.once j i n theirs about)⟩
  | @turn place here =>
    have own := h.own place (List.mem_of_getElem? here)
    have own' := Place.own_turn own sound.callers
    rcases place.frees_turn s.memory with ⟨none, freed⟩ | ⟨freed, l, g, within, returned, frees⟩
    · apply h.move here own' gone
      · intro n about
        rw [none] at about
        cases about
      · rw [frees_of_place here]
        exact freed
    · have stand : s.stands i = .at l := by
        rw [stands_of_place here]
        rcases within with rfl | rfl <;> rfl
      obtain ⟨guard, apart⟩ : l.guard = g ∧ callers ≤ g.node := by
        rcases within with rfl | rfl <;> exact own
      have used : ¬ s.Gone g.node := fun unused => unused.2 i ⟨g, by rw [stand, ← guard]; rfl, rfl⟩
      refine h.move here own' gone ?_ (.inl freed)
      intro n about
      obtain rfl : g.node = n := Option.some.inj (frees.symm.trans about)
      refine ⟨apart, ?_, ?_, ?_⟩
      · have left := gone_of_released sound stand returned
        rwa [act_turn here, guard] at left
      · rw [freed]
        exact fun mem => used (h.freed _ mem).2
      · exact fun j _ theirs => used (h.freeing j _ theirs).2.1

theorem shed (locks callers users : Nat) (actions : List Action) :
    (after locks callers users actions).Shed callers := by
  induction actions with
  | nil =>
    have frees (i : Nat) : (after locks callers users []).frees i = none := by
      rw [frees, after, List.getElem?_replicate]
      split <;> rfl
    refine ⟨?_, ?_, ?_, ?_, List.nodup_nil⟩
    · intro p hp
      rw [List.eq_of_mem_replicate hp]
      trivial
    · intro i n about
      rw [frees] at about
      cases about
    · intro n mem
      cases mem
    · intro i j n about
      rw [frees] at about
      cases about
  | cons a earlier ih => exact ih.acts (sound locks callers users earlier) (acts _ callers a)

theorem freed_acts {move : Move} (step : Acts callers s i move s') :
    s.memory.freed ⊆ s'.memory.freed := by
  cases step with
  | rest | bring | own | giveUp => exact List.Subset.refl _
  | @turn place here =>
    rcases place.frees_turn s.memory with ⟨-, freed | ⟨n, -, freed⟩⟩ | ⟨freed, -⟩
    · exact freed ▸ List.Subset.refl _
    · exact freed ▸ List.subset_cons_self n _
    · exact freed ▸ List.Subset.refl _

theorem freed_after (locks callers users : Nat) (earlier later : List Action) :
    (after locks callers users earlier).memory.freed ⊆
      (after locks callers users (later ++ earlier)).memory.freed := by
  induction later with
  | nil => exact List.Subset.refl _
  | cons a later ih => exact List.Subset.trans ih (freed_acts (acts _ callers a))

end Scene

end Freed

/-- What becomes of a node that has been given back. -/
structure Disposable (locks callers users : Nat) : Prop where
  /-- Once its release has returned, no action of anybody reads or writes its fields until it is brought
  again, which cannot happen to a node that a lock has allocated. -/
  released : ∀ (earlier later : List Action) (i : Nat) (l : Label),
    let s := Scene.after locks callers users earlier
    s.stands i = .at l → (step l s.memory).2 = .returned .released →
    (∀ a ∈ later, ∀ g, a.move = .bring g → g.node = l.guard.node → callers ≤ g.node) →
    let t := Scene.after locks callers users (later ++ ⟨i, .turn⟩ :: earlier)
    (∀ a, t.Spares callers a l.guard.node) ∧
      t.memory.node l.guard.node =
        (Scene.after locks callers users (⟨i, .turn⟩ :: earlier)).memory.node l.guard.node
  /-- A node is freed once, and nobody reads or writes it ever after. -/
  freed : ∀ (earlier later : List Action) (n : Nat),
    n ∈ (Scene.after locks callers users earlier).memory.freed →
    let t := Scene.after locks callers users (later ++ earlier)
    callers ≤ n ∧ t.memory.freed.count n = 1 ∧ ∀ a, t.Spares callers a n

/-- However users come and go and their steps interleave, a node may be brought again or freed as soon as
its release has returned. -/
theorem nodes_disposable (locks callers users : Nat) : Disposable locks callers users where
  released := by
    intro earlier later i l s here returned unbrought
    have sound := Scene.sound locks callers users
    have gone : (Scene.after locks callers users (⟨i, .turn⟩ :: earlier)).Gone l.guard.node :=
      Scene.gone_of_released (sound earlier) here returned
    obtain ⟨gone, same⟩ := Scene.gone_after gone
      fun a ha g move node => node ▸ unbrought a ha g move node
    exact ⟨gone.spares (sound _), same⟩
  freed := by
    intro earlier later n mem
    have shed := Scene.shed locks callers users (later ++ earlier)
    have mem := Scene.freed_after locks callers users earlier later mem
    obtain ⟨apart, gone⟩ := shed.freed n mem
    exact ⟨apart, List.count_eq_one_of_mem shed.distinct mem,
      gone.spares (Scene.sound locks callers users _)⟩

/-- User 1 links its node behind the one of user 0, which could not release before. Then user 0 hands over
and takes another lock with the same node, while user 1 holds the first. -/
example :
    let earlier : List Action := [⟨0, .turn⟩, ⟨1, .turn⟩, ⟨0, .turn⟩, ⟨0, .turn⟩, ⟨0, .giveUp⟩,
      ⟨1, .turn⟩, ⟨1, .turn⟩, ⟨1, .turn⟩, ⟨1, .turn⟩, ⟨1, .own 0⟩,
      ⟨0, .turn⟩, ⟨0, .turn⟩, ⟨0, .turn⟩, ⟨0, .bring ⟨0, 0⟩⟩]
    let s := Scene.after 2 1 2 earlier
    let t := Scene.after 2 1 2 ([⟨0, .turn⟩, ⟨0, .turn⟩, ⟨0, .turn⟩, ⟨0, .bring ⟨1, 0⟩⟩, ⟨1, .turn⟩,
      ⟨0, .turn⟩] ++ earlier)
    s.stands 0 = .at (.pass ⟨0, 0⟩ 1) ∧ t.stands 0 = .holds ⟨1, 0⟩ ∧ t.stands 1 = .holds ⟨0, 1⟩ := by
  decide

end SharedMemory.QueueLock
