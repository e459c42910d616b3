import Mathlib.Data.List.Nodup
import Mathlib.Logic.Function.Basic
import SharedMemory.QueueLock

/-!
# The line of waiters of a queue lock

Nothing in the memory of a queue lock holds its queue as a whole: a waiter has swapped its node in
before the node in front points to it. `Line` says how a list of users and their nodes, in the order of
their swaps, shows in the memory and in where the users stand. The first user has the lock or has been
handed it; every later one waits for the user before it, with its flag up, and is linked once it spins.
-/
namespace SharedMemory.QueueLock

def Label.guard : Label → Guard
  | .unlink g | .raise g | .swap g | .link g _ | .spin g => g
  | .look g | .clear g | .await g | .pass g _ => g

/-- Where a user stands with the locks: in the code that takes or gives back one, or between these. -/
inductive Stand | away | at (l : Label) | holds (g : Guard)
  deriving DecidableEq

namespace Stand

def guard? : Stand → Option Guard
  | .away => none
  | .at l => some l.guard
  | .holds g => some g

/-- The guard of a user that has swapped its node in and has still to hand over or to clear the tail. -/
def queued? : Stand → Option Guard
  | .at (.unlink _) | .at (.raise _) | .at (.swap _) => none
  | s => s.guard?

/-- The guard of a user that has come through the entrance. -/
def inside? : Stand → Option Guard
  | .at (.link _ _) | .at (.spin _) => none
  | s => s.queued?

def after : Status Label (LockAnswer Guard) → Stand
  | .running l => .at l
  | .returned (.acquired g) => .holds g
  | .returned _ => .away

end Stand

structure Spot where
  user : Nat
  node : Nat
  deriving DecidableEq

section Line

variable (stands : Nat → Stand) (m : Memory) (lock : Nat)

def Spot.guard (a : Spot) : Guard := ⟨lock, a.node⟩

def Behind : Spot → List Spot → Prop
  | before, [] => (m.node before.node).next = none
  | before, a :: rest =>
    (m.node a.node).locked = true ∧
      (stands a.user = .at (.link (a.guard lock) before.node) ∧ (m.node before.node).next = none ∨
        stands a.user = .at (.spin (a.guard lock)) ∧ (m.node before.node).next = some a.node) ∧
      Behind a rest

/-- Where the first user of a line may stand. -/
inductive First (a : Spot) : List Spot → Prop
  | handed {rest : List Spot} (here : stands a.user = .at (.spin (a.guard lock)))
      (down : (m.node a.node).locked = false) : First a rest
  | holds {rest : List Spot} (here : stands a.user = .holds (a.guard lock)) : First a rest
  | looks {rest : List Spot} (here : stands a.user = .at (.look (a.guard lock))) : First a rest
  | clears {rest : List Spot} (here : stands a.user = .at (.clear (a.guard lock))) : First a rest
  | awaits {b : Spot} {rest : List Spot} (here : stands a.user = .at (.await (a.guard lock))) :
      First a (b :: rest)
  | passes {b : Spot} {rest : List Spot}
      (here : stands a.user = .at (.pass (a.guard lock) b.node))
      (linked : (m.node a.node).next = some b.node) : First a (b :: rest)

def Line : List Spot → Prop
  | [] => True
  | a :: rest => First stands m lock a rest ∧ Behind stands m lock a rest

end Line

section Frame

variable {stands stands' : Nat → Stand} {m m' : Memory} {lock : Nat} {a before : Spot}
  {rest line : List Spot}

theorem Behind.frame (h : Behind stands m lock before rest)
    (users : ∀ a ∈ rest, stands' a.user = stands a.user)
    (front : (m'.node before.node).next = (m.node before.node).next)
    (nodes : ∀ a ∈ rest, m'.node a.node = m.node a.node) : Behind stands' m' lock before rest := by
  induction rest generalizing before with
  | nil =>
    rw [Behind, front]
    exact h
  | cons a rest ih =>
    obtain ⟨up, linked, behind⟩ := h
    have same := nodes a List.mem_cons_self
    rw [Behind, same, users a List.mem_cons_self, front]
    refine ⟨up, linked, ih behind ?_ (congrArg _ same) ?_⟩
    · exact fun b hb => users b (List.mem_cons_of_mem _ hb)
    · exact fun b hb => nodes b (List.mem_cons_of_mem _ hb)

theorem First.frame (h : First stands m lock a rest) (user : stands' a.user = stands a.user)
    (node : m'.node a.node = m.node a.node) : First stands' m' lock a rest := by
  cases h with
  | handed here down => exact .handed (user.trans here) (node ▸ down)
  | holds here => exact .holds (user.trans here)
  | looks here => exact .looks (user.trans here)
  | clears here => exact .clears (user.trans here)
  | awaits here => exact .awaits (user.trans here)
  | passes here linked => exact .passes (user.trans here) (node ▸ linked)

/-- A line does not see what others do elsewhere. -/
theorem Line.frame (h : Line stands m lock line) (users : ∀ a ∈ line, stands' a.user = stands a.user)
    (nodes : ∀ a ∈ line, m'.node a.node = m.node a.node) : Line stands' m' lock line := by
  cases line with
  | nil => trivial
  | cons a rest =>
    obtain ⟨first, behind⟩ := h
    have same := nodes a List.mem_cons_self
    refine ⟨first.frame (users a List.mem_cons_self) same, behind.frame ?_ (congrArg _ same) ?_⟩
    · exact fun b hb => users b (List.mem_cons_of_mem _ hb)
    · exact fun b hb => nodes b (List.mem_cons_of_mem _ hb)

/-- Who is behind waits, with its flag up. -/
theorem Behind.waits (h : Behind stands m lock before rest) (mem : a ∈ rest) :
    (m.node a.node).locked = true ∧
      ((∃ b ∈ before :: rest, stands a.user = .at (.link (a.guard lock) b.node)) ∨
        stands a.user = .at (.spin (a.guard lock))) := by
  induction rest generalizing before with
  | nil => cases mem
  | cons b rest ih =>
    obtain ⟨up, linked, behind⟩ := h
    rcases List.mem_cons.mp mem with rfl | mem
    · refine ⟨up, linked.imp ?_ And.left⟩
      exact fun here => ⟨before, List.mem_cons_self, here.1⟩
    · obtain ⟨up', waits⟩ := ih behind mem
      refine ⟨up', waits.imp_left ?_⟩
      rintro ⟨c, hc, here⟩
      exact ⟨c, List.mem_cons_of_mem _ hc, here⟩

theorem Behind.unlinked {n : Nat} (h : Behind stands m lock before rest) (mem : a ∈ rest)
    (here : stands a.user = .at (.link (a.guard lock) n)) : (m.node n).next = none := by
  induction rest generalizing before with
  | nil => cases mem
  | cons b rest ih =>
    obtain ⟨_, linked, behind⟩ := h
    rcases List.mem_cons.mp mem with rfl | mem
    · rcases linked with ⟨link, none⟩ | ⟨spin, _⟩
      · rw [here] at link
        cases link
        exact none
      · rw [here] at spin
        cases spin
    · exact ih behind mem

theorem Behind.next {n : Nat} (h : Behind stands m lock before rest)
    (linked : (m.node before.node).next = some n) : ∃ b more, rest = b :: more ∧ b.node = n := by
  cases rest with
  | nil =>
    have last : (m.node before.node).next = none := h
    rw [last] at linked
    cases linked
  | cons b more =>
    refine ⟨b, more, rfl, ?_⟩
    rcases h.2.1 with ⟨_, none⟩ | ⟨_, next⟩
    · rw [none] at linked
      cases linked
    · exact Option.some.inj (next.symm.trans linked)

/-- Who does not wait with its flag up is the first. -/
theorem Line.first (h : Line stands m lock line) (mem : a ∈ line)
    (link : ∀ n, stands a.user ≠ .at (.link (a.guard lock) n))
    (spin : stands a.user = .at (.spin (a.guard lock)) → (m.node a.node).locked = false) :
    ∃ rest, line = a :: rest := by
  cases line with
  | nil => cases mem
  | cons b rest =>
    rcases List.mem_cons.mp mem with rfl | mem
    · exact ⟨rest, rfl⟩
    · obtain ⟨up, ⟨c, _, here⟩ | here⟩ := h.2.waits mem
      · exact absurd here (link c.node)
      · rw [spin here] at up
        cases up

end Frame

section Moves

variable {stands : Nat → Stand} {m m' : Memory} {lock : Nat} {a b c before : Spot}
  {rest line : List Spot} {s : Stand}

theorem Line.advance (h : Line stands m lock (a :: rest)) (others : ∀ b ∈ rest, b.user ≠ a.user)
    (nodes : m'.node = m.node)
    (first : First (Function.update stands a.user s) m' lock a rest) :
    Line (Function.update stands a.user s) m' lock (a :: rest) := by
  refine ⟨first, h.2.frame ?_ (by rw [nodes]) fun b _ => by rw [nodes]⟩
  exact fun b hb => Function.update_of_ne (others b hb) _ _

/-- One more user behind all others, with its flag up and nobody behind it. -/
theorem Behind.concat (h : Behind stands m lock before rest)
    (here : stands c.user = .at (.link (c.guard lock) (rest.getLast?.getD before).node))
    (up : (m.node c.node).locked = true) (last : (m.node c.node).next = none) :
    Behind stands m lock before (rest ++ [c]) := by
  induction rest generalizing before with
  | nil => exact ⟨up, .inl ⟨here, h⟩, last⟩
  | cons b rest ih =>
    rw [List.getLast?_cons, Option.getD_some] at here
    exact ⟨h.1, h.2.1, ih h.2.2 here⟩

theorem First.append (h : First stands m lock a rest) (more : List Spot) :
    First stands m lock a (rest ++ more) := by
  cases h with
  | handed here down => exact .handed here down
  | holds here => exact .holds here
  | looks here => exact .looks here
  | clears here => exact .clears here
  | awaits here => exact .awaits here
  | passes here linked => exact .passes here linked

theorem Line.join (h : Line stands m lock line) (others : ∀ b ∈ line, b.user ≠ c.user)
    (nodes : m'.node = m.node) (tail : line.getLast? = some before)
    (up : (m.node c.node).locked = true) (last : (m.node c.node).next = none) :
    Line (Function.update stands c.user (.at (.link (c.guard lock) before.node))) m' lock
      (line ++ [c]) := by
  cases line with
  | nil => cases tail
  | cons a rest =>
    rw [List.getLast?_cons] at tail
    have same : rest.getLast?.getD a = before := Option.some.inj tail
    have framed : Line (Function.update stands c.user (.at (.link (c.guard lock) before.node))) m' lock
        (a :: rest) :=
      h.frame (fun b hb => Function.update_of_ne (others b hb) _ _) fun b _ => by rw [nodes]
    refine ⟨framed.1.append [c], framed.2.concat ?_ ?_ ?_⟩
    · rw [Function.update_self, same]
    · rw [nodes, up]
    · rw [nodes, last]

@[simp] theorem locked_setNext (m : Memory) (n k : Nat) (next : Option Nat) :
    ((m.setNext n next).node k).locked = (m.node k).locked := by
  rw [Memory.node_setNext]
  split <;> rfl

@[simp] theorem next_setLocked (m : Memory) (n k : Nat) (locked : Bool) :
    ((m.setLocked n locked).node k).next = (m.node k).next := by
  rw [Memory.node_setLocked]
  split <;> rfl

theorem node_setNext_of_ne {m : Memory} {n k : Nat} (h : n ≠ k) (next : Option Nat) :
    (m.setNext n next).node k = m.node k := by
  rw [Memory.node_setNext, if_neg fun same => h same.1]

theorem node_setLocked_of_ne {m : Memory} {n k : Nat} (h : n ≠ k) (locked : Bool) :
    (m.setLocked n locked).node k = m.node k := by
  rw [Memory.node_setLocked, if_neg fun same => h same.1]

theorem next_setNext_self {m : Memory} {n : Nat} (h : n < m.nodes.size) (next : Option Nat) :
    ((m.setNext n next).node n).next = next := by
  rw [Memory.node_setNext, if_pos ⟨rfl, h⟩]

theorem locked_setLocked_self {m : Memory} {n : Nat} (h : n < m.nodes.size) (locked : Bool) :
    ((m.setLocked n locked).node n).locked = locked := by
  rw [Memory.node_setLocked, if_pos ⟨rfl, h⟩]

theorem Behind.link {n : Nat} (h : Behind stands m lock before rest) (mem : c ∈ rest)
    (here : stands c.user = .at (.link (c.guard lock) n))
    (users : (rest.map Spot.user).Nodup) (nodes : ((before :: rest).map Spot.node).Nodup)
    (bound : n < m.nodes.size) :
    Behind (Function.update stands c.user (.at (.spin (c.guard lock))))
      (m.setNext n (some c.node)) lock before rest := by
  induction rest generalizing before with
  | nil => cases mem
  | cons a rest ih =>
    obtain ⟨up, linked, behind⟩ := h
    rw [List.map_cons, List.nodup_cons] at users nodes
    rcases List.mem_cons.mp mem with rfl | mem
    · -- the node in front is the one that `c` found as the tail
      obtain rfl : before.node = n := by
        rcases linked with ⟨link, _⟩ | ⟨spin, _⟩
        · rw [here] at link
          cases link
          rfl
        · rw [here] at spin
          cases spin
      have unchanged : ∀ d ∈ c :: rest, before.node ≠ d.node := by
        intro d hd same
        exact nodes.1 (same ▸ List.mem_map_of_mem hd)
      refine ⟨by simpa using up, .inr ⟨by simp, next_setNext_self bound _⟩, behind.frame ?_ ?_ ?_⟩
      · intro d hd
        refine Function.update_of_ne (fun same => users.1 ?_) _ _
        exact same ▸ List.mem_map_of_mem hd
      · rw [node_setNext_of_ne (unchanged c List.mem_cons_self)]
      · exact fun d hd => node_setNext_of_ne (unchanged d (List.mem_cons_of_mem _ hd)) _
    · have front : n ≠ before.node := by
        rintro rfl
        obtain ⟨_, ⟨d, hd, link⟩ | spin⟩ := behind.waits mem
        · rw [here] at link
          simp only [Stand.at.injEq, Label.link.injEq, true_and] at link
          exact nodes.1 (link ▸ List.mem_map_of_mem hd)
        · rw [here] at spin
          cases spin
      have other : a.user ≠ c.user := by
        intro same
        exact users.1 (same ▸ List.mem_map_of_mem mem)
      refine ⟨by simpa using up, ?_, ih behind mem users.2 nodes.2⟩
      rw [Function.update_of_ne other, node_setNext_of_ne front]
      exact linked

/-- The waiter that links is not the first, and the first stays where it is. -/
theorem Line.link {n : Nat} (h : Line stands m lock line) (mem : c ∈ line)
    (here : stands c.user = .at (.link (c.guard lock) n))
    (users : (line.map Spot.user).Nodup) (nodes : (line.map Spot.node).Nodup)
    (bound : n < m.nodes.size) :
    Line (Function.update stands c.user (.at (.spin (c.guard lock))))
      (m.setNext n (some c.node)) lock line := by
  cases line with
  | nil => cases mem
  | cons a rest =>
    obtain ⟨first, behind⟩ := h
    have mem : c ∈ rest := by
      rcases List.mem_cons.mp mem with rfl | mem
      · cases first with
        | handed at_c | holds at_c | looks at_c | clears at_c | awaits at_c | passes at_c =>
          rw [here] at at_c
          cases at_c
      · exact mem
    rw [List.map_cons, List.nodup_cons] at users
    have other : a.user ≠ c.user := by
      intro same
      exact users.1 (same ▸ List.mem_map_of_mem mem)
    refine ⟨?_, behind.link mem here users.2 nodes bound⟩
    have user := Function.update_of_ne other (Stand.at (.spin (c.guard lock))) stands
    cases first with
    | handed at_a down => exact .handed (user.trans at_a) (by simpa using down)
    | holds at_a => exact .holds (user.trans at_a)
    | looks at_a => exact .looks (user.trans at_a)
    | clears at_a => exact .clears (user.trans at_a)
    | awaits at_a => exact .awaits (user.trans at_a)
    | passes at_a linked =>
      have front : n ≠ a.node := by
        rintro rfl
        rw [behind.unlinked mem here] at linked
        cases linked
      exact .passes (user.trans at_a) (by rw [node_setNext_of_ne front, linked])

theorem Line.pass (h : Line stands m lock (a :: b :: rest))
    (here : stands a.user = .at (.pass (a.guard lock) b.node))
    (users : ((a :: b :: rest).map Spot.user).Nodup) (nodes : ((a :: b :: rest).map Spot.node).Nodup)
    (bound : b.node < m.nodes.size) :
    Line (Function.update stands a.user s) (m.setLocked b.node false) lock (b :: rest) := by
  obtain ⟨first, up, linked, behind⟩ := h
  have next : (m.node a.node).next = some b.node := by
    cases first with
    | passes _ next => exact next
    | handed at_a | holds at_a | looks at_a | clears at_a | awaits at_a =>
      rw [here] at at_a
      cases at_a
  have spins : stands b.user = .at (.spin (b.guard lock)) := by
    rcases linked with ⟨_, none⟩ | ⟨spin, _⟩
    · rw [next] at none
      cases none
    · exact spin
  simp only [List.map_cons, List.nodup_cons] at users nodes
  have others : ∀ c ∈ b :: rest, Function.update stands a.user s c.user = stands c.user := by
    intro c hc
    refine Function.update_of_ne (fun same => users.1 ?_) _ _
    rw [← same, ← List.map_cons]
    exact List.mem_map_of_mem hc
  refine ⟨.handed ?_ (locked_setLocked_self bound false), ?_⟩
  · rw [others b List.mem_cons_self, spins]
  · apply behind.frame
    · exact fun c hc => others c (List.mem_cons_of_mem _ hc)
    · simp
    · intro c hc
      refine node_setLocked_of_ne (fun same => nodes.2.1 ?_) _
      exact same ▸ List.mem_map_of_mem hc

end Moves

end SharedMemory.QueueLock
