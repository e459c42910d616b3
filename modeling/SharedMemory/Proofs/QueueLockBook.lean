import SharedMemory.Proofs.QueueLockLine

/-!
# The record of a queue lock

What users do with a lock is recorded: who swapped a node in, who came through the entrance, and who
handed the lock on or cleared the tail. The line of a lock are those that have swapped a node in and
have not left. `Kept` ties the record to the line, and `Inv.turn` shows that a step of any user keeps it
for every lock.
-/
namespace SharedMemory.QueueLock

/-- What a user has done with a lock: an exit tells to which node the lock was handed. -/
inductive Deed
  | swapped (user : Nat) (g : Guard)
  | entered (user : Nat) (g : Guard)
  | left (user : Nat) (g : Guard) (heir : Option Nat)

/-- The node that a step hands the lock to. -/
def Label.hands? : Label → Option Nat
  | .pass _ next => some next
  | _ => none

@[simp] def Label.swapDeeds (user : Nat) : Label → List Deed
  | .swap g => [.swapped user g]
  | _ => []

@[simp] def Label.returnDeeds (user : Nat) (l : Label) : Status Label (LockAnswer Guard) → List Deed
  | .returned (.acquired g) => [.entered user g]
  | .returned .released => [.left user l.guard l.hands?]
  | _ => []

def deedsAt (user : Nat) (l : Label) (m : Memory) : List Deed :=
  l.swapDeeds user ++ l.returnDeeds user (step l m).2

structure Book where
  swaps : List Spot
  entries : List Spot
  exits : List (Spot × Option Nat)

namespace Book

def ofDeeds (lock : Nat) (deeds : List Deed) : Book where
  swaps := deeds.filterMap fun
    | .swapped i g => if g.lock = lock then some ⟨i, g.node⟩ else none
    | _ => none
  entries := deeds.filterMap fun
    | .entered i g => if g.lock = lock then some ⟨i, g.node⟩ else none
    | _ => none
  exits := deeds.filterMap fun
    | .left i g heir => if g.lock = lock then some (⟨i, g.node⟩, heir) else none
    | _ => none

def append (b c : Book) : Book := ⟨b.swaps ++ c.swaps, b.entries ++ c.entries, b.exits ++ c.exits⟩

theorem ofDeeds_append (lock : Nat) (deeds more : List Deed) :
    ofDeeds lock (deeds ++ more) = (ofDeeds lock deeds).append (ofDeeds lock more) := by
  simp [ofDeeds, append]

variable (b : Book) (i : Nat) (g : Guard) (heir : Option Nat)

@[simp] theorem append_none : b.append ⟨[], [], []⟩ = b := by
  simp [append]

@[simp] theorem ofDeeds_nil (lock : Nat) : ofDeeds lock [] = ⟨[], [], []⟩ := rfl

@[simp] theorem ofDeeds_swapped : ofDeeds g.lock [.swapped i g] = ⟨[⟨i, g.node⟩], [], []⟩ := by
  simp [ofDeeds]

@[simp] theorem ofDeeds_entered : ofDeeds g.lock [.entered i g] = ⟨[], [⟨i, g.node⟩], []⟩ := by
  simp [ofDeeds]

@[simp] theorem ofDeeds_swapped_entered :
    ofDeeds g.lock [.swapped i g, .entered i g] = ⟨[⟨i, g.node⟩], [⟨i, g.node⟩], []⟩ := by
  simp [ofDeeds]

@[simp] theorem ofDeeds_left :
    ofDeeds g.lock [.left i g heir] = ⟨[], [], [(⟨i, g.node⟩, heir)]⟩ := by
  simp [ofDeeds]

end Book

/-- Of a line, those that are inside: no one but the first may be. -/
def entered (stands : Nat → Stand) : List Spot → List Spot
  | a :: _ => if (stands a.user).inside?.isSome then [a] else []
  | [] => []

/-- What the record of one lock says of its line, and the line of the memory and the users. -/
structure Kept (stands : Nat → Stand) (m : Memory) (lock : Nat) (b : Book) (line : List Spot) :
    Prop where
  shows : Line stands m lock line
  member : ∀ a, a ∈ line ↔ (stands a.user).queued? = some (a.guard lock)
  distinct : line.Nodup
  tail : m.tail lock = line.getLast?.map Spot.node
  swaps : b.swaps = b.exits.map Prod.fst ++ line
  entries : b.entries = b.exits.map Prod.fst ++ entered stands line
  handed : ∀ (k : Nat) (a : Spot) (n : Nat), b.exits[k]? = some (a, some n) →
    ∃ c, b.swaps[k + 1]? = some c ∧ c.node = n
  given : ∀ a, line.head? = some a → entered stands line = [] →
    ∃ c, b.exits.getLast? = some (c, some a.node)

section Kept

variable {stands stands' : Nat → Stand} {m m' : Memory} {lock i : Nat} {b b' : Book} {a c : Spot}
  {line rest : List Spot} {s : Stand}

theorem Kept.users (h : Kept stands m lock b line) : (line.map Spot.user).Nodup := by
  refine h.distinct.map_on fun a ha c hc same => ?_
  have first := (h.member a).mp ha
  rw [same, (h.member c).mp hc] at first
  cases a
  cases c
  cases same
  cases first
  rfl

theorem entered_congr (h : ∀ a ∈ line, stands' a.user = stands a.user) :
    entered stands' line = entered stands line := by
  cases line with
  | nil => rfl
  | cons a rest => rw [entered, entered, h a List.mem_cons_self]

theorem entered_cons (h : (stands a.user).inside?.isSome) : entered stands (a :: rest) = [a] := by
  rw [entered, if_pos h]

theorem entered_cons_of_not (h : (stands a.user).inside? = none) : entered stands (a :: rest) = [] := by
  rw [entered, h]
  rfl

/-- The record of a lock does not see what happens elsewhere. -/
theorem Kept.frame (h : Kept stands m lock b line)
    (users : ∀ a ∈ line, stands' a.user = stands a.user)
    (queued : ∀ a : Spot, (stands' a.user).queued? = some (a.guard lock) ↔
      (stands a.user).queued? = some (a.guard lock))
    (nodes : ∀ a ∈ line, m'.node a.node = m.node a.node) (tail : m'.tail lock = m.tail lock) :
    Kept stands' m' lock b line where
  shows := h.shows.frame users nodes
  member a := (h.member a).trans (queued a).symm
  distinct := h.distinct
  tail := tail.trans h.tail
  swaps := h.swaps
  entries := by rw [entered_congr users, h.entries]
  handed := h.handed
  given a first none := h.given a first (by rw [← none, entered_congr users])

theorem queued_update (same : s.queued? = (stands i).queued?) (j : Nat) :
    (Function.update stands i s j).queued? = (stands j).queued? := by
  by_cases hj : j = i
  · rw [hj, Function.update_self, same]
  · rw [Function.update_of_ne hj]

theorem Kept.advance (h : Kept stands m lock b (a :: rest)) (queued : s.queued? = some (a.guard lock))
    (inside : s.inside?.isSome) (first : First (Function.update stands a.user s) m lock a rest)
    (swaps : b'.swaps = b.swaps) (exits : b'.exits = b.exits)
    (entries : b'.entries = b.exits.map Prod.fst ++ [a]) :
    Kept (Function.update stands a.user s) m lock b' (a :: rest) := by
  have users := h.users
  rw [List.map_cons, List.nodup_cons] at users
  have others : ∀ c ∈ rest, c.user ≠ a.user :=
    fun c hc same => users.1 (same ▸ List.mem_map_of_mem hc)
  have same : s.queued? = (stands a.user).queued? :=
    queued.trans ((h.member a).mp List.mem_cons_self).symm
  have come : entered (Function.update stands a.user s) (a :: rest) = [a] :=
    entered_cons (by rwa [Function.update_self])
  refine ⟨h.shows.advance others rfl first, ?_, h.distinct, h.tail, ?_, ?_, ?_, ?_⟩
  · intro c
    rw [queued_update same]
    exact h.member c
  · rw [swaps, exits, h.swaps]
  · rw [entries, exits, come]
  · rw [swaps, exits]
    exact h.handed
  · intro _ _ none
    rw [come] at none
    cases none

theorem Kept.member_join (h : Kept stands m lock b line) (out : (stands c.user).queued? = none)
    (queued : s.queued? = some (c.guard lock)) (x : Spot) :
    x ∈ line ++ [c] ↔ (Function.update stands c.user s x.user).queued? = some (x.guard lock) := by
  rw [List.mem_append, List.mem_singleton, h.member]
  by_cases same : x.user = c.user
  · rw [same, Function.update_self, out, queued]
    constructor
    · rintro (none | rfl)
      · cases none
      · rfl
    · intro eq
      cases x
      cases c
      cases same
      cases eq
      exact .inr rfl
  · rw [Function.update_of_ne same]
    refine or_iff_left ?_
    rintro rfl
    exact same rfl

theorem Kept.out_of_line (h : Kept stands m lock b line) (out : (stands c.user).queued? = none) :
    ∀ a ∈ line, a.user ≠ c.user := by
  intro a ha same
  have queued := (h.member a).mp ha
  rw [same, out] at queued
  cases queued

theorem Kept.distinct_join (h : Kept stands m lock b line) (out : (stands c.user).queued? = none) :
    (line ++ [c]).Nodup := by
  rw [List.nodup_append]
  refine ⟨h.distinct, List.nodup_singleton c, ?_⟩
  intro a ha d hd
  rw [List.mem_singleton.mp hd]
  rintro rfl
  exact h.out_of_line out a ha rfl

theorem handed_append (h : ∀ (k : Nat) (a : Spot) (n : Nat), b.exits[k]? = some (a, some n) →
    ∃ c, b.swaps[k + 1]? = some c ∧ c.node = n) (more : List Spot) (k : Nat) (a : Spot) (n : Nat)
    (hk : b.exits[k]? = some (a, some n)) :
    ∃ c, (b.swaps ++ more)[k + 1]? = some c ∧ c.node = n := by
  obtain ⟨c, hc, node⟩ := h k a n hk
  refine ⟨c, ?_, node⟩
  rw [List.getElem?_append_left (List.getElem?_eq_some_iff.mp hc).1, hc]

/-- A user finds no tail and is in. -/
theorem Kept.enter (h : Kept stands m lock b []) (out : (stands c.user).queued? = none)
    (bound : lock < m.tails.length) (last : (m.node c.node).next = none) :
    Kept (Function.update stands c.user (.holds (c.guard lock))) (m.setTail lock (some c.node)) lock
      (b.append ⟨[c], [c], []⟩) [c] := by
  have here := Function.update_self c.user (Stand.holds (c.guard lock)) stands
  have come : entered (Function.update stands c.user (.holds (c.guard lock))) [c] = [c] :=
    entered_cons (by rw [here]; rfl)
  have exits : (b.append ⟨[c], [c], []⟩).exits = b.exits := List.append_nil _
  refine ⟨⟨.holds here, last⟩, h.member_join out rfl, h.distinct_join out, ?_, ?_, ?_, ?_, ?_⟩
  · exact Memory.tail_setTail_self bound _
  · rw [exits, Book.append, h.swaps, List.append_nil]
  · rw [exits, Book.append, h.entries, come, entered, List.append_nil]
  · rw [exits]
    exact handed_append h.handed [c]
  · intro _ _ none
    rw [come] at none
    cases none

/-- A user finds a tail and is behind all others. -/
theorem Kept.join {before : Spot} (h : Kept stands m lock b line) (tail : line.getLast? = some before)
    (out : (stands c.user).queued? = none) (bound : lock < m.tails.length)
    (up : (m.node c.node).locked = true) (last : (m.node c.node).next = none) :
    Kept (Function.update stands c.user (.at (.link (c.guard lock) before.node)))
      (m.setTail lock (some c.node)) lock (b.append ⟨[c], [], []⟩) (line ++ [c]) := by
  have others := h.out_of_line out
  have exits : (b.append ⟨[c], [], []⟩).exits = b.exits := List.append_nil _
  have come : entered (Function.update stands c.user (.at (.link (c.guard lock) before.node)))
      (line ++ [c]) = entered stands line := by
    cases line with
    | nil => cases tail
    | cons a rest =>
      rw [List.cons_append, entered, entered, Function.update_of_ne (others a List.mem_cons_self)]
  refine ⟨h.shows.join others rfl tail up last, h.member_join out rfl, h.distinct_join out, ?_, ?_, ?_,
    ?_, ?_⟩
  · rw [Memory.tail_setTail_self bound, List.getLast?_concat, Option.map_some]
  · rw [exits, Book.append, h.swaps, List.append_assoc]
  · rw [exits, come, Book.append, h.entries, List.append_nil]
  · rw [exits]
    exact handed_append h.handed [c]
  · intro a first none
    rw [exits]
    refine h.given a ?_ (come.symm.trans none)
    cases line with
    | nil => cases tail
    | cons d rest => exact first

theorem Kept.link {n : Nat} (h : Kept stands m lock b line) (mem : c ∈ line)
    (here : stands c.user = .at (.link (c.guard lock) n)) (nodes : (line.map Spot.node).Nodup)
    (bound : n < m.nodes.size) :
    Kept (Function.update stands c.user (.at (.spin (c.guard lock)))) (m.setNext n (some c.node)) lock b
      line := by
  have same : (Stand.at (.spin (c.guard lock))).queued? = (stands c.user).queued? := by
    rw [here]
    rfl
  have come : entered (Function.update stands c.user (.at (.spin (c.guard lock)))) line =
      entered stands line := by
    cases line with
    | nil => rfl
    | cons a rest =>
      rw [entered, entered]
      by_cases first : a.user = c.user
      · rw [first, Function.update_self, here]
        rfl
      · rw [Function.update_of_ne first]
  refine ⟨h.shows.link mem here h.users nodes bound, ?_, h.distinct, h.tail, h.swaps, ?_, h.handed, ?_⟩
  · intro a
    rw [queued_update same]
    exact h.member a
  · rw [come, h.entries]
  · exact fun a first none => h.given a first (come.symm.trans none)

theorem Kept.member_leave (h : Kept stands m lock b (a :: rest)) (x : Spot) :
    x ∈ rest ↔ (Function.update stands a.user .away x.user).queued? = some (x.guard lock) := by
  have users := h.users
  rw [List.map_cons, List.nodup_cons] at users
  by_cases same : x.user = a.user
  · rw [same, Function.update_self]
    refine iff_of_false (fun mem => users.1 ?_) nofun
    exact same ▸ List.mem_map_of_mem mem
  · rw [Function.update_of_ne same, ← h.member, List.mem_cons]
    refine (or_iff_right ?_).symm
    rintro rfl
    exact same rfl

/-- One more exit, whose lock went to the node of the user next in line if to any. -/
theorem handed_concat {heir : Option Nat} (h : ∀ (k : Nat) (a : Spot) (n : Nat),
      b.exits[k]? = some (a, some n) → ∃ c, b.swaps[k + 1]? = some c ∧ c.node = n)
    (next : ∀ n, heir = some n → ∃ d, b.swaps[b.exits.length + 1]? = some d ∧ d.node = n)
    (k : Nat) (a' : Spot) (n : Nat) (hk : (b.exits ++ [(a, heir)])[k]? = some (a', some n)) :
    ∃ c, b.swaps[k + 1]? = some c ∧ c.node = n := by
  rw [List.getElem?_append] at hk
  split at hk
  · exact h k a' n hk
  · have last := (List.getElem?_eq_some_iff.mp hk).1
    rw [List.length_singleton] at last
    obtain rfl : k = b.exits.length := by omega
    rw [Nat.sub_self, List.getElem?_cons_zero, Option.some.injEq, Prod.mk.injEq] at hk
    exact next n hk.2

theorem Kept.clear (h : Kept stands m lock b [a]) (inside : (stands a.user).inside?.isSome)
    (bound : lock < m.tails.length) :
    Kept (Function.update stands a.user .away) (m.setTail lock none) lock
      (b.append ⟨[], [], [(a, none)]⟩) [] := by
  have swaps : (b.append ⟨[], [], [(a, none)]⟩).swaps = b.swaps := List.append_nil _
  have entries : (b.append ⟨[], [], [(a, none)]⟩).entries = b.entries := List.append_nil _
  refine ⟨trivial, h.member_leave, List.nodup_nil, ?_, ?_, ?_, ?_, nofun⟩
  · exact Memory.tail_setTail_self bound _
  · rw [swaps, h.swaps, Book.append, List.map_append, List.append_nil]
    rfl
  · rw [entries, h.entries, entered_cons inside, entered, Book.append, List.map_append, List.append_nil]
    rfl
  · rw [swaps]
    exact handed_concat h.handed nofun

theorem Kept.pass {d : Spot} (h : Kept stands m lock b (a :: d :: rest))
    (here : stands a.user = .at (.pass (a.guard lock) d.node))
    (nodes : ((a :: d :: rest).map Spot.node).Nodup) (bound : d.node < m.nodes.size) :
    Kept (Function.update stands a.user .away) (m.setLocked d.node false) lock
      (b.append ⟨[], [], [(a, some d.node)]⟩) (d :: rest) := by
  have users := h.users
  have swaps : (b.append ⟨[], [], [(a, some d.node)]⟩).swaps = b.swaps := List.append_nil _
  have entries : (b.append ⟨[], [], [(a, some d.node)]⟩).entries = b.entries := List.append_nil _
  have next : b.swaps[b.exits.length + 1]? = some d := by
    rw [h.swaps, List.getElem?_append_right (by simp), List.length_map, Nat.add_sub_cancel_left]
    rfl
  have stays : entered (Function.update stands a.user .away) (d :: rest) = [] := by
    apply entered_cons_of_not
    obtain ⟨-, waits⟩ := h.shows.2.waits List.mem_cons_self
    rw [Function.update_of_ne]
    · obtain ⟨_, _, link⟩ | spin := waits
      · rw [link]
        rfl
      · rw [spin]
        rfl
    · intro same
      rw [List.map_cons, List.nodup_cons, List.map_cons, same] at users
      exact users.1 List.mem_cons_self
  refine ⟨h.shows.pass here users nodes bound, h.member_leave, h.distinct.of_cons, ?_, ?_, ?_, ?_, ?_⟩
  · rw [Memory.tail_setLocked, h.tail, List.getLast?_cons_cons]
  · rw [swaps, h.swaps, Book.append, List.map_append, List.append_assoc]
    rfl
  · rw [entries, h.entries, stays, entered_cons (by rw [here]; rfl), Book.append, List.map_append,
      List.append_nil]
    rfl
  · rw [swaps]
    refine handed_concat h.handed ?_
    rintro n ⟨⟩
    exact ⟨d, next, rfl⟩
  · rintro c ⟨⟩ -
    exact ⟨a, List.getLast?_concat⟩

/-- A user moves that is in the line neither before nor after. -/
theorem Kept.aside (h : Kept stands m lock b line)
    (before : ∀ g, (stands i).queued? = some g → g.lock ≠ lock)
    (after : ∀ g, s.queued? = some g → g.lock ≠ lock)
    (nodes : ∀ a ∈ line, m'.node a.node = m.node a.node) (tail : m'.tail lock = m.tail lock) :
    Kept (Function.update stands i s) m' lock b line := by
  refine h.frame (fun a ha => ?_) (fun a => ?_) nodes tail
  · refine Function.update_of_ne ?_ _ _
    rintro rfl
    exact before _ ((h.member a).mp ha) rfl
  · by_cases same : a.user = i
    · rw [same, Function.update_self]
      exact iff_of_false (fun eq => after _ eq rfl) fun eq => before _ eq rfl
    · rw [Function.update_of_ne same]

end Kept

section Step

variable {m : Memory} {l : Label} {i : Nat}

def Label.written? : Label → Option Nat
  | .unlink g | .raise g => some g.node
  | .link _ n | .pass _ n => some n
  | _ => none

theorem step_node {n : Nat} (h : l.written? ≠ some n) : (step l m).1.node n = m.node n := by
  cases l with
  | unlink g => exact node_setNext_of_ne (fun same => h (congrArg some same)) _
  | raise g => exact node_setLocked_of_ne (fun same => h (congrArg some same)) _
  | link g before => exact node_setNext_of_ne (fun same => h (congrArg some same)) _
  | pass g next => exact node_setLocked_of_ne (fun same => h (congrArg some same)) _
  | clear g =>
    rw [step]
    split <;> rfl
  | swap g | spin g | look g | await g => rfl

theorem step_tail {lock : Nat} (h : l.guard.lock ≠ lock) : (step l m).1.tail lock = m.tail lock := by
  cases l with
  | swap g => exact Memory.tail_setTail_ne h _
  | clear g =>
    rw [step]
    split
    · exact Memory.tail_setTail_ne h _
    · rfl
  | unlink g | raise g | link g before | spin g | look g | await g | pass g next => rfl

theorem step_sizes (l : Label) (m : Memory) :
    (step l m).1.tails.length = m.tails.length ∧ (step l m).1.nodes.size = m.nodes.size := by
  cases l with
  | swap g => exact ⟨List.length_set, rfl⟩
  | clear g =>
    rw [step]
    split
    · exact ⟨List.length_set, rfl⟩
    · exact ⟨rfl, rfl⟩
  | unlink g | raise g | link g before | pass g next => exact ⟨rfl, Array.size_modify⟩
  | spin g | look g | await g => exact ⟨rfl, rfl⟩

theorem step_status (l : Label) (m : Memory) :
    (∃ l', (step l m).2 = .running l' ∧ l'.guard = l.guard) ∨
      (step l m).2 = .returned (.acquired l.guard) ∨ (step l m).2 = .returned .released := by
  cases l with
  | unlink g | raise g | link g before => exact .inl ⟨_, rfl, rfl⟩
  | pass g next => exact .inr (.inr rfl)
  | swap g =>
    cases tail : m.tail g.lock with
    | none => exact .inr (.inl (by simp only [step, tail]; rfl))
    | some before => exact .inl ⟨.link g before, by simp only [step, tail], rfl⟩
  | spin g =>
    cases up : (m.node g.node).locked with
    | false => exact .inr (.inl (by simp only [step, up]; rfl))
    | true => exact .inl ⟨.spin g, by simp only [step, up]; rfl, rfl⟩
  | look g =>
    cases next : (m.node g.node).next with
    | none => exact .inl ⟨.clear g, by simp only [step, next], rfl⟩
    | some n => exact .inl ⟨.pass g n, by simp only [step, next], rfl⟩
  | await g =>
    cases next : (m.node g.node).next with
    | none => exact .inl ⟨.await g, by simp only [step, next], rfl⟩
    | some n => exact .inl ⟨.pass g n, by simp only [step, next], rfl⟩
  | clear g =>
    by_cases last : m.tail g.lock = some g.node
    · exact .inr (.inr (by simp only [step, if_pos last]))
    · exact .inl ⟨.await g, by simp only [step, if_neg last], rfl⟩

theorem guard_after {g : Guard} (h : (Stand.after (step l m).2).guard? = some g) : g = l.guard := by
  obtain ⟨l', status, same⟩ | status | status := step_status l m
  all_goals rw [status] at h
  · exact (Option.some.inj h).symm.trans same
  · exact (Option.some.inj h).symm
  · cases h

/-- The writes that prepare a node come before the swap. -/
theorem unlink_of_raise {g : Guard} (h : Stand.after (step l m).2 = .at (.raise g)) :
    l = .unlink g := by
  unfold step Stand.after at h
  grind

theorem raise_of_swap {g : Guard} (h : Stand.after (step l m).2 = .at (.swap g)) : l = .raise g := by
  unfold step Stand.after at h
  grind

theorem deedsAt_elsewhere {lock : Nat} (h : l.guard.lock ≠ lock) :
    Book.ofDeeds lock (deedsAt i l m) = ⟨[], [], []⟩ := by
  have swapped : Book.ofDeeds lock (l.swapDeeds i) = ⟨[], [], []⟩ := by
    cases l with
    | swap g => simp [Label.swapDeeds, Book.ofDeeds, show g.lock ≠ lock from h]
    | unlink | raise | link | spin | look | clear | await | pass => rfl
  rw [deedsAt, Book.ofDeeds_append, swapped]
  obtain ⟨l', status, same⟩ | status | status := step_status l m
  all_goals simp [status, Label.returnDeeds, Book.ofDeeds, Book.append, h]

end Step

/-- What holds of every scene. -/
structure Inv (stands : Nat → Stand) (m : Memory) (deeds : List Deed) : Prop where
  bound : ∀ i g, (stands i).guard? = some g → g.lock < m.tails.length ∧ g.node < m.nodes.size
  owned : ∀ i j g k, (stands i).guard? = some g → (stands j).guard? = some k → g.node = k.node → i = j
  unlinked : ∀ i g, stands i = .at (.raise g) ∨ stands i = .at (.swap g) → (m.node g.node).next = none
  raised : ∀ i g, stands i = .at (.swap g) → (m.node g.node).locked = true
  kept : ∀ lock, ∃ line, Kept stands m lock (.ofDeeds lock deeds) line

section Inv

variable {stands : Nat → Stand} {m m' : Memory} {deeds : List Deed} {lock i j : Nat} {b : Book}
  {line : List Spot} {l : Label} {g : Guard} {s : Stand}

theorem Stand.guard_of_queued (h : s.queued? = some g) : s.guard? = some g := by
  unfold queued? at h
  split at h
  · cases h
  · cases h
  · cases h
  · exact h

theorem Inv.nodes (h : Inv stands m deeds) (kept : Kept stands m lock b line) :
    (line.map Spot.node).Nodup := by
  refine kept.distinct.map_on fun a ha c hc same => ?_
  have user := h.owned a.user c.user _ _ (Stand.guard_of_queued ((kept.member a).mp ha))
    (Stand.guard_of_queued ((kept.member c).mp hc)) same
  cases a
  cases c
  cases user
  cases same
  rfl

/-- A step in a line writes to the nodes of that line. -/
theorem Line.written {n : Nat} {c : Spot} (h : Line stands m lock line) (mem : c ∈ line)
    (here : stands c.user = .at l) (queued : (stands c.user).queued? = some (c.guard lock))
    (written : l.written? = some n) : ∃ a ∈ line, a.node = n := by
  cases line with
  | nil => cases mem
  | cons a rest =>
    rw [here] at queued
    rcases List.mem_cons.mp mem with rfl | mem
    · cases h.1 with
      | @passes b _ at_c linked =>
        rw [here] at at_c
        cases at_c
        exact ⟨b, List.mem_cons_of_mem _ List.mem_cons_self, Option.some.inj written⟩
      | handed at_c | looks at_c | clears at_c | awaits at_c =>
        rw [here] at at_c
        cases at_c
        cases written
      | holds at_c =>
        rw [here] at at_c
        cases at_c
    · obtain ⟨-, ⟨b, hb, link⟩ | spin⟩ := h.2.waits mem
      · rw [here] at link
        cases link
        exact ⟨b, hb, Option.some.inj written⟩
      · rw [here] at spin
        cases spin
        cases written

theorem Inv.written {n : Nat} (h : Inv stands m deeds) (here : stands i = .at l)
    (written : l.written? = some n) :
    n = l.guard.node ∨ (stands i).queued? = some l.guard ∧
      ∃ j k, (stands j).queued? = some k ∧ k.lock = l.guard.lock ∧ k.node = n := by
  by_cases queued : (stands i).queued? = some l.guard
  · obtain ⟨line, kept⟩ := h.kept l.guard.lock
    have mem : ⟨i, l.guard.node⟩ ∈ line := (kept.member _).mpr queued
    obtain ⟨a, ha, node⟩ := kept.shows.written mem here queued written
    exact .inr ⟨queued, a.user, a.guard l.guard.lock, (kept.member a).mp ha, rfl, node⟩
  · refine .inl ?_
    rw [here] at queued
    cases l with
    | unlink g | raise g => exact (Option.some.inj written).symm
    | link | swap | spin | look | clear | await | pass =>
      first | exact absurd rfl queued | cases written

/-- No step writes to the node of a user that is not in the same line. -/
theorem Inv.unwritten (h : Inv stands m deeds) (here : stands i = .at l) (other : j ≠ i)
    (guard : (stands j).guard? = some g)
    (apart : (stands j).queued? = some g → (stands i).queued? = some l.guard → g.lock ≠ l.guard.lock) :
    l.written? ≠ some g.node := by
  intro written
  rcases h.written here written with own | ⟨queued, j', k, hj', lock, node⟩
  · exact other (h.owned j i g l.guard guard (by rw [here]; rfl) own)
  · have same := h.owned j' j k g (Stand.guard_of_queued hj') guard node
    subst same
    have : k = g := Option.some.inj ((Stand.guard_of_queued hj').symm.trans guard)
    subst this
    exact apart hj' queued lock

theorem Inv.turn_aside (h : Inv stands m deeds) (here : stands i = .at l)
    (kept : Kept stands m lock b line) (before : ∀ k, (stands i).queued? = some k → k.lock ≠ lock)
    (after : ∀ k, s.queued? = some k → k.lock ≠ lock)
    (tail : (step l m).1.tail lock = m.tail lock) :
    Kept (Function.update stands i s) (step l m).1 lock b line := by
  refine kept.aside before after (fun a ha => step_node ?_) tail
  have queued := (kept.member a).mp ha
  refine h.unwritten here ?_ (Stand.guard_of_queued queued) ?_
  · rintro rfl
    exact before _ queued rfl
  · exact fun _ mine => (before _ mine).symm

theorem Stand.queued_of_inside (h : s.inside? = some g) : s.queued? = some g := by
  unfold inside? at h
  split at h
  · cases h
  · cases h
  · exact h

theorem Kept.front (h : Kept stands m g.lock b line) (inside : (stands i).inside? = some g) :
    ∃ rest, line = ⟨i, g.node⟩ :: rest := by
  have mem : ⟨i, g.node⟩ ∈ line := (h.member _).mpr (Stand.queued_of_inside inside)
  apply h.shows.first mem
  · rintro n link
    rw [link] at inside
    cases inside
  · intro spin
    rw [spin] at inside
    cases inside

theorem Kept.stay {rest : List Spot} (h : Kept stands m g.lock b (⟨i, g.node⟩ :: rest))
    (before : (stands i).inside? = some g) (after : s.inside? = some g)
    (first : First (Function.update stands i s) m g.lock ⟨i, g.node⟩ rest) :
    Kept (Function.update stands i s) m g.lock b (⟨i, g.node⟩ :: rest) := by
  have come : entered stands (⟨i, g.node⟩ :: rest) = [⟨i, g.node⟩] := entered_cons (by rw [before]; rfl)
  refine h.advance (Stand.queued_of_inside after) (by rw [after]; rfl) first rfl rfl ?_
  rw [h.entries, come]

/-- A waiter's flag is down only for the first of the line. -/
theorem Kept.come (h : Kept stands m g.lock b line) (here : stands i = .at (.spin g))
    (down : (m.node g.node).locked = false) :
    Kept (Function.update stands i (.holds g)) m g.lock (b.append ⟨[], [⟨i, g.node⟩], []⟩) line := by
  have mem : ⟨i, g.node⟩ ∈ line := (h.member _).mpr (by rw [here]; rfl)
  obtain ⟨rest, rfl⟩ : ∃ rest, line = ⟨i, g.node⟩ :: rest := by
    apply h.shows.first mem
    · rintro n link
      rw [here] at link
      cases link
    · exact fun _ => down
  refine h.advance rfl rfl (.holds (Function.update_self _ _ _)) ?_ ?_ ?_
  · exact List.append_nil _
  · exact List.append_nil _
  · have out : entered stands (⟨i, g.node⟩ :: rest) = [] := entered_cons_of_not (by rw [here]; rfl)
    rw [Book.append, h.entries, out]
    simp

/-- Who finds no successor goes on to look at the tail. -/
theorem Kept.doubt (h : Kept stands m g.lock b line) (inside : (stands i).inside? = some g) :
    Kept (Function.update stands i (.at (.clear g))) m g.lock b line := by
  obtain ⟨rest, rfl⟩ := h.front inside
  exact h.stay inside rfl (.clears (Function.update_self _ _ _))

/-- Who finds a successor goes on to hand it the lock. -/
theorem Kept.find {n : Nat} (h : Kept stands m g.lock b line) (inside : (stands i).inside? = some g)
    (next : (m.node g.node).next = some n) :
    Kept (Function.update stands i (.at (.pass g n))) m g.lock b line := by
  obtain ⟨rest, rfl⟩ := h.front inside
  obtain ⟨d, more, rfl, rfl⟩ := h.shows.2.next next
  exact h.stay inside rfl (.passes (Function.update_self _ _ _) next)

/-- While the user is the last of its line the tail is its node, and clearing it frees the lock. -/
theorem Inv.clear_kept (h : Inv stands m deeds) (kept : Kept stands m g.lock b line)
    (here : stands i = .at (.clear g)) (last : m.tail g.lock = some g.node) :
    Kept (Function.update stands i .away) (m.setTail g.lock none) g.lock
      (b.append ⟨[], [], [(⟨i, g.node⟩, none)]⟩) [] := by
  have inside : (stands i).inside? = some g := by
    rw [here]
    rfl
  obtain ⟨rest, rfl⟩ := kept.front inside
  have nodes := h.nodes kept
  cases rest with
  | nil => exact kept.clear (by rw [inside]; rfl) (h.bound i g (by rw [here]; rfl)).1
  | cons d rest =>
    -- with others behind, the tail is a node of theirs
    rw [kept.tail, List.getLast?_cons_cons] at last
    obtain ⟨a, ha, node⟩ := Option.map_eq_some_iff.mp last
    rw [List.map_cons, List.nodup_cons] at nodes
    refine absurd ?_ nodes.1
    exact List.mem_map.mpr ⟨a, List.mem_of_getLast? ha, node⟩

theorem Kept.wait (h : Kept stands m g.lock b line) (here : stands i = .at (.clear g))
    (last : m.tail g.lock ≠ some g.node) :
    Kept (Function.update stands i (.at (.await g))) m g.lock b line := by
  have inside : (stands i).inside? = some g := by
    rw [here]
    rfl
  obtain ⟨rest, rfl⟩ := h.front inside
  cases rest with
  | nil => exact absurd h.tail last
  | cons d rest => exact h.stay inside rfl (.awaits (Function.update_self _ _ _))

theorem Inv.pass_kept {n : Nat} (h : Inv stands m deeds) (kept : Kept stands m g.lock b line)
    (here : stands i = .at (.pass g n)) :
    ∃ line, Kept (Function.update stands i .away) (m.setLocked n false) g.lock
      (b.append ⟨[], [], [(⟨i, g.node⟩, some n)]⟩) line := by
  obtain ⟨rest, rfl⟩ := kept.front (by rw [here]; rfl)
  obtain ⟨d, more, rfl, rfl⟩ : ∃ d more, rest = d :: more ∧ d.node = n := by
    cases kept.shows.1 with
    | @passes d more at_i =>
      rw [here] at at_i
      cases at_i
      exact ⟨d, more, rfl, rfl⟩
    | handed at_i | holds at_i | looks at_i | clears at_i | awaits at_i =>
      rw [here] at at_i
      cases at_i
  have queued := (kept.member d).mp (List.mem_cons_of_mem _ List.mem_cons_self)
  have bound := h.bound d.user _ (Stand.guard_of_queued queued)
  exact ⟨_, kept.pass here (h.nodes kept) bound.2⟩

theorem Inv.swap_kept (h : Inv stands m deeds) (kept : Kept stands m g.lock b line)
    (here : stands i = .at (.swap g)) :
    ∃ line, Kept (Function.update stands i (.after (step (.swap g) m).2)) (step (.swap g) m).1 g.lock
      (b.append (.ofDeeds g.lock (deedsAt i (.swap g) m))) line := by
  have out : (stands (Spot.mk i g.node).user).queued? = none := by
    rw [here]
    rfl
  have bound := (h.bound i g (by rw [here]; rfl)).1
  have last := h.unlinked i g (.inr here)
  cases tail : line.getLast? with
  | none =>
    obtain rfl := List.getLast?_eq_none_iff.mp tail
    have found : m.tail g.lock = none := kept.tail
    refine ⟨[⟨i, g.node⟩], ?_⟩
    simpa [deedsAt, step, found, Stand.after, Spot.guard] using kept.enter out bound last
  | some before =>
    have found : m.tail g.lock = some before.node := by
      rw [kept.tail, tail]
      rfl
    refine ⟨line ++ [⟨i, g.node⟩], ?_⟩
    have up := h.raised i g here
    simpa [deedsAt, step, found, Stand.after, Spot.guard] using kept.join tail out bound up last

/-- What one step does to the line of the lock it is about. -/
theorem Inv.turn_here (h : Inv stands m deeds) (here : stands i = .at l) (guard : l.guard = g)
    (kept : Kept stands m g.lock b line) :
    ∃ line, Kept (Function.update stands i (.after (step l m).2)) (step l m).1 g.lock
      (b.append (.ofDeeds g.lock (deedsAt i l m))) line := by
  have same : Function.update stands i (.at l) = stands := by
    rw [← here]
    exact Function.update_eq_self i stands
  cases l with
  | unlink k | raise k =>
    have nowhere : ∀ k, (stands i).queued? = some k → k.lock ≠ g.lock := by
      rw [here]
      nofun
    exact ⟨line, b.append_none.symm ▸ h.turn_aside here kept nowhere nofun rfl⟩
  | swap k =>
    obtain rfl : k = g := guard
    exact h.swap_kept kept here
  | link k n =>
    obtain rfl : k = g := guard
    have mem : ⟨i, k.node⟩ ∈ line := (kept.member _).mpr (by rw [here]; rfl)
    obtain ⟨a, ha, rfl⟩ := kept.shows.written mem here (by rw [here]; rfl) rfl
    have bound := h.bound a.user _ (Stand.guard_of_queued ((kept.member a).mp ha))
    exact ⟨line, b.append_none.symm ▸ kept.link mem here (h.nodes kept) bound.2⟩
  | spin k =>
    obtain rfl : k = g := guard
    refine ⟨line, ?_⟩
    cases up : (m.node k.node).locked with
    | true => simpa [deedsAt, step, up, Stand.after, same] using kept
    | false => simpa [deedsAt, step, up, Stand.after] using kept.come here up
  | look k =>
    obtain rfl : k = g := guard
    refine ⟨line, ?_⟩
    have inside : (stands i).inside? = some k := by
      rw [here]
      rfl
    cases next : (m.node k.node).next with
    | none => simpa [deedsAt, step, next, Stand.after] using kept.doubt inside
    | some n => simpa [deedsAt, step, next, Stand.after] using kept.find inside next
  | clear k =>
    obtain rfl : k = g := guard
    by_cases last : m.tail k.lock = some k.node
    · refine ⟨[], ?_⟩
      simpa [deedsAt, step, last, Stand.after, Label.guard, Label.hands?] using
        h.clear_kept kept here last
    · refine ⟨line, ?_⟩
      simpa [deedsAt, step, last, Stand.after] using kept.wait here last
  | await k =>
    obtain rfl : k = g := guard
    refine ⟨line, ?_⟩
    cases next : (m.node k.node).next with
    | none => simpa [deedsAt, step, next, Stand.after, same] using kept
    | some n => simpa [deedsAt, step, next, Stand.after] using kept.find (by rw [here]; rfl) next
  | pass k n =>
    obtain rfl : k = g := guard
    simpa [deedsAt, step, Stand.after, Label.guard, Label.hands?] using h.pass_kept kept here

theorem guard_turn (here : stands i = .at l)
    (h : (Function.update stands i (.after (step l m).2) j).guard? = some g) :
    (stands j).guard? = some g := by
  by_cases same : j = i
  · rw [same, Function.update_self] at h
    rw [same, here]
    exact congrArg some (guard_after h).symm
  · rwa [Function.update_of_ne same] at h

/-- Nobody else writes to a node that is being prepared. -/
theorem Inv.prepared_turn (h : Inv stands m deeds) (here : stands i = .at l) (other : j ≠ i)
    (prepares : stands j = .at (.raise g) ∨ stands j = .at (.swap g)) :
    (step l m).1.node g.node = m.node g.node := by
  apply step_node
  rcases prepares with at_j | at_j
  all_goals exact h.unwritten here other (by rw [at_j]; rfl) (by rw [at_j]; nofun)

theorem Inv.kept_turn (h : Inv stands m deeds) (here : stands i = .at l) (lock : Nat) :
    ∃ line, Kept (Function.update stands i (.after (step l m).2)) (step l m).1 lock
      (.ofDeeds lock (deeds ++ deedsAt i l m)) line := by
  obtain ⟨line, kept⟩ := h.kept lock
  rw [Book.ofDeeds_append]
  by_cases same : l.guard.lock = lock
  · subst same
    exact h.turn_here here rfl kept
  · rw [deedsAt_elsewhere same, Book.append_none]
    refine ⟨line, h.turn_aside here kept (fun k hk => ?_) (fun k hk => ?_) (step_tail same)⟩
    · have guard := Stand.guard_of_queued hk
      rw [here] at guard
      cases guard
      exact same
    · rw [guard_after (Stand.guard_of_queued hk)]
      exact same

theorem Inv.turn (h : Inv stands m deeds) (here : stands i = .at l) :
    Inv (Function.update stands i (.after (step l m).2)) (step l m).1 (deeds ++ deedsAt i l m) := by
  have own := h.bound i l.guard (by rw [here]; rfl)
  constructor
  · intro j k hk
    rw [(step_sizes l m).1, (step_sizes l m).2]
    exact h.bound j k (guard_turn here hk)
  · intro j j' k k' hk hk'
    exact h.owned j j' k k' (guard_turn here hk) (guard_turn here hk')
  · intro j k at_j
    by_cases same : j = i
    · rw [same, Function.update_self] at at_j
      rcases at_j with at_j | at_j
      · obtain rfl := unlink_of_raise at_j
        exact next_setNext_self own.2 none
      · obtain rfl := raise_of_swap at_j
        exact (next_setLocked m _ _ _).trans (h.unlinked i k (.inl here))
    · rw [Function.update_of_ne same] at at_j
      rw [h.prepared_turn here same at_j]
      exact h.unlinked j k at_j
  · intro j k at_j
    by_cases same : j = i
    · rw [same, Function.update_self] at at_j
      obtain rfl := raise_of_swap at_j
      exact locked_setLocked_self own.2 true
    · rw [Function.update_of_ne same] at at_j
      rw [h.prepared_turn here same (.inr at_j)]
      exact h.raised j k at_j
  · exact h.kept_turn here

/-- Nobody has come yet. -/
theorem Inv.free (away : ∀ i, stands i = .away) (tail : ∀ lock, m.tail lock = none) :
    Inv stands m [] := by
  have guard (i : Nat) : (stands i).guard? = none := by
    rw [away]
    rfl
  constructor
  · intro i g hg
    rw [guard] at hg
    cases hg
  · intro i j g k hg
    rw [guard] at hg
    cases hg
  · intro i g at_i
    rw [away] at at_i
    rcases at_i with ⟨⟨⟩⟩ | ⟨⟨⟩⟩
  · intro i g at_i
    rw [away] at at_i
    cases at_i
  · refine fun lock => ⟨[], trivial, ?_, List.nodup_nil, tail lock, rfl, rfl, nofun, nofun⟩
    intro a
    rw [away]
    exact iff_of_false List.not_mem_nil nofun

/-- Memory may change where no user and no lock looks. -/
theorem Inv.apart (h : Inv stands m deeds) (nodes : m'.node = m.node) (tails : m'.tails = m.tails)
    (size : m.nodes.size ≤ m'.nodes.size) : Inv stands m' deeds := by
  constructor
  · intro i g hg
    rw [tails]
    exact ⟨(h.bound i g hg).1, Nat.lt_of_lt_of_le (h.bound i g hg).2 size⟩
  · exact h.owned
  · rw [nodes]
    exact h.unlinked
  · rw [nodes]
    exact h.raised
  · intro lock
    obtain ⟨line, kept⟩ := h.kept lock
    refine ⟨line, kept.frame (fun _ _ => rfl) (fun _ => Iff.rfl) (fun _ _ => by rw [nodes]) ?_⟩
    rw [Memory.tail, tails]
    rfl

theorem of_update {t : Stand} (h : Function.update stands i s j = t) (other : s ≠ t) :
    stands j = t := by
  by_cases same : j = i
  · rw [same, Function.update_self] at h
    exact absurd h other
  · rwa [Function.update_of_ne same] at h

/-- A user moves between two calls to the locks, so that no node is prepared or swapped in. -/
theorem Inv.move (h : Inv stands m deeds)
    (bound : ∀ j k, (Function.update stands i s j).guard? = some k →
      k.lock < m.tails.length ∧ k.node < m.nodes.size)
    (owned : ∀ j j' k k', (Function.update stands i s j).guard? = some k →
      (Function.update stands i s j').guard? = some k' → k.node = k'.node → j = j')
    (raise : ∀ k, s ≠ .at (.raise k)) (swap : ∀ k, s ≠ .at (.swap k))
    (kept : ∀ lock b line, Kept stands m lock b line →
      Kept (Function.update stands i s) m lock b line) :
    Inv (Function.update stands i s) m deeds where
  bound := bound
  owned := owned
  unlinked j k at_j := h.unlinked j k (at_j.imp (of_update · (raise k)) (of_update · (swap k)))
  raised j k at_j := h.raised j k (of_update at_j (swap k))
  kept lock := (h.kept lock).imp fun line => kept lock _ line

theorem Inv.start (h : Inv stands m deeds) (here : stands i = .away) (lock : g.lock < m.tails.length)
    (node : g.node < m.nodes.size)
    (free : ∀ j k, (stands j).guard? = some k → k.node ≠ g.node) :
    Inv (Function.update stands i (.at g.acquire)) m deeds := by
  have guard (j : Nat) (k : Guard)
      (hk : (Function.update stands i (.at g.acquire) j).guard? = some k) :
      j = i ∧ k = g ∨ (stands j).guard? = some k ∧ k.node ≠ g.node := by
    by_cases same : j = i
    · rw [same, Function.update_self] at hk
      exact .inl ⟨same, (Option.some.inj hk).symm⟩
    · rw [Function.update_of_ne same] at hk
      exact .inr ⟨hk, free j k hk⟩
  apply h.move
  · intro j k hk
    rcases guard j k hk with ⟨-, rfl⟩ | ⟨hk, -⟩
    · exact ⟨lock, node⟩
    · exact h.bound j k hk
  · intro j j' k k' hk hk' same
    rcases guard j k hk with ⟨rfl, rfl⟩ | ⟨hk, other⟩ <;>
      rcases guard j' k' hk' with ⟨rfl, rfl⟩ | ⟨hk', other'⟩
    · rfl
    · exact absurd same.symm other'
    · exact absurd same other
    · exact h.owned j j' k k' hk hk' same
  · nofun
  · nofun
  · intro lock b line kept
    refine kept.aside ?_ nofun (fun _ _ => rfl) rfl
    rw [here]
    nofun

theorem Inv.release (h : Inv stands m deeds) (here : stands i = .holds g) :
    Inv (Function.update stands i (.at g.release)) m deeds := by
  have same : (Stand.at g.release).guard? = (stands i).guard? := by
    rw [here]
    rfl
  have guard (j : Nat) : (Function.update stands i (.at g.release) j).guard? = (stands j).guard? := by
    by_cases hj : j = i
    · rw [hj, Function.update_self, same]
    · rw [Function.update_of_ne hj]
  apply h.move
  · intro j
    rw [guard]
    exact h.bound j
  · intro j k
    rw [guard, guard]
    exact h.owned j k
  · nofun
  · nofun
  · intro lock b line kept
    by_cases mine : g.lock = lock
    · subst mine
      have inside : (stands i).inside? = some g := by
        rw [here]
        rfl
      obtain ⟨rest, rfl⟩ := kept.front inside
      exact kept.stay inside rfl (.looks (Function.update_self _ _ _))
    · refine kept.aside ?_ ?_ (fun _ _ => rfl) rfl
      · rw [here]
        rintro k ⟨⟩
        exact mine
      · rintro k ⟨⟩
        exact mine

end Inv

end SharedMemory.QueueLock
