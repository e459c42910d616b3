import SharedMemory.Proofs.NodeLifetime

/-!
# Giving up the guard of a queue lock

A guard is dropped, or handed to a lock to be released. A lock that is not the guard's panics, and as the
panic unwinds the guard is dropped all the same. So whichever lock a guard is handed to, tails and nodes
become what they would if it were dropped, and all of that concerns the guard's own lock: a step of the
code of one lock leaves the tails of the others alone, and every node but those in the lock's own queue.
-/
namespace SharedMemory.QueueLock

inductive Exit | drop | release (lock : Nat)
  deriving DecidableEq

namespace Exit

/-- Where the code of the guard's lock is entered, and the panic that unwinds meanwhile. -/
def enter (g : Guard) : Exit → Label × Option Panic
  | .drop => (g.release, none)
  | .release lock => g.releaseThrough lock

/-- The guard is handed to another lock than its own. -/
def Foreign (g : Guard) (e : Exit) : Prop := ∃ lock, e = .release lock ∧ lock ≠ g.lock

theorem enter_label (e : Exit) (g : Guard) : (e.enter g).1 = g.release := by
  cases e <;> rfl

theorem enter_panic (e : Exit) (g : Guard) :
    e.Foreign g ∧ (e.enter g).2 = some .foreignGuard ∨ ¬ e.Foreign g ∧ (e.enter g).2 = none := by
  cases e with
  | drop => exact .inr ⟨nofun, rfl⟩
  | release lock =>
    by_cases same : lock = g.lock
    · right
      refine ⟨?_, if_pos same⟩
      rintro ⟨other, ⟨⟩, foreign⟩
      exact foreign same
    · exact .inl ⟨⟨lock, rfl, same⟩, if_neg same⟩

end Exit

structure Ending where
  user : Nat
  guard : Guard
  exit : Exit
  panic : Option Panic
  deriving DecidableEq

/-- Where a user stands. While it gives up a guard, a panic may be unwinding. -/
inductive Post
  | free (p : Place)
  | giving (e : Exit) (g : Guard) (l : Label) (panic : Option Panic)

namespace Post

def place : Post → Place
  | .free p => p
  | .giving _ _ l _ => .inl (.leaving l)

/-- Only the guard of a caller's node can be handed to a lock. -/
def give (e : Exit) : Post → Post
  | .free (.inl (.holding g)) => .giving e g (e.enter g).1 (e.enter g).2
  | .free p => .free p.giveUp
  | .giving e g l panic => .giving e g l panic

def turn (user : Nat) (m : Memory) : Post → Memory × Post × List Ending
  | .free p => ((p.turn m).1, .free (p.turn m).2, [])
  | .giving e g l panic =>
    match step l m with
    | (m, .running l) => (m, .giving e g l panic, [])
    | (m, .returned _) => (m, .free (.inl .outside), [⟨user, g, e, panic⟩])

end Post

inductive Intent | bring (g : Guard) | own (lock : Nat) | give (e : Exit) | turn

/-- The same move, where guards are all dropped. -/
def Intent.move : Intent → Move
  | .bring g => .bring g
  | .own lock => .own lock
  | .give _ => .giveUp
  | .turn => .turn

structure Act where
  user : Nat
  intent : Intent

def Act.action (a : Act) : Action := ⟨a.user, a.intent.move⟩

/-- The endings are listed oldest first. -/
structure Hall where
  memory : Memory
  posts : List Post
  endings : List Ending := []

namespace Hall

def places (h : Hall) : List Place := h.posts.map Post.place

def stands (h : Hall) (i : Nat) : Stand := (h.posts[i]?).elim .away fun p => p.place.stand

/-- The first `callers` nodes are the users' own. A node is brought only while nobody uses it. -/
def act (callers : Nat) (a : Act) (h : Hall) : Hall :=
  match h.posts[a.user]? with
  | none => h
  | some post =>
    match a.intent with
    | .bring g =>
      if post.place.idle ∧ g.lock < h.memory.tails.length ∧ g.node < callers ∧
          ∀ p ∈ h.places, p.stand.guard?.map Guard.node ≠ some g.node then
        { h with posts := h.posts.set a.user (.free (.inl (.entering g.acquire))) }
      else h
    | .own lock =>
      if post.place.idle ∧ lock < h.memory.tails.length then
        { h with posts := h.posts.set a.user (.free (.inr (.entering (.allocate lock)))) }
      else h
    | .give e => { h with posts := h.posts.set a.user (post.give e) }
    | .turn =>
      let (memory, post, endings) := post.turn a.user h.memory
      ⟨memory, h.posts.set a.user post, h.endings ++ endings⟩

def after (locks callers users : Nat) : List Act → Hall
  | [] => ⟨.ofSizes locks callers, List.replicate users (.free (.inl .outside)), []⟩
  | a :: earlier => (after locks callers users earlier).act callers a

end Hall

section Dropped

variable {m : Memory} {h : Hall} {s : Scene} {callers : Nat}

theorem Post.place_give (e : Exit) (p : Post) : (p.give e).place = p.place.giveUp := by
  rcases p with ((_ | l | g | l) | (_ | l | g | l)) | ⟨e', g, l, panic⟩
  case free.inl.holding =>
    rw [give, place, Exit.enter_label]
    rfl
  all_goals rfl

theorem Post.place_turn (p : Post) (user : Nat) (m : Memory) :
    (p.turn user m).1 = (p.place.turn m).1 ∧ (p.turn user m).2.1.place = (p.place.turn m).2 := by
  cases p with
  | free p => exact ⟨rfl, rfl⟩
  | giving e g l panic =>
    simp only [turn, place, Place.turn, tick, onCallerNodes]
    rcases step l m with ⟨m', l' | a⟩ <;> exact ⟨rfl, rfl⟩

theorem Hall.places_set (h : Hall) (m : Memory) (i : Nat) (p : Post) (endings : List Ending) :
    (Hall.mk m (h.posts.set i p) endings).places = h.places.set i p.place :=
  List.map_set

structure Hall.Shows (h : Hall) (s : Scene) : Prop where
  memory : s.memory = h.memory
  places : s.places = h.places

/-- Who sees only memory and places cannot tell how the guards are given up. -/
theorem Hall.Shows.act (same : h.Shows s) (a : Act) :
    (h.act callers a).Shows (s.act callers a.action) := by
  obtain ⟨user, intent⟩ := a
  obtain ⟨memory, places⟩ := same
  have here : s.places[user]? = h.posts[user]?.map Post.place := by
    rw [places, Hall.places, List.getElem?_map]
  cases at_user : h.posts[user]? with
  | none =>
    rw [at_user] at here
    simp only [Hall.act, Scene.act, Act.action, at_user, here, Option.map_none]
    exact ⟨memory, places⟩
  | some post =>
    rw [at_user, Option.map_some] at here
    simp only [Hall.act, Scene.act, Act.action, at_user, here, memory]
    cases intent with
    | bring g =>
      simp only [Intent.move, places]
      split
      · refine ⟨rfl, ?_⟩
        rw [Hall.places_set]
        rfl
      · exact ⟨memory, places⟩
    | own lock =>
      simp only [Intent.move, places]
      split
      · refine ⟨rfl, ?_⟩
        rw [Hall.places_set]
        rfl
      · exact ⟨memory, places⟩
    | give e =>
      refine ⟨rfl, ?_⟩
      rw [Hall.places_set, Post.place_give, places]
      rfl
    | turn =>
      obtain ⟨moved, placed⟩ := post.place_turn user h.memory
      refine ⟨moved.symm, ?_⟩
      rw [Hall.places_set, placed, places]
      rfl

theorem Hall.shows_after (locks callers users : Nat) (acts : List Act) :
    (Hall.after locks callers users acts).Shows
      (Scene.after locks callers users (acts.map Act.action)) := by
  induction acts with
  | nil => exact ⟨rfl, by rw [Hall.places, Hall.after, List.map_replicate]; rfl⟩
  | cons a earlier ih => exact ih.act a

theorem Hall.Shows.stands (same : h.Shows s) : s.stands = h.stands := by
  funext i
  rw [Scene.stands, Hall.stands, same.places, Hall.places, List.getElem?_map]
  cases h.posts[i]? <;> rfl

end Dropped

section Turn

variable {s : Scene} {h : Hall} {callers i : Nat} {l : Label}

theorem Scene.act_at (sound : s.Sound callers) (here : s.stands i = .at l) :
    (s.act callers ⟨i, .turn⟩).memory = (step l s.memory).1 ∧
      (s.act callers ⟨i, .turn⟩).stands =
        Function.update s.stands i (.after (step l s.memory).2) := by
  obtain ⟨place, at_i, stand⟩ := place_of_stands here
  have proper := sound.proper place (List.mem_of_getElem? at_i)
  rw [act_turn at_i, stands_set at_i]
  rcases Place.turn_cases proper with ⟨k, at_k, moved, memory⟩ | ⟨none, -⟩
  · obtain rfl : l = k := Stand.at.inj (stand.symm.trans at_k)
    exact ⟨memory, by rw [moved]⟩
  · exact absurd stand (none l)

/-- Every other action leaves tails and nodes alone. -/
theorem Scene.act_quiet (sound : s.Sound callers) (a : Action)
    (quiet : a.move = .turn → ∀ l, s.stands a.user ≠ .at l) :
    (s.act callers a).memory.tails = s.memory.tails ∧
      (s.act callers a).memory.node = s.memory.node := by
  have acts := Scene.acts s callers a
  generalize s.act callers a = s' at acts ⊢
  generalize a.move = move at acts quiet
  cases acts with
  | rest | bring | own | giveUp => exact ⟨rfl, rfl⟩
  | @turn place here =>
    have proper := sound.proper place (List.mem_of_getElem? here)
    rcases Place.turn_cases proper with ⟨l, at_l, -, -⟩ | ⟨-, nodes, tails, -⟩
    · exact absurd ((stands_of_place here).trans at_l) (quiet rfl l)
    · exact ⟨tails, nodes⟩

end Turn

/-- What there is of a lock's queue: its tail, who is in it, and the nodes there. -/
structure Untouched (lock : Nat) (h h' : Hall) : Prop where
  tail : h'.memory.tail lock = h.memory.tail lock
  members : ∀ i g, g.lock = lock → ((h'.stands i).queued? = some g ↔ (h.stands i).queued? = some g)
  nodes : ∀ i g, (h.stands i).queued? = some g → g.lock = lock →
    h'.memory.node g.node = h.memory.node g.node

section Frame

variable {s : Scene} {h : Hall} {callers i n : Nat} {l : Label}

theorem Hall.Shows.act_at (same : h.Shows s) (sound : s.Sound callers) (here : h.stands i = .at l) :
    (h.act callers ⟨i, .turn⟩).memory = (step l h.memory).1 ∧
      (h.act callers ⟨i, .turn⟩).stands =
        Function.update h.stands i (.after (step l h.memory).2) := by
  have next : (h.act callers ⟨i, .turn⟩).Shows (s.act callers ⟨i, .turn⟩) := same.act ⟨i, .turn⟩
  rw [← next.memory, ← next.stands, ← same.stands, ← same.memory]
  apply Scene.act_at sound
  rw [same.stands, here]

/-- A step in the code of one lock leaves the queues of the others alone. -/
theorem Hall.Shows.untouched (same : h.Shows s) (sound : s.Sound callers) (here : h.stands i = .at l)
    {lock : Nat} (other : lock ≠ l.guard.lock) : Untouched lock h (h.act callers ⟨i, .turn⟩) := by
  obtain ⟨memory, stands⟩ := same.act_at sound here
  have inv := sound.inv
  rw [same.stands, same.memory] at inv
  have mine (g : Guard) (queued : (h.stands i).queued? = some g) : g = l.guard := by
    rw [here] at queued
    exact (Option.some.inj (Stand.guard_of_queued queued)).symm
  refine ⟨?_, ?_, ?_⟩
  · rw [memory]
    exact step_tail (Ne.symm other)
  · intro j g at_lock
    rw [stands]
    by_cases moves : j = i
    · subst moves
      rw [Function.update_self]
      constructor
      · intro queued
        have := guard_after (Stand.guard_of_queued queued)
        exact absurd (at_lock.symm.trans (congrArg Guard.lock this)) other
      · exact fun queued => absurd (at_lock.symm.trans (congrArg Guard.lock (mine g queued))) other
    · rw [Function.update_of_ne moves]
  · intro j g queued at_lock
    rw [memory]
    apply step_node
    have apart : g.lock ≠ l.guard.lock := at_lock ▸ other
    apply inv.unwritten here _ (Stand.guard_of_queued queued) fun _ _ => apart
    rintro rfl
    exact apart (congrArg Guard.lock (mine g queued))

/-- A step writes to a node in the lock's queue, or prepares the node that its user is about to swap
in. -/
theorem Hall.Shows.changes (same : h.Shows s) (sound : s.Sound callers) (here : h.stands i = .at l)
    (changed : (h.act callers ⟨i, .turn⟩).memory.node n ≠ h.memory.node n) :
    (∃ j g, (h.stands j).queued? = some g ∧ g.lock = l.guard.lock ∧ g.node = n) ∨
      (l = .unlink l.guard ∨ l = .raise l.guard) ∧ l.guard.node = n := by
  have inv := sound.inv
  rw [same.stands, same.memory] at inv
  rw [(same.act_at sound here).1] at changed
  have written : l.written? = some n := by
    by_contra other
    exact changed (step_node other)
  rcases inv.written here written with own | ⟨-, queued⟩
  · subst own
    by_cases queued : (h.stands i).queued? = some l.guard
    · exact .inl ⟨i, l.guard, queued, rfl, rfl⟩
    · rw [here] at queued
      cases l with
      | unlink g => exact .inr ⟨.inl rfl, rfl⟩
      | raise g => exact .inr ⟨.inr rfl, rfl⟩
      | swap g => cases written
      | link | spin | look | clear | await | pass => exact absurd rfl queued
  · exact .inl queued

end Frame

/-- Who gives up a guard is in the code for that, and panics if it must. -/
def Post.Proper : Post → Prop
  | .free _ => True
  | .giving e g l panic => l.leaves ∧ l.guard = g ∧ panic = (e.enter g).2

def Ending.Proper (e : Ending) : Prop := e.panic = (e.exit.enter e.guard).2

section Giving

variable {e : Exit} {g : Guard} {l l' : Label} {panic : Option Panic} {user : Nat} {m : Memory}
  {p : Post}

theorem Post.turn_running (status : (step l m).2 = .running l') :
    (Post.giving e g l panic).turn user m = ((step l m).1, .giving e g l' panic, []) := by
  simp only [turn]
  split
  · next stepped =>
    rw [stepped] at status ⊢
    cases status
    rfl
  · next stepped =>
    rw [stepped] at status
    cases status

theorem Post.turn_returned {a : LockAnswer Guard} (status : (step l m).2 = .returned a) :
    (Post.giving e g l panic).turn user m =
      ((step l m).1, .free (.inl .outside), [⟨user, g, e, panic⟩]) := by
  simp only [turn]
  split
  · next stepped =>
    rw [stepped] at status
    cases status
  · next stepped => rw [stepped]

theorem Post.Proper.give (hp : p.Proper) (e : Exit) : (p.give e).Proper := by
  rcases p with ((_ | l | g | l) | (_ | l | g | l)) | ⟨e', g, l, panic⟩
  case free.inl.holding =>
    refine ⟨?_, ?_, rfl⟩
    · rw [Exit.enter_label]
      rfl
    · rw [Exit.enter_label]
      rfl
  case giving => exact hp
  all_goals trivial

theorem Post.Proper.turn (hp : p.Proper) (user : Nat) (m : Memory) :
    (p.turn user m).2.1.Proper ∧ ∀ e ∈ (p.turn user m).2.2, e.Proper := by
  cases p with
  | free p => exact ⟨trivial, nofun⟩
  | giving e g l panic =>
    obtain ⟨leaves, guard, meant⟩ := hp
    rcases step_leaves leaves m with ⟨l', status, leaves'⟩ | status
    · rw [turn_running status]
      have same : l'.guard = l.guard := by
        apply guard_after (m := m)
        rw [status]
        rfl
      exact ⟨⟨leaves', same.trans guard, meant⟩, nofun⟩
    · rw [turn_returned status]
      refine ⟨trivial, fun e he => ?_⟩
      rw [List.mem_singleton.mp he]
      exact meant

end Giving

structure Hall.Proper (h : Hall) : Prop where
  posts : ∀ p ∈ h.posts, p.Proper
  endings : ∀ e ∈ h.endings, e.Proper

namespace Hall

variable {h : Hall} {m : Memory} {i callers : Nat} {p : Post}

theorem Proper.act (proper : h.Proper) (a : Act) : (h.act callers a).Proper := by
  unfold Hall.act
  split
  · exact proper
  · next post here =>
    have hp := proper.posts post (List.mem_of_getElem? here)
    split
    · split
      · exact ⟨forall_mem_set proper.posts trivial, proper.endings⟩
      · exact proper
    · split
      · exact ⟨forall_mem_set proper.posts trivial, proper.endings⟩
      · exact proper
    · exact ⟨forall_mem_set proper.posts (hp.give _), proper.endings⟩
    · obtain ⟨hp, ended⟩ := hp.turn a.user h.memory
      refine ⟨forall_mem_set proper.posts hp, fun e he => ?_⟩
      rcases List.mem_append.mp he with he | he
      · exact proper.endings e he
      · exact ended e he

theorem proper_after (locks callers users : Nat) (acts : List Act) :
    (after locks callers users acts).Proper := by
  induction acts with
  | nil =>
    refine ⟨fun p hp => ?_, nofun⟩
    rw [List.eq_of_mem_replicate hp]
    trivial
  | cons a earlier ih => exact ih.act a

end Hall

section Ends

variable {locks callers users : Nat} {acts : List Act} {i n : Nat} {e : Exit} {g : Guard} {l l' : Label}
  {panic : Option Panic} {ending : Ending}

/-- At most `n` more turns end it, whosever turns they are, and end nothing else. -/
def Ends (locks callers users n : Nat) (acts : List Act) (ending : Ending) : Prop :=
  ∃ turns : List Act, turns.length ≤ n ∧ (∀ a ∈ turns, a.intent = .turn) ∧
    (Hall.after locks callers users (turns ++ acts)).endings =
      (Hall.after locks callers users acts).endings ++ [ending]

theorem Ends.turn {j : Nat} (later : Ends locks callers users n (⟨j, .turn⟩ :: acts) ending)
    (same : (Hall.after locks callers users (⟨j, .turn⟩ :: acts)).endings =
      (Hall.after locks callers users acts).endings) :
    Ends locks callers users (n + 1) acts ending := by
  obtain ⟨turns, length, only, ends⟩ := later
  refine ⟨turns ++ [⟨j, .turn⟩], ?_, ?_, ?_⟩
  · rw [List.length_append, List.length_singleton]
    omega
  · intro a ha
    rcases List.mem_append.mp ha with ha | ha
    · exact only a ha
    · rw [List.mem_singleton.mp ha]
  · rw [List.append_assoc, ← same]
    exact ends

theorem Hall.turn_giving
    (here : (Hall.after locks callers users acts).posts[i]? = some (.giving e g l panic))
    (status : (step l (Hall.after locks callers users acts).memory).2 = .running l') :
    (Hall.after locks callers users (⟨i, .turn⟩ :: acts)).posts[i]? = some (.giving e g l' panic) ∧
      (Hall.after locks callers users (⟨i, .turn⟩ :: acts)).memory =
        (step l (Hall.after locks callers users acts).memory).1 ∧
      (Hall.after locks callers users (⟨i, .turn⟩ :: acts)).endings =
        (Hall.after locks callers users acts).endings := by
  have inside := (List.getElem?_eq_some_iff.mp here).1
  rw [Hall.after, Hall.act, here]
  simp only [Post.turn_running status, List.getElem?_set_self inside, List.append_nil, and_self]

theorem Hall.turn_last
    (here : (Hall.after locks callers users acts).posts[i]? = some (.giving e g l panic))
    (status : (step l (Hall.after locks callers users acts).memory).2 = .returned .released) :
    Ends locks callers users 1 acts ⟨i, g, e, panic⟩ := by
  refine ⟨[⟨i, .turn⟩], Nat.le_refl _, fun a ha => by rw [List.mem_singleton.mp ha], ?_⟩
  rw [List.singleton_append, Hall.after, Hall.act, here]
  simp only [Post.turn_returned status]

theorem ends_of_pass {next : Nat}
    (here : (Hall.after locks callers users acts).posts[i]? = some (.giving e g (.pass g next) panic)) :
    Ends locks callers users 1 acts ⟨i, g, e, panic⟩ := Hall.turn_last here rfl

theorem ends_of_next
    (here : (Hall.after locks callers users acts).posts[i]? = some (.giving e g (.await g) panic))
    {next : Nat} (linked : ((Hall.after locks callers users acts).memory.node g.node).next = some next) :
    Ends locks callers users 2 acts ⟨i, g, e, panic⟩ := by
  have status : (step (.await g) (Hall.after locks callers users acts).memory).2 =
      .running (.pass g next) := by simp only [step, linked]
  obtain ⟨posts, -, endings⟩ := Hall.turn_giving here status
  exact (ends_of_pass posts).turn endings

/-- A release that awaits a link ends once the user behind it has made the link. -/
theorem ends_of_await
    (here : (Hall.after locks callers users acts).posts[i]? = some (.giving e g (.await g) panic)) :
    Ends locks callers users 3 acts ⟨i, g, e, panic⟩ := by
  have same := Hall.shows_after locks callers users acts
  have sound := Scene.sound locks callers users (acts.map Act.action)
  have proper := Hall.proper_after locks callers users acts
  cases linked : ((Hall.after locks callers users acts).memory.node g.node).next with
  | some next =>
    obtain ⟨turns, length, rest⟩ := ends_of_next here linked
    exact ⟨turns, Nat.le_succ_of_le length, rest⟩
  | none =>
    have inv := sound.inv
    rw [same.stands, same.memory] at inv
    have awaits : (Hall.after locks callers users acts).stands i = .at (.await g) := by
      rw [Hall.stands, here]
      rfl
    obtain ⟨line, kept⟩ := inv.kept g.lock
    obtain ⟨j, k, links, -⟩ := kept.linked awaits linked
    have other : j ≠ i := by
      rintro rfl
      rw [awaits] at links
      cases links
    -- who links its node is not giving up a guard, so its turn ends nothing
    obtain ⟨p, at_j⟩ : ∃ p, (Hall.after locks callers users acts).posts[j]? = some (.free p) := by
      rw [Hall.stands] at links
      cases at_j : (Hall.after locks callers users acts).posts[j]? with
      | none =>
        rw [at_j] at links
        cases links
      | some post =>
        rw [at_j] at links
        cases post with
        | free p => exact ⟨p, rfl⟩
        | giving e' g' l' panic' =>
          cases links
          cases (proper.posts _ (List.mem_of_getElem? at_j)).1
    have bound := (inv.bound i g (by rw [awaits]; rfl)).2
    have memory := (same.act_at sound links).1
    apply Ends.turn (j := j)
    · have unmoved : (Hall.after locks callers users (⟨j, .turn⟩ :: acts)).posts[i]? =
          some (.giving e g (.await g) panic) := by
        rw [← here, Hall.after, Hall.act, at_j]
        exact List.getElem?_set_ne other
      apply ends_of_next unmoved
      rw [Hall.after, memory]
      exact next_setNext_self bound (some k.node)
    · rw [Hall.after, Hall.act, at_j]
      exact List.append_nil _

/-- A release that found no successor clears the tail, or awaits the link of who swapped it. -/
theorem ends_of_clear
    (here : (Hall.after locks callers users acts).posts[i]? = some (.giving e g (.clear g) panic)) :
    Ends locks callers users 4 acts ⟨i, g, e, panic⟩ := by
  by_cases last : (Hall.after locks callers users acts).memory.tail g.lock = some g.node
  · have status : (step (.clear g) (Hall.after locks callers users acts).memory).2 =
        .returned .released := by simp only [step, if_pos last]
    obtain ⟨turns, length, rest⟩ := Hall.turn_last here status
    exact ⟨turns, length.trans (by decide), rest⟩
  · have status : (step (.clear g) (Hall.after locks callers users acts).memory).2 =
        .running (.await g) := by simp only [step, if_neg last]
    obtain ⟨posts, -, endings⟩ := Hall.turn_giving here status
    exact (ends_of_await posts).turn endings

theorem ends_of_look
    (here : (Hall.after locks callers users acts).posts[i]? = some (.giving e g (.look g) panic)) :
    Ends locks callers users 5 acts ⟨i, g, e, panic⟩ := by
  cases linked : ((Hall.after locks callers users acts).memory.node g.node).next with
  | none =>
    have status : (step (.look g) (Hall.after locks callers users acts).memory).2 =
        .running (.clear g) := by simp only [step, linked]
    obtain ⟨posts, -, endings⟩ := Hall.turn_giving here status
    exact (ends_of_clear posts).turn endings
  | some next =>
    have status : (step (.look g) (Hall.after locks callers users acts).memory).2 =
        .running (.pass g next) := by simp only [step, linked]
    obtain ⟨posts, -, endings⟩ := Hall.turn_giving here status
    obtain ⟨turns, length, rest⟩ := (ends_of_pass posts).turn endings
    exact ⟨turns, length.trans (by decide), rest⟩

/-- Whatever the others have been doing, the guard is given up within five turns. -/
theorem ends_of_giving
    (here : (Hall.after locks callers users acts).posts[i]? = some (.giving e g l panic)) :
    Ends locks callers users 5 acts ⟨i, g, e, panic⟩ := by
  have proper := Hall.proper_after locks callers users acts
  obtain ⟨leaves, guard, -⟩ := proper.posts _ (List.mem_of_getElem? here)
  have soon {n : Nat} (early : n ≤ 5) (ends : Ends locks callers users n acts ⟨i, g, e, panic⟩) :
      Ends locks callers users 5 acts ⟨i, g, e, panic⟩ := by
    obtain ⟨turns, length, rest⟩ := ends
    exact ⟨turns, length.trans early, rest⟩
  cases l with
  | look k =>
    cases guard
    exact ends_of_look here
  | clear k =>
    cases guard
    exact soon (by decide) (ends_of_clear here)
  | await k =>
    cases guard
    exact soon (by decide) (ends_of_await here)
  | pass k next =>
    cases guard
    exact soon (by decide) (ends_of_pass here)
  | unlink | raise | swap | link | spin => cases leaves

end Ends

/-- What a lock's code leaves alone. -/
structure Hall.Separate (callers : Nat) (h : Hall) : Prop where
  /-- A lock that is handed the guard of another one keeps its queue as it is. -/
  foreign : ∀ i g lock l panic, h.posts[i]? = some (.giving (.release lock) g l panic) → lock ≠ g.lock →
    Untouched lock h (h.act callers ⟨i, .turn⟩)
  /-- A step in the code of one lock leaves the queues of all others alone, -/
  elsewhere : ∀ i l lock, h.stands i = .at l → lock ≠ l.guard.lock →
    Untouched lock h (h.act callers ⟨i, .turn⟩)
  /-- and all nodes but those in its own lock's queue, and the one it is about to swap in there. -/
  changes : ∀ i l n, h.stands i = .at l →
    (h.act callers ⟨i, .turn⟩).memory.node n ≠ h.memory.node n →
      (∃ j g, (h.stands j).queued? = some g ∧ g.lock = l.guard.lock ∧ g.node = n) ∨
        (l = .unlink l.guard ∨ l = .raise l.guard) ∧ l.guard.node = n
  /-- Nothing else changes a tail or a node. -/
  quiet : ∀ a : Act, (a.intent = .turn → ∀ l, h.stands a.user ≠ .at l) →
    (h.act callers a).memory.tails = h.memory.tails ∧ (h.act callers a).memory.node = h.memory.node

/-- How guards are given up in a hall, by being dropped or through whichever lock. -/
structure Surrenders (locks callers users : Nat) (acts : List Act) : Prop where
  /-- Tails, nodes and the users' places are as if every guard had been dropped. -/
  dropped : (Hall.after locks callers users acts).Shows
    (Scene.after locks callers users (acts.map Act.action))
  /-- Who is through with a guard has panicked exactly if it was handed to another lock. -/
  panics : ∀ e ∈ (Hall.after locks callers users acts).endings,
    e.exit.Foreign e.guard ∧ e.panic = some .foreignGuard ∨ ¬ e.exit.Foreign e.guard ∧ e.panic = none
  /-- Whoever holds a guard can give it up either way, -/
  given : ∀ i g e, (Hall.after locks callers users acts).posts[i]? = some (.free (.inl (.holding g))) →
    Ends locks callers users 5 (⟨i, .give e⟩ :: acts) ⟨i, g, e, (e.enter g).2⟩
  /-- and so can who has begun to. -/
  underway : ∀ i e g l panic,
    (Hall.after locks callers users acts).posts[i]? = some (.giving e g l panic) →
      Ends locks callers users 5 acts ⟨i, g, e, (e.enter g).2⟩
  separate : (Hall.after locks callers users acts).Separate callers

theorem Hall.Shows.separate {s : Scene} {h : Hall} {callers : Nat} (same : h.Shows s)
    (sound : s.Sound callers) (proper : h.Proper) : h.Separate callers where
  foreign i g lock l panic here other := by
    have guard := (proper.posts _ (List.mem_of_getElem? here)).2.1
    have at_l : h.stands i = .at l := by
      rw [Hall.stands, here]
      rfl
    exact same.untouched sound at_l (guard ▸ other)
  elsewhere i l lock here other := same.untouched sound here other
  changes i l n here changed := same.changes sound here changed
  quiet a quiet := by
    have next : (h.act callers a).Shows (s.act callers a.action) := same.act a
    rw [← next.memory, ← same.memory]
    apply Scene.act_quiet sound
    intro moves l here
    rw [same.stands] at here
    refine quiet ?_ l here
    obtain ⟨user, intent⟩ := a
    cases intent with
    | turn => rfl
    | bring | own | give => cases moves

/-- However users come and go and their steps interleave, to release a guard through any lock does to all
locks and nodes what dropping the guard does; it panics exactly if the lock is not the guard's, and then
the lock's queue is left alone. -/
theorem guards_surrendered (locks callers users : Nat) (acts : List Act) :
    Surrenders locks callers users acts := by
  have same := Hall.shows_after locks callers users acts
  have sound := Scene.sound locks callers users (acts.map Act.action)
  have proper := Hall.proper_after locks callers users acts
  refine ⟨same, ?_, ?_, ?_, same.separate sound proper⟩
  · intro e he
    rw [proper.endings e he]
    exact e.exit.enter_panic e.guard
  · intro i g e here
    apply ends_of_giving (l := (e.enter g).1)
    rw [Hall.after, Hall.act, here]
    exact List.getElem?_set_self (List.getElem?_eq_some_iff.mp here).1
  · intro i e g l panic here
    rw [← (proper.posts _ (List.mem_of_getElem? here)).2.2]
    exact ends_of_giving here

/-- User 1 has swapped its node in behind user 0 and has still to link it when user 0 hands its guard to
the lock that user 2 holds. User 0 panics after it has released its own lock. -/
example :
    let earlier : List Act := [⟨0, .turn⟩, ⟨0, .turn⟩, ⟨0, .give (.release 1)⟩,
      ⟨1, .turn⟩, ⟨1, .turn⟩, ⟨1, .turn⟩, ⟨1, .bring ⟨0, 1⟩⟩,
      ⟨2, .turn⟩, ⟨2, .turn⟩, ⟨2, .turn⟩, ⟨2, .bring ⟨1, 2⟩⟩,
      ⟨0, .turn⟩, ⟨0, .turn⟩, ⟨0, .turn⟩, ⟨0, .bring ⟨0, 0⟩⟩]
    let h := Hall.after 2 3 3 earlier
    let h' := Hall.after 2 3 3 ([⟨1, .turn⟩, ⟨0, .turn⟩, ⟨0, .turn⟩, ⟨1, .turn⟩] ++ earlier)
    h.stands 0 = .at (.await ⟨0, 0⟩) ∧ h.stands 1 = .at (.link ⟨0, 1⟩ 0) ∧
      h'.endings = [⟨0, ⟨0, 0⟩, .release 1, some .foreignGuard⟩] ∧
      h'.stands 1 = .holds ⟨0, 1⟩ ∧ h'.stands 2 = .holds ⟨1, 2⟩ ∧ h'.memory.tail 1 = some 2 := by
  decide

end SharedMemory.QueueLock
