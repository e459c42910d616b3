import SharedMemory.Proofs.OrderPerProducer
import SharedMemory.Proofs.SerialLocks

/-!
# What a client may expect of a container under a lock

Of the lock it is used that it excludes and that nobody who waits for it is refused. Then a request
takes effect when its section writes the store, and what it has read of the store is still so at that
moment. Tickets may be drawn until they come round again, so the ticket lock does not exclude without a
bound on its users and is left out.
-/
namespace SharedMemory

namespace Lock

variable {Memory Label Token : Type} {lock : Lock Memory Label Token} {entry : Label} {free : Memory}
  {phases : Nat → Phase Label Token} {m : Memory}

/-- Who stands at one of these labels goes on to another of them or gets the lock. -/
def Admits (lock : Lock Memory Label Token) (Seeks : Label → Prop) : Prop :=
  ∀ l m, Seeks l → (∃ l', (lock.step l m).2 = .running l' ∧ Seeks l') ∨
    ∃ token, (lock.step l m).2 = .returned (.acquired token)

theorem Reaches.scene {entrances : List Label} (first : entry ∈ entrances)
    (h : lock.Reaches entry free phases m) :
    ∃ actions, (Scene.after lock (fun _ : Nat => entrances) free actions).phases = phases ∧
      (Scene.after lock (fun _ : Nat => entrances) free actions).memory = m := by
  have goes {actions : List (Action Nat)} {s' : Scene Nat Memory Label Token}
      (next : (Scene.after lock (fun _ => entrances) free actions).Next lock (fun _ => entrances) s') :
      ∃ actions, (Scene.after lock (fun _ : Nat => entrances) free actions).phases = s'.phases ∧
        (Scene.after lock (fun _ : Nat => entrances) free actions).memory = s'.memory := by
    obtain ⟨actions', rfl⟩ := Scene.exists_after ⟨actions, rfl⟩ next
    exact ⟨actions', rfl, rfl⟩
  induction h with
  | start => exact ⟨[], rfl, rfl⟩
  | enter _ i here ih =>
    obtain ⟨actions, rfl, rfl⟩ := ih
    exact goes (.enter i entry here first)
  | seek _ i l here ih =>
    obtain ⟨actions, rfl, rfl⟩ := ih
    exact goes (.seek i l here)
  | release _ i token here ih =>
    obtain ⟨actions, rfl, rfl⟩ := ih
    exact goes (.giveUp i token here)
  | leave _ i l here ih =>
    obtain ⟨actions, rfl, rfl⟩ := ih
    exact goes (.leave i l here)

end Lock

/-- Whichever lock it is, if not a ticket lock, two threads that wait for it never hold it at once. -/
theorem LockKind.excludes {kind : LockKind} (not_ticket : kind ≠ .ticket) :
    kind.lock.Excludes kind.acquire kind.free := by
  intro phases m h
  obtain ⟨actions, rfl, rfl⟩ := h.scene (show kind.acquire ∈ kind.entrances from List.mem_cons_self)
  apply LockKind.exclusive
  cases kind with
  | ticket => exact absurd rfl not_ticket
  | testAndSet | testThenSet | blocking | queue => trivial

namespace LockedContainer

open Container (Outcome callAfter)

variable {LockMemory L Token : Type}

abbrev Place (L Token : Type) : Type := SectionLabel L Token Store LockedStore.Answer

def served (d : Discipline) (r : Request) (s : Store) : Store × LockedStore.Answer :=
  ((s.serve d r).2, .found (s.serve d r).1)

def reply : Option LockedStore.Answer → Reply
  | some (.found v) => .ok v
  | _ => .ok none

def fixed : Place L Token → Option (Option Value)
  | .inside _ (.leave (.found v)) | .leaving _ (.found v) => some v
  | _ => none

/-- The places of a call. What it is about to write is computed from the store as it is. -/
inductive Works (Seeks : L → Prop) (d : Discipline) (r : Request) (data : Store) : Place L Token → Prop
  | enters (l : L) (seeks : Seeks l) : Works Seeks d r data (.entering l (.update (served d r)))
  | reads (token : Token) : Works Seeks d r data (.inside token (.update (served d r)))
  | writes (token : Token) : Works Seeks d r data
      (.inside token (.write (served d r data).1 (.leave (served d r data).2)))
  | leaves (token : Token) (found : Option Value) :
      Works Seeks d r data (.inside token (.leave (.found found)))
  | returns (l : L) (found : Option Value) : Works Seeks d r data (.leaving l (.found found))

def phase (call : Option (Request × Place L Token)) : Lock.Phase L Token :=
  Lock.sectionPhase (call.map Prod.snd)

structure Good (lock : Lock LockMemory L Token) (entry : L) (free : LockMemory) (Seeks : L → Prop)
    (d : Discipline) (calls : Nat → Option (Request × Place L Token))
    (m : Guarded LockMemory Store) : Prop where
  lock : lock.Reaches entry free (phase ∘ calls) m.lock
  works : ∀ i r l, calls i = some (r, l) → Works Seeks d r m.data l

variable {lock : Lock LockMemory L Token} {entry : L} {free : LockMemory} {Seeks : L → Prop}
  {d : Discipline} {calls : Nat → Option (Request × Place L Token)}
  {m m' : Guarded LockMemory Store} {i : Nat} {r : Request} {l : Place L Token}

theorem Good.advance (h : Good lock entry free Seeks d calls m) (excludes : lock.Excludes entry free)
    {new : Option (Request × Place L Token)}
    (reaches : lock.Reaches entry free (Function.update (phase ∘ calls) i (phase new)) m'.lock)
    (own : ∀ r l, new = some (r, l) → Works Seeks d r m'.data l)
    (others : m'.data = m.data ∨ ∃ token, phase (calls i) = .holding token) :
    Good lock entry free Seeks d (Function.update calls i new) m' := by
  refine ⟨?_, ?_⟩
  · rw [Function.comp_update]
    exact reaches
  · apply (Function.forall_update_iff calls fun _ call =>
      ∀ r l, call = some (r, l) → Works Seeks d r m'.data l).mpr
    refine ⟨own, ?_⟩
    intro j hji r l hj
    have works := h.works j r l hj
    rcases others with same | ⟨token, mine⟩
    · rw [same]
      exact works
    · -- the thread that writes holds the lock, so no other one stands between its read and its write
      cases works with
      | enters l seeks => exact .enters l seeks
      | reads token => exact .reads token
      | leaves token found => exact .leaves token found
      | returns l found => exact .returns l found
      | writes token' =>
        have theirs : phase (calls j) = .holding token' := by
          rw [hj]
          rfl
        exact absurd (excludes _ _ h.lock j i token' token theirs mine) hji

theorem Good.same_stage (h : Good lock entry free Seeks d calls m)
    {new : Option (Request × Place L Token)} (same : phase new = phase (calls i)) :
    lock.Reaches entry free (Function.update (phase ∘ calls) i (phase new)) m.lock := by
  rw [same, ← Function.comp_update, Function.update_eq_self]
  exact h.lock

theorem Good.enter (h : Good lock entry free Seeks d calls m) (excludes : lock.Excludes entry free)
    (first : Seeks entry) (r : Request) (outside : calls i = none) :
    Good lock entry free Seeks d
      (Function.update calls i (some (r, .entering entry (.update (served d r))))) m := by
  refine h.advance excludes ?_ ?_ (.inl rfl)
  · apply h.lock.enter i
    rw [Function.comp_apply, outside]
    rfl
  · rintro _ _ ⟨⟩
    exact .enters entry first

def Steps (lock : Lock LockMemory L Token) (entry : L) (free : LockMemory) (Seeks : L → Prop)
    (d : Discipline) (calls : Nat → Option (Request × Place L Token)) (i : Nat)
    (r : Request) (l : Place L Token) (m : Guarded LockMemory Store)
    (e : Effect (Guarded LockMemory Store) (Place L Token) (Option LockedStore.Answer)) : Prop :=
  Outcome d fixed r l m.data.toList (e.status.mapAnswer reply) e.memory.data.toList ∧
    Good lock entry free Seeks d (Function.update calls i (callAfter r (e.status.mapAnswer reply)))
      e.memory

theorem Good.seek (h : Good lock entry free Seeks d calls m) (excludes : lock.Excludes entry free)
    (admits : lock.Admits Seeks) {l : L} (waiting : Seeks l)
    (here : calls i = some (r, .entering l (.update (served d r)))) :
    Steps lock entry free Seeks d calls i r (.entering l (.update (served d r))) m
      (lock.guardedStep (.entering l (.update (served d r))) m) := by
  have reaches := h.lock.seek i l (by rw [Function.comp_apply, here]; rfl)
  rcases admits l m.lock waiting with ⟨l', goes, waiting'⟩ | ⟨token, gives⟩
  · rw [goes] at reaches
    simp only [Lock.guardedStep, goes]
    refine ⟨.goes _ rfl, h.advance excludes reaches ?_ (.inl rfl)⟩
    rintro _ _ ⟨⟩
    exact .enters l' waiting'
  · rw [gives] at reaches
    simp only [Lock.guardedStep, gives]
    refine ⟨.goes _ rfl, h.advance excludes reaches ?_ (.inl rfl)⟩
    rintro _ _ ⟨⟩
    exact .reads token

theorem Good.leave (h : Good lock entry free Seeks d calls m) (excludes : lock.Excludes entry free)
    {l : L} {found : Option Value} (here : calls i = some (r, .leaving l (.found found))) :
    Steps lock entry free Seeks d calls i r (.leaving l (.found found)) m
      (lock.guardedStep (.leaving l (.found found)) m) := by
  have reaches := h.lock.leave i l (by rw [Function.comp_apply, here]; rfl)
  cases hs : (lock.step l m.lock).2 with
  | running l' =>
    rw [hs] at reaches
    simp only [Lock.guardedStep, hs]
    refine ⟨.goes _ rfl, h.advance excludes reaches ?_ (.inl rfl)⟩
    rintro _ _ ⟨⟩
    exact .returns l' found
  | returned a =>
    rw [hs] at reaches
    simp only [Lock.guardedStep, hs]
    refine ⟨.done found rfl, h.advance excludes reaches ?_ (.inl rfl)⟩
    rintro _ _ ⟨⟩

/-- The write is that of the request to the store as it stands. -/
theorem Good.write (h : Good lock entry free Seeks d calls m) (excludes : lock.Excludes entry free)
    {token : Token} (here : calls i =
      some (r, .inside token (.write (served d r m.data).1 (.leave (served d r m.data).2)))) :
    Steps lock entry free Seeks d calls i r
      (.inside token (.write (served d r m.data).1 (.leave (served d r m.data).2))) m
      (lock.guardedStep
        (.inside token (.write (served d r m.data).1 (.leave (served d r m.data).2))) m) := by
  have stage : phase (calls i) = .holding token := by
    rw [here]
    rfl
  obtain ⟨found, left⟩ := Prod.mk.inj (Store.serve_eq d m.data r)
  constructor
  · change Outcome _ _ _ _ _ _ (m.data.serve d r).2.toList
    rw [left]
    exact .fixes _ rfl (congrArg some found)
  · refine h.advance excludes (h.same_stage ?_) ?_ (.inr ⟨token, stage⟩)
    · rw [stage]
      rfl
    · rintro _ _ ⟨⟩
      exact .leaves token _

theorem Good.step (h : Good lock entry free Seeks d calls m) (excludes : lock.Excludes entry free)
    (admits : lock.Admits Seeks) (here : calls i = some (r, l)) :
    Steps lock entry free Seeks d calls i r l m (lock.guardedStep l m) := by
  have works := h.works i r l here
  cases works with
  | enters l waiting => exact h.seek excludes admits waiting here
  | writes token => exact h.write excludes here
  | returns l found => exact h.leave excludes here
  | reads token =>
    refine ⟨.goes _ rfl, h.advance excludes (h.same_stage ?_) ?_ (.inl rfl)⟩
    · rw [here]
      rfl
    · rintro _ _ ⟨⟩
      exact .writes token
  | leaves token found =>
    refine ⟨.goes _ rfl, h.advance excludes ?_ ?_ (.inl rfl)⟩
    · apply h.lock.release i token
      rw [Function.comp_apply, here]
      rfl
    · rintro _ _ ⟨⟩
      exact .returns (lock.release token) found

section Kinds

variable {kind : LockKind} {Waiting : kind.Label → Prop}

theorem status_step (choice : Unit) (l : Place kind.Label kind.Token)
    (m : LockedStore.Memory kind) :
    ((Container.locked kind d).step choice l m).status =
      (kind.lock.guardedStep l m).status.mapAnswer reply := by
  change ((kind.lock.guardedStep l m).status.mapAnswer id).mapAnswer _ = _
  rcases (kind.lock.guardedStep l m).status with _ | _ | _ | _ <;> rfl

/-- A container under a lock serves its requests one after another. -/
def containerLaw (d : Discipline) (excludes : kind.lock.Excludes kind.acquire kind.free)
    (first : Waiting kind.acquire) (admits : kind.lock.Admits Waiting) :
    Container.Law d (Container.locked kind d) where
  contents m := m.data.toList
  fixed := fixed
  Good := Good kind.lock kind.acquire kind.free Waiting d
  enter r good outside := ⟨rfl, good.enter excludes first r outside⟩
  step choice good here := by
    rw [status_step choice]
    exact good.step excludes admits here

theorem containerLaw_fresh (excludes : kind.lock.Excludes kind.acquire kind.free)
    (first : Waiting kind.acquire) (admits : kind.lock.Admits Waiting) :
    (containerLaw d excludes first admits).Fresh (LockedStore.empty kind) where
  good := ⟨.start, nofun⟩
  empty := rfl

/-- The consumers of a queue under a lock find each producer's values in order, and it ends empty. -/
theorem producers_in_order (not_ticket : kind ≠ .ticket) {producers perProducer : UInt64}
    (fits : producers.toNat * perProducer.toNat < 2 ^ 63) :
    let plan := ProducerOrder.Plan.ofSizes producers perProducer
    let queue := Container.locked kind .fifo
    (∀ schedule,
      let now := (ProducerOrder.crew plan queue (LockedStore.empty kind)).after
        (ProducerOrder.algorithm plan queue) schedule
      ProducerOrder.Accepts plan now.memory.container.data.toList
        (ProducerOrder.inserts plan queue (LockedStore.empty kind) schedule) now) ∧
    ∀ choose idle panic,
      (Workload.producerOrder queue choose idle producers perProducer (LockedStore.empty kind)).2 ≠
        some (.error panic) := by
  have sized := ProducerOrder.Plan.sized_ofSizes fits
  obtain ⟨Waiting, first, admits⟩ := kind.waits
  have fresh := containerLaw_fresh (d := .fifo) (LockKind.excludes not_ticket) first admits
  exact ⟨ProducerOrder.accepts_after sized fresh, ProducerOrder.producerOrder_accepts sized fresh⟩

end Kinds

end LockedContainer

end SharedMemory
