import SharedMemory.Proofs.LockExclusion

/-!
# Users of a lock, and the record of their steps

Any number of users take and give back one lock over and over, each from entrances of its own, with
their steps interleaved in any order. Beside the memory and where the users stand, a scene keeps a
record of the steps taken in the lock's code, each with the memory that it found. The newest step comes
first, so the suffixes of a record are the earlier moments of the run.
-/
namespace SharedMemory.Lock

structure Taken (User Memory Label : Type) where
  user : User
  label : Label
  found : Memory

/-- A user that is outside may begin at one of its entrances, one that holds the lock may begin to give
it back, and any other may take a step. -/
inductive Move | enter (entrance : Nat) | giveUp | turn
  deriving DecidableEq

structure Action (User : Type) where
  user : User
  move : Move
  deriving DecidableEq

structure Scene (User Memory Label Token : Type) where
  memory : Memory
  phases : User → Phase Label Token
  record : List (Taken User Memory Label) := []

variable {User Memory Label Token : Type} [DecidableEq User] (lock : Lock Memory Label Token)
  (entrances : User → List Label)

namespace Scene

/-- Somebody moves without a step of the lock's code. -/
def place (s : Scene User Memory Label Token) (i : User) (p : Phase Label Token) :
    Scene User Memory Label Token :=
  { s with phases := Function.update s.phases i p }

/-- Somebody takes a step of the lock's code. -/
def take (s : Scene User Memory Label Token) (i : User) (l : Label) (p : Phase Label Token) :
    Scene User Memory Label Token :=
  ⟨(lock.step l s.memory).1, Function.update s.phases i p, ⟨i, l, s.memory⟩ :: s.record⟩

/-- An action that is not open to its user changes nothing. -/
def act (s : Scene User Memory Label Token) (a : Action User) : Scene User Memory Label Token :=
  match a.move, s.phases a.user with
  | .enter k, .outside =>
    match (entrances a.user)[k]? with
    | some l => s.place a.user (.entering l)
    | none => s
  | .giveUp, .holding token => s.place a.user (.leaving (lock.release token))
  | .turn, .entering l => s.take lock a.user l (.afterEnter (lock.step l s.memory).2)
  | .turn, .leaving l => s.take lock a.user l (.afterLeave (lock.step l s.memory).2)
  | _, _ => s

def after (free : Memory) : List (Action User) → Scene User Memory Label Token
  | [] => ⟨free, fun _ => .outside, []⟩
  | a :: earlier => (after free earlier).act lock entrances a

/-- The four ways to change a scene. -/
inductive Next (s : Scene User Memory Label Token) : Scene User Memory Label Token → Prop
  | rest : Next s s
  | enter (i : User) (l : Label) (here : s.phases i = .outside) (entrance : l ∈ entrances i) :
      Next s (s.place i (.entering l))
  | giveUp (i : User) (token : Token) (here : s.phases i = .holding token) :
      Next s (s.place i (.leaving (lock.release token)))
  | seek (i : User) (l : Label) (here : s.phases i = .entering l) :
      Next s (s.take lock i l (.afterEnter (lock.step l s.memory).2))
  | leave (i : User) (l : Label) (here : s.phases i = .leaving l) :
      Next s (s.take lock i l (.afterLeave (lock.step l s.memory).2))

variable {lock entrances}

theorem act_next (s : Scene User Memory Label Token) (a : Action User) :
    s.Next lock entrances (s.act lock entrances a) := by
  unfold act
  split
  · next here =>
    split
    · next at_k => exact .enter _ _ here (List.mem_of_getElem? at_k)
    · exact .rest
  · next here => exact .giveUp _ _ here
  · next here => exact .seek _ _ here
  · next here => exact .leave _ _ here
  · exact .rest

theorem record_next {s s' : Scene User Memory Label Token} (h : s.Next lock entrances s') :
    s'.record = s.record ∨ ∃ e, s'.record = e :: s.record := by
  cases h with
  | rest | enter | giveUp => exact .inl rfl
  | seek | leave => exact .inr ⟨_, rfl⟩

theorem record_suffix {s s' : Scene User Memory Label Token} (h : s.Next lock entrances s') :
    s.record <:+ s'.record := by
  rcases record_next h with same | ⟨e, same⟩
  · rw [same]
  · exact same ▸ List.suffix_cons e s.record

theorem phases_act_of_ne (s : Scene User Memory Label Token) (a : Action User) {j : User}
    (other : j ≠ a.user) : (s.act lock entrances a).phases j = s.phases j := by
  unfold act
  split
  · split
    · exact Function.update_of_ne other _ _
    · rfl
  · exact Function.update_of_ne other _ _
  · exact Function.update_of_ne other _ _
  · exact Function.update_of_ne other _ _
  · rfl

theorem taken_next {s s' : Scene User Memory Label Token} {e : Taken User Memory Label}
    (h : s.Next lock entrances s') (taken : s'.record = e :: s.record) :
    e.found = s.memory ∧ (s.phases e.user = .entering e.label ∨ s.phases e.user = .leaving e.label) := by
  cases h with
  | rest | enter | giveUp => exact absurd taken.symm (List.cons_ne_self e s.record)
  | seek i l here =>
    obtain rfl := (List.cons.inj taken).1
    exact ⟨rfl, .inl here⟩
  | leave i l here =>
    obtain rfl := (List.cons.inj taken).1
    exact ⟨rfl, .inr here⟩

theorem exists_after {free : Memory} {s s' : Scene User Memory Label Token}
    (h : ∃ actions, after lock entrances free actions = s) (next : s.Next lock entrances s') :
    ∃ actions, after lock entrances free actions = s' := by
  obtain ⟨actions, rfl⟩ := h
  cases next with
  | rest => exact ⟨actions, rfl⟩
  | enter i l here entrance =>
    obtain ⟨k, at_k⟩ := List.getElem?_of_mem entrance
    exact ⟨⟨i, .enter k⟩ :: actions, by simp [after, act, here, at_k]⟩
  | giveUp i token here => exact ⟨⟨i, .giveUp⟩ :: actions, by simp [after, act, here]⟩
  | seek i l here => exact ⟨⟨i, .turn⟩ :: actions, by simp [after, act, here]⟩
  | leave i l here => exact ⟨⟨i, .turn⟩ :: actions, by simp [after, act, here]⟩

theorem after_invariant {free : Memory} {I : Scene User Memory Label Token → Prop}
    (start : I ⟨free, fun _ => .outside, []⟩)
    (keeps : ∀ s s', I s → s.Next lock entrances s' → I s') (actions : List (Action User)) :
    I (after lock entrances free actions) := by
  induction actions with
  | nil => exact start
  | cons a earlier ih => exact keeps _ _ ih (act_next _ a)

variable (lock entrances) in
theorem began (free : Memory) (actions : List (Action User)) :
    (∀ i, (after lock entrances free actions).phases i ≠ .outside → entrances i ≠ []) ∧
      ∀ e ∈ (after lock entrances free actions).record, entrances e.user ≠ [] := by
  apply after_invariant (I := fun s => (∀ i, s.phases i ≠ .outside → entrances i ≠ []) ∧
    ∀ e ∈ s.record, entrances e.user ≠ [])
  · exact ⟨fun i inside => absurd rfl inside, nofun⟩
  · rintro s s' ⟨standing, taken⟩ next
    have moved (i : User) (p : Phase Label Token) (begins : entrances i ≠ []) (j : User)
        (inside : Function.update s.phases i p j ≠ .outside) : entrances j ≠ [] := by
      by_cases same : j = i
      · exact same ▸ begins
      · exact standing j (by rwa [Function.update_of_ne same] at inside)
    have step (i : User) (p : Phase Label Token) (l : Label) (inside : s.phases i ≠ .outside) :
        (∀ j, Function.update s.phases i p j ≠ .outside → entrances j ≠ []) ∧
          ∀ e ∈ (⟨i, l, s.memory⟩ : Taken User Memory Label) :: s.record, entrances e.user ≠ [] := by
      refine ⟨moved i p (standing i inside), fun e mem => ?_⟩
      rcases List.mem_cons.mp mem with rfl | mem
      · exact standing i inside
      · exact taken e mem
    cases next with
    | rest => exact ⟨standing, taken⟩
    | enter i l here entrance => exact ⟨moved i _ (List.ne_nil_of_mem entrance), taken⟩
    | giveUp i token here => exact ⟨moved i _ (standing i (by rw [here]; nofun)), taken⟩
    | seek i l here => exact step i _ l (by rw [here]; nofun)
    | leave i l here => exact step i _ l (by rw [here]; nofun)

end Scene

end SharedMemory.Lock
