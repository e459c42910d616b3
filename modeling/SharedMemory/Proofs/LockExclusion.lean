import SharedMemory.LockKind
import SharedMemory.Proofs.Schedule

/-!
# Locks that exclude

Threads try a lock once, hold it, give it back and try again, interleaved in any order. The lock
excludes if no two of them ever hold it at once. Locks that are one flag do.
-/
namespace SharedMemory

namespace Lock

variable {Memory Label Token : Type}

inductive Phase (Label Token : Type)
  | outside
  | entering (l : Label)
  | holding (token : Token)
  | leaving (l : Label)

namespace Phase

def afterEnter : Status Label (LockAnswer Token) → Phase Label Token
  | .running l => .entering l
  | .returned (.acquired token) => .holding token
  | .returned _ => .outside

def afterLeave : Status Label (LockAnswer Token) → Phase Label Token
  | .running l => .leaving l
  | .returned _ => .outside

end Phase

/-- What threads come to that begin every attempt at `entry`, from a free lock on. -/
inductive Reaches (lock : Lock Memory Label Token) (entry : Label) (free : Memory) :
    (Nat → Phase Label Token) → Memory → Prop
  | start : Reaches lock entry free (fun _ => .outside) free
  | enter {phases : Nat → Phase Label Token} {m : Memory} (h : Reaches lock entry free phases m)
      (i : Nat) (here : phases i = .outside) :
      Reaches lock entry free (Function.update phases i (.entering entry)) m
  | seek {phases : Nat → Phase Label Token} {m : Memory} (h : Reaches lock entry free phases m)
      (i : Nat) (l : Label) (here : phases i = .entering l) :
      Reaches lock entry free (Function.update phases i (.afterEnter (lock.step l m).2))
        (lock.step l m).1
  | release {phases : Nat → Phase Label Token} {m : Memory} (h : Reaches lock entry free phases m)
      (i : Nat) (token : Token) (here : phases i = .holding token) :
      Reaches lock entry free (Function.update phases i (.leaving (lock.release token))) m
  | leave {phases : Nat → Phase Label Token} {m : Memory} (h : Reaches lock entry free phases m)
      (i : Nat) (l : Label) (here : phases i = .leaving l) :
      Reaches lock entry free (Function.update phases i (.afterLeave (lock.step l m).2))
        (lock.step l m).1

/-- No two threads hold the lock at once. -/
def Excludes (lock : Lock Memory Label Token) (entry : Label) (free : Memory) : Prop :=
  ∀ phases m, lock.Reaches entry free phases m → ∀ i j s t, phases i = .holding s →
    phases j = .holding t → i = j

section Flag

/-- A lock whose memory is one flag: an attempt stays at labels `Seeks`, takes the flag only while it
is clear, and a release clears it. -/
structure Flag (lock : Lock Bool Label Token) (Seeks : Label → Prop) : Prop where
  seek : ∀ l, Seeks l → ∀ locked,
    (lock.step l locked).1 = locked ∧ ((∃ l', Seeks l' ∧ (lock.step l locked).2 = .running l') ∨
      (lock.step l locked).2 = .returned .refused) ∨
    locked = false ∧ ∃ token, lock.step l locked = (true, .returned (.acquired token))
  clear : ∀ token locked, lock.step (lock.release token) locked = (false, .returned .released)

/-- The thread has taken the flag and has not cleared it yet. -/
def Phase.owns : Phase Label Token → Prop
  | .holding _ | .leaving _ => True
  | _ => False

/-- The flag is up while a thread owns it, and only one does. -/
structure Owned (lock : Lock Bool Label Token) (Seeks : Label → Prop)
    (phases : Nat → Phase Label Token) (locked : Bool) : Prop where
  seeks : ∀ i l, phases i = .entering l → Seeks l
  leaves : ∀ i l, phases i = .leaving l → ∃ token, l = lock.release token
  up : ∀ i, (phases i).owns → locked = true
  alone : ∀ i j, (phases i).owns → (phases j).owns → i = j

variable {lock : Lock Bool Label Token} {Seeks : Label → Prop} {phases : Nat → Phase Label Token}
  {locked locked' : Bool} {i : Nat} {p : Phase Label Token}

theorem Owned.advance (h : Owned lock Seeks phases locked)
    (seeks : ∀ l, p = .entering l → Seeks l) (leaves : ∀ l, p = .leaving l → ∃ t, l = lock.release t)
    (up : p.owns → locked' = true)
    (others : ∀ j, j ≠ i → (phases j).owns → locked' = true ∧ ¬ p.owns) :
    Owned lock Seeks (Function.update phases i p) locked' := by
  constructor
  · apply (Function.forall_update_iff phases fun _ q => ∀ l, q = .entering l → Seeks l).mpr
    exact ⟨seeks, fun j _ => h.seeks j⟩
  · apply (Function.forall_update_iff phases fun _ q =>
      ∀ l, q = .leaving l → ∃ t, l = lock.release t).mpr
    exact ⟨leaves, fun j _ => h.leaves j⟩
  · apply (Function.forall_update_iff phases fun _ q => q.owns → locked' = true).mpr
    exact ⟨up, fun j hj owns => (others j hj owns).1⟩
  · have alone := owner_update (fun (q : Phase Label Token) (_ : Unit) => q.owns)
      (fun j k _ => h.alone j k) fun j _ hj owns => (others j hj owns).2
    exact fun j k => alone j k ()

theorem Owned.enter {l : Label} (h : Owned lock Seeks phases locked) (seeks : Seeks l) :
    Owned lock Seeks (Function.update phases i (.entering l)) locked := by
  apply h.advance
  · intro k hk
    cases hk
    exact seeks
  · nofun
  · nofun
  · exact fun j _ hj => ⟨h.up j hj, nofun⟩

theorem Owned.giveUp {token : Token} (h : Owned lock Seeks phases locked) (here : phases i = .holding token) :
    Owned lock Seeks (Function.update phases i (.leaving (lock.release token))) locked := by
  have mine : (phases i).owns := by rw [here]; trivial
  apply h.advance
  · nofun
  · intro l hl
    cases hl
    exact ⟨token, rfl⟩
  · exact fun _ => h.up i mine
  · exact fun j hj owns => absurd (h.alone j i owns mine) hj

theorem Flag.seek_owned {l : Label} (flag : Flag lock Seeks) (h : Owned lock Seeks phases locked)
    (here : phases i = .entering l) :
    Owned lock Seeks (Function.update phases i (.afterEnter (lock.step l locked).2))
      (lock.step l locked).1 := by
  rcases flag.seek l (h.seeks i l here) locked with ⟨same, rest⟩ | ⟨clear, token, taken⟩
  · rw [same]
    rcases rest with ⟨l', seeks, goes⟩ | refused
    · rw [goes]
      exact h.enter seeks
    · rw [refused]
      apply h.advance
      · nofun
      · nofun
      · nofun
      · exact fun j _ hj => ⟨h.up j hj, nofun⟩
  · rw [taken]
    apply h.advance
    · nofun
    · nofun
    · exact fun _ => rfl
    · intro j _ hj
      have up := h.up j hj
      rw [clear] at up
      cases up

theorem Flag.leave_owned {l : Label} (flag : Flag lock Seeks) (h : Owned lock Seeks phases locked)
    (here : phases i = .leaving l) :
    Owned lock Seeks (Function.update phases i (.afterLeave (lock.step l locked).2))
      (lock.step l locked).1 := by
  have mine : (phases i).owns := by rw [here]; trivial
  obtain ⟨token, same⟩ := h.leaves i l here
  rw [same, flag.clear]
  apply h.advance
  · nofun
  · nofun
  · nofun
  · exact fun j hj owns => absurd (h.alone j i owns mine) hj

/-- A lock that is one flag excludes. -/
theorem Flag.owned (flag : Flag lock Seeks) {entry : Label} (first : Seeks entry)
    (h : lock.Reaches entry false phases locked) : Owned lock Seeks phases locked := by
  induction h with
  | start => exact ⟨nofun, nofun, nofun, nofun⟩
  | enter _ i here ih => exact ih.enter first
  | seek _ i l here ih => exact flag.seek_owned ih here
  | release _ i token here ih => exact ih.giveUp here
  | leave _ i l here ih => exact flag.leave_owned ih here

theorem Flag.excludes (flag : Flag lock Seeks) {entry : Label} (first : Seeks entry) :
    lock.Excludes entry false := by
  intro phases locked h i j s t hi hj
  apply (flag.owned first h).alone
  · rw [hi]
    trivial
  · rw [hj]
    trivial

end Flag

end Lock

namespace TestAndSet

theorem flag : lock.Flag (· = .attempt) where
  seek l same locked := by
    subst same
    cases locked
    · exact .inr ⟨rfl, (), rfl⟩
    · exact .inl ⟨rfl, .inr rfl⟩
  clear _ _ := rfl

theorem excludes : lock.Excludes .attempt false := flag.excludes rfl

end TestAndSet

namespace TestThenSet

theorem flag : lock.Flag (fun l => l = .peek ∨ l = .attempt) where
  seek l same locked := by
    rcases same with rfl | rfl
    · cases locked
      · exact .inl ⟨rfl, .inl ⟨.attempt, .inr rfl, rfl⟩⟩
      · exact .inl ⟨rfl, .inr rfl⟩
    · cases locked
      · exact .inr ⟨rfl, (), rfl⟩
      · exact .inl ⟨rfl, .inr rfl⟩
  clear _ _ := rfl

theorem excludes : lock.Excludes .peek false := flag.excludes (.inl rfl)

end TestThenSet

end SharedMemory
