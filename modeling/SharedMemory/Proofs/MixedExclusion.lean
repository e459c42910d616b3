import SharedMemory.Proofs.QueueLockRuns
import SharedMemory.Proofs.SerialSections
import SharedMemory.Proofs.TicketRuns

/-!
# Waiting for a lock and single attempts at it

Users of one lock wait for it or try it once, as they like and as often as they like. At most one of
them holds it at any moment, whichever kind of lock it is.
-/
namespace SharedMemory

namespace Lock

variable {Label Token : Type} {lock : Lock Bool Label Token} {Seeks : Label → Prop}

/-- A lock that is one flag excludes, whatever labels its users begin at. -/
theorem Flag.exclusive (flag : Flag lock Seeks) {entrances : List Label}
    (first : ∀ l ∈ entrances, Seeks l) (actions : List (Action Nat)) :
    (Scene.after lock (fun _ => entrances) false actions).Exclusive := by
  have owned : Owned lock Seeks (Scene.after lock (fun _ => entrances) false actions).phases
      (Scene.after lock (fun _ => entrances) false actions).memory := by
    apply Scene.after_invariant (I := fun s => Owned lock Seeks s.phases s.memory)
    · exact ⟨nofun, nofun, nofun, nofun⟩
    · intro s s' h next
      cases next with
      | rest => exact h
      | enter i l here entrance => exact h.enter (first l entrance)
      | giveUp i token here => exact h.giveUp here
      | seek i l here => exact flag.seek_owned h here
      | leave i l here => exact flag.leave_owned h here
  intro i j t u hi hj
  apply owned.alone i j
  · rw [hi]
    trivial
  · rw [hj]
    trivial

end Lock

open Lock (Scene Taken Action)

namespace TestAndSet

theorem flag_of_both : lock.Flag (· ≠ .clear) where
  seek l seeks locked := by
    cases l with
    | clear => exact absurd rfl seeks
    | seize =>
      cases locked
      · exact .inr ⟨rfl, (), rfl⟩
      · exact .inl ⟨rfl, .inl ⟨.seize, seeks, rfl⟩⟩
    | attempt =>
      cases locked
      · exact .inr ⟨rfl, (), rfl⟩
      · exact .inl ⟨rfl, .inr rfl⟩
  clear _ _ := rfl

end TestAndSet

namespace TestThenSet

theorem flag_of_both : lock.Flag (· ≠ .clear) where
  seek l seeks locked := by
    cases l with
    | clear => exact absurd rfl seeks
    | watch =>
      cases locked
      · exact .inl ⟨rfl, .inl ⟨.seize, nofun, rfl⟩⟩
      · exact .inl ⟨rfl, .inl ⟨.watch, nofun, rfl⟩⟩
    | seize =>
      cases locked
      · exact .inr ⟨rfl, (), rfl⟩
      · exact .inl ⟨rfl, .inl ⟨.watch, nofun, rfl⟩⟩
    | peek =>
      cases locked
      · exact .inl ⟨rfl, .inl ⟨.attempt, nofun, rfl⟩⟩
      · exact .inl ⟨rfl, .inr rfl⟩
    | attempt =>
      cases locked
      · exact .inr ⟨rfl, (), rfl⟩
      · exact .inl ⟨rfl, .inr rfl⟩
  clear _ _ := rfl

end TestThenSet

namespace TicketLock

variable {entrances : List Label}

theorem length_drawn_mono {record record' : List (Taken Nat Memory Label)} (h : record <:+ record') :
    (drawn record).length ≤ (drawn record').length := by
  rw [drawn, drawn, List.length_reverse, List.length_reverse]
  exact (h.sublist.filterMap drawn?).length_le

/-- While there are words enough for all tickets that have been drawn, no attempt is late. -/
theorem kept_of_few (first : entrances ⊆ [.draw, .look]) (actions : List (Action Nat))
    (few : (drawn (Scene.after lock (fun _ => entrances) {} actions).record).length < 2 ^ 64) :
    ∃ line, Kept (Scene.after lock (fun _ => entrances) {} actions).phases
      (Scene.after lock (fun _ => entrances) {} actions).memory
      (Scene.after lock (fun _ => entrances) {} actions).record line := by
  induction actions with
  | nil => exact ⟨[], Kept.start⟩
  | cons a earlier ih =>
    have next : (Scene.after lock (fun _ => entrances) {} earlier).Next lock (fun _ => entrances)
        (Scene.after lock (fun _ => entrances) {} (a :: earlier)) := Scene.act_next _ a
    have fewer := Nat.lt_of_le_of_lt (length_drawn_mono (Scene.record_suffix next)) few
    obtain ⟨line, kept⟩ := ih fewer
    have draws := congrArg List.length kept.draws
    rw [List.length_append] at draws
    refine kept.act (by omega) (fun _ => first) next ?_
    intro e serving _ _ later look before _
    omega

theorem exclusive (first : entrances ⊆ [.draw, .look]) (actions : List (Action Nat))
    (few : (drawn (Scene.after lock (fun _ => entrances) {} actions).record).length < 2 ^ 64) :
    (Scene.after lock (fun _ => entrances) {} actions).Exclusive := by
  obtain ⟨line, kept⟩ := kept_of_few first actions few
  intro i j t u hi hj
  exact kept.alone (t := t) (u := u) (by rw [hi]; rfl) (by rw [hj]; rfl)

end TicketLock

namespace QueueLock

def ownStand (p : Lock.Phase OwnLabel Guard) : Stand := Place.stand (.inr p)

/-- What holds of the users of a single lock with nodes of its own. -/
structure Ordered (phases : Nat → Lock.Phase OwnLabel Guard) (m : Memory) : Prop where
  inv : ∃ deeds, Inv (ownStand ∘ phases) m deeds
  proper : ∀ i, Place.Proper m.tails.length (.inr (phases i))
  single : m.tails.length = 1

section Ordered

variable {phases : Nat → Lock.Phase OwnLabel Guard} {m m' : Memory} {i : Nat}
  {p : Lock.Phase OwnLabel Guard}

theorem Ordered.move {deeds : List Deed} (h : Ordered phases m)
    (inv : Inv (Function.update (ownStand ∘ phases) i (ownStand p)) m' deeds)
    (tails : m'.tails.length = m.tails.length) (proper : Place.Proper m.tails.length (.inr p)) :
    Ordered (Function.update phases i p) m' := by
  refine ⟨⟨deeds, ?_⟩, ?_, tails.trans h.single⟩
  · rwa [Function.comp_update]
  · rw [tails]
    apply (Function.forall_update_iff phases fun _ q => Place.Proper m.tails.length (.inr q)).mpr
    exact ⟨proper, fun j _ => h.proper j⟩

theorem Ordered.turn (h : Ordered phases m) (i : Nat) :
    Ordered (Function.update phases i (tick onOwnNodes m (phases i)).2)
      (tick onOwnNodes m (phases i)).1 := by
  obtain ⟨deeds, inv⟩ := h.inv
  have proper := h.proper i
  have sizes := Place.sizes_turn proper
  have next := Place.proper_turn proper
  exact h.move (inv.place_turn proper rfl) sizes.1 next

theorem Ordered.next {s s' : Lock.Scene Nat Memory OwnLabel Guard} (h : Ordered s.phases s.memory)
    (next : s.Next onOwnNodes (fun _ => [.allocate 0]) s') : Ordered s'.phases s'.memory := by
  obtain ⟨deeds, inv⟩ := h.inv
  cases next with
  | rest => exact h
  | enter i l here entrance =>
    obtain rfl := List.mem_singleton.mp entrance
    have same : ownStand (.entering (.allocate 0)) = (ownStand ∘ s.phases) i := by
      rw [Function.comp_apply, here]
      rfl
    have still : Inv (Function.update (ownStand ∘ s.phases) i (ownStand (.entering (.allocate 0)))) s.memory
        deeds := by
      rw [same, Function.update_eq_self]
      exact inv
    refine h.move still rfl ?_
    rw [h.single]
    exact Nat.zero_lt_one
  | giveUp i token here =>
    have holds : (ownStand ∘ s.phases) i = .holds token := by
      rw [Function.comp_apply, here]
      rfl
    exact h.move (inv.release holds) rfl rfl
  | seek i l here =>
    have turned := h.turn i
    rwa [here] at turned
  | leave i l here =>
    have turned := h.turn i
    rwa [here] at turned

theorem ordered_after (actions : List (Lock.Action Nat)) :
    Ordered (Lock.Scene.after onOwnNodes (fun _ => [.allocate 0]) (.ofSizes 1 0) actions).phases
      (Lock.Scene.after onOwnNodes (fun _ => [.allocate 0]) (.ofSizes 1 0) actions).memory := by
  apply Lock.Scene.after_invariant (I := fun s => Ordered s.phases s.memory)
  · exact ⟨⟨[], .free (fun _ => rfl) (Scene.tail_ofSizes 1 0)⟩, fun _ => trivial, rfl⟩
  · exact fun _ _ h => h.next

theorem exclusive (actions : List (Lock.Action Nat)) :
    (Lock.Scene.after onOwnNodes (fun _ => [.allocate 0]) (.ofSizes 1 0) actions).Exclusive := by
  have ordered := ordered_after actions
  generalize Lock.Scene.after onOwnNodes (fun _ => [.allocate 0]) (.ofSizes 1 0) actions = s at ordered
  obtain ⟨deeds, inv⟩ := ordered.inv
  obtain ⟨line, kept⟩ := inv.kept 0
  intro i j t u hi hj
  have at_i : (ownStand ∘ s.phases) i = .holds t := by
    rw [Function.comp_apply, hi]
    rfl
  have at_j : (ownStand ∘ s.phases) j = .holds u := by
    rw [Function.comp_apply, hj]
    rfl
  have lock_i := (inv.bound i t (by rw [at_i]; rfl)).1
  have lock_j := (inv.bound j u (by rw [at_j]; rfl)).1
  rw [ordered.single] at lock_i lock_j
  exact kept.exclusive (by rw [at_i]; rfl) (by rw [at_j]; rfl) (by omega) (by omega)

end Ordered

end QueueLock

namespace LockKind

def entrances (kind : LockKind) : List kind.Label := kind.acquire :: kind.attempt?.toList

/-- Ticket locks count on fewer tickets being drawn than there are words. -/
def Roomy : (kind : LockKind) → List (Taken Nat kind.Memory kind.Label) → Prop
  | .ticket, record => (TicketLock.drawn record).length < 2 ^ 64
  | _, _ => True

/-- However its users mix waiting and single attempts, a lock has at most one holder. -/
theorem exclusive (kind : LockKind) (actions : List (Action Nat))
    (roomy : kind.Roomy (Scene.after kind.lock (fun _ => kind.entrances) kind.free actions).record) :
    (Scene.after kind.lock (fun _ => kind.entrances) kind.free actions).Exclusive := by
  cases kind with
  | testAndSet | blocking => exact TestAndSet.flag_of_both.exclusive (by decide) actions
  | testThenSet => exact TestThenSet.flag_of_both.exclusive (by decide) actions
  | ticket => exact TicketLock.exclusive (by decide) actions roomy
  | queue => exact QueueLock.exclusive actions

end LockKind

end SharedMemory
