import SharedMemory.Proofs.CombiningOrder

/-!
# Which requests the log takes

A submission reserves the index that the counter shows and moves the counter on, past the end of the log
if need be. So the log takes the first submissions that reserve, as many as it has records, and all
later ones are refused at once.
-/
namespace SharedMemory.FlatCombining

/-- The operation that the next step of a thread reserves an index for. -/
def reserving? (v : View Memory Label Answer) (i : Nat) : Option Operation :=
  match v.label i with
  | some (.reserve _) => some (v.current i)
  | _ => none

section Run

variable (d : Discipline) (config : LogConfig) (programs : List (List Call))

/-- The operations that have reserved an index, in the order in which they did. -/
def reserved (schedule : List (Turn Bool)) : List Operation :=
  ((algorithm d).journal (.ofConfig config) programs reserving? schedule).reverse

variable {d config programs} {t : Turn Bool} {earlier moment schedule : List (Turn Bool)}
  {owners owners' : List Operation} {o : Operation}

theorem reserved_cons (t : Turn Bool) (earlier : List (Turn Bool)) :
    reserved d config programs (t :: earlier) = reserved d config programs earlier ++
      (reserving? (after d config programs earlier) t.thread).toList := by
  rw [reserved, Algorithm.journal, List.reverse_append, ← reserved]
  cases reserving? (after d config programs earlier) t.thread <;> rfl

theorem reserved_grows (suffix : moment <:+ schedule) :
    reserved d config programs moment <+: reserved d config programs schedule :=
  Turn.later (P := fun s => reserved d config programs moment <+: reserved d config programs s)
    (fun t earlier h => h.trans (reserved_cons t earlier ▸ List.prefix_append _ _)) suffix
    List.prefix_rfl

theorem reserving?_eq_some {v : View Memory Label Answer} {i : Nat} :
    reserving? v i = some o ↔ ∃ r, v.label i = some (.reserve r) ∧ v.current i = o := by
  unfold reserving?
  constructor
  · intro takes
    split at takes
    · next r here => exact ⟨r, here, Option.some.inj takes⟩
    · cases takes
  · rintro ⟨r, here, rfl⟩
    rw [here]

theorem next_step {l : Label} (other : ∀ r, l ≠ .reserve r) (spurious : Bool) (m : Memory) :
    (step d spurious l m).memory.next = m.next := by
  cases l with
  | reserve r => exact absurd rfl (other r)
  | lock | lookLock =>
    simp only [step]
    split <;> rfl
  | combine =>
    simp only [step]
    split
    · rfl
    · split <;> rfl
  | recheck =>
    simp only [step]
    split <;> rfl
  | _ => rfl

theorem next_reserve (r : Request) (spurious : Bool) (m : Memory) :
    (step d spurious (.reserve r) m).memory.next = m.next + 1 := by
  simp only [step]
  split <;> rfl

/-- Only a reservation moves the counter. -/
theorem next_turn (t : Turn Bool) (earlier : List (Turn Bool)) :
    (after d config programs (t :: earlier)).memory.next =
      if (reserving? (after d config programs earlier) t.thread).isSome then
        (after d config programs earlier).memory.next + 1
      else (after d config programs earlier).memory.next := by
  rcases (turn d config programs t earlier).rest_or_enter_or_take with
    ⟨outside, hv⟩ | ⟨c, outside, _, hv⟩ | ⟨l, here, hv⟩
  · rw [hv, reserving?, outside]
    rfl
  · rw [hv, reserving?, outside]
    rfl
  · rw [hv, View.memory_take]
    by_cases reserves : ∃ r, l = .reserve r
    · obtain ⟨r, rfl⟩ := reserves
      rw [reserving?_eq_some.mpr ⟨r, here, rfl⟩]
      exact next_reserve (d := d) r t.choice _
    · have silent : reserving? (after d config programs earlier) t.thread = none := by
        rw [reserving?, here]
        split
        · next r same => exact absurd ⟨r, Option.some.inj same⟩ reserves
        · rfl
      rw [silent]
      exact next_step (fun r same => reserves ⟨r, same⟩) t.choice _

theorem turn_taken {r : Request}
    (here : (after d config programs earlier).label t.thread = some (.reserve r))
    (inside : (after d config programs earlier).memory.next.toNat <
      (after d config programs earlier).memory.log.size) :
    after d config programs (t :: earlier) = (after d config programs earlier).move t.thread
      { (after d config programs earlier).memory with
        next := (after d config programs earlier).memory.next + 1 }
      (.writeKind (after d config programs earlier).memory.next.toNat r) [] := by
  rw [(turn d config programs t earlier).take here]
  simp [View.take, algorithm, step, inside]

theorem turn_refused {r : Request}
    (here : (after d config programs earlier).label t.thread = some (.reserve r))
    (full : (after d config programs earlier).memory.log.size ≤
      (after d config programs earlier).memory.next.toNat) :
    after d config programs (t :: earlier) = (after d config programs earlier).answer t.thread
      { (after d config programs earlier).memory with
        next := (after d config programs earlier).memory.next + 1 }
      (.served (.error (.logFull (after d config programs earlier).memory.capacity)))
      [.logExhausted (after d config programs earlier).memory.capacity] := by
  rw [(turn d config programs t earlier).take here]
  simp [View.take, algorithm, step, Nat.not_lt.mpr full]

theorem Invariant.extended (before : Invariant d config programs earlier owners)
    (now : Invariant d config programs (t :: earlier) owners') : owners <+: owners' := by
  rw [List.prefix_iff_getElem?]
  intro k hk
  have owner : owners[k]? = some owners[k] := List.getElem?_eq_getElem hk
  obtain ⟨same, covered⟩ := before.places k _ owner
  obtain ⟨r, called⟩ := before.owned.called _ (List.mem_of_getElem? owner)
  have kept := now.owner (covered_later covered) called
  rwa [place_kept covered, same] at kept

theorem Invariant.reserving (before : Invariant d config programs earlier owners)
    (now : Invariant d config programs (t :: earlier) owners') {r : Request}
    (here : (after d config programs earlier).label t.thread = some (.reserve r)) :
    owners'[owners.length]? = some ((after d config programs earlier).current t.thread) := by
  have called : ((after d config programs earlier).current t.thread).call? programs =
      some (.submit r) := before.stands _ _ here
  have covered : (after d config programs (t :: earlier)).Covers Placed
      ((after d config programs earlier).current t.thread) := by
    rcases Nat.lt_or_ge (after d config programs earlier).memory.next.toNat
      (after d config programs earlier).memory.log.size with inside | full
    · refine .inr ⟨.writeKind (after d config programs earlier).memory.next.toNat r, ?_, trivial⟩
      simp [turn_taken here inside, View.StandsAt, View.current]
    · exact .inl (by simp [turn_refused here full, View.Answered, View.current])
  have owner := now.owner covered called
  rwa [place, if_pos rfl, here, before.owned.next] at owner

/-- The owners of the log's records are the operations that have reserved. -/
theorem invariant_reserved (d : Discipline) (config : LogConfig) (bound : submissions programs < 2 ^ 64)
    (schedule : List (Turn Bool)) :
    Invariant d config programs schedule (reserved d config programs schedule) := by
  induction schedule with
  | nil => exact .start d config programs
  | cons t earlier ih =>
    obtain ⟨owners, now⟩ := exists_invariant d config programs bound (t :: earlier)
    obtain ⟨added, rfl⟩ := ih.extended now
    have length := now.owned.next
    rw [next_turn, List.length_append, ← ih.owned.next] at length
    rw [reserved_cons]
    cases takes : reserving? (after d config programs earlier) t.thread with
    | none =>
      rw [takes] at length
      obtain rfl : added = [] := List.length_eq_zero_iff.mp (Nat.left_eq_add.mp length)
      exact now
    | some o =>
      obtain ⟨r, here, rfl⟩ := reserving?_eq_some.mp takes
      have last := ih.reserving now here
      rw [List.getElem?_append_right (Nat.le_refl _), Nat.sub_self] at last
      cases added with
      | nil => cases last
      | cons first rest =>
        cases last
        have step : ((after d config programs earlier).memory.next + 1).toNat ≤
            (after d config programs earlier).memory.next.toNat + 1 := by
          rw [UInt64.toNat_add]
          exact Nat.mod_le _ _
        rw [takes, Option.isSome_some, if_pos rfl, List.length_cons] at length
        obtain rfl : rest = [] := List.length_eq_zero_iff.mp (by omega)
        exact now

end Run

section Exact

variable {d : Discipline} {config : LogConfig} {programs : List (List Call)}
  {moment schedule : List (Turn Bool)} {o : Operation}

theorem size_step (l : Label) (m : Memory) (spurious : Bool) :
    (step d spurious l m).memory.log.size = m.log.size := by
  cases l with
  | reserve | lock | lookLock | recheck =>
    simp only [step]
    split <;> rfl
  | combine =>
    simp only [step]
    split
    · simp [Memory.applyNext]
    · split <;> rfl
  | writeKind | writeValue | publish => exact size_modifyRecord ..
  | _ => rfl

theorem size_after (d : Discipline) (config : LogConfig) (programs : List (List Call))
    (schedule : List (Turn Bool)) :
    (after d config programs schedule).memory.log.size = config.capacity.toNat := by
  refine (algorithm d).memory_after (.ofConfig config) programs
    (P := fun m => m.log.size = config.capacity.toNat) ?_ (fun choice l m size => ?_) schedule
  · simp [Memory.ofConfig]
  · exact (size_step l m choice).trans size

theorem capacity_after (d : Discipline) (config : LogConfig) (programs : List (List Call))
    (schedule : List (Turn Bool)) :
    (after d config programs schedule).memory.capacity = config.capacity := by
  rw [Memory.capacity, size_after, UInt64.ofNat_toNat]

theorem next_eq (d : Discipline) (config : LogConfig) (bound : submissions programs < 2 ^ 64)
    (schedule : List (Turn Bool)) :
    (after d config programs schedule).memory.next.toNat = (reserved d config programs schedule).length :=
  (invariant_reserved d config bound schedule).owned.next

theorem nodup_reserved (bound : submissions programs < 2 ^ 64) :
    (reserved d config programs schedule).Nodup :=
  (invariant_reserved d config bound schedule).owned.distinct

theorem place_unique (bound : submissions programs < 2 ^ 64) {i k : Nat}
    (hi : (reserved d config programs schedule)[i]? = some o)
    (hk : (reserved d config programs schedule)[k]? = some o) : i = k :=
  (List.getElem?_inj (List.getElem?_eq_some_iff.mp hi).1 (nodup_reserved bound)).mp (hi.trans hk.symm)

/-- A submission that found no record was refused by that very step. -/
theorem answer_of_refused (bound : submissions programs < 2 ^ 64)
    (late : o ∈ (reserved d config programs schedule).drop config.capacity.toNat) :
    (after d config programs schedule).answer? o = some (.served (.error (.logFull config.capacity))) := by
  induction schedule with
  | nil => simp [reserved, Algorithm.journal] at late
  | cons t earlier ih =>
    rw [reserved_cons, List.drop_append, List.mem_append] at late
    rcases late with before | now
    · exact (turn d config programs t earlier).answer?_kept (ih before)
    · have mem := List.mem_of_mem_drop now
      have full : config.capacity.toNat ≤ (reserved d config programs earlier).length := by
        by_contra room
        rw [List.drop_eq_nil_of_le] at now
        · cases now
        · have : (reserving? (after d config programs earlier) t.thread).toList.length ≤ 1 := by
            cases reserving? (after d config programs earlier) t.thread <;> simp
          omega
      obtain ⟨r, here, rfl⟩ := reserving?_eq_some.mp (Option.mem_toList.mp mem)
      rw [← next_eq d config bound, ← size_after d config programs earlier] at full
      rw [turn_refused here full, View.answer?_answer, capacity_after]

theorem mem_drop_of_getElem? {owners : List Operation} {i k : Nat} (owner : owners[i]? = some o)
    (beyond : k ≤ i) : o ∈ owners.drop k := by
  refine List.mem_of_getElem? (i := i - k) ?_
  rw [List.getElem?_drop, Nat.add_sub_cancel' beyond, owner]

theorem refused_of_error (bound : submissions programs < 2 ^ 64) {e : Error}
    (gives : (after d config programs schedule).answer? o = some (.served (.error e))) :
    e = .logFull config.capacity ∧
      o ∈ (reserved d config programs schedule).drop config.capacity.toNat := by
  obtain ⟨i, owner, beyond⟩ := (invariant_reserved d config bound schedule).answers o _ gives
  rw [size_after] at beyond
  have late := mem_drop_of_getElem? owner beyond
  refine ⟨?_, late⟩
  have same := gives.symm.trans (answer_of_refused bound late)
  cases same
  rfl

theorem taken_of_result (bound : submissions programs < 2 ^ 64) {result : Option Value}
    (gives : (after d config programs schedule).answer? o = some (.served (.ok result))) :
    o ∈ (reserved d config programs schedule).take config.capacity.toNat := by
  obtain ⟨i, holds, _⟩ := (invariant_reserved d config bound schedule).answers o _ gives
  have inside := holds.inside
  rw [size_after] at inside
  refine List.mem_of_getElem? (i := i) ?_
  rw [List.getElem?_take_of_lt inside, holds.owner]

/-- A submission that found a record is served, or is still in progress. -/
theorem result_of_taken (bound : submissions programs < 2 ^ 64)
    (early : o ∈ (reserved d config programs schedule).take config.capacity.toNat) :
    (∃ result, (after d config programs schedule).answer? o = some (.served (.ok result))) ∨
      ∃ l, (after d config programs schedule).StandsAt o l := by
  have inv := invariant_reserved d config bound schedule
  obtain ⟨k, hk⟩ := List.mem_iff_getElem?.mp early
  rw [List.getElem?_take, Option.ite_none_right_eq_some] at hk
  obtain ⟨inside, owner⟩ := hk
  obtain ⟨_, answered | ⟨l, at_l, _⟩⟩ := inv.places k o owner
  swap
  · exact .inr ⟨l, at_l⟩
  obtain ⟨a, gives⟩ : ∃ a, (after d config programs schedule).answer? o = some a :=
    ⟨_, List.getElem?_eq_getElem answered⟩
  have answers := inv.answers o a gives
  match a, gives, answers with
  | .served (.ok result), gives, _ => exact .inl ⟨result, gives⟩
  | .served (.error e), gives, ⟨i, owner', beyond⟩ =>
    rw [size_after] at beyond
    have same := place_unique bound owner owner'
    omega
  | .emptiness empty, gives, looked =>
    obtain ⟨r, called⟩ := inv.owned.called o (List.mem_of_getElem? owner)
    cases looked.called.symm.trans called

def Label.Submits : Label → Prop
  | .lookLock | .look | .lookUnlock _ => False
  | _ => True

/-- Between submissions, all records that were reserved have been applied. -/
theorem watermark_of_quiet (bound : submissions programs < 2 ^ 64)
    (quiet : ∀ i l, (after d config programs schedule).label i = some l → ¬ l.Submits) :
    (after d config programs schedule).memory.watermark =
      min (after d config programs schedule).memory.next.toNat config.capacity.toNat := by
  have inv := invariant_reserved d config bound schedule
  have below := inv.owned.watermark_le
  have bounded := inv.owned.applied.bounded
  rw [size_after] at bounded
  rw [next_eq d config bound]
  refine Nat.le_antisymm (Nat.le_min.mpr ⟨below, bounded⟩) (Nat.not_lt.mp fun behind => ?_)
  obtain ⟨reserved_there, inside⟩ := Nat.lt_min.mp behind
  have owner := List.getElem?_eq_getElem reserved_there
  have early := List.mem_of_getElem? ((List.getElem?_take_of_lt inside).trans owner)
  rcases result_of_taken bound early with ⟨result, gives⟩ | ⟨l, index, here⟩
  · obtain ⟨i, holds, outcome⟩ := inv.answers _ _ gives
    have done : ((after d config programs schedule).memory.record i).isDone := by
      simp [Record.isDone, outcome]
    rw [inv.owned.applied.done i holds.inside, place_unique bound holds.owner owner] at done
    exact Nat.lt_irrefl _ done
  · obtain ⟨r, called⟩ := inv.owned.called _ (List.mem_of_getElem? owner)
    have stands := inv.stands _ l here
    rw [← View.current_thread index] at stands
    cases l with
    | lookLock | look => cases called.symm.trans stands
    | lookUnlock empty => cases called.symm.trans stands.called
    | _ => exact quiet _ _ here trivial

end Exact

end SharedMemory.FlatCombining
