import SharedMemory.Proofs.CombiningOwners

/-!
# Flat combining serves requests in the order of its log

A submission takes its place when it reserves a record, a look at the container when it reads it with
the mutex in hand: its place is the number of records applied by then. `combining_log_order` says that
answers are those of replaying the log, and that places respect real time.
-/
namespace SharedMemory.FlatCombining

def Placed (_ : Memory) : Label → Prop
  | .reserve _ | .lookLock | .look => False
  | _ => True

section Run

variable (d : Discipline) (config : LogConfig) (programs : List (List Call))

abbrev after (schedule : List (Turn Bool)) : View Memory Label Answer :=
  (algorithm d).viewAfter (.ofConfig config) programs schedule

/-- The index of the record that a submission reserves, and the number of records applied when a look
reads the container. -/
def place : List (Turn Bool) → Operation → Nat
  | [], _ => 0
  | t :: earlier, o =>
    let v := after d config programs earlier
    if o = v.current t.thread then
      match v.label t.thread with
      | some (.reserve _) => v.memory.next.toNat
      | some .look => v.memory.watermark
      | _ => place earlier o
    else place earlier o

/-- A look took its place while it was in progress: it found what the container held at that moment,
which is what the log holds below its place. -/
structure Looked (schedule : List (Turn Bool)) (o : Operation) (empty : Bool) : Prop where
  called : o.call? programs = some .isEmpty
  below : place d config programs schedule o ≤ (after d config programs schedule).memory.watermark
  found : empty = ((after d config programs schedule).memory.replayed d
    (place d config programs schedule o)).isEmpty
  instant : ∃ moment, moment <:+ schedule ∧ (after d config programs moment).StandsAt o .look ∧
    (after d config programs moment).memory.watermark = place d config programs schedule o ∧
    (after d config programs moment).memory.store.isEmpty = empty

end Run

section Invariant

variable (d : Discipline) (config : LogConfig) (programs : List (List Call))
  (schedule : List (Turn Bool)) (owners : List Operation)

def Stands (o : Operation) : Label → Prop
  | .reserve r => o.call? programs = some (.submit r)
  | .writeKind i r => Writes programs owners (after d config programs schedule).memory o i r
  | .writeValue i r =>
    Writes programs owners (after d config programs schedule).memory o i r ∧
      ((after d config programs schedule).memory.record i).kind = kindOf r
  | .publish i =>
    Writes programs owners (after d config programs schedule).memory o i
      ((after d config programs schedule).memory.record i).request
  | .lock i | .check i | .combine i _ | .recheck i | .asleep i _ =>
    Waits owners (after d config programs schedule).memory o i
  | .unlock result => Served owners (after d config programs schedule).memory o result
  | .lookLock | .look => o.call? programs = some .isEmpty
  | .lookUnlock empty => Looked d config programs schedule o empty

def Answers (o : Operation) : Answer → Prop
  | .served (.ok result) => Served owners (after d config programs schedule).memory o result
  | .served (.error _) =>
    ∃ i, owners[i]? = some o ∧ (after d config programs schedule).memory.log.size ≤ i
  | .emptiness empty => Looked d config programs schedule o empty

structure Invariant : Prop where
  owned : Owned programs owners (after d config programs schedule).memory d
  places : ∀ k o, owners[k]? = some o →
    place d config programs schedule o = k ∧ (after d config programs schedule).Covers Placed o
  stands : ∀ i l, (after d config programs schedule).label i = some l →
    Stands d config programs schedule owners ((after d config programs schedule).current i) l
  answers : ∀ o a, (after d config programs schedule).answer? o = some a →
    Answers d config programs schedule owners o a

theorem Invariant.start : Invariant d config programs [] [] where
  owned := by
    refine ⟨?_, ?_, List.nodup_nil, by simp, ?_⟩
    · simpa [after, View.start] using Applied.ofConfig d config
    · simp [after, View.start, Memory.ofConfig]
    · intro k _ published
      simp [after, View.start, Memory.ofConfig, Memory.record, Array.getD] at published
  places := by simp
  stands i l h := by simp [after, View.start] at h
  answers o a h := by simp [after, View.start, View.answer?] at h

end Invariant

section Step

variable {d : Discipline} {config : LogConfig} {programs : List (List Call)} {t : Turn Bool}
  {earlier schedule : List (Turn Bool)} {owners owners' : List Operation} {o : Operation}

theorem turn (d : Discipline) (config : LogConfig) (programs : List (List Call)) (t : Turn Bool)
    (earlier : List (Turn Bool)) :
    (after d config programs earlier).Step (algorithm d) programs t.thread t.choice
      (after d config programs (t :: earlier)) :=
  (algorithm d).viewAfter_cons (.ofConfig config) programs t earlier

theorem place_kept (covered : (after d config programs earlier).Covers Placed o) :
    place d config programs (t :: earlier) o = place d config programs earlier o := by
  have fresh : ∀ l, (after d config programs earlier).label t.thread = some l →
      ¬ Placed (after d config programs earlier).memory l →
      o ≠ (after d config programs earlier).current t.thread := by
    intro l here unplaced same
    exact View.not_covers_current here unplaced (same ▸ covered)
  simp only [place]
  split
  · next same =>
    split
    · next r here => exact absurd same (fresh _ here id)
    · next here => exact absurd same (fresh _ here id)
    · rfl
  · rfl

theorem placed_step {l l' : Label} {m : Memory} {spurious : Bool} (placed : Placed m l)
    (goes : (step d spurious l m).status = .running l') (m' : Memory) : Placed m' l' := by
  cases l with
  | reserve | lookLock | look => exact absurd placed id
  | writeKind | writeValue | publish =>
    cases goes
    trivial
  | lock =>
    simp only [step] at goes
    split at goes <;> cases goes <;> trivial
  | combine =>
    simp only [step] at goes
    split at goes
    · cases goes
      trivial
    · split at goes <;> cases goes <;> trivial
  | recheck =>
    simp only [step] at goes
    split at goes <;> cases goes <;> trivial
  | check | asleep =>
    cases goes
    split <;> trivial
  | unlock | lookUnlock => cases goes

theorem covered_later (covered : (after d config programs earlier).Covers Placed o) :
    (after d config programs (t :: earlier)).Covers Placed o := by
  apply (turn d config programs t earlier).covers _ _ covered
  · exact fun j k _ _ placed => placed
  · exact fun l l' _ goes placed => placed_step placed goes _

/-- What stands at the place of an operation that has one is the same at all later moments. -/
theorem place_of_suffix {moment : List (Turn Bool)} (h : moment <:+ schedule)
    (covered : (after d config programs moment).Covers Placed o) :
    place d config programs schedule o = place d config programs moment o ∧
      (after d config programs schedule).Covers Placed o := by
  apply Turn.later _ h (⟨rfl, covered⟩ : _ ∧ _)
  intro t earlier ⟨same, covered'⟩
  exact ⟨(place_kept covered').trans same, covered_later covered'⟩

theorem Looked.later {empty : Bool} (h : Looked d config programs earlier o empty)
    (applied : Applied d (after d config programs earlier).memory)
    (later : Later owners (after d config programs earlier).memory
      ((after d config programs earlier).current t.thread) owners'
      (after d config programs (t :: earlier)).memory)
    (covered : (after d config programs earlier).Covers Placed o) :
    Looked d config programs (t :: earlier) o empty := by
  obtain ⟨moment, suffix, during, watermark, found⟩ := h.instant
  constructor
  · exact h.called
  · rw [place_kept covered]
    exact Nat.le_trans h.below later.watermark
  · rw [place_kept covered, later.replayed applied h.below]
    exact h.found
  · rw [place_kept covered]
    exact ⟨moment, suffix.trans (List.suffix_cons t earlier), during, watermark, found⟩

/-- A thread keeps all that holds of it while nobody writes to the record it has still to publish. -/
theorem Stands.later {l : Label} (h : Stands d config programs earlier owners o l)
    (applied : Applied d (after d config programs earlier).memory)
    (later : Later owners (after d config programs earlier).memory
      ((after d config programs earlier).current t.thread) owners'
      (after d config programs (t :: earlier)).memory)
    (kept : ∀ i r, Writes programs owners (after d config programs earlier).memory o i r →
      (after d config programs (t :: earlier)).memory.record i =
        (after d config programs earlier).memory.record i)
    (covered : Placed (after d config programs earlier).memory l →
      (after d config programs earlier).Covers Placed o) :
    Stands d config programs (t :: earlier) owners' o l := by
  cases l with
  | reserve | lookLock | look => exact h
  | writeKind i r => exact Writes.later h later (kept i r h)
  | writeValue i r =>
    obtain ⟨writes, kind⟩ := h
    refine ⟨writes.later later (kept i r writes), ?_⟩
    rw [kept i r writes, kind]
  | publish i =>
    have same := kept i _ h
    have writes := Writes.later h later same
    simp only [Stands, same]
    exact writes
  | lock | check | combine | recheck | asleep => exact Waits.later h later
  | unlock => exact Served.later h later
  | lookUnlock => exact Looked.later h applied later (covered trivial)

theorem Answers.later {a : Answer} (h : Answers d config programs earlier owners o a)
    (applied : Applied d (after d config programs earlier).memory)
    (later : Later owners (after d config programs earlier).memory
      ((after d config programs earlier).current t.thread) owners'
      (after d config programs (t :: earlier)).memory)
    (answered : (after d config programs earlier).Answered o) :
    Answers d config programs (t :: earlier) owners' o a := by
  cases a with
  | served result =>
    cases result with
    | ok => exact Served.later h later
    | error =>
      obtain ⟨i, owner, beyond⟩ := h
      exact ⟨i, later.owner owner, by rw [later.size]; exact beyond⟩
  | emptiness => exact Looked.later h applied later (.inl answered)

/-- A turn keeps the invariant if it keeps the log in order and what it says of the thread that moves
holds. -/
theorem Invariant.advance (h : Invariant d config programs earlier owners)
    (owned : Owned programs owners' (after d config programs (t :: earlier)).memory d)
    (later : Later owners (after d config programs earlier).memory
      ((after d config programs earlier).current t.thread) owners'
      (after d config programs (t :: earlier)).memory)
    (places : ∀ k o, owners'[k]? = some o → owners[k]? = some o ∨
      place d config programs (t :: earlier) o = k ∧
        (after d config programs (t :: earlier)).Covers Placed o)
    (own : ∀ l, (after d config programs (t :: earlier)).label t.thread = some l →
      Stands d config programs (t :: earlier) owners'
        ((after d config programs (t :: earlier)).current t.thread) l)
    (answered : ∀ a, (after d config programs (t :: earlier)).answer?
        ((after d config programs earlier).current t.thread) = some a →
      Answers d config programs (t :: earlier) owners'
        ((after d config programs earlier).current t.thread) a) :
    Invariant d config programs (t :: earlier) owners' := by
  have step := turn d config programs t earlier
  constructor
  · exact owned
  · intro k o owner
    rcases places k o owner with owner | new
    · obtain ⟨same, covered⟩ := h.places k o owner
      exact ⟨(place_kept covered).trans same, covered_later covered⟩
    · exact new
  · intro j l here
    by_cases hj : j = t.thread
    · subst hj
      exact own l here
    · obtain ⟨label, current⟩ := step.others hj
      rw [label] at here
      rw [current]
      apply (h.stands j l here).later h.owned.applied later
      · intro i r writes
        apply writes.kept later
        intro same
        exact hj (congrArg Operation.thread same)
      · intro placed
        exact View.covers_current.mpr ⟨l, here, placed⟩
  · intro o a gives
    rcases step.answer? gives with old | ⟨rfl, _⟩
    · have before := (List.getElem?_eq_some_iff.mp old).1
      exact (h.answers o a old).later h.owned.applied later before
    · exact answered a gives

end Step

section Turns

variable {d : Discipline} {config : LogConfig} {programs : List (List Call)} {t : Turn Bool}
  {earlier : List (Turn Bool)} {owners owners' : List Operation}

theorem Invariant.moved (h : Invariant d config programs earlier owners) {m' : Memory} {l' : Label}
    {events : List Event}
    (hv : after d config programs (t :: earlier) =
      (after d config programs earlier).move t.thread m' l' events)
    (owned : Owned programs owners' m' d)
    (later : Later owners (after d config programs earlier).memory
      ((after d config programs earlier).current t.thread) owners' m')
    (places : ∀ k o, owners'[k]? = some o → owners[k]? = some o ∨
      place d config programs (t :: earlier) o = k ∧
        (after d config programs (t :: earlier)).Covers Placed o)
    (stands : Stands d config programs (t :: earlier) owners'
      ((after d config programs earlier).current t.thread) l') :
    Invariant d config programs (t :: earlier) owners' := by
  have memory : (after d config programs (t :: earlier)).memory = m' := by simp [hv]
  apply h.advance (memory ▸ owned) (memory ▸ later) places
  · intro l here
    rw [hv, View.label_move, Function.update_self] at here
    have current : (after d config programs (t :: earlier)).current t.thread =
        (after d config programs earlier).current t.thread := by
      simp [hv, View.current]
    rw [current, ← Option.some.inj here]
    exact stands
  · intro a gives
    rw [hv] at gives
    exact absurd gives (View.unanswered_of_answers (View.answers_move _ _ _ _ _) a rfl)

theorem Invariant.answered (h : Invariant d config programs earlier owners) {m' : Memory} {a : Answer}
    {events : List Event}
    (hv : after d config programs (t :: earlier) =
      (after d config programs earlier).answer t.thread m' a events)
    (owned : Owned programs owners' m' d)
    (later : Later owners (after d config programs earlier).memory
      ((after d config programs earlier).current t.thread) owners' m')
    (places : ∀ k o, owners'[k]? = some o → owners[k]? = some o ∨
      place d config programs (t :: earlier) o = k ∧
        (after d config programs (t :: earlier)).Covers Placed o)
    (answers : Answers d config programs (t :: earlier) owners'
      ((after d config programs earlier).current t.thread) a) :
    Invariant d config programs (t :: earlier) owners' := by
  have memory : (after d config programs (t :: earlier)).memory = m' := by simp [hv]
  apply h.advance (memory ▸ owned) (memory ▸ later) places
  · intro l here
    simp [hv] at here
  · intro a' gives
    rw [hv, View.answer?_answer] at gives
    rw [← Option.some.inj gives]
    exact answers

theorem Invariant.rest (h : Invariant d config programs earlier owners)
    (hv : after d config programs (t :: earlier) = after d config programs earlier) :
    Invariant d config programs (t :: earlier) owners := by
  have later : Later owners (after d config programs earlier).memory
      ((after d config programs earlier).current t.thread) owners
      (after d config programs (t :: earlier)).memory := by
    rw [hv]
    exact Later.of_log rfl rfl _
  apply h.advance
  · rw [hv]
    exact h.owned
  · exact later
  · exact fun _ _ owner => .inl owner
  · intro l here
    rw [hv] at here ⊢
    apply (h.stands _ l here).later h.owned.applied later
    · intro i r _
      rw [hv]
    · intro placed
      exact View.covers_current.mpr ⟨l, here, placed⟩
  · intro a gives
    rw [hv, View.answer?_current] at gives
    cases gives

theorem Invariant.enter (h : Invariant d config programs earlier owners) {c : Call}
    (next : (callsOf programs t.thread)[((after d config programs earlier).answers t.thread).length]? =
      some c)
    (hv : after d config programs (t :: earlier) =
      (after d config programs earlier).enter t.thread ((algorithm d).enter c)) :
    Invariant d config programs (t :: earlier) owners := by
  have memory : (after d config programs (t :: earlier)).memory =
      (after d config programs earlier).memory := by simp [hv]
  apply h.advance
  · rw [memory]
    exact h.owned
  · rw [memory]
    exact Later.of_log rfl rfl _
  · exact fun _ _ owner => .inl owner
  · intro l here
    rw [hv, View.label_enter, Function.update_self] at here
    have called : ((after d config programs (t :: earlier)).current t.thread).call? programs =
        some c := by
      simp only [hv, View.current, Operation.call?, View.answers_enter]
      exact next
    cases c <;> cases here <;> exact called
  · intro a gives
    rw [hv] at gives
    exact absurd gives (View.unanswered_of_answers (View.answers_enter _ _ _) a rfl)

theorem Invariant.quiet (h : Invariant d config programs earlier owners) {m' : Memory} {l' : Label}
    {events : List Event}
    (hv : after d config programs (t :: earlier) =
      (after d config programs earlier).move t.thread m' l' events)
    (log : m'.log = (after d config programs earlier).memory.log)
    (watermark : m'.watermark = (after d config programs earlier).memory.watermark)
    (store : m'.store = (after d config programs earlier).memory.store)
    (next : m'.next = (after d config programs earlier).memory.next)
    (stands : Later owners (after d config programs earlier).memory
        ((after d config programs earlier).current t.thread) owners
        (after d config programs (t :: earlier)).memory →
      Stands d config programs (t :: earlier) owners
        ((after d config programs earlier).current t.thread) l') :
    Invariant d config programs (t :: earlier) owners := by
  have later : Later owners (after d config programs earlier).memory
      ((after d config programs earlier).current t.thread) owners m' :=
    Later.of_log log watermark _
  have memory : (after d config programs (t :: earlier)).memory = m' := by simp [hv]
  apply h.moved hv (h.owned.of_log log watermark store next) later
  · exact fun _ _ owner => .inl owner
  · exact stands (memory ▸ later)

theorem Invariant.write (h : Invariant d config programs earlier owners) {l' : Label} {i : Nat}
    {r : Request} {f : Record → Record}
    (hv : after d config programs (t :: earlier) = (after d config programs earlier).move t.thread
      ((after d config programs earlier).memory.modifyRecord i f) l' [])
    (writes : Writes programs owners (after d config programs earlier).memory
      ((after d config programs earlier).current t.thread) i r)
    (undone : ¬ (f ((after d config programs earlier).memory.record i)).isDone)
    (requests : (f ((after d config programs earlier).memory.record i)).state ≠ .vacant →
      (f ((after d config programs earlier).memory.record i)).request = r)
    (stands : Holds owners (after d config programs (t :: earlier)).memory
        ((after d config programs earlier).current t.thread) i →
      (after d config programs (t :: earlier)).memory.record i =
        f ((after d config programs earlier).memory.record i) →
      Stands d config programs (t :: earlier) owners
        ((after d config programs earlier).current t.thread) l') :
    Invariant d config programs (t :: earlier) owners := by
  have later := Later.write writes f
  have memory : (after d config programs (t :: earlier)).memory =
      (after d config programs earlier).memory.modifyRecord i f := by simp [hv]
  apply h.moved hv (h.owned.write writes undone requests) later
  · exact fun _ _ owner => .inl owner
  · apply stands
    · rw [memory]
      exact writes.toHolds.later later
    · rw [memory, record_modifyRecord f writes.inside, if_pos rfl]

theorem Invariant.leave (h : Invariant d config programs earlier owners) {a : Answer}
    (hv : after d config programs (t :: earlier) = (after d config programs earlier).answer t.thread
      { (after d config programs earlier).memory with mutex := false } a [])
    (answers : Later owners (after d config programs earlier).memory
        ((after d config programs earlier).current t.thread) owners
        (after d config programs (t :: earlier)).memory →
      Answers d config programs (t :: earlier) owners
        ((after d config programs earlier).current t.thread) a) :
    Invariant d config programs (t :: earlier) owners := by
  have later : Later owners (after d config programs earlier).memory
      ((after d config programs earlier).current t.thread) owners
      { (after d config programs earlier).memory with mutex := false } :=
    .of_log (by rfl) (by rfl) _
  apply h.answered hv (h.owned.of_log rfl rfl rfl rfl) later
  · exact fun _ _ owner => .inl owner
  · apply answers
    rw [hv]
    exact later

theorem Invariant.reserve (h : Invariant d config programs earlier owners)
    (bound : submissions programs < 2 ^ 64) {r : Request}
    (here : (after d config programs earlier).label t.thread = some (.reserve r))
    (covered : (after d config programs (t :: earlier)).Covers Placed
      ((after d config programs earlier).current t.thread)) :
    (after d config programs earlier).memory.next.toNat = owners.length ∧
      Owned programs (owners ++ [(after d config programs earlier).current t.thread])
        { (after d config programs earlier).memory with
          next := (after d config programs earlier).memory.next + 1 } d ∧
      ∀ k o, (owners ++ [(after d config programs earlier).current t.thread])[k]? = some o →
        owners[k]? = some o ∨ place d config programs (t :: earlier) o = k ∧
          (after d config programs (t :: earlier)).Covers Placed o := by
  have called := h.stands _ _ here
  have next := h.owned.next
  refine ⟨next, ?_, ?_⟩
  · apply h.owned.reserve bound _ called
    intro mem
    obtain ⟨k, owner⟩ := List.mem_iff_getElem?.mp mem
    exact View.not_covers_current here id (h.places k _ owner).2
  · intro k o owner
    rcases Nat.lt_or_ge k owners.length with hlt | hge
    · rw [List.getElem?_append_left hlt] at owner
      exact .inl owner
    · rw [List.getElem?_append_right hge, List.getElem?_singleton] at owner
      split at owner
      · cases owner
        refine .inr ⟨?_, covered⟩
        simp [place, here, next]
        omega
      · cases owner

theorem Invariant.move (h : Invariant d config programs earlier owners)
    (bound : submissions programs < 2 ^ 64) {l l' : Label}
    (here : (after d config programs earlier).label t.thread = some l)
    (goes : (step d t.choice l (after d config programs earlier).memory).status = .running l')
    (hv : after d config programs (t :: earlier) = (after d config programs earlier).move t.thread
      (step d t.choice l (after d config programs earlier).memory).memory l'
      (step d t.choice l (after d config programs earlier).memory).events) :
    ∃ owners', Invariant d config programs (t :: earlier) owners' := by
  have stand := h.stands _ _ here
  cases l with
  | reserve r =>
    simp only [step] at goes hv
    split at goes
    · next inside =>
      cases goes
      rw [if_pos inside] at hv
      have covered : (after d config programs (t :: earlier)).Covers Placed
          ((after d config programs earlier).current t.thread) :=
        .inr ⟨.writeKind (after d config programs earlier).memory.next.toNat r,
          by simp [hv, View.StandsAt, View.current], trivial⟩
      obtain ⟨next, owned, places⟩ := h.reserve bound here covered
      refine ⟨_, h.moved hv owned (.reserve _ _ _) places ?_⟩
      have vacant := h.owned.vacant inside
      have memory := congrArg View.memory hv
      refine ⟨⟨?_, ?_⟩, ?_, stand⟩
      · rw [next, List.getElem?_append_right (Nat.le_refl _), Nat.sub_self, List.getElem?_cons_zero]
      · rw [memory]
        exact inside
      · rw [memory]
        exact vacant
    · cases goes
  | writeKind i r =>
    cases goes
    refine ⟨owners, h.write hv stand ?_ ?_ fun holds record => ?_⟩
    · simp [Record.isDone_iff, stand.vacant]
    · simp [stand.vacant]
    · refine ⟨⟨holds, ?_, stand.called⟩, ?_⟩
      · simp [record, stand.vacant]
      · simp [record]
  | writeValue i r =>
    cases goes
    obtain ⟨writes, kind⟩ := stand
    refine ⟨owners, h.write hv writes ?_ ?_ fun holds record => ?_⟩
    · simp [Record.isDone_iff, writes.vacant]
    · simp [writes.vacant]
    · refine ⟨holds, ?_, ?_⟩
      · simp [record, writes.vacant]
      · rw [record, writes.called]
        cases r <;> simp [Record.request, kind, kindOf, valueOf]
  | publish i =>
    cases goes
    refine ⟨owners, h.write hv stand ?_ (fun _ => rfl) fun holds record => ⟨holds, ?_⟩⟩
    · simp [Record.isDone_iff]
    · simp [record]
  | lock i =>
    simp only [step] at goes hv
    split at goes
    · next taken =>
      cases goes
      rw [if_pos taken] at hv
      exact ⟨owners, h.quiet hv rfl rfl rfl rfl fun later => Waits.later stand later⟩
    · next free =>
      cases goes
      rw [if_neg free] at hv
      exact ⟨owners, h.quiet hv rfl rfl rfl rfl fun later => Waits.later stand later⟩
  | check i =>
    cases goes
    refine ⟨owners, h.quiet hv rfl rfl rfl rfl fun later => ?_⟩
    have waits := Waits.later stand later
    split
    · next result outcome =>
      refine Served.later ⟨i, stand.toHolds, outcome⟩ later
    · exact waits
  | combine i start =>
    simp only [step] at goes hv
    split at goes
    · next ready =>
      cases goes
      rw [if_pos ready] at hv
      have later : Later owners (after d config programs earlier).memory
          ((after d config programs earlier).current t.thread) owners
          ((after d config programs earlier).memory.applyNext d) := .applyNext ready _
      refine ⟨owners, h.moved hv (h.owned.applyNext ready) later (fun _ _ owner => .inl owner) ?_⟩
      have waits := Waits.later stand later
      rwa [← View.memory_move (after d config programs earlier) t.thread
        ((after d config programs earlier).memory.applyNext d) (.combine i start) [], ← hv] at waits
    · next idle =>
      rw [if_neg idle] at hv
      split at goes
      · next same =>
        cases goes
        rw [if_pos same] at hv
        exact ⟨owners, h.quiet hv rfl rfl rfl rfl fun later => Waits.later stand later⟩
      · next moved =>
        cases goes
        rw [if_neg moved] at hv
        exact ⟨owners, h.quiet hv rfl rfl rfl rfl fun later => Waits.later stand later⟩
  | recheck i =>
    simp only [step] at goes hv
    cases outcome : ((after d config programs earlier).memory.record i).outcome? with
    | some result =>
      rw [outcome] at goes hv
      cases goes
      refine ⟨owners, h.quiet hv rfl rfl rfl rfl fun later => ?_⟩
      exact Served.later ⟨i, stand.toHolds, outcome⟩ later
    | none =>
      rw [outcome] at goes hv
      cases goes
      exact ⟨owners, h.quiet hv rfl rfl rfl rfl fun later => Waits.later stand later⟩
  | asleep i signals =>
    cases goes
    refine ⟨owners, h.quiet hv rfl rfl rfl rfl fun later => ?_⟩
    have waits := Waits.later stand later
    split <;> exact waits
  | unlock result => cases goes
  | lookLock =>
    simp only [step] at goes hv
    split at goes
    · next taken =>
      cases goes
      rw [if_pos taken] at hv
      exact ⟨owners, h.quiet hv rfl rfl rfl rfl fun _ => stand⟩
    · next free =>
      cases goes
      rw [if_neg free] at hv
      exact ⟨owners, h.quiet hv rfl rfl rfl rfl fun _ => stand⟩
  | look =>
    cases goes
    have covered : place d config programs (t :: earlier)
        ((after d config programs earlier).current t.thread) =
        (after d config programs earlier).memory.watermark := by
      simp [place, here]
    refine ⟨owners, h.quiet hv rfl rfl rfl rfl fun later => ⟨stand, ?_, ?_, ?_⟩⟩
    · rw [covered]
      exact later.watermark
    · rw [covered, later.replayed h.owned.applied (Nat.le_refl _), Store.isEmpty_eq,
        h.owned.applied.contents]
    · rw [covered]
      exact ⟨earlier, List.suffix_cons t earlier, ⟨rfl, here⟩, rfl, rfl⟩
  | lookUnlock empty => cases goes

theorem Invariant.answer (h : Invariant d config programs earlier owners)
    (bound : submissions programs < 2 ^ 64) {l : Label} {a : Answer}
    (here : (after d config programs earlier).label t.thread = some l)
    (gives : (step d t.choice l (after d config programs earlier).memory).status = .returned a)
    (hv : after d config programs (t :: earlier) = (after d config programs earlier).answer t.thread
      (step d t.choice l (after d config programs earlier).memory).memory a
      (step d t.choice l (after d config programs earlier).memory).events) :
    ∃ owners', Invariant d config programs (t :: earlier) owners' := by
  have stand := h.stands _ _ here
  cases l with
  | reserve r =>
    simp only [step] at gives hv
    split at gives
    · cases gives
    · next beyond =>
      cases gives
      rw [if_neg beyond] at hv
      have covered : (after d config programs (t :: earlier)).Covers Placed
          ((after d config programs earlier).current t.thread) :=
        .inl (by simp [hv, View.Answered, View.current])
      obtain ⟨next, owned, places⟩ := h.reserve bound here covered
      refine ⟨_, h.answered hv owned (.reserve _ _ _) places ⟨owners.length, by simp, ?_⟩⟩
      rw [hv, ← next]
      exact Nat.le_of_not_lt beyond
  | unlock result =>
    cases gives
    exact ⟨owners, h.leave hv fun later => Served.later stand later⟩
  | lookUnlock empty =>
    cases gives
    have covered : (after d config programs earlier).Covers Placed
        ((after d config programs earlier).current t.thread) :=
      View.covers_current.mpr ⟨_, here, trivial⟩
    exact ⟨owners, h.leave hv fun later => Looked.later stand h.owned.applied later covered⟩
  | lock | lookLock =>
    simp only [step] at gives
    split at gives <;> cases gives
  | combine =>
    simp only [step] at gives
    split at gives
    · cases gives
    · split at gives <;> cases gives
  | recheck =>
    simp only [step] at gives
    split at gives <;> cases gives
  | writeKind | writeValue | publish | check | asleep | look => cases gives

theorem exists_invariant (d : Discipline) (config : LogConfig) (programs : List (List Call))
    (bound : submissions programs < 2 ^ 64) (schedule : List (Turn Bool)) :
    ∃ owners, Invariant d config programs schedule owners := by
  induction schedule with
  | nil => exact ⟨[], .start d config programs⟩
  | cons t earlier ih =>
    obtain ⟨owners, h⟩ := ih
    have turn := turn d config programs t earlier
    generalize hv : after d config programs (t :: earlier) = v' at turn
    cases turn with
    | rest => exact ⟨owners, h.rest hv⟩
    | enter c outside next => exact ⟨owners, h.enter next hv⟩
    | move l l' here goes => exact h.move bound here goes hv
    | answer l a here gives => exact h.answer bound here gives hv

end Turns

section LogOrder

variable {d : Discipline} {config : LogConfig} {programs : List (List Call)}
  {moment schedule : List (Turn Bool)} {owners past : List Operation} {o o' : Operation} {r r' : Request}

/-- An operation that has its place reserved the record there, or looked there. -/
theorem Invariant.owner_or_looked (h : Invariant d config programs schedule owners)
    (covered : (after d config programs schedule).Covers Placed o) :
    owners[place d config programs schedule o]? = some o ∨
      ∃ empty, Looked d config programs schedule o empty := by
  have owner : ∀ i : Nat, owners[i]? = some o → owners[place d config programs schedule o]? = some o := by
    intro i hi
    rw [(h.places i o hi).1]
    exact hi
  rcases covered with answered | ⟨l, ⟨index, here⟩, placed⟩
  · obtain ⟨a, gives⟩ : ∃ a, (after d config programs schedule).answer? o = some a :=
      ⟨_, List.getElem?_eq_getElem answered⟩
    have answers := h.answers o a gives
    cases a with
    | served result =>
      cases result with
      | ok result =>
        obtain ⟨i, holds, _⟩ := answers
        exact .inl (owner i holds.owner)
      | error e =>
        obtain ⟨i, hi, _⟩ := answers
        exact .inl (owner i hi)
    | emptiness empty => exact .inr ⟨empty, answers⟩
  · have stand := h.stands _ l here
    rw [← View.current_thread index] at stand
    cases l with
    | reserve | lookLock | look => exact absurd placed id
    | writeKind i r => exact .inl (owner i (Writes.toHolds stand).owner)
    | writeValue i r => exact .inl (owner i stand.1.owner)
    | publish i => exact .inl (owner i (Writes.toHolds stand).owner)
    | lock i | check i | combine i _ | recheck i | asleep i _ =>
      exact .inl (owner i (Waits.toHolds stand).owner)
    | unlock result =>
      obtain ⟨i, holds, _⟩ := stand
      exact .inl (owner i holds.owner)
    | lookUnlock empty => exact .inr ⟨empty, stand⟩

theorem Invariant.owner (h : Invariant d config programs schedule owners)
    (covered : (after d config programs schedule).Covers Placed o)
    (called : o.call? programs = some (.submit r)) :
    owners[place d config programs schedule o]? = some o := by
  rcases h.owner_or_looked covered with owner | ⟨empty, looked⟩
  · exact owner
  · rw [looked.called] at called
    cases called

theorem Invariant.looked (h : Invariant d config programs schedule owners)
    (covered : (after d config programs schedule).Covers Placed o)
    (called : o.call? programs = some .isEmpty) : ∃ empty, Looked d config programs schedule o empty := by
  rcases h.owner_or_looked covered with owner | looked
  · obtain ⟨r, submitted⟩ := h.owned.called o (List.mem_of_getElem? owner)
    rw [called] at submitted
    cases submitted
  · exact looked

theorem Owned.watermark_le {m : Memory} (h : Owned programs owners m d) :
    m.watermark ≤ owners.length := by
  rcases Nat.eq_zero_or_pos m.watermark with hz | hpos
  · omega
  have bounded := h.applied.bounded
  have inside : m.watermark - 1 < m.log.size := by omega
  have done : (m.record (m.watermark - 1)).isDone := (h.applied.done _ inside).mpr (by omega)
  obtain ⟨o, owner, _⟩ := h.published _ inside ((Record.isDone_iff _).mp done).1
  have := (List.getElem?_eq_some_iff.mp owner).1
  omega

/-- The records that are reserved at a moment lie before that of a submission begun later. -/
theorem Invariant.reserved_before (h : Invariant d config programs schedule owners)
    (before : Invariant d config programs moment past) (suffix : moment <:+ schedule)
    (late : ¬ (after d config programs moment).Begun o)
    (covered : (after d config programs schedule).Covers Placed o)
    (called : o.call? programs = some (.submit r)) :
    past.length ≤ place d config programs schedule o := by
  by_contra early
  have inside : place d config programs schedule o < past.length := by omega
  have owner := h.owner covered called
  obtain ⟨other, other_owner⟩ : ∃ other, past[place d config programs schedule o]? = some other :=
    ⟨_, List.getElem?_eq_getElem inside⟩
  obtain ⟨same, begun⟩ := before.places _ _ other_owner
  obtain ⟨r', called'⟩ := before.owned.called _ (List.mem_of_getElem? other_owner)
  obtain ⟨same', covered'⟩ := place_of_suffix suffix begun
  have owner' := h.owner covered' called'
  rw [same', same, owner] at owner'
  rw [← Option.some.inj owner'] at begun
  exact late begun.begun

theorem watermark_step (l : Label) (m : Memory) (spurious : Bool) :
    m.watermark ≤ (step d spurious l m).memory.watermark := by
  cases l with
  | lock | combine | recheck | lookLock | reserve =>
    simp only [step]
    split
    · first | exact Nat.le_refl _ | exact Nat.le_succ _
    · try split
      all_goals exact Nat.le_refl _
  | _ => exact Nat.le_refl _

theorem watermark_of_suffix (suffix : moment <:+ schedule) :
    (after d config programs moment).memory.watermark ≤
      (after d config programs schedule).memory.watermark := by
  apply Turn.later _ suffix (Nat.le_refl _)
  intro t earlier below
  apply Nat.le_trans below
  have turn := turn d config programs t earlier
  generalize after d config programs (t :: earlier) = v' at turn
  cases turn with
  | rest => exact Nat.le_refl _
  | enter => exact Nat.le_refl _
  | move l l' => exact watermark_step l _ _
  | answer l a => exact watermark_step l _ _

/-- A look that begins after a moment finds all that was applied then. -/
theorem Looked.applied_before {empty : Bool} (h : Looked d config programs schedule o empty)
    (suffix : moment <:+ schedule) (late : ¬ (after d config programs moment).Begun o) :
    (after d config programs moment).memory.watermark ≤ place d config programs schedule o := by
  obtain ⟨instant, suffix', during, watermark, _⟩ := h.instant
  rw [← watermark]
  apply watermark_of_suffix
  rcases List.suffix_or_suffix_of_suffix suffix suffix' with before | before
  · exact before
  · exact absurd (begun_of_suffix before (.inr ⟨_, during⟩)) late

/-- A submission that is answered with a result has its own record below the watermark. -/
theorem Invariant.served (h : Invariant d config programs schedule owners) {result : Option Value}
    (gives : (after d config programs schedule).answer? o = some (.served (.ok result))) :
    place d config programs schedule o < (after d config programs schedule).memory.watermark ∧
      o.call? programs = some (.submit ((after d config programs schedule).memory.record
        (place d config programs schedule o)).request) ∧
      ((after d config programs schedule).memory.record
        (place d config programs schedule o)).outcome? = some result := by
  obtain ⟨i, holds, outcome⟩ := h.answers o _ gives
  obtain ⟨rfl, _⟩ := h.places i o holds.owner
  have done : ((after d config programs schedule).memory.record
      (place d config programs schedule o)).isDone := by
    simp [Record.isDone, outcome]
  refine ⟨(h.owned.applied.done _ holds.inside).mp done, ?_, outcome⟩
  obtain ⟨o', owner, called⟩ :=
    h.owned.published _ holds.inside ((Record.isDone_iff _).mp done).1
  have same : o = o' := Option.some.inj (holds.owner.symm.trans owner)
  exact same ▸ called

/-- What the log, the container, the places and the answers are like after a schedule. -/
structure LogOrder (d : Discipline) (config : LogConfig) (programs : List (List Call))
    (schedule : List (Turn Bool)) : Prop where
  applied : Applied d (after d config programs schedule).memory
  waiting : ∀ i, (after d config programs schedule).memory.watermark ≤ i →
    ((after d config programs schedule).memory.record i).state = .vacant ∨
      ((after d config programs schedule).memory.record i).state = .pending
  served : ∀ o result, (after d config programs schedule).answer? o = some (.served (.ok result)) →
    place d config programs schedule o < (after d config programs schedule).memory.watermark ∧
      o.call? programs = some (.submit ((after d config programs schedule).memory.record
        (place d config programs schedule o)).request) ∧
      ((after d config programs schedule).memory.record
        (place d config programs schedule o)).outcome? = some result
  full : ∀ o e, (after d config programs schedule).answer? o = some (.served (.error e)) →
    (after d config programs schedule).memory.log.size ≤ place d config programs schedule o
  looked : ∀ o empty, (after d config programs schedule).answer? o = some (.emptiness empty) →
    Looked d config programs schedule o empty
  /-- No two submissions have one place. -/
  apart : ∀ o o' r r', o.call? programs = some (.submit r) → o'.call? programs = some (.submit r') →
    (after d config programs schedule).Covers Placed o →
    (after d config programs schedule).Covers Placed o' →
    place d config programs schedule o = place d config programs schedule o' → o = o'
  /-- A submission answered before another begins has the smaller place. -/
  inTime : ∀ o o' r r', Precedes (algorithm d) (.ofConfig config) programs schedule o o' →
    o.call? programs = some (.submit r) → o'.call? programs = some (.submit r') →
    (after d config programs schedule).Covers Placed o' →
    place d config programs schedule o < place d config programs schedule o'
  /-- A look finds every submission that was answered with a result before it began. -/
  seen : ∀ o o' result, Precedes (algorithm d) (.ofConfig config) programs schedule o o' →
    (after d config programs schedule).answer? o = some (.served (.ok result)) →
    o'.call? programs = some .isEmpty → (after d config programs schedule).Covers Placed o' →
    place d config programs schedule o < place d config programs schedule o'
  /-- A look finds nothing of an operation that begins after its answer. -/
  unseen : ∀ o o', Precedes (algorithm d) (.ofConfig config) programs schedule o o' →
    o.call? programs = some .isEmpty → (after d config programs schedule).Covers Placed o' →
    place d config programs schedule o ≤ place d config programs schedule o'

/-- After every schedule, whether the mutex is free or not, the records below the watermark are the
applied ones and the container and the results are those of replaying them in index order. Answers
are those of the operations' own places in that order, and the order respects real time. -/
theorem combining_log_order (d : Discipline) (config : LogConfig) (programs : List (List Call))
    (bound : submissions programs < 2 ^ 64) (schedule : List (Turn Bool)) :
    LogOrder d config programs schedule := by
  obtain ⟨owners, h⟩ := exists_invariant d config programs bound schedule
  constructor
  · exact h.owned.applied
  · intro i above
    have undone : ¬ ((after d config programs schedule).memory.record i).isDone := by
      rcases Nat.lt_or_ge i (after d config programs schedule).memory.log.size with hlt | hge
      · rw [h.owned.applied.done i hlt]
        omega
      · simp [Memory.record_of_ge hge, Record.isDone, Record.outcome?]
    rw [Record.isDone_iff] at undone
    tauto
  · intro o result gives
    exact h.served gives
  · intro o e gives
    obtain ⟨i, owner, beyond⟩ := h.answers o _ gives
    rw [(h.places i o owner).1]
    exact beyond
  · intro o empty gives
    exact h.answers o _ gives
  · intro o o' r r' called called' covered covered' same
    have owner := h.owner covered called
    rw [same, h.owner covered' called'] at owner
    exact (Option.some.inj owner).symm
  · rintro o o' r r' ⟨moment, suffix, answered, late⟩ called called' covered'
    obtain ⟨past, before⟩ := exists_invariant d config programs bound moment
    have owner := before.owner (.inl answered) called
    have inside := (List.getElem?_eq_some_iff.mp owner).1
    have beyond := h.reserved_before before suffix late covered' called'
    rw [(place_of_suffix suffix (.inl answered)).1]
    omega
  · rintro o o' result ⟨moment, suffix, answered, late⟩ gives called' covered'
    obtain ⟨past, before⟩ := exists_invariant d config programs bound moment
    obtain ⟨empty, looked⟩ := h.looked covered' called'
    obtain ⟨a, gave⟩ : ∃ a, (after d config programs moment).answer? o = some a :=
      ⟨_, List.getElem?_eq_getElem answered⟩
    have same : some a = some (.served (.ok result)) :=
      (answer?_of_suffix suffix gave).symm.trans gives
    have below := (before.served (gave.trans same)).1
    have found := looked.applied_before suffix late
    rw [(place_of_suffix suffix (.inl answered)).1]
    omega
  · rintro o o' ⟨moment, suffix, answered, late⟩ called covered'
    obtain ⟨past, before⟩ := exists_invariant d config programs bound moment
    obtain ⟨empty, looked⟩ := before.looked (.inl answered) called
    have below := looked.below
    rw [(place_of_suffix suffix (.inl answered)).1]
    rcases h.owner_or_looked covered' with owner | ⟨empty', looked'⟩
    · obtain ⟨r', called'⟩ := h.owned.called o' (List.mem_of_getElem? owner)
      have beyond := h.reserved_before before suffix late covered' called'
      have reserved := before.owned.watermark_le
      omega
    · have found := looked'.applied_before suffix late
      omega

theorem log_order_of_insert_and_remove :
    submissions [[.submit (.insert 7)], [.submit .remove, .isEmpty]] < 2 ^ 64 ∧
      LogOrder .lifo ⟨1⟩ [[.submit (.insert 7)], [.submit .remove, .isEmpty]]
        [⟨1, false⟩, ⟨0, false⟩, ⟨1, true⟩, ⟨0, false⟩] :=
  ⟨by decide, combining_log_order .lifo ⟨1⟩ _ (by decide) _⟩

end LogOrder

end SharedMemory.FlatCombining
