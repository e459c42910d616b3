import SharedMemory.Proofs.CombiningOrder
import SharedMemory.Proofs.SoloTurns

/-!
# No wake-up of flat combining is lost

A submission sleeps while a record before its own is reserved and not published. It counts on whoever
combines past that gap to apply its record as well and to wake it, although the owner of the gap may
find its record applied by a third thread. `Vigil` carries the reason why it never waits in vain: a
sleeper that has not been notified lies behind the watermark, unless a pass that will notify it is
under way.
-/
namespace SharedMemory.FlatCombining

def Holding : Option Label → Prop
  | some (.check _) | some (.combine _ _) | some (.recheck _) | some (.unlock _) => True
  | some .look | some (.lookUnlock _) => True
  | _ => False

/-- Apart from combining passes and from sleep. -/
def Aside : Option Label → Prop
  | some (.combine _ _) | some (.recheck _) | some (.asleep _ _) => False
  | _ => True

/-- On the way to its first combining pass, with the record `i` and without the mutex. -/
def Label.Brings (i : Nat) : Label → Prop
  | .writeKind k _ | .writeValue k _ | .publish k | .lock k => k = i
  | _ => False

/-- Thread `j` sleeps with the record `i`, and nobody has been notified since it fell asleep. -/
def Parked (v : View Memory Label Answer) (j i : Nat) : Prop :=
  v.label j = some (.asleep i v.memory.signals)

def Combines (v : View Memory Label Answer) (j start : Nat) : Prop :=
  ∃ i, v.label j = some (.combine i start)

section Mutex

variable {d : Discipline} {programs : List (List Call)} {v v' : View Memory Label Answer}
  {labels : Nat → Option Label} {mutex mutex' spurious : Bool} {i : Nat} {l : Option Label}

/-- One thread has the mutex at most, and the mutex is taken while one has it. -/
structure Guarded (labels : Nat → Option Label) (mutex : Bool) : Prop where
  taken : ∀ j, Holding (labels j) → mutex = true
  alone : ∀ j k, Holding (labels j) → Holding (labels k) → j = k

theorem Guarded.idle (outside : ∀ j, labels j = none) : Guarded labels mutex := by
  have free : ∀ j, ¬ Holding (labels j) := by
    intro j holds
    rwa [outside] at holds
  exact ⟨fun j holds => absurd holds (free j), fun j _ holds => absurd holds (free j)⟩

theorem Guarded.update (h : Guarded labels mutex) (own : Holding l → mutex' = true)
    (others : ∀ j, j ≠ i → Holding (labels j) → mutex' = true ∧ ¬ Holding l) :
    Guarded (Function.update labels i l) mutex' := by
  constructor
  · apply (Function.forall_update_iff labels fun _ k => Holding k → mutex' = true).mpr
    exact ⟨own, fun j hj holds => (others j hj holds).1⟩
  · have alone := owner_update (fun k (_ : Unit) => Holding k) (fun j k _ => h.alone j k)
      fun j _ hj holds => (others j hj holds).2
    exact fun j k => alone j k ()

theorem mutex_step (d : Discipline) (spurious : Bool) (l : Label) (m : Memory) :
    (step d spurious l m).memory.mutex = m.mutex ∧
        (Holding (step d spurious l m).status.label? ↔ Holding (some l)) ∨
      m.mutex = false ∧ (step d spurious l m).memory.mutex = true ∧
        Holding (step d spurious l m).status.label? ∨
      Holding (some l) ∧ ¬ Holding (step d spurious l m).status.label? ∧
        (step d spurious l m).memory.mutex = false := by
  cases l with
  | lock | lookLock =>
    rw [step]
    split
    · exact .inl ⟨rfl, .rfl⟩
    · next free => exact .inr (.inl ⟨Bool.eq_false_iff.mpr free, rfl, trivial⟩)
  | reserve =>
    simp only [step]
    split <;> exact .inl ⟨rfl, .rfl⟩
  | asleep =>
    refine .inl ⟨rfl, ?_⟩
    simp only [step]
    split <;> exact .rfl
  | check i =>
    rw [step]
    cases (m.record i).outcome? <;> exact .inl ⟨rfl, .rfl⟩
  | combine =>
    simp only [step]
    split
    · exact .inl ⟨rfl, .rfl⟩
    · split <;> exact .inl ⟨rfl, .rfl⟩
  | recheck i =>
    rw [step]
    split
    · exact .inl ⟨rfl, .rfl⟩
    · exact .inr (.inr ⟨trivial, id, rfl⟩)
  | unlock | lookUnlock => exact .inr (.inr ⟨trivial, id, rfl⟩)
  | writeKind | writeValue | publish | look => exact .inl ⟨rfl, .rfl⟩

theorem Guarded.step (h : Guarded v.label v.memory.mutex)
    (turn : v.Step (algorithm d) programs i spurious v') : Guarded v'.label v'.memory.mutex := by
  rcases turn.rest_or_enter_or_take with ⟨_, rfl⟩ | ⟨c, _, _, rfl⟩ | ⟨l, here, rfl⟩
  · exact h
  · apply h.update
    · cases c <;> exact fun holds => absurd holds id
    · intro j _ holds
      exact ⟨h.taken j holds, by cases c <;> exact id⟩
  · rw [View.label_take, View.memory_take]
    change Guarded (Function.update v.label i (FlatCombining.step d spurious l v.memory).status.label?)
      (FlatCombining.step d spurious l v.memory).memory.mutex
    rcases mutex_step d spurious l v.memory with
      ⟨same, holds⟩ | ⟨free, taken, _⟩ | ⟨held, left, _⟩
    · rw [same]
      apply h.update
      · intro now
        exact h.taken i (here ▸ holds.mp now)
      · intro j hj there
        refine ⟨h.taken j there, fun now => hj ?_⟩
        exact h.alone j i there (here ▸ holds.mp now)
    · apply h.update
      · exact fun _ => taken
      · intro j _ there
        have up := h.taken j there
        rw [free] at up
        cases up
    · apply h.update
      · exact fun now => absurd now left
      · intro j hj there
        exact absurd (h.alone j i there (here ▸ held)) hj

end Mutex

section Course

variable {d : Discipline} {programs : List (List Call)} {v v' : View Memory Label Answer}
  {spurious : Bool} {t i : Nat}

/-- What a turn of thread `t` may do to combining passes and to sleepers. -/
inductive Course (t : Nat) (v v' : View Memory Label Answer) : Prop
  | applies (i start : Nat) (here : v.label t = some (.combine i start))
      (goes : v'.label t = some (.combine i start))
      (watermark : v'.memory.watermark = v.memory.watermark + 1)
      (signals : v'.memory.signals = v.memory.signals)
  | ends (i start : Nat) (here : v.label t = some (.combine i start))
      (goes : v'.label t = some (.recheck i)) (idle : ¬ v.memory.ready)
      (watermark : v'.memory.watermark = v.memory.watermark)
      (signals : v'.memory.signals =
        if v.memory.watermark = start then v.memory.signals else v.memory.signals + 1)
  | begins (i : Nat) (here : v.label t = some (.check i))
      (goes : v'.label t = some (.combine i v.memory.watermark))
      (watermark : v'.memory.watermark = v.memory.watermark)
      (signals : v'.memory.signals = v.memory.signals)
  | sleeps (i : Nat) (here : v.label t = some (.recheck i))
      (goes : v'.label t = some (.asleep i v.memory.signals)) (undone : ¬ (v.memory.record i).isDone)
      (watermark : v'.memory.watermark = v.memory.watermark)
      (signals : v'.memory.signals = v.memory.signals)
  | aside (here : ∀ i start, v.label t ≠ some (.combine i start))
      (goes : v'.label t = v.label t ∨ Aside (v'.label t))
      (watermark : v'.memory.watermark = v.memory.watermark)
      (signals : v'.memory.signals = v.memory.signals)

theorem course (turn : v.Step (algorithm d) programs t spurious v') : Course t v v' := by
  rcases turn.rest_or_enter_or_take with ⟨outside, rfl⟩ | ⟨c, outside, _, rfl⟩ | ⟨l, here, rfl⟩
  · exact .aside (by simp [outside]) (.inl rfl) rfl rfl
  · refine .aside (by simp [outside]) (.inr ?_) rfl rfl
    rw [View.label_enter, Function.update_self]
    cases c <;> trivial
  change Course t v (v.take t (step d spurious l v.memory))
  cases l with
  | combine i start =>
    simp only [step]
    split
    · exact .applies i start here (by simp [Status.label?]) (by simp [Memory.applyNext])
        (by simp [Memory.applyNext])
    · next idle =>
      split
      · next same =>
        exact .ends i start here (by simp [Status.label?]) idle (by simp) (by simp [same])
      · next moved =>
        exact .ends i start here (by simp [Status.label?]) idle (by simp) (by simp [moved])
  | check i =>
    cases outcome : (v.memory.record i).outcome? with
    | some result =>
      refine .aside (by simp [here]) (.inr ?_) (by simp [step]) (by simp [step])
      simp [step, outcome, Status.label?, Aside]
    | none => exact .begins i here (by simp [step, outcome, Status.label?]) (by simp [step]) (by simp [step])
  | recheck i =>
    cases outcome : (v.memory.record i).outcome? with
    | some result =>
      refine .aside (by simp [here]) (.inr ?_) (by simp [step, outcome]) (by simp [step, outcome])
      simp [step, outcome, Status.label?, Aside]
    | none =>
      exact .sleeps i here (by simp [step, outcome, Status.label?]) (by simp [Record.isDone, outcome])
        (by simp [step, outcome]) (by simp [step, outcome])
  | asleep i signals =>
    refine .aside (by simp [here]) ?_ (by simp [step]) (by simp [step])
    rw [View.label_take, Function.update_self, here]
    simp only [step]
    split
    · exact .inr trivial
    · exact .inl rfl
  | reserve | lock | lookLock =>
    refine .aside (by simp [here]) (.inr ?_) ?_ ?_
    all_goals
      simp only [View.label_take, View.memory_take, Function.update_self, step]
      split <;> trivial
  | writeKind | writeValue | publish | unlock | look | lookUnlock =>
    refine .aside (by simp [here]) (.inr ?_) (by simp [step, Memory.modifyRecord])
      (by simp [step, Memory.modifyRecord])
    rw [View.label_take, Function.update_self]
    trivial

theorem Course.watermark_le (h : Course t v v') : v.memory.watermark ≤ v'.memory.watermark := by
  cases h <;> omega

theorem Course.signals_le (h : Course t v v') : v.memory.signals ≤ v'.memory.signals := by
  cases h with
  | ends _ _ _ _ _ _ signals =>
    rw [signals]
    split <;> omega
  | applies | begins | sleeps | aside => omega

theorem Course.combines (h : Course t v v') {start : Nat} (now : Combines v' t start) :
    Combines v t start ∨ start = v.memory.watermark := by
  obtain ⟨i, now⟩ := now
  cases h with
  | applies k s here goes =>
    rw [goes] at now
    cases now
    exact .inl ⟨i, here⟩
  | begins k here goes =>
    rw [goes] at now
    cases now
    exact .inr rfl
  | ends k s here goes | sleeps k here goes =>
    rw [goes] at now
    cases now
  | aside here goes =>
    rcases goes with same | aside
    · rw [same] at now
      exact absurd now (here i start)
    · rw [now] at aside
      exact absurd aside id

theorem Course.asleep (h : Course t v v') {signals : Nat}
    (now : v'.label t = some (.asleep i signals)) :
    v.label t = some (.asleep i signals) ∨
      v.label t = some (.recheck i) ∧ signals = v.memory.signals ∧ ¬ (v.memory.record i).isDone := by
  cases h with
  | applies _ _ _ goes | ends _ _ _ goes | begins _ _ goes =>
    rw [goes] at now
    cases now
  | sleeps k here goes undone =>
    rw [goes] at now
    cases now
    exact .inr ⟨here, rfl, undone⟩
  | aside _ goes =>
    rcases goes with same | aside
    · exact .inl (same ▸ now)
    · rw [now] at aside
      exact absurd aside id

end Course

section Combined

variable (d : Discipline) (config : LogConfig) (programs : List (List Call))

def Combined (schedule : List (Turn Bool)) (o : Operation) : Prop :=
  ∃ moment, moment <:+ schedule ∧
    ∃ i start, (after d config programs moment).StandsAt o (.combine i start)

variable {d config programs} {t : Turn Bool} {earlier moment schedule : List (Turn Bool)}
  {o : Operation} {k : Nat}

theorem Combined.later (h : Combined d config programs earlier o) :
    Combined d config programs (t :: earlier) o := by
  obtain ⟨moment, suffix, stands⟩ := h
  exact ⟨moment, suffix.trans (List.suffix_cons t earlier), stands⟩

theorem combined_cons (h : Combined d config programs (t :: earlier) o) :
    Combined d config programs earlier o ∨
      ∃ start, Combines (after d config programs (t :: earlier)) o.thread start := by
  obtain ⟨moment, suffix, i, start, stands⟩ := h
  rcases List.suffix_cons_iff.mp suffix with rfl | suffix
  · exact .inr ⟨start, i, stands.2⟩
  · exact .inl ⟨moment, suffix, i, start, stands⟩

theorem combined_current {j start : Nat} (here : Combines (after d config programs schedule) j start) :
    Combined d config programs schedule ((after d config programs schedule).current j) := by
  obtain ⟨i, here⟩ := here
  exact ⟨schedule, List.suffix_rfl, i, start, rfl, here⟩

theorem published_modifyRecord {m : Memory} (i : Nat) {f : Record → Record}
    (keeps : ∀ r : Record, r.state ≠ .vacant → (f r).state ≠ .vacant)
    (h : (m.record k).state ≠ .vacant) : ((m.modifyRecord i f).record k).state ≠ .vacant := by
  rcases Nat.lt_or_ge i m.log.size with inside | beyond
  · rw [record_modifyRecord f inside]
    split
    · exact keeps _ h
    · exact h
  · have same : m.log.modify i f = m.log := by
      apply Array.ext
      · simp
      · intro j hj hj'
        rw [Array.getElem_modify, if_neg (by omega)]
    rwa [Memory.modifyRecord, same]

theorem published_step (l : Label) (m : Memory) (spurious : Bool)
    (h : (m.record k).state ≠ .vacant) :
    ((step d spurious l m).memory.record k).state ≠ .vacant := by
  cases l with
  | writeKind | writeValue => exact published_modifyRecord _ (fun _ published => published) h
  | publish => exact published_modifyRecord _ (fun _ _ => by simp) h
  | combine =>
    simp only [step]
    split
    · refine published_modifyRecord m.watermark (fun r _ => ?_) h
      exact ((Record.isDone_iff _).mp (Record.isDone_complete _ _)).1
    · split <;> exact h
  | reserve | lock | lookLock | recheck =>
    simp only [step]
    split <;> exact h
  | check | asleep | unlock | look | lookUnlock => exact h

theorem published_of_suffix (suffix : moment <:+ schedule)
    (h : ((after d config programs moment).memory.record k).state ≠ .vacant) :
    ((after d config programs schedule).memory.record k).state ≠ .vacant := by
  apply Turn.later _ suffix h
  intro t earlier published
  have turn := (turn d config programs t earlier).rest_or_enter_or_take
  generalize after d config programs (t :: earlier) = v' at turn
  rcases turn with ⟨_, rfl⟩ | ⟨c, _, _, rfl⟩ | ⟨l, _, rfl⟩
  · exact published
  · exact published
  · rw [View.memory_take]
    exact published_step l _ _ published

/-- An operation that has combined has its place, and its record is published. -/
theorem Combined.published (h : Combined d config programs schedule o)
    (bound : submissions programs < 2 ^ 64) :
    (after d config programs schedule).Covers Placed o ∧
      ((after d config programs schedule).memory.record (place d config programs schedule o)).state ≠
        .vacant := by
  obtain ⟨moment, suffix, i, start, stands⟩ := h
  obtain ⟨owners, inv⟩ := exists_invariant d config programs bound moment
  have waits : Waits owners (after d config programs moment).memory o i := by
    rw [View.current_thread stands.1]
    exact inv.stands _ _ stands.2
  obtain ⟨same, covered⟩ := inv.places i o waits.owner
  obtain ⟨kept, covered⟩ := place_of_suffix suffix covered
  rw [kept, same]
  exact ⟨covered, published_of_suffix suffix waits.published⟩

/-- While the record of such an operation is the one at the watermark, a pass would apply it. -/
theorem Combined.ready (h : Combined d config programs schedule o)
    (bound : submissions programs < 2 ^ 64)
    (here : place d config programs schedule o = (after d config programs schedule).memory.watermark) :
    (after d config programs schedule).memory.ready := by
  obtain ⟨owners, inv⟩ := exists_invariant d config programs bound schedule
  have published := (h.published bound).2
  rw [here] at published
  have inside : (after d config programs schedule).memory.watermark <
      (after d config programs schedule).memory.log.size := by
    by_contra beyond
    rw [Memory.record_of_ge (Nat.le_of_not_lt beyond)] at published
    exact published rfl
  have waiting := (inv.owned.applied.done _ inside).not.mpr (Nat.lt_irrefl _)
  rw [Record.isDone_iff] at waiting
  rw [Memory.ready, decide_eq_true_iff]
  tauto

end Combined

section Vigil

variable (d : Discipline) (config : LogConfig) (programs : List (List Call))

/-- Why no sleeper waits in vain. -/
structure Vigil (schedule : List (Turn Bool)) : Prop where
  guarded : Guarded (after d config programs schedule).label
    (after d config programs schedule).memory.mutex
  noted : ∀ j i signals, (after d config programs schedule).label j = some (.asleep i signals) →
    signals ≤ (after d config programs schedule).memory.signals
  started : ∀ j start, Combines (after d config programs schedule) j start →
    start ≤ (after d config programs schedule).memory.watermark
  combined : ∀ j l, (after d config programs schedule).label j = some l → ¬ Aside (some l) →
    Combined d config programs schedule ((after d config programs schedule).current j)
  /-- A pass does not end at the record of an operation that has combined. -/
  settled : ∀ o, Combined d config programs schedule o →
    place d config programs schedule o = (after d config programs schedule).memory.watermark →
    ∃ k start, Combines (after d config programs schedule) k start
  /-- Who has been passed by the watermark is notified at the end of the pass. -/
  parked : ∀ j i, Parked (after d config programs schedule) j i →
    (after d config programs schedule).memory.watermark ≤ i ∨
      ∃ k start, Combines (after d config programs schedule) k start ∧
        start < (after d config programs schedule).memory.watermark

variable {d config programs} {t : Turn Bool} {earlier schedule : List (Turn Bool)}

variable (d config programs) in
theorem outside_start (j : Nat) : (after d config programs []).label j = none := by
  simp [after, View.start]

theorem idle_start {j start : Nat} : ¬ Combines (after d config programs []) j start := by
  rintro ⟨i, here⟩
  cases here.symm.trans (outside_start d config programs j)

theorem guarded_after (d : Discipline) (config : LogConfig) (programs : List (List Call))
    (schedule : List (Turn Bool)) :
    Guarded (after d config programs schedule).label (after d config programs schedule).memory.mutex := by
  induction schedule with
  | nil => exact .idle (outside_start d config programs)
  | cons t earlier ih => exact ih.step (turn d config programs t earlier)

theorem Vigil.start : Vigil d config programs [] := by
  have outside := outside_start d config programs
  constructor
  · exact guarded_after d config programs []
  · intro j i signals here
    rw [outside] at here
    cases here
  · exact fun j start during => absurd during idle_start
  · intro j l here
    rw [outside] at here
    cases here
  · rintro o ⟨moment, suffix, i, start, stands⟩
    obtain rfl := List.suffix_nil.mp suffix
    exact absurd ⟨i, stands.2⟩ idle_start
  · intro j i parked
    rw [Parked, outside] at parked
    cases parked

theorem combines_other {k start : Nat} (h : Combines (after d config programs earlier) k start)
    (other : k ≠ t.thread) : Combines (after d config programs (t :: earlier)) k start := by
  rw [Combines, ((turn d config programs t earlier).others other).1]
  exact h

theorem Vigil.noted_turn (h : Vigil d config programs earlier) {j i signals : Nat}
    (here : (after d config programs (t :: earlier)).label j = some (.asleep i signals)) :
    signals ≤ (after d config programs (t :: earlier)).memory.signals := by
  have turn := turn d config programs t earlier
  have course := course turn
  apply Nat.le_trans _ course.signals_le
  by_cases hj : j = t.thread
  · subst hj
    rcases course.asleep here with before | ⟨_, rfl, _⟩
    · exact h.noted _ _ _ before
    · exact Nat.le_refl _
  · rw [(turn.others hj).1] at here
    exact h.noted _ _ _ here

theorem Vigil.started_turn (h : Vigil d config programs earlier) {j start : Nat}
    (here : Combines (after d config programs (t :: earlier)) j start) :
    start ≤ (after d config programs (t :: earlier)).memory.watermark := by
  have turn := turn d config programs t earlier
  have course := course turn
  apply Nat.le_trans _ course.watermark_le
  by_cases hj : j = t.thread
  · subst hj
    rcases course.combines here with before | rfl
    · exact h.started _ _ before
    · exact Nat.le_refl _
  · rw [Combines, (turn.others hj).1] at here
    exact h.started _ _ here

theorem Vigil.combined_turn (h : Vigil d config programs earlier) {j : Nat} {l : Label}
    (here : (after d config programs (t :: earlier)).label j = some l) (late : ¬ Aside (some l)) :
    Combined d config programs (t :: earlier) ((after d config programs (t :: earlier)).current j) := by
  have turn := turn d config programs t earlier
  by_cases hj : j = t.thread
  · subst hj
    have same : (after d config programs (t :: earlier)).current t.thread =
        (after d config programs earlier).current t.thread := by
      simp only [View.current, turn.answers_of_label here]
    cases course turn with
    | applies _ _ _ goes | begins _ _ goes => exact combined_current ⟨_, goes⟩
    | ends i start before =>
      rw [same]
      exact (combined_current ⟨i, before⟩).later
    | sleeps i before =>
      rw [same]
      exact (h.combined _ _ before id).later
    | aside _ goes =>
      rcases goes with before | aside
      · rw [same]
        exact (h.combined _ l (before ▸ here) late).later
      · rw [here] at aside
        exact absurd aside late
  · obtain ⟨label, current⟩ := turn.others hj
    rw [current]
    exact (h.combined j l (label ▸ here) late).later

theorem Vigil.settled_turn (bound : submissions programs < 2 ^ 64)
    (h : Vigil d config programs earlier) {o : Operation}
    (combined : Combined d config programs (t :: earlier) o)
    (here : place d config programs (t :: earlier) o =
      (after d config programs (t :: earlier)).memory.watermark) :
    ∃ k start, Combines (after d config programs (t :: earlier)) k start := by
  rcases combined_cons combined with before | ⟨start, now⟩
  swap
  · exact ⟨_, start, now⟩
  rw [place_kept (before.published bound).1] at here
  have stay : (∀ i start, (after d config programs earlier).label t.thread ≠
        some (.combine i start)) →
      (after d config programs (t :: earlier)).memory.watermark =
        (after d config programs earlier).memory.watermark →
      ∃ k start, Combines (after d config programs (t :: earlier)) k start := by
    intro apart same
    obtain ⟨k, start, i, during⟩ := h.settled o before (here.trans same)
    refine ⟨k, start, combines_other ⟨i, during⟩ ?_⟩
    rintro rfl
    exact apart _ _ during
  cases course (turn d config programs t earlier) with
  | applies i start _ goes => exact ⟨_, start, i, goes⟩
  | begins i _ goes => exact ⟨_, _, i, goes⟩
  | ends i start _ _ idle watermark => exact absurd (before.ready bound (here.trans watermark)) idle
  | sleeps i at_recheck _ _ watermark => exact stay (by simp [at_recheck]) watermark
  | aside apart _ watermark => exact stay apart watermark

theorem watermark_le_of_undone (bound : submissions programs < 2 ^ 64) {j i : Nat}
    (here : (after d config programs schedule).label j = some (.recheck i))
    (undone : ¬ ((after d config programs schedule).memory.record i).isDone) :
    (after d config programs schedule).memory.watermark ≤ i := by
  obtain ⟨owners, inv⟩ := exists_invariant d config programs bound schedule
  have waits : Waits owners (after d config programs schedule).memory _ i := inv.stands _ _ here
  rw [inv.owned.applied.done i waits.inside] at undone
  exact Nat.le_of_not_lt undone

/-- A thread that is parked after the turn was so before, or has just found its record undone. -/
theorem Vigil.parked_before (bound : submissions programs < 2 ^ 64)
    (h : Vigil d config programs earlier) {j i : Nat}
    (signals : (after d config programs (t :: earlier)).memory.signals =
      (after d config programs earlier).memory.signals)
    (parked : Parked (after d config programs (t :: earlier)) j i) :
    (after d config programs earlier).memory.watermark ≤ i ∨
      ∃ k start, Combines (after d config programs earlier) k start ∧
        start < (after d config programs earlier).memory.watermark := by
  have turn := turn d config programs t earlier
  rw [Parked, signals] at parked
  by_cases hj : j = t.thread
  · subst hj
    rcases (course turn).asleep parked with before | ⟨before, _, undone⟩
    · exact h.parked _ i before
    · exact .inl (watermark_le_of_undone bound before undone)
  · rw [(turn.others hj).1] at parked
    exact h.parked j i parked

theorem Vigil.parked_turn (bound : submissions programs < 2 ^ 64)
    (h : Vigil d config programs earlier) {j i : Nat}
    (parked : Parked (after d config programs (t :: earlier)) j i) :
    (after d config programs (t :: earlier)).memory.watermark ≤ i ∨
      ∃ k start, Combines (after d config programs (t :: earlier)) k start ∧
        start < (after d config programs (t :: earlier)).memory.watermark := by
  have stay : (∀ start, ¬ Combines (after d config programs earlier) t.thread start) →
      (after d config programs (t :: earlier)).memory.watermark =
        (after d config programs earlier).memory.watermark →
      (after d config programs (t :: earlier)).memory.signals =
        (after d config programs earlier).memory.signals →
      (after d config programs (t :: earlier)).memory.watermark ≤ i ∨
        ∃ k start, Combines (after d config programs (t :: earlier)) k start ∧
          start < (after d config programs (t :: earlier)).memory.watermark := by
    intro apart watermark signals
    rw [watermark]
    apply (h.parked_before bound signals parked).imp_right
    intro ⟨k, start, during, passed⟩
    exact ⟨k, start, combines_other during fun same => apart start (same ▸ during), passed⟩
  cases course (turn d config programs t earlier) with
  | applies k start here goes watermark =>
    have started := h.started _ start ⟨k, here⟩
    exact .inr ⟨_, start, ⟨k, goes⟩, by omega⟩
  | begins k here _ watermark signals => exact stay (by simp [Combines, here]) watermark signals
  | sleeps k here _ _ watermark signals => exact stay (by simp [Combines, here]) watermark signals
  | aside apart _ watermark signals =>
    exact stay (fun start ⟨k, here⟩ => apart k start here) watermark signals
  | ends k start here goes _ watermark signals =>
    split at signals
    · next same =>
      -- the pass applied nothing, so it passed nobody, and no other pass is under way
      rw [watermark]
      rcases h.parked_before bound signals parked with behind | ⟨k', start', ⟨i', during⟩, passed⟩
      · exact .inl behind
      · have alone : k' = t.thread := h.guarded.alone _ _ (during ▸ trivial) (here ▸ trivial)
        rw [alone, here] at during
        cases during
        omega
    · -- all sleepers are notified
      have noted := h.noted j i _ (by
        have hj : j ≠ t.thread := by
          rintro rfl
          rw [Parked, goes] at parked
          cases parked
        rw [← ((turn d config programs t earlier).others hj).1]
        exact parked)
      omega

theorem Vigil.turn (bound : submissions programs < 2 ^ 64) (h : Vigil d config programs earlier)
    (t : Turn Bool) : Vigil d config programs (t :: earlier) where
  guarded := guarded_after d config programs (t :: earlier)
  noted _ _ _ := h.noted_turn
  started _ _ := h.started_turn
  combined _ _ := h.combined_turn
  settled _ := h.settled_turn bound
  parked _ _ := h.parked_turn bound

theorem vigil (d : Discipline) (config : LogConfig) (programs : List (List Call))
    (bound : submissions programs < 2 ^ 64) (schedule : List (Turn Bool)) :
    Vigil d config programs schedule := by
  induction schedule with
  | nil => exact .start
  | cons t earlier ih => exact ih.turn bound t

end Vigil

section Wakeups

variable (d : Discipline) (config : LogConfig) (programs : List (List Call))

/-- The submission that thread `k` is in has reserved the record at the watermark and has still to be
in a combining pass. -/
structure Owes (schedule : List (Turn Bool)) (k : Nat) : Prop where
  called : ∃ r, ((after d config programs schedule).current k).call? programs = some (.submit r)
  reserved : place d config programs schedule ((after d config programs schedule).current k) =
    (after d config programs schedule).memory.watermark
  covered : (after d config programs schedule).Covers Placed
    ((after d config programs schedule).current k)
  fresh : ¬ Combined d config programs schedule ((after d config programs schedule).current k)

variable {d config programs} {schedule : List (Turn Bool)} {owners : List Operation} {o : Operation}
  {j i : Nat}

/-- Who has reserved the record at the watermark is inside that submission, without a result. -/
theorem Invariant.owner_waits (inv : Invariant d config programs schedule owners)
    (inside : (after d config programs schedule).memory.watermark <
      (after d config programs schedule).memory.log.size)
    (owner : owners[(after d config programs schedule).memory.watermark]? = some o) :
    ∃ l, (after d config programs schedule).StandsAt o l ∧
      (l.Brings (after d config programs schedule).memory.watermark ∨
        l = .check (after d config programs schedule).memory.watermark ∨ ¬ Aside (some l)) := by
  obtain ⟨placed, covered⟩ := inv.places _ o owner
  obtain ⟨r, called⟩ := inv.owned.called o (List.mem_of_getElem? owner)
  have index : ∀ k, owners[k]? = some o → k = (after d config programs schedule).memory.watermark :=
    fun k hk => (inv.places k o hk).1.symm.trans placed
  have unserved : ∀ result, ¬ Served owners (after d config programs schedule).memory o result := by
    rintro result ⟨k, holds, outcome⟩
    have done : ((after d config programs schedule).memory.record k).isDone := by
      simp [Record.isDone, outcome]
    rw [inv.owned.applied.done k holds.inside, index k holds.owner] at done
    exact Nat.lt_irrefl _ done
  have unlooked : ∀ empty, ¬ Looked d config programs schedule o empty := by
    intro empty looked
    rw [looked.called] at called
    cases called
  rcases covered with answered | ⟨l, stands, has_place⟩
  · obtain ⟨a, gives⟩ : ∃ a, (after d config programs schedule).answer? o = some a :=
      ⟨_, List.getElem?_eq_getElem answered⟩
    have answers := inv.answers o a gives
    cases a with
    | served result =>
      cases result with
      | ok result => exact absurd answers (unserved result)
      | error e =>
        obtain ⟨k, hk, beyond⟩ := answers
        rw [index k hk] at beyond
        omega
    | emptiness empty => exact absurd answers (unlooked empty)
  · have stand := inv.stands _ l stands.2
    rw [← View.current_thread stands.1] at stand
    refine ⟨l, stands, ?_⟩
    cases l with
    | reserve | lookLock | look => exact absurd has_place id
    | writeKind k | publish k => exact .inl (index k (Writes.toHolds stand).owner)
    | writeValue k => exact .inl (index k stand.1.owner)
    | lock k => exact .inl (index k (Waits.toHolds stand).owner)
    | check k => exact .inr (.inl (congrArg _ (index k (Waits.toHolds stand).owner)))
    | combine | recheck | asleep => exact .inr (.inr id)
    | unlock result => exact absurd stand (unserved result)
    | lookUnlock empty => exact absurd stand (unlooked empty)

/-- While no pass is under way, a parked thread waits for the record at the watermark, whose owner is
on its way to a pass. -/
theorem Vigil.owed (h : Vigil d config programs schedule) (bound : submissions programs < 2 ^ 64)
    (quiet : ∀ k start, ¬ Combines (after d config programs schedule) k start)
    (parked : Parked (after d config programs schedule) j i) :
    (after d config programs schedule).memory.watermark < i ∧
      ∃ k l, k ≠ j ∧ Owes d config programs schedule k ∧
        (after d config programs schedule).label k = some l ∧
        (l.Brings (after d config programs schedule).memory.watermark ∨
          l = .check (after d config programs schedule).memory.watermark) := by
  obtain ⟨owners, inv⟩ := exists_invariant d config programs bound schedule
  have combined := h.combined j _ parked id
  have waits : Waits owners (after d config programs schedule).memory _ i := inv.stands j _ parked
  have unsettled : ∀ o, place d config programs schedule o =
      (after d config programs schedule).memory.watermark → ¬ Combined d config programs schedule o := by
    intro o here combined
    obtain ⟨k, start, during⟩ := h.settled o combined here
    exact quiet k start during
  have behind : (after d config programs schedule).memory.watermark < i := by
    have le := (h.parked j i parked).resolve_right fun ⟨k, start, during, _⟩ => quiet k start during
    refine Nat.lt_of_le_of_ne le fun same => unsettled _ ?_ combined
    rw [(inv.places i _ waits.owner).1, same]
  refine ⟨behind, ?_⟩
  have reserved := (List.getElem?_eq_some_iff.mp waits.owner).1
  obtain ⟨o, owner⟩ : ∃ o, owners[(after d config programs schedule).memory.watermark]? = some o :=
    ⟨_, List.getElem?_eq_getElem (Nat.lt_trans behind reserved)⟩
  obtain ⟨l, ⟨index, here⟩, way⟩ := inv.owner_waits (Nat.lt_trans behind waits.inside) owner
  obtain ⟨placed, covered⟩ := inv.places _ o owner
  have current : o = (after d config programs schedule).current o.thread := View.current_thread index
  have fresh := unsettled o placed
  have owes : Owes d config programs schedule o.thread := by
    constructor
    · rw [← current]
      exact inv.owned.called o (List.mem_of_getElem? owner)
    · rw [← current]
      exact placed
    · rw [← current]
      exact covered
    · rw [← current]
      exact fresh
  refine ⟨o.thread, l, ?_, owes, here, ?_⟩
  · intro same
    rw [current, same] at fresh
    exact fresh combined
  · rcases way with brings | check | late
    · exact .inl brings
    · exact .inr check
    · exact absurd (current ▸ h.combined _ l here late) fresh

variable (d config programs) in
/-- What sleepers may rely on. -/
structure NoneLost (schedule : List (Turn Bool)) : Prop where
  undone : (after d config programs schedule).memory.mutex = false →
    ∀ j i, Parked (after d config programs schedule) j i →
      ¬ ((after d config programs schedule).memory.record i).isDone
  owed : (after d config programs schedule).memory.mutex = false →
    ∀ j i, Parked (after d config programs schedule) j i →
      (after d config programs schedule).memory.watermark ≤ i ∧
        ∃ k l, k ≠ j ∧ Owes d config programs schedule k ∧
          (after d config programs schedule).label k = some l ∧
          l.Brings (after d config programs schedule).memory.watermark
  /-- Whether the mutex is free or not, not all unfinished submissions are parked. -/
  awake : ∀ j i, Parked (after d config programs schedule) j i →
    ∃ k l r, (after d config programs schedule).label k = some l ∧
      ((after d config programs schedule).current k).call? programs = some (.submit r) ∧
      ∀ i, ¬ Parked (after d config programs schedule) k i

theorem combining_loses_no_wakeup (d : Discipline) (config : LogConfig) (programs : List (List Call))
    (bound : submissions programs < 2 ^ 64) (schedule : List (Turn Bool)) :
    NoneLost d config programs schedule := by
  have h := vigil d config programs bound schedule
  have quiet : (after d config programs schedule).memory.mutex = false →
      ∀ k start, ¬ Combines (after d config programs schedule) k start := by
    intro free k start ⟨i, here⟩
    have taken := h.guarded.taken k (here ▸ trivial)
    rw [free] at taken
    cases taken
  obtain ⟨owners, inv⟩ := exists_invariant d config programs bound schedule
  constructor
  · intro free j i parked done
    obtain ⟨behind, _⟩ := h.owed bound (quiet free) parked
    have waits : Waits owners (after d config programs schedule).memory _ i := inv.stands j _ parked
    rw [inv.owned.applied.done i waits.inside] at done
    omega
  · intro free j i parked
    obtain ⟨behind, k, l, other, owes, here, brings | rfl⟩ := h.owed bound (quiet free) parked
    · exact ⟨Nat.le_of_lt behind, k, l, other, owes, here, brings⟩
    · have taken := h.guarded.taken k (here ▸ trivial)
      rw [free] at taken
      cases taken
  · intro j i parked
    by_cases pass : ∃ k start, Combines (after d config programs schedule) k start
    · obtain ⟨k, start, i', here⟩ := pass
      have waits : Waits owners (after d config programs schedule).memory _ i' := inv.stands k _ here
      obtain ⟨r, called⟩ := inv.owned.called _ (List.mem_of_getElem? waits.owner)
      exact ⟨k, _, r, here, called, by simp [Parked, here]⟩
    · obtain ⟨_, k, l, _, owes, here, way⟩ := h.owed bound (by simpa using pass) parked
      obtain ⟨r, called⟩ := owes.called
      refine ⟨k, l, r, here, called, fun i' asleep => ?_⟩
      rw [Parked, here] at asleep
      cases asleep
      rcases way with brings | check
      · exact brings
      · cases check

/-- The second submission sleeps while the first has reserved its record and written nothing there. -/
theorem none_lost_behind_unpublished :
    submissions [[.submit (.insert 7)], [.submit .remove]] < 2 ^ 64 ∧
      NoneLost .lifo ⟨2⟩ [[.submit (.insert 7)], [.submit .remove]]
        (List.replicate 9 ⟨1, false⟩ ++ List.replicate 2 ⟨0, false⟩) :=
  ⟨by decide, combining_loses_no_wakeup .lifo ⟨2⟩ _ (by decide) _⟩

example :
    let v := after .lifo ⟨2⟩ [[.submit (.insert 7)], [.submit .remove]]
      (List.replicate 9 ⟨1, false⟩ ++ List.replicate 2 ⟨0, false⟩)
    v.memory.mutex = false ∧ v.label 1 = some (.asleep 1 v.memory.signals) ∧
      v.label 0 = some (.writeKind 0 (.insert 7)) := by
  decide

end Wakeups

section Wrap

variable {n k : Nat}

/-- A log of one record that has served a removal, when `n` submissions have come too late. -/
def exhausted (n : Nat) : Memory :=
  { log := #[{ state := .doneNone, kind := .remove }], next := UInt64.ofNat (n + 1),
    watermark := 1, signals := 1 }

abbrev removals (n : Nat) : List (List Call) := [List.replicate n (.submit .remove)]

theorem callsOf_removals (h : k < n) : (callsOf (removals n) 0)[k]? = some (.submit .remove) := by
  simp [callsOf, h]

theorem exhausted_succ (h : n + 1 < 2 ^ 64) (spurious : Bool) :
    step .lifo spurious (.reserve .remove) (exhausted n) =
      ⟨exhausted (n + 1), .returned (.served (.error (.logFull 1))), [.logExhausted 1]⟩ := by
  have beyond : ¬ (exhausted n).next.toNat < (exhausted n).log.size := by
    have counter : (exhausted n).next.toNat = n + 1 := UInt64.toNat_ofNat_of_lt' h
    rw [counter]
    exact Nat.not_lt.mpr (Nat.le_add_left 1 n)
  have counted : (exhausted n).next + 1 = UInt64.ofNat (n + 1 + 1) := by simp [exhausted]
  rw [step, if_neg beyond, counted]
  rfl

theorem shows_exhausted (h : k < n) (bound : k < 2 ^ 64) :
    (after .lifo ⟨1⟩ (removals n) (List.replicate (2 * k + 11) ⟨0, false⟩)).Shows 0 (exhausted k) none
      (k + 1) := by
  induction k with
  | zero =>
    have start := Algorithm.shows_start (algorithm .lifo) (.ofConfig ⟨1⟩) (removals n) 0
    have served : (after .lifo ⟨1⟩ (removals n) (List.replicate 11 ⟨0, false⟩ ++ [])).Shows 0
        (exhausted 0) none 1 :=
      Algorithm.shows_call (k := 9) start (callsOf_removals h) rfl rfl
    rwa [List.append_nil] at served
  | succ k ih =>
    have before := ih (Nat.lt_of_succ_lt h) (Nat.lt_of_succ_lt bound)
    exact Algorithm.shows_call (k := 0) before (callsOf_removals h) rfl (exhausted_succ bound false)

/-- The submission that finds the counter at zero publishes the record below the watermark again, where
nobody looks for it. -/
theorem parks_after_wrap (h : n + 1 = 2 ^ 64) :
    let v := after .lifo ⟨1⟩ (removals (n + 2)) (List.replicate (2 * n + 20) ⟨0, false⟩)
    v.memory.mutex = false ∧ Parked v 0 0 := by
  have round : exhausted n = { exhausted 0 with next := 0 } := by simp [exhausted, h]
  have before := shows_exhausted (n := n + 2) (k := n) (by omega) (by omega)
  rw [round] at before
  have run : (algorithm .lifo).advance (fun _ _ => false) 8
        ⟨{ exhausted 0 with next := 0 }, .running (.reserve .remove), []⟩ =
      ⟨{ exhausted 0 with log := #[{ state := .pending, kind := .remove }] }, .running (.asleep 0 1), []⟩ :=
    rfl
  have asleep := Algorithm.shows_advance
    (Algorithm.shows_enter before (callsOf_removals (by omega)) false) run
  have turns : List.replicate 8 ⟨0, false⟩ ++ ⟨0, false⟩ :: List.replicate (2 * n + 11) ⟨0, false⟩ =
      List.replicate (2 * n + 20) (⟨0, false⟩ : Turn Bool) := by
    rw [← List.replicate_succ, ← List.replicate_add]
    congr 1
    omega
  rw [turns] at asleep
  refine ⟨congrArg Memory.mutex asleep.memory, ?_⟩
  rw [Parked, congrArg Memory.signals asleep.memory]
  exact asleep.label

/-- With 2^64 submissions before it, a thread may wait for ever that has no other thread to wake it. -/
theorem wakeup_lost_after_wrap :
    ¬ NoneLost .lifo ⟨1⟩ (removals (2 ^ 64 + 1)) (List.replicate (2 ^ 65 + 18) ⟨0, false⟩) := by
  obtain ⟨n, h⟩ : ∃ n, n + 1 = 2 ^ 64 := ⟨_, Nat.succ_pred_eq_of_pos (Nat.two_pow_pos 64)⟩
  have calls : 2 ^ 64 + 1 = n + 2 := by omega
  have turns : 2 ^ 65 + 18 = 2 * n + 20 := by omega
  rw [calls, turns]
  intro none_lost
  have parked := (parks_after_wrap h).2
  obtain ⟨k, l, r, _, called, awake⟩ := none_lost.awake 0 0 parked
  cases k with
  | zero => exact awake 0 parked
  | succ k => cases called

end Wrap

end SharedMemory.FlatCombining
