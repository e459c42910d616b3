import SharedMemory.Proofs.CombiningWakeups
import SharedMemory.Proofs.SoloContainers

/-!
# What one combining pass does, and how passes follow one another

A pass serves the published records from the watermark on, up to the first that is not published or to
the end of the log, whatever else the log holds. `Passed` says what it makes of the memory, and the steps
of a thread in a pass lead there. Over a whole run the passes that are told of lie end to end.
-/
namespace SharedMemory.FlatCombining

/-- The published records from the watermark on, up to the first that is not. -/
def Memory.published (m : Memory) : List Record :=
  (m.log.toList.drop m.watermark).takeWhile (·.state = .pending)

/-- What the published records are answered when they are served in the order of the log, and what is
left in the container. -/
def Memory.served (d : Discipline) (m : Memory) : List (Option Value) × List Value :=
  d.serveAll (m.published.map Record.request) m.store.toList

/-- What a pass makes of the memory, apart from the notification at its end. -/
structure Passed (d : Discipline) (m m' : Memory) : Prop where
  watermark : m'.watermark = m.watermark + m.published.length
  store : m'.store.toList = (m.served d).2
  found : ∀ j v, (m.served d).1[j]? = some (some v) →
    m'.record (m.watermark + j) =
      { m.record (m.watermark + j) with state := .doneSome, result := v }
  nothing : ∀ j, (m.served d).1[j]? = some none →
    m'.record (m.watermark + j) = { m.record (m.watermark + j) with state := .doneNone }
  others : ∀ i, i < m.watermark ∨ m.watermark + m.published.length ≤ i → m'.record i = m.record i
  size : m'.log.size = m.log.size
  next : m'.next = m.next
  mutex : m'.mutex = m.mutex

section Pass

variable {d : Discipline} {m m' : Memory} {choose : Label → Memory → Bool} {n i start : Nat}

theorem length_published_le (m : Memory) : m.published.length ≤ m.log.size - m.watermark := by
  calc m.published.length
      ≤ (m.log.toList.drop m.watermark).length := (List.takeWhile_prefix _).length_le
    _ = m.log.size - m.watermark := by simp

theorem published_of_not_ready (idle : ¬ m.ready) : m.published = [] := by
  rcases Nat.lt_or_ge m.watermark m.log.size with inside | beyond
  · have here : m.record m.watermark = m.log[m.watermark] := by simp [Memory.record, inside]
    rw [Memory.ready, here] at idle
    rw [Memory.published, List.drop_eq_getElem_cons (by simpa using inside)]
    exact List.takeWhile_cons_of_neg (by simpa using idle)
  · rw [Memory.published, List.drop_of_length_le (by simpa using beyond), List.takeWhile_nil]

theorem published_of_ready (d : Discipline) (ready : m.ready) :
    m.published = m.record m.watermark :: (m.applyNext d).published := by
  have inside := Memory.lt_size_of_ready ready
  have here : m.record m.watermark = m.log[m.watermark] := by simp [Memory.record, inside]
  have behind : (m.applyNext d).log.toList.drop (m.watermark + 1) =
      m.log.toList.drop (m.watermark + 1) := by
    simp only [Memory.applyNext, Array.toList_modify]
    exact List.drop_modify_of_lt _ _ _ _ (Nat.lt_succ_self _)
  have inside' : m.watermark < m.log.toList.length := by simpa using inside
  have first : decide (m.log.toList[m.watermark].state = .pending) = true := by
    rw [Memory.ready, here] at ready
    simpa using ready
  rw [Memory.published, List.drop_eq_getElem_cons inside',
    List.takeWhile_cons_of_pos (by exact first), Memory.published, watermark_applyNext, behind, here]
  rfl

theorem served_of_ready (d : Discipline) (ready : m.ready) :
    m.served d = ((m.store.serve d (m.record m.watermark).request).1 :: ((m.applyNext d).served d).1,
      ((m.applyNext d).served d).2) := by
  obtain ⟨found, left⟩ := Store.serves rfl d (m.record m.watermark).request
  rw [Memory.served, published_of_ready d ready, List.map_cons, Discipline.serveAll, Memory.served,
    store_applyNext, found, left]

theorem Passed.nil (idle : ¬ m.ready) : Passed d m m := by
  have none_published := published_of_not_ready idle
  have none_served : m.served d = ([], m.store.toList) := by
    rw [Memory.served, none_published]
    rfl
  constructor <;> simp [none_published, none_served]

theorem Passed.cons (ready : m.ready) (h : Passed d (m.applyNext d) m') : Passed d m m' := by
  have published := published_of_ready d ready
  have served := served_of_ready d ready
  have record := record_applyNext (d := d) ready
  have length : m.published.length = (m.applyNext d).published.length + 1 := by
    rw [published, List.length_cons]
  have first : m'.record m.watermark =
      (m.record m.watermark).complete (m.store.serve d (m.record m.watermark).request).1 := by
    rw [h.others m.watermark (.inl (Nat.lt_succ_self _)), record, if_pos rfl]
  have later : ∀ j, (m.applyNext d).record (m.watermark + 1 + j) = m.record (m.watermark + (j + 1)) := by
    intro j
    rw [record, if_neg (by omega), Nat.add_assoc, Nat.add_comm 1]
  refine ⟨?_, ?_, ?_, ?_, ?_, ?_, h.next, h.mutex⟩
  · rw [h.watermark, length, watermark_applyNext]
    omega
  · rw [h.store, served]
  · rintro (_ | j) v answered
    · rw [served] at answered
      rw [Nat.add_zero, first, Option.some.inj answered]
      rfl
    · rw [served] at answered
      have := h.found j v answered
      rwa [watermark_applyNext, later, Nat.add_assoc, Nat.add_comm 1] at this
  · rintro (_ | j) answered
    · rw [served] at answered
      rw [Nat.add_zero, first, Option.some.inj answered]
      rfl
    · rw [served] at answered
      have := h.nothing j answered
      rwa [watermark_applyNext, later, Nat.add_assoc, Nat.add_comm 1] at this
  · intro i outside
    rw [h.others i (by rw [watermark_applyNext]; omega), record, if_neg]
    omega
  · rw [h.size]
    simp [Memory.applyNext]

/-- Fuel for all published records is enough. -/
theorem passed_applyUpTo (enough : m.published.length ≤ n) : Passed d m (m.applyUpTo d n) := by
  induction n generalizing m with
  | zero =>
    refine .nil fun ready => ?_
    rw [published_of_ready d ready] at enough
    cases enough
  | succ n ih =>
    rw [Memory.applyUpTo]
    split
    · next ready =>
      rw [published_of_ready d ready] at enough
      exact .cons ready (ih (Nat.le_of_succ_le_succ enough))
    · next idle => exact .nil idle

theorem applyUpTo_of_le (enough : m.published.length ≤ n) :
    m.applyUpTo d n = m.applyUpTo d m.published.length := by
  induction n generalizing m with
  | zero => rw [Nat.le_zero.mp enough]
  | succ n ih =>
    by_cases ready : m.ready
    · have published := published_of_ready d ready
      rw [published] at enough
      rw [published, List.length_cons, Memory.applyUpTo, Memory.applyUpTo, if_pos ready, if_pos ready,
        ih (Nat.le_of_succ_le_succ enough)]
    · rw [published_of_not_ready ready, List.length_nil, Memory.applyUpTo, Memory.applyUpTo,
        if_neg ready]

theorem signals_applyUpTo (d : Discipline) (n : Nat) (m : Memory) :
    (m.applyUpTo d n).signals = m.signals := by
  induction n generalizing m with
  | zero => rfl
  | succ n ih =>
    rw [Memory.applyUpTo]
    split
    · exact ih _
    · rfl

/-- Behind a pass there is a gap, or the end of the log. -/
theorem not_ready_applyUpTo (d : Discipline) (m : Memory) :
    ¬ (m.applyUpTo d m.published.length).ready := by
  induction h : m.published.length generalizing m with
  | zero =>
    intro ready
    rw [Memory.applyUpTo] at ready
    rw [published_of_ready d ready] at h
    cases h
  | succ n ih =>
    have ready : m.ready := by
      by_contra idle
      rw [published_of_not_ready idle] at h
      cases h
    rw [published_of_ready d ready, List.length_cons] at h
    rw [Memory.applyUpTo, if_pos ready]
    exact ih (m.applyNext d) (Nat.succ.inj h)

theorem advance_combine (m : Memory) (start : Nat) (trace : List Event) :
    (algorithm d).advance choose (m.published.length + 1) ⟨m, .running (.combine i start), trace⟩ =
      (algorithm d).tick choose
        ⟨m.applyUpTo d m.published.length, .running (.combine i start), trace⟩ := by
  induction h : m.published.length generalizing m with
  | zero => rfl
  | succ n ih =>
    have ready : m.ready := by
      by_contra idle
      rw [published_of_not_ready idle] at h
      cases h
    have applies : (algorithm d).tick choose ⟨m, .running (.combine i start), trace⟩ =
        ⟨m.applyNext d, .running (.combine i start), trace⟩ := by
      simp [tick_running, Algorithm.solo, algorithm, step, ready]
    rw [published_of_ready d ready, List.length_cons] at h
    rw [Algorithm.advance_succ, applies, ih (m.applyNext d) (Nat.succ.inj h), Memory.applyUpTo,
      if_pos ready]

theorem pass_eq (d : Discipline) (m : Memory) :
    m.pass d = if m.published = [] then (m.applyUpTo d m.published.length, []) else
      ({ m.applyUpTo d m.published.length with signals := m.signals + 1 },
        [.passApplied m.watermark (m.watermark + m.published.length)]) := by
  have same : (m.watermark + m.published.length = m.watermark) ↔ m.published = [] := by
    rw [Nat.add_eq_left, List.length_eq_zero_iff]
  have watermark := (passed_applyUpTo (d := d) (Nat.le_refl m.published.length)).watermark
  rw [Memory.pass, applyUpTo_of_le (length_published_le m)]
  simp only [signals_applyUpTo, watermark, same]

/-- The steps of a thread lead through a whole pass. -/
theorem advance_pass (m : Memory) (trace : List Event) :
    (algorithm d).advance choose (m.published.length + 1) ⟨m, .running (.combine i m.watermark), trace⟩ =
      ⟨(m.pass d).1, .running (.recheck i), (m.pass d).2.reverse ++ trace⟩ := by
  have watermark := (passed_applyUpTo (d := d) (Nat.le_refl m.published.length)).watermark
  have gap := not_ready_applyUpTo d m
  rw [advance_combine, pass_eq, tick_running]
  by_cases idle : m.published = []
  · have still : (m.applyUpTo d m.published.length).watermark = m.watermark := by
      rw [watermark, idle, List.length_nil, Nat.add_zero]
    rw [if_pos idle]
    simp [Algorithm.solo, algorithm, step, gap, still]
  · have moved : m.watermark + m.published.length ≠ m.watermark := by
      rwa [Ne, Nat.add_eq_left, List.length_eq_zero_iff]
    rw [if_neg idle]
    simp [Algorithm.solo, algorithm, step, gap, watermark, idle, signals_applyUpTo]

end Pass

/-- The ranges lie end to end from `start` to `stop`, and none is empty. -/
def Tiles (start : Nat) : List (Nat × Nat) → Nat → Prop
  | [], stop => start = stop
  | (a, b) :: rest, stop => start = a ∧ a < b ∧ Tiles b rest stop

theorem Tiles.concat {start stop next : Nat} {ranges : List (Nat × Nat)} (h : Tiles start ranges stop)
    (further : stop < next) : Tiles start (ranges ++ [(stop, next)]) next := by
  induction ranges generalizing start with
  | nil => exact ⟨h, further, rfl⟩
  | cons range rest ih => exact ⟨h.1, h.2.1, ih h.2.2⟩

def passRange : Event → Option (Nat × Nat)
  | .passApplied start stop => some (start, stop)
  | _ => none

def passes (v : View Memory Label Answer) : List (Nat × Nat) := v.trace.reverse.filterMap passRange

/-- The passes so far lie end to end, up to where the pass that is under way began, or else up to the
watermark. There was one notification for each. -/
structure Tiled (v : View Memory Label Answer) : Prop where
  during : ∀ j start, Combines v j start →
    Tiles 0 (passes v) start ∧ start ≤ v.memory.watermark
  between : (∀ j start, ¬ Combines v j start) → Tiles 0 (passes v) v.memory.watermark
  notified : v.memory.signals = (passes v).length

section Tiling

variable {d : Discipline} {programs : List (List Call)} {v v' : View Memory Label Answer}
  {spurious : Bool} {t i start : Nat}

theorem passes_take (v : View Memory Label Answer) (t : Nat) (e : Effect Memory Label Answer) :
    passes (v.take t e) = passes v ++ e.events.filterMap passRange := by
  unfold passes View.take
  split <;> simp

/-- Only at the end of a pass is there anything to tell of it. -/
theorem passRange_step {l : Label} (apart : ∀ i start, l ≠ .combine i start) (m : Memory) :
    (step d spurious l m).events.filterMap passRange = [] := by
  cases l with
  | combine i start => exact absurd rfl (apart i start)
  | reserve | lock | lookLock | recheck =>
    simp only [step]
    split <;> rfl
  | writeKind | writeValue | publish | check | asleep | unlock | look | lookUnlock => rfl

theorem passes_apart (turn : v.Step (algorithm d) programs t spurious v')
    (apart : ∀ i start, v.label t ≠ some (.combine i start)) : passes v' = passes v := by
  rcases turn.rest_or_enter_or_take with ⟨_, rfl⟩ | ⟨c, _, _, rfl⟩ | ⟨l, here, rfl⟩
  · rfl
  · rfl
  · rw [passes_take]
    have told : (step d spurious l v.memory).events.filterMap passRange = [] :=
      passRange_step (fun i start same => apart i start (same ▸ here)) v.memory
    change passes v ++ (step d spurious l v.memory).events.filterMap passRange = _
    rw [told, List.append_nil]

theorem passes_combine (turn : v.Step (algorithm d) programs t spurious v')
    (here : v.label t = some (.combine i start)) :
    passes v' = passes v ++
      if v.memory.ready ∨ v.memory.watermark = start then [] else [(start, v.memory.watermark)] := by
  rw [turn.take here, passes_take]
  congr 1
  by_cases ready : v.memory.ready
  · simp [algorithm, step, ready]
  · by_cases same : v.memory.watermark = start
    · simp [algorithm, step, ready, same]
    · simp [algorithm, step, ready, same, passRange]

theorem Tiled.apart (h : Tiled v) (same : ∀ j start, Combines v' j start ↔ Combines v j start)
    (watermark : v'.memory.watermark = v.memory.watermark) (signals : v'.memory.signals = v.memory.signals)
    (told : passes v' = passes v) : Tiled v' := by
  constructor
  · intro j start now
    rw [told, watermark]
    exact h.during j start ((same j start).mp now)
  · intro idle
    rw [told, watermark]
    exact h.between fun j start before => idle j start ((same j start).mpr before)
  · rw [told, signals, h.notified]

theorem Tiled.turn (h : Tiled v) (guarded : Guarded v.label v.memory.mutex)
    (turn : v.Step (algorithm d) programs t spurious v') : Tiled v' := by
  have others : ∀ j start, j ≠ t → (Combines v' j start ↔ Combines v j start) := by
    intro j start hj
    rw [Combines, Combines, (turn.others hj).1]
  have apart : (∀ i start, v.label t ≠ some (.combine i start)) →
      (∀ i start, v'.label t ≠ some (.combine i start)) →
      v'.memory.watermark = v.memory.watermark → v'.memory.signals = v.memory.signals → Tiled v' := by
    intro before now watermark signals
    refine h.apart (fun j start => ?_) watermark signals (passes_apart turn before)
    rcases eq_or_ne j t with rfl | hj
    · refine iff_of_false ?_ ?_
      · rintro ⟨i, here⟩
        exact now i start here
      · rintro ⟨i, here⟩
        exact before i start here
    · exact others j start hj
  have alone : ∀ {i start}, v'.label t = some (.combine i start) →
      (∀ j start, j ≠ t → ¬ Combines v j start) → ∀ j start', Combines v' j start' → start' = start := by
    intro i start goes others_idle j start' now
    rcases eq_or_ne j t with rfl | hj
    · obtain ⟨k, now⟩ := now
      rw [goes] at now
      cases now
      rfl
    · exact absurd ((others j start' hj).mp now) (others_idle j start' hj)
  have holder : Holding (v.label t) → ∀ j start, j ≠ t → ¬ Combines v j start := by
    rintro holds j start hj ⟨i, here⟩
    exact hj (guarded.alone j t (here ▸ trivial) holds)
  cases course turn with
  | applies i start here goes watermark signals =>
    have told := passes_combine turn here
    have ready : v.memory.ready := by
      by_contra idle
      have ended : v'.memory.watermark = v.memory.watermark := by
        rw [turn.take here, View.memory_take]
        simp only [algorithm, step, if_neg idle]
        split <;> rfl
      omega
    rw [if_pos (.inl ready), List.append_nil] at told
    obtain ⟨tiles, reached⟩ := h.during t start ⟨i, here⟩
    refine ⟨fun j start' now => ?_, fun nobody => absurd ⟨i, goes⟩ (nobody t start), ?_⟩
    · rw [alone goes (holder (here ▸ trivial)) j start' now, told]
      exact ⟨tiles, by omega⟩
    · rw [told, signals, h.notified]
  | ends i start here goes idle watermark signals =>
    have told := passes_combine turn here
    obtain ⟨tiles, reached⟩ := h.during t start ⟨i, here⟩
    refine ⟨?_, fun _ => ?_, ?_⟩
    · rintro j start' ⟨k, now⟩
      rcases eq_or_ne j t with rfl | hj
      · rw [goes] at now
        cases now
      · exact absurd ((others j start' hj).mp ⟨k, now⟩) (holder (here ▸ trivial) j start' hj)
    · rw [told, watermark]
      split
      · next nothing =>
        rw [List.append_nil, nothing.resolve_left idle]
        exact tiles
      · next moved => exact tiles.concat (Nat.lt_of_le_of_ne reached fun same => moved (.inr same.symm))
    · rw [told, signals, h.notified]
      by_cases same : v.memory.watermark = start <;> simp [same, idle]
  | begins i here goes watermark signals =>
    have told := passes_apart turn (by simp [here])
    have nobody : ∀ j start, ¬ Combines v j start := by
      intro j start before
      rcases eq_or_ne j t with rfl | hj
      · obtain ⟨k, before⟩ := before
        rw [here] at before
        cases before
      · exact holder (here ▸ trivial) j start hj before
    refine ⟨fun j start' now => ?_, fun idle => absurd ⟨i, goes⟩ (idle t _), ?_⟩
    · rw [alone goes (fun j start _ => nobody j start) j start' now, told, watermark]
      exact ⟨h.between nobody, Nat.le_refl _⟩
    · rw [told, signals, h.notified]
  | sleeps i here goes _ watermark signals =>
    exact apart (by simp [here]) (by simp [goes]) watermark signals
  | aside here goes watermark signals =>
    refine apart here (fun i start now => ?_) watermark signals
    rcases goes with same | aside
    · exact here i start (same ▸ now)
    · rw [now] at aside
      exact aside

theorem tiled (d : Discipline) (config : LogConfig) (programs : List (List Call))
    (schedule : List (Turn Bool)) : Tiled (after d config programs schedule) := by
  induction schedule with
  | nil =>
    have fresh : passes (after d config programs []) = [] := by simp [passes, after, View.start]
    refine ⟨fun j start now => absurd now idle_start, fun _ => ?_, ?_⟩
    · rw [fresh]
      simp [Tiles, after, View.start, Memory.ofConfig]
    · rw [fresh]
      simp [after, View.start, Memory.ofConfig]
  | cons t earlier ih => exact ih.turn (guarded_after d config programs earlier) (turn d config programs t earlier)

end Tiling

/-- One pass serves just the published records from the watermark on, and tells of it if there are any.
Over any run the passes that are told of lie end to end. -/
theorem combining_passes (d : Discipline) :
    (∀ m : Memory, Passed d m (m.pass d).1 ∧
      (m.pass d).2 = (if m.published = [] then [] else
        [.passApplied m.watermark (m.watermark + m.published.length)]) ∧
      (m.pass d).1.signals = m.signals + (if m.published = [] then 0 else 1) ∧
      ∀ choose i trace, (algorithm d).advance choose (m.published.length + 1)
          ⟨m, .running (.combine i m.watermark), trace⟩ =
        ⟨(m.pass d).1, .running (.recheck i), (m.pass d).2.reverse ++ trace⟩) ∧
      ∀ config programs schedule, Tiled (after d config programs schedule) := by
  constructor
  · intro m
    have passed := passed_applyUpTo (d := d) (Nat.le_refl m.published.length)
    have notified := signals_applyUpTo d m.published.length m
    refine ⟨?_, ?_, ?_, fun choose i trace => advance_pass m trace⟩
    all_goals rw [pass_eq]
    · split
      · exact passed
      · exact { passed with }
    all_goals split
    · rfl
    · rfl
    · exact notified
    · rfl
  · intro config programs schedule
    exact tiled d config programs schedule

end SharedMemory.FlatCombining
