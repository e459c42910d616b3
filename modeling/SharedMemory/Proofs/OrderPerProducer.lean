import SharedMemory.Proofs.ContainerLaw
import SharedMemory.Proofs.ProducerAccounts

/-!
# A queue's clients find each producer's values in order

Inside the queue a thread's call takes effect at one step. Seen from there, every step of a producer or
consumer is one of its moves, so the accounts of the moves hold of every run over the queue, and once all
threads have returned the accounts are closed: all values are counted and the queue is empty.
-/
namespace SharedMemory.ProducerOrder

variable {Memory L Choice : Type} {plan : Plan}

section Calls

variable {c : Container Memory L Choice} (law : Container.Law .fifo c)

/-- The place of a thread. An insert that has taken effect is over, and a removal that has taken a value
has it in hand. -/
def place (fixed : L → Option (Option Value)) : Status (Label L) (Except Panic Unit) → Place
  | .running (.produce p i) => .running (.produce p i)
  | .running (.inserting l p i) =>
    match fixed l with
    | none => .running (.inserting () p i)
    | some _ => .running (.produce p (i + 1))
  | .running (.look last) => .running (.look last)
  | .running (.removing l last) =>
    match fixed l with
    | none => .running (.removing () last)
    | some none => .running (.look last)
    | some (some v) => .running (.countTaken v last)
  | .running (.countTaken v last) => .running (.countTaken v last)
  | .running (.judge v last) => .running (.judge v last)
  | .returned r => .returned r

def Plan.call? (plan : Plan) : Status (Label L) (Except Panic Unit) → Option (Request × L)
  | .running (.inserting l p i) => some (.insert (plan.value p i), l)
  | .running (.removing l _) => some (.remove, l)
  | _ => none

def Plan.calls (plan : Plan) (threads : List (Status (Label L) (Except Panic Unit))) (i : Nat) :
    Option (Request × L) := threads[i]?.bind plan.call?

theorem calls_set {threads : List (Status (Label L) (Except Panic Unit))} {i : Nat}
    (h : i < threads.length) (s : Status (Label L) (Except Panic Unit)) :
    plan.calls (threads.set i s) = Function.update (plan.calls threads) i (plan.call? s) := by
  funext j
  by_cases same : j = i
  · subst same
    rw [Function.update_self, Plan.calls, List.getElem?_set_self h]
    rfl
  · rw [Function.update_of_ne same, Plan.calls, List.getElem?_set_ne (Ne.symm same), Plan.calls]

def afterInsert (p i : UInt64) : Status L Reply → Status (Label L) (Except Panic Unit)
  | .running l => .running (.inserting l p i)
  | .returned (.ok _) => .running (.produce p (i + 1))
  | .returned (.error panic) => .returned (.error panic)

def afterRemoval (last : List Value) : Status L Reply → Status (Label L) (Except Panic Unit)
  | .running l => .running (.removing l last)
  | .returned (.ok (some v)) => .running (.countTaken v last)
  | .returned (.ok none) => .running (.look last)
  | .returned (.error panic) => .returned (.error panic)

theorem call?_afterInsert (p i : UInt64) (status : Status L Reply) :
    plan.call? (afterInsert p i status) = Container.callAfter (.insert (plan.value p i)) status := by
  rcases status with l | _ | _ <;> rfl

theorem call?_afterRemoval (last : List Value) (status : Status L Reply) :
    plan.call? (afterRemoval last status) = Container.callAfter .remove status := by
  rcases status with l | _ | _ | _ <;> rfl

theorem moves_insert {fixed : L → Option (Option Value)} {p i : UInt64} {l : L}
    {values values' : List Value} {taken : UInt64} {status : Status L Reply}
    (outcome : Container.Outcome .fifo fixed (.insert (plan.value p i)) l values status values') :
    Moves plan values taken (place fixed (.running (.inserting l p i))) values' taken
      (place fixed (afterInsert p i status)) := by
  cases outcome with
  | goes l' same =>
    simp only [afterInsert, place, same]
    exact .rest
  | fixes l' pending settled =>
    simp only [afterInsert, place, pending, settled]
    exact .insert
  | serves pending =>
    simp only [afterInsert, place, pending]
    exact .insert
  | misses pending removal => cases removal
  | done found settled =>
    simp only [afterInsert, place, settled]
    exact .rest

theorem moves_remove {fixed : L → Option (Option Value)} {last : List Value} {l : L}
    {values values' : List Value} {taken : UInt64} {status : Status L Reply}
    (outcome : Container.Outcome .fifo fixed .remove l values status values') :
    Moves plan values taken (place fixed (.running (.removing l last))) values' taken
      (place fixed (afterRemoval last status)) := by
  cases outcome with
  | goes l' same =>
    simp only [afterRemoval, place, same]
    exact .rest
  | fixes l' pending settled =>
    cases values with
    | nil =>
      simp only [afterRemoval, place, pending, settled]
      exact .miss
    | cons v values =>
      simp only [afterRemoval, place, pending, settled]
      exact .take
  | serves pending =>
    cases values with
    | nil =>
      simp only [afterRemoval, place, pending]
      exact .miss
    | cons v values =>
      simp only [afterRemoval, place, pending]
      exact .take
  | misses pending removal =>
    simp only [afterRemoval, place, pending]
    exact .miss
  | done found settled =>
    cases found <;>
    · simp only [afterRemoval, place, settled]
      exact .rest

/-- One step of a thread is one of the moves, whatever the queue does inside. -/
theorem moves_step {calls : Nat → Option (Request × L)} {m : Tally Memory} {t : Nat} {l : Label L}
    (choice : Choice) (good : law.Good calls m.container) (here : calls t = plan.call? (.running l)) :
    let e := step plan c choice l m
    Moves plan (law.contents m.container) m.taken (place law.fixed (.running l))
        (law.contents e.memory.container) e.memory.taken (place law.fixed e.status) ∧
      law.Good (Function.update calls t (plan.call? e.status)) e.memory.container := by
  have outside (out : calls t = none) : law.Good (Function.update calls t none) m.container := by
    rwa [← out, Function.update_eq_self]
  intro e
  cases l with
  | produce p i =>
    by_cases more : i < plan.perProducer
    · have enters : e = ⟨m, .running (.inserting (c.enter (.insert (plan.value p i))) p i), []⟩ := by
        simp only [e, step, if_pos more]
      obtain ⟨pending, good⟩ := law.enter (.insert (plan.value p i)) good here
      rw [enters]
      refine ⟨?_, good⟩
      simp only [place, pending]
      exact .begin more
    · have returns : e = ⟨m, .returned (.ok ()), []⟩ := by simp only [e, step, if_neg more]
      rw [returns]
      exact ⟨.finish more, outside here⟩
  | inserting l p i =>
    obtain ⟨outcome, good⟩ := law.step choice good here
    have goes : e.status = afterInsert p i (c.step choice l m.container).status := by
      rcases h : (c.step choice l m.container).status with l | _ | _ <;>
        simp only [e, step, h, afterInsert]
    rw [goes, call?_afterInsert]
    exact ⟨moves_insert outcome, good⟩
  | look last =>
    by_cases more : m.taken < plan.total
    · have enters : e = ⟨m, .running (.removing (c.enter .remove) last), []⟩ := by
        simp only [e, step, if_pos more]
      obtain ⟨pending, good⟩ := law.enter .remove good here
      rw [enters]
      refine ⟨?_, good⟩
      simp only [place, pending]
      exact .goOn more
    · have returns : e = ⟨m, .returned (.ok ()), []⟩ := by simp only [e, step, if_neg more]
      rw [returns]
      exact ⟨.stop more, outside here⟩
  | removing l last =>
    obtain ⟨outcome, good⟩ := law.step choice good here
    have goes : e.status = afterRemoval last (c.step choice l m.container).status := by
      rcases h : (c.step choice l m.container).status with l | _ | _ | _ <;>
        simp only [e, step, h, afterRemoval]
    rw [goes, call?_afterRemoval]
    exact ⟨moves_remove outcome, good⟩
  | countTaken v last => exact ⟨.count, outside here⟩
  | judge v last =>
    by_cases larger : last.getD (plan.producerOf v) (-1) < v
    · have goes : e = ⟨m, .running (.look (last.set (plan.producerOf v) v)), []⟩ := by
        simp only [e, step, if_pos larger]
      rw [goes]
      exact ⟨.accept larger, outside here⟩
    · have panics : e = ⟨m, .returned (.error
          (.outOfOrder (plan.producerOf v) v (last.getD (plan.producerOf v) (-1)))), []⟩ := by
        simp only [e, step, if_neg larger]
      rw [panics]
      exact ⟨.reject larger, outside here⟩

end Calls

section Runs

variable {c : Container Memory L Choice} (law : Container.Law .fifo c) {m : Memory}

/-- Which threads have begun to insert which values, the latest first. -/
def inserts (plan : Plan) (c : Container Memory L Choice) (m : Memory) :
    List (Turn Choice) → List (Nat × Value)
  | [] => []
  | t :: earlier =>
    match ((crew plan c m).after (algorithm plan c) earlier).threads[t.thread]? with
    | some (.running (.produce p i)) =>
      if i < plan.perProducer then (t.thread, plan.value p i) :: inserts plan c m earlier
      else inserts plan c m earlier
    | _ => inserts plan c m earlier

theorem threads_crew :
    (crew plan c m).threads =
      (List.range plan.producers.toNat).map (fun p => .running (.produce (UInt64.ofNat p) 0)) ++
        List.replicate plan.producers.toNat
          (.running (.look (List.replicate plan.producers.toNat (-1)))) := by
  simp only [crew, Crew.start, List.map_append, List.map_replicate, List.map_map]
  rfl

theorem call?_threads_crew {i : Nat} {s : Status (Label L) (Except Panic Unit)}
    (h : (crew plan c m).threads[i]? = some s) : plan.call? s = none := by
  have mem := List.mem_of_getElem? h
  rw [threads_crew, List.mem_append, List.mem_map, List.mem_replicate] at mem
  rcases mem with ⟨p, -, rfl⟩ | ⟨-, rfl⟩ <;> rfl

/-- The queue is called as its law allows, and the threads are in good order. -/
structure Sound (plan : Plan) (now : Crew (Tally Memory) (Label L) (Except Panic Unit)) : Prop where
  good : law.Good (plan.calls now.threads) now.memory.container
  orderly : Orderly plan (law.contents now.memory.container) now.memory.taken
    (now.threads.map (place law.fixed))

namespace Sound

theorem start (sized : plan.Sized) (fresh : law.Fresh m) : Sound law plan (crew plan c m) := by
  constructor
  · have idle : plan.calls (crew plan c m).threads = fun _ => none := by
      funext i
      rw [Plan.calls, Option.bind_eq_none_iff]
      exact fun s hs => call?_threads_crew hs
    rw [idle]
    exact fresh.good
  · have start := Orderly.start sized
    rw [← fresh.empty] at start
    rw [threads_crew, List.map_append, List.map_map, List.map_replicate]
    exact start

variable {law}

theorem fits {now : Crew (Tally Memory) (Label L) (Except Panic Unit)} (h : Sound law plan now) {t : Nat}
    {s : Status (Label L) (Except Panic Unit)} (here : now.threads[t]? = some s) :
    Fits plan (law.contents now.memory.container) now.memory.taken
      (plan.madeBy (now.threads.map (place law.fixed))) t (place law.fixed s) := by
  apply h.orderly.fits
  rw [List.getElem?_map, here, Option.map_some]

theorem fine {now : Crew (Tally Memory) (Label L) (Except Panic Unit)} (h : Sound law plan now) {t : Nat}
    {r : Except Panic Unit} (here : now.threads[t]? = some (.returned r)) : r = .ok () := (h.fits here).1

theorem turn {now : Crew (Tally Memory) (Label L) (Except Panic Unit)} (sized : plan.Sized)
    (h : Sound law plan now) (t : Turn Choice) :
    Sound law plan (now.act (algorithm plan c) t.thread fun _ _ => t.choice) := by
  rw [Crew.act]
  split
  · next l here =>
    have called : plan.calls now.threads t.thread = plan.call? (.running l) := by
      rw [Plan.calls, here, Option.bind_some]
    obtain ⟨moves, good⟩ := moves_step law t.choice h.good called
    rw [← calls_set (List.getElem?_eq_some_iff.mp here).1] at good
    refine ⟨good, ?_⟩
    rw [List.map_set]
    apply h.orderly.move sized _ moves
    rw [List.getElem?_map, here, Option.map_some]
  · exact h

theorem after (sized : plan.Sized) (fresh : law.Fresh m) (schedule : List (Turn Choice)) :
    Sound law plan ((crew plan c m).after (algorithm plan c) schedule) := by
  induction schedule with
  | nil => exact start law sized fresh
  | cons t earlier ih => exact ih.turn sized t

end Sound

variable {law}

/-- Whoever begins to insert a value is the one whom the value names. -/
theorem producerOf_inserts (sized : plan.Sized) (fresh : law.Fresh m) (schedule : List (Turn Choice)) :
    ∀ entry ∈ inserts plan c m schedule, plan.producerOf entry.2 = entry.1 := by
  induction schedule with
  | nil => nofun
  | cons t earlier ih =>
    rw [inserts]
    split
    · next p i here =>
      obtain ⟨ht, hp, -⟩ := (Sound.after sized fresh earlier).fits here
      split
      · next more =>
        intro entry hentry
        rcases List.mem_cons.mp hentry with rfl | old
        · rw [Plan.value_eq_nth plan hp]
          exact sized.producerOf_nth ht (UInt64.lt_iff_toNat_lt.mp more)
        · exact ih entry old
      · exact ih
    · exact ih

def Plan.begun (plan : Plan) : Status (Label L) (Except Panic Unit) → Nat
  | .running (.produce _ i) => i.toNat
  | .running (.inserting _ _ i) => i.toNat + 1
  | _ => plan.perProducer.toNat

theorem made_le_begun (fixed : L → Option (Option Value)) (s : Status (Label L) (Except Panic Unit)) :
    plan.made (place fixed s) ≤ plan.begun s := by
  rcases s with l | r
  · cases l with
    | inserting l p i =>
      rcases h : fixed l with _ | found <;> simp only [place, h, Plan.made, Plan.begun]
      · exact Nat.le_succ _
      · rw [UInt64.toNat_add]
        exact Nat.mod_le _ _
    | removing l last =>
      rcases h : fixed l with _ | _ | v <;> simp only [place, h, Plan.made, Plan.begun, le_refl]
    | _ => exact Nat.le_refl _
  · exact Nat.le_refl _

theorem inserts_suffix (t : Turn Choice) (earlier : List (Turn Choice)) :
    inserts plan c m earlier <:+ inserts plan c m (t :: earlier) := by
  rw [inserts]
  split
  · split
    · exact List.suffix_cons _ _
    · exact List.suffix_refl _
  · exact List.suffix_refl _

theorem consumer_of_removing {values : List Value} {taken : UInt64} {made : Nat → Nat} {t : Nat} {l : L}
    {last : List Value} {fixed : L → Option (Option Value)}
    (fits : Fits plan values taken made t (place fixed (.running (.removing l last)))) :
    plan.producers.toNat ≤ t := by
  rcases h : fixed l with _ | _ | v <;>
  · simp only [place, h] at fits
    exact fits.1

/-- A step of a producer that does not panic begins the next value at most. -/
theorem begun_step {values : List Value} {taken : UInt64} {made : Nat → Nat} {t k : Nat} {l : Label L}
    {tally : Tally Memory} {choice : Choice} {fixed : L → Option (Option Value)}
    (producer : t < plan.producers.toNat)
    (fits : Fits plan values taken made t (place fixed (.running l)))
    (fine : ∀ panic, (step plan c choice l tally).status ≠ .returned (.error panic))
    (hk : k < plan.begun (step plan c choice l tally).status) (small : k < plan.perProducer.toNat) :
    k < plan.begun (.running l) ∨
      ∃ p i, l = .produce p i ∧ i < plan.perProducer ∧ plan.nth t k = plan.value p i := by
  cases l with
  | produce p i =>
    obtain ⟨-, hp, hi⟩ := fits
    by_cases more : i < plan.perProducer
    · simp only [step, if_pos more] at hk
      rcases Nat.lt_succ_iff_lt_or_eq.mp hk with before | now
      · exact .inl before
      · refine .inr ⟨p, i, rfl, more, ?_⟩
        rw [now, Plan.value_eq_nth plan hp]
    · rw [UInt64.lt_iff_toNat_lt] at more
      exact .inl (small.trans_le (Nat.not_lt.mp more))
  | inserting l p i =>
    left
    rcases h : (c.step choice l tally.container).status with l' | panic | found
    · simp only [step, h] at hk
      exact hk
    · exact absurd (by simp only [step, h]) (fine panic)
    · simp only [step, h] at hk
      refine hk.trans_le ?_
      rw [Plan.begun, UInt64.toNat_add]
      exact Nat.mod_le _ _
  | removing l last => exact absurd producer (Nat.not_lt.mpr (consumer_of_removing fits))
  | look last | countTaken v last | judge v last => exact absurd producer (Nat.not_lt.mpr fits.1)

/-- A producer has begun to insert, one after the other, all values up to its present one. -/
theorem mem_inserts (sized : plan.Sized) (fresh : law.Fresh m) (schedule : List (Turn Choice)) :
    ∀ t s, ((crew plan c m).after (algorithm plan c) schedule).threads[t]? = some s →
      t < plan.producers.toNat → ∀ k < plan.begun s, k < plan.perProducer.toNat →
        (t, plan.nth t k) ∈ inserts plan c m schedule := by
  induction schedule with
  | nil =>
    intro t s here producer k hk
    have begins : s = .running (.produce (UInt64.ofNat t) 0) := by
      change (crew plan c m).threads[t]? = _ at here
      rw [threads_crew, List.getElem?_append_left (by simpa using producer), List.getElem?_map,
        List.getElem?_range producer] at here
      exact (Option.some.inj here).symm
    rw [begins] at hk
    exact absurd hk (Nat.not_lt_zero _)
  | cons turn earlier ih =>
    intro t s here producer k hk small
    have sound := Sound.after sized fresh (turn :: earlier)
    have old : inserts plan c m earlier ⊆ inserts plan c m (turn :: earlier) :=
      (inserts_suffix turn earlier).subset
    by_cases acts : ∃ l, t = turn.thread ∧
        ((crew plan c m).after (algorithm plan c) earlier).threads[t]? = some (.running l)
    · obtain ⟨l, rfl, there⟩ := acts
      have inside := (List.getElem?_eq_some_iff.mp there).1
      have fine : ∀ panic, s ≠ .returned (.error panic) := by
        rintro panic rfl
        cases sound.fine here
      rw [Crew.after, Crew.act_running _ there, List.getElem?_set_self inside] at here
      cases here
      rcases begun_step producer ((Sound.after sized fresh earlier).fits there) fine hk small with
        before | ⟨p, i, rfl, more, now⟩
      · exact old (ih _ _ there producer k before small)
      · rw [inserts, there, now]
        simp only [if_pos more, List.mem_cons_self]
    · have there : ((crew plan c m).after (algorithm plan c) earlier).threads[t]? = some s := by
        rw [← here, Crew.after]
        by_cases same : t = turn.thread
        · rw [Crew.act_of_not_running]
          exact fun l running => acts ⟨l, same, same ▸ running⟩
        · rw [Crew.threads_act_of_ne _ same]
      exact old (ih t s there producer k hk small)

/-- What has been inserted, a thread has begun to insert, and it is the one whom the value names. -/
theorem mem_inserts_of_made (sized : plan.Sized) (fresh : law.Fresh m) {schedule : List (Turn Choice)}
    {x : Value}
    (h : Made plan (plan.madeBy
      (((crew plan c m).after (algorithm plan c) schedule).threads.map (place law.fixed))) x) :
    (plan.producerOf x, x) ∈ inserts plan c m schedule := by
  obtain ⟨t, k, ht, hk, small, rfl⟩ := h
  rw [sized.producerOf_nth ht small]
  rw [Plan.madeBy, List.getElem?_map] at hk
  cases here : ((crew plan c m).after (algorithm plan c) schedule).threads[t]? with
  | none =>
    rw [here] at hk
    cases hk
  | some s =>
    rw [here] at hk
    refine mem_inserts sized fresh schedule t s here ht k (hk.trans_le ?_) small
    exact made_le_begun _ s

/-- What holds of a crew over a queue with these contents: no thread has panicked, the count is not above
the total, a value names the thread that has begun to insert it, whoever has it now, and once all threads
have returned every value is counted and none is left. -/
structure Accepts (plan : Plan) (contents : List Value) (inserts : List (Nat × Value))
    (now : Crew (Tally Memory) (Label L) (Except Panic Unit)) : Prop where
  fine : ∀ (i : Nat) (r : Except Panic Unit), now.threads[i]? = some (.returned r) → r = .ok ()
  counted : now.memory.taken ≤ plan.total
  named : ∀ entry ∈ inserts, plan.producerOf entry.2 = entry.1
  queued : ∀ v ∈ contents, (plan.producerOf v, v) ∈ inserts
  counting : ∀ (i : Nat) (v : Value) (last : List Value),
    now.threads[i]? = some (.running (.countTaken v last)) → (plan.producerOf v, v) ∈ inserts
  judging : ∀ (i : Nat) (v : Value) (last : List Value),
    now.threads[i]? = some (.running (.judge v last)) →
      (plan.producerOf v, v) ∈ inserts ∧ last.getD (plan.producerOf v) (-1) < v
  complete : ∀ answers, now.answers? = some answers →
    (∀ r ∈ answers, r = .ok ()) ∧ now.memory.taken = plan.total ∧ contents = []

theorem accepts_after (sized : plan.Sized) (fresh : law.Fresh m) (schedule : List (Turn Choice)) :
    let now := (crew plan c m).after (algorithm plan c) schedule
    Accepts plan (law.contents now.memory.container) (inserts plan c m schedule) now := by
  have sound := Sound.after sized fresh schedule
  have orderly := sound.orderly
  constructor
  · exact fun i r here => sound.fine here
  · have count := orderly.count
    rw [← sized.total] at count
    rw [UInt64.le_iff_toNat_le]
    omega
  · exact producerOf_inserts sized fresh schedule
  · exact fun v hv => mem_inserts_of_made sized fresh (orderly.inserted v hv)
  · exact fun i v last here => mem_inserts_of_made sized fresh (sound.fits here).2.inserted
  · exact fun i v last here => ⟨mem_inserts_of_made sized fresh (sound.fits here).2.inserted,
      (sound.fits here).2.larger⟩
  · intro answers done
    have returned := Crew.threads_of_answers done
    refine ⟨fun r hr => ?_, ?_⟩
    · obtain ⟨i, hi⟩ := List.getElem?_of_mem hr
      apply sound.fine (t := i)
      rw [returned, List.getElem?_map, hi, Option.map_some]
    · apply orderly.finish sized
      · intro s hs
        rw [returned, List.map_map, List.mem_map] at hs
        obtain ⟨r, -, rfl⟩ := hs
        exact ⟨r, rfl⟩
      · rw [List.length_map, Crew.length_after, threads_crew, List.length_append, List.length_map,
          List.length_range, List.length_replicate]

/-- Threads that are taken in turn follow one of the schedules. -/
theorem producerOrder_accepts (sized : plan.Sized) (fresh : law.Fresh m) (choose : L → Memory → Choice)
    (idle : Choice) (panic : Panic) :
    (Workload.producerOrder c choose idle plan.producers plan.perProducer m).2 ≠
      some (.error panic) := by
  simp only [Workload.producerOrder, sized.counted]
  generalize ended : Crew.inTurn (algorithm plan c) _ _ (crew plan c m) = now
  have reached : Crew.Reaches (algorithm plan c) (crew plan c m) now := by
    rw [← ended]
    exact Crew.reaches_inTurn _ _ _ _
  obtain ⟨schedule, rfl⟩ := (Crew.reaches_iff_after _).mp reached
  cases done : ((crew plan c m).after (algorithm plan c) schedule).answers? with
  | none => nofun
  | some answers =>
    obtain ⟨fine, counted, -⟩ := (accepts_after sized fresh schedule).complete answers done
    have none_fails : answers.any (fun r => !r.isOk) = false := by
      rw [List.any_eq_false]
      intro r hr
      rw [fine r hr]
      exact Bool.false_ne_true
    simp only [Option.map_some, none_fails, Bool.false_eq_true, if_false, if_pos counted]
    nofun

end Runs

def Plan.ofSizes (producers perProducer : UInt64) : Plan :=
  ⟨producers, perProducer, producers * perProducer⟩

theorem Plan.sized_ofSizes {producers perProducer : UInt64}
    (fits : producers.toNat * perProducer.toNat < 2 ^ 63) :
    (Plan.ofSizes producers perProducer).Sized := by
  refine ⟨Size.mul?_eq_some_iff.mpr ?_, fits⟩
  rw [Plan.ofSizes, UInt64.toNat_mul]
  exact Nat.mod_eq_of_lt (by omega)

/-- No consumer of a first-in first-out queue sees a producer's values out of order, whichever way the
producers and consumers take turns. The count of the values taken reaches the total and does not pass it,
and then the queue is empty; so the check accepts the queue. -/
theorem fifo_queue_accepted {c : Container Memory L Choice} {m : Memory} (law : Container.Law .fifo c)
    (fresh : law.Fresh m) (producers perProducer : UInt64)
    (fits : producers.toNat * perProducer.toNat < 2 ^ 63) :
    let plan := Plan.ofSizes producers perProducer
    (∀ schedule,
      let now := (crew plan c m).after (algorithm plan c) schedule
      Accepts plan (law.contents now.memory.container) (inserts plan c m schedule) now) ∧
    ∀ choose idle panic,
      (Workload.producerOrder c choose idle producers perProducer m).2 ≠ some (.error panic) :=
  ⟨accepts_after (Plan.sized_ofSizes fits) fresh, producerOrder_accepts (Plan.sized_ofSizes fits) fresh⟩

/-- Two producers and two consumers, of which the later to take a value is the first to count it. -/
def crossing : List (Turn Unit) :=
  ([0, 1, 0, 1, 0, 1, 2, 3, 2, 3, 3, 3, 2, 2, 2, 3].map fun i => ⟨i, ()⟩).reverse

abbrev crossed : Crew (Tally (List Value)) (Label Request) (Except Panic Unit) :=
  (crew (Plan.ofSizes 2 1) (Container.atomic .fifo) []).after
    (algorithm (Plan.ofSizes 2 1) (Container.atomic .fifo)) crossing

theorem accepted_of_two_producers :
    (2 : UInt64).toNat * (1 : UInt64).toNat < 2 ^ 63 ∧ crossed.answers?.isSome ∧
      inserts (Plan.ofSizes 2 1) (Container.atomic .fifo) [] crossing = [(1, 1), (0, 0)] ∧
      crossed.memory.taken = 2 ∧ crossed.memory.container = [] := by
  have fits : (2 : UInt64).toNat * (1 : UInt64).toNat < 2 ^ 63 := by decide
  have done : crossed.answers?.isSome := by decide +kernel
  obtain ⟨answers, given⟩ := Option.isSome_iff_exists.mp done
  have accepts := (fifo_queue_accepted (Container.atomicLaw .fifo) (Container.atomicLaw_fresh .fifo)
    2 1 fits).1 crossing
  obtain ⟨-, counted, empty⟩ := accepts.complete answers given
  have begun : inserts (Plan.ofSizes 2 1) (Container.atomic .fifo) [] crossing = [(1, 1), (0, 0)] := by
    decide +kernel
  have total : (Plan.ofSizes 2 1).total = 2 := by decide
  exact ⟨fits, done, begun, counted.trans total, empty⟩

end SharedMemory.ProducerOrder
