import SharedMemory.Proofs.TicketOrder

/-!
# Users of a ticket lock

Users take a ticket lock over and over, waiting for it or in single attempts, and give it back. While
there are fewer of them than words, and no attempt is so late that the tickets have come round to the
one it looked for, the difference of the counters is the number of outstanding tickets, and users are
served in the order in which they drew.
-/
namespace SharedMemory.TicketLock

open Lock (Scene Taken Phase Action)

theorem length_drawn_le {User : Type} (record : List (Taken User Memory Label)) :
    (drawn record).length ≤ record.length := by
  rw [drawn, List.length_reverse]
  exact List.length_filterMap_le drawn? record

section Record

variable {User : Type} [DecidableEq User]

def since (i : User) (record : List (Taken User Memory Label)) : List (Taken User Memory Label) :=
  record.takeWhile (·.user ≠ i)

/-- Between each look and the attempt that its user takes next, fewer than `bound` tickets are drawn. -/
def FewDrawn (bound : Nat) (record : List (Taken User Memory Label)) : Prop :=
  ∀ e earlier serving, e :: earlier <:+ record → e.label = .attempt serving →
    (drawn (since e.user earlier)).length < bound

variable {record later before : List (Taken User Memory Label)} {look : Taken User Memory Label}
  {i : User} {serving : UInt64} {bound : Nat}

theorem Looked.since_eq (h : Looked record i serving later look before) : since i record = later := by
  rw [since, h.record, List.takeWhile_append_of_pos (by simpa using h.others),
    List.takeWhile_cons_of_neg (by simpa using h.user), List.append_nil]

theorem FewDrawn.earlier {record' : List (Taken User Memory Label)} (h : FewDrawn bound record')
    (suffix : record <:+ record') : FewDrawn bound record :=
  fun e earlier serving here => h e earlier serving (here.trans suffix)

/-- A run with fewer steps than that has no late attempt. -/
theorem FewDrawn.of_length (short : record.length < bound) : FewDrawn bound record := by
  intro e earlier serving suffix _
  have part := (List.takeWhile_prefix (p := fun x => decide (x.user ≠ e.user)) (l := earlier)).length_le
  have whole := suffix.length_le
  have drawn := length_drawn_le (since e.user earlier)
  rw [List.length_cons] at whole
  rw [since] at drawn ⊢
  omega

end Record

/-- What an attempt tells of the moments before it: whether a ticket was outstanding right then, or at
some moment since the user looked. -/
structure Tells {User : Type} (e : Taken User Memory Label) (earlier : List (Taken User Memory Label))
    (serving : UInt64) : Prop where
  accepted : e.found.nextTicket = serving → outstanding earlier = 0 ∧ e.found.nowServing = serving
  refused : e.found.nextTicket ≠ serving → ∃ later look before,
    Looked earlier e.user serving later look before ∧
      ∃ moment, look :: before <:+ moment ∧ moment <:+ earlier ∧ 0 < outstanding moment

def after {n : Nat} (actions : List (Action (Fin n))) : Scene (Fin n) Memory Label UInt64 :=
  Scene.after lock (fun _ => [.draw, .look]) {} actions

section Few

variable {User : Type} [DecidableEq User] {entrances : User → List Label} {n : Nat}

def AtMost (n : Nat) (entrances : User → List Label) : Prop :=
  ∀ users : List User, users.Nodup → (∀ i ∈ users, entrances i ≠ []) → users.length ≤ n

omit [DecidableEq User] in
theorem user_of_drawn {record : List (Taken User Memory Label)} {p : User × UInt64}
    (h : p ∈ drawn record) : ∃ e ∈ record, e.user = p.1 := by
  obtain ⟨e, mem, draws⟩ := List.mem_filterMap.mp (List.mem_reverse.mp h)
  refine ⟨e, mem, ?_⟩
  unfold drawn? at draws
  split at draws
  · cases draws
    rfl
  · split at draws
    · cases draws
      rfl
    · cases draws
  · cases draws

/-- An attempt is not late while there are few users and few tickets are drawn meanwhile. -/
theorem soon_of_few {phases : User → Phase Label UInt64} {m : Memory} {line : List (User × UInt64)}
    {record : List (Taken User Memory Label)} {i : User} {serving : UInt64}
    (h : Kept phases m record line) (most : AtMost n entrances)
    (began : ∀ e ∈ record, entrances e.user ≠ [])
    (few : (drawn (since i record)).length < 2 ^ 64 - n) : Soon record i serving := by
  intro later look before looked
  rw [looked.since_eq] at few
  have moment : before <:+ record :=
    (List.suffix_cons look before).trans ⟨later, looked.record.symm⟩
  obtain ⟨waiting, split, distinct⟩ := h.past before moment
  have users : (waiting.map Prod.fst).length ≤ n := by
    refine most _ distinct fun j mem => ?_
    obtain ⟨p, waits, rfl⟩ := List.mem_map.mp mem
    have drew : p ∈ drawn before := by
      rw [split]
      exact List.mem_append_right _ waits
    obtain ⟨e, taken, user⟩ := user_of_drawn drew
    exact user ▸ began e (moment.mem taken)
  rw [List.length_map] at users
  have quiet : (drawn? look).toList = [] := by
    simp [drawn?, looked.label]
  rw [looked.record, drawn_append, drawn_cons, quiet, List.append_nil, split, List.length_append,
    List.length_append]
  omega

theorem Kept.length_le {free : Memory} {actions : List (Action User)} {line : List (User × UInt64)}
    (h : Kept (Scene.after lock entrances free actions).phases
      (Scene.after lock entrances free actions).memory
      (Scene.after lock entrances free actions).record line) (most : AtMost n entrances) :
    line.length ≤ n := by
  rw [← List.length_map Prod.fst]
  refine most _ h.distinct fun j mem => ?_
  obtain ⟨p, stands, rfl⟩ := List.mem_map.mp mem
  refine (Scene.began lock entrances free actions).1 p.1 fun outside => ?_
  have waits := (h.member p.1 p.2).mp stands
  rw [outside] at waits
  cases waits

theorem kept_of_timely (most : AtMost n entrances) (first : ∀ i, entrances i ⊆ [.draw, .look])
    (few : n < 2 ^ 64) (actions : List (Action User))
    (drawn : FewDrawn (2 ^ 64 - n) (Scene.after lock entrances {} actions).record) :
    (∃ line, Kept (Scene.after lock entrances {} actions).phases
        (Scene.after lock entrances {} actions).memory (Scene.after lock entrances {} actions).record
          line) ∧
      ∀ e earlier serving, e :: earlier <:+ (Scene.after lock entrances {} actions).record →
        e.label = .attempt serving → Tells e earlier serving := by
  induction actions with
  | nil =>
    refine ⟨⟨[], Kept.start⟩, fun e earlier _ suffix => ?_⟩
    exact absurd (List.suffix_nil.mp suffix) (List.cons_ne_nil e earlier)
  | cons a before ih =>
    have next : (Scene.after lock entrances {} before).Next lock entrances
        (Scene.after lock entrances {} (a :: before)) := Scene.act_next _ a
    obtain ⟨⟨line, kept⟩, told⟩ := ih (drawn.earlier (Scene.record_suffix next))
    have soon : ∀ e serving, (Scene.after lock entrances {} (a :: before)).record =
          e :: (Scene.after lock entrances {} before).record → e.label = .attempt serving →
        Soon (Scene.after lock entrances {} before).record e.user serving := by
      intro e serving taken attempt
      exact soon_of_few kept most (Scene.began lock entrances {} before).2
        (drawn e _ serving (taken ▸ List.suffix_rfl) attempt)
    have short := Nat.lt_of_le_of_lt (kept.length_le most) few
    refine ⟨kept.act short first next soon, ?_⟩
    intro e earlier serving suffix attempt
    rcases Scene.record_next next with same | ⟨e', taken⟩
    · exact told e earlier serving (same ▸ suffix) attempt
    · rw [taken] at suffix
      rcases List.suffix_cons_iff.mp suffix with same | suffix
      · obtain ⟨rfl, rfl⟩ := List.cons.inj same
        obtain ⟨found, here⟩ := Scene.taken_next next taken
        have here : (Scene.after lock entrances {} before).phases e.user =
            .entering (.attempt serving) := by
          have proper := kept.proper e.user
          rcases here with here | here
          · rw [here, attempt]
          · rw [here, attempt] at proper
            cases proper
        rw [← found] at kept
        exact ⟨kept.accepted here (soon e serving taken attempt), kept.refused here⟩
      · exact told e earlier serving suffix attempt

end Few

section Users

variable {n : Nat} {line : List (Fin n × UInt64)}

theorem atMost_fin : AtMost n (fun _ : Fin n => [Label.draw, .look]) := by
  intro users distinct _
  have h := distinct.length_le_card
  rwa [Fintype.card_fin] at h

theorem length_le_users (distinct : (line.map Prod.fst).Nodup) : line.length ≤ n := by
  rw [← List.length_map Prod.fst]
  exact atMost_fin _ distinct fun _ _ => List.cons_ne_nil _ _

theorem exists_kept (few : n < 2 ^ 64) (actions : List (Action (Fin n)))
    (drawn : FewDrawn (2 ^ 64 - n) (after actions).record) :
    (∃ line, Kept (after actions).phases (after actions).memory (after actions).record line) ∧
      ∀ e earlier serving, e :: earlier <:+ (after actions).record → e.label = .attempt serving →
        Tells e earlier serving :=
  kept_of_timely atMost_fin (fun _ => List.Subset.refl _) few actions drawn

end Users

/-- How a ticket lock treats its users. -/
structure Orderly {n : Nat} (s : Scene (Fin n) Memory Label UInt64) : Prop where
  /-- Modulo `2 ^ 64` the counters are as far apart as there are tickets outstanding. -/
  counters : (s.memory.nextTicket - s.memory.nowServing).toNat = outstanding s.record
  /-- At most one user has the lock, with the ticket that is being served. -/
  exclusive : ∀ i j t u, owned? (s.phases i) = some t → owned? (s.phases j) = some u →
    i = j ∧ t = s.memory.nowServing
  /-- Users are served, and give their tickets back, in the order in which they drew them. -/
  serve : served s.record <+: drawn s.record
  pass : passed s.record <+: served s.record
  /-- An attempt that succeeds draws the ticket being served while none is outstanding. -/
  accepted : ∀ e earlier serving ticket, e :: earlier <:+ s.record → e.label = .attempt serving →
    (step e.label e.found).2 = .returned (.acquired ticket) →
      ticket = e.found.nowServing ∧ drawn? e = some (e.user, ticket) ∧ outstanding earlier = 0
  /-- An attempt that is refused has changed no counter, and a ticket was outstanding at a moment from
  its look on. -/
  refused : ∀ e earlier serving, e :: earlier <:+ s.record → e.label = .attempt serving →
    (step e.label e.found).2 = .returned .refused →
      ∃ later look before, earlier = later ++ look :: before ∧ (∀ x ∈ later, x.user ≠ e.user) ∧
        look.user = e.user ∧ look.label = .look ∧ look.found.nowServing = serving ∧
        (step look.label look.found).1 = look.found ∧ (step e.label e.found).1 = e.found ∧
        ∃ moment, look :: before <:+ moment ∧ moment <:+ earlier ∧ 0 < outstanding moment

/-- However the steps of fewer than `2 ^ 64` users interleave, also once the counters have wrapped, the
lock serves one user at a time, in the order of their tickets, and what a single attempt answers is
right at some moment of it. -/
theorem ticket_lock_orderly (n : Nat) (few : n < 2 ^ 64) (actions : List (Action (Fin n)))
    (timely : FewDrawn (2 ^ 64 - n) (after actions).record) : Orderly (after actions) := by
  obtain ⟨⟨line, kept⟩, told⟩ := exists_kept few actions timely
  have short := Nat.lt_of_le_of_lt (length_le_users kept.distinct) few
  refine ⟨?_, ?_, ?_, ?_, ?_, ?_⟩
  · rw [kept.outstanding_eq, kept.next, kept.serving, kept.draws, List.length_append, UInt64.ofNat_add,
      UInt64.add_comm, UInt64.add_sub_cancel]
    exact UInt64.toNat_ofNat_of_lt' short
  · intro i j t u hi hj
    obtain ⟨rest, rfl⟩ := kept.front hi
    obtain ⟨_, same⟩ := kept.front hj
    exact ⟨congrArg Prod.fst (List.cons.inj same).1, kept.first_ticket⟩
  · rw [kept.serves, kept.draws, List.prefix_append_right_inj]
    exact inside_heads_line _ line
  · rw [kept.serves]
    exact List.prefix_append _ _
  · intro e earlier serving ticket suffix attempt answer
    have tells := told e earlier serving suffix attempt
    by_cases same : e.found.nextTicket = serving
    · obtain ⟨none, now⟩ := tells.accepted same
      simp only [step, attempt, same, if_true, Status.returned.injEq, LockAnswer.acquired.injEq] at answer
      simp [drawn?, attempt, same, ← answer, now, none]
    · simp [step, attempt, same] at answer
  · intro e earlier serving suffix attempt answer
    have tells := told e earlier serving suffix attempt
    by_cases same : e.found.nextTicket = serving
    · simp [step, attempt, same] at answer
    · obtain ⟨later, look, before, looked, outstanding⟩ := tells.refused same
      refine ⟨later, look, before, looked.record, looked.others, looked.user, looked.label,
        looked.found, ?_, ?_, outstanding⟩
      · rw [looked.label]
        rfl
      · simp [step, attempt, same]

/-- User 1 is refused while user 0 has the lock and user 2 waits, and is accepted once both are gone. -/
def contested : List (Action (Fin 3)) :=
  [⟨0, .enter 0⟩, ⟨0, .turn⟩, ⟨0, .turn⟩, ⟨1, .enter 1⟩, ⟨1, .turn⟩, ⟨2, .enter 0⟩, ⟨2, .turn⟩,
    ⟨1, .turn⟩, ⟨0, .giveUp⟩, ⟨0, .turn⟩, ⟨2, .turn⟩, ⟨2, .giveUp⟩, ⟨2, .turn⟩, ⟨1, .enter 1⟩,
    ⟨1, .turn⟩, ⟨1, .turn⟩].reverse

theorem orderly_while_contested :
    3 < 2 ^ 64 ∧ FewDrawn (2 ^ 64 - 3) (after contested).record ∧
      served (after contested).record = [(0, 0), (2, 1), (1, 2)] ∧ Orderly (after contested) := by
  have timely : FewDrawn (2 ^ 64 - 3) (after contested).record := .of_length (by decide)
  exact ⟨by decide, timely, by decide, ticket_lock_orderly 3 (by decide) contested timely⟩

end SharedMemory.TicketLock
