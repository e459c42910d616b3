import Mathlib.Data.List.Perm.Subperm
import SharedMemory.Proofs.Schedule

/-!
# Linear orders of the operations of a run

An operation is one call of a program. A linear order lists operations with the answers a sequential
object gives when it serves them one after another; it keeps to real time if no operation stands
after one that had not begun when the first was already answered. `Linearization.grow` is the one way
in which such orders follow a run: a turn puts new entries at a place of the order that no later
entry forbids.
-/
namespace SharedMemory

variable {Memory Call Label Choice Answer State : Type}

/-- Call number `index` of a thread, counted from zero. -/
structure Operation where
  thread : Nat
  index : Nat
  deriving DecidableEq

def Operation.call? (programs : List (List Call)) (o : Operation) : Option Call :=
  (callsOf programs o.thread)[o.index]?

section Numbered

variable {programs : List (List Call)} {o : Operation}

def numbered (programs : List (List Call)) : List (Operation × Call) :=
  programs.zipIdx.flatMap fun p => p.1.zipIdx.map fun c => (⟨p.2, c.2⟩, c.1)

theorem map_snd_numbered (programs : List (List Call)) :
    (numbered programs).map Prod.snd = programs.flatten := by
  have inner : ∀ p : List Call × Nat, (p.1.zipIdx.map fun c => ((⟨p.2, c.2⟩ : Operation), c.1)).map
      Prod.snd = p.1 := by
    intro p
    rw [List.map_map]
    exact List.zipIdx_map_fst 0 p.1
  simp only [numbered, List.map_flatMap, inner]
  rw [List.flatMap_def]
  exact congrArg List.flatten (List.zipIdx_map_fst 0 programs)

theorem mem_numbered {c : Call} (h : o.call? programs = some c) : (o, c) ∈ numbered programs := by
  rw [Operation.call?, callsOf, List.getD_eq_getElem?_getD] at h
  cases hp : programs[o.thread]? with
  | none => simp [hp] at h
  | some p =>
    rw [hp, Option.getD_some] at h
    refine List.mem_flatMap.mpr ⟨(p, o.thread), List.mem_zipIdx_iff_getElem?.mpr hp, ?_⟩
    exact List.mem_map.mpr ⟨(c, o.index), List.mem_zipIdx_iff_getElem?.mpr h, rfl⟩

/-- There are no more operations of a kind than calls of that kind in the programs. -/
theorem length_le_countP {os : List Operation} (distinct : os.Nodup) (kind : Call → Bool)
    (h : ∀ o ∈ os, ∃ c, o.call? programs = some c ∧ kind c) :
    os.length ≤ programs.flatten.countP kind := by
  have sub : os ⊆ ((numbered programs).filter fun p => kind p.2).map Prod.fst := by
    intro o ho
    obtain ⟨c, called, hc⟩ := h o ho
    exact List.mem_map.mpr ⟨(o, c), List.mem_filter.mpr ⟨mem_numbered called, hc⟩, rfl⟩
  calc os.length ≤ (((numbered programs).filter fun p => kind p.2).map Prod.fst).length :=
        (distinct.subperm sub).length_le
    _ = ((numbered programs).map Prod.snd).countP kind := by
        rw [List.length_map, List.countP_map, List.countP_eq_length_filter]
        rfl
    _ = programs.flatten.countP kind := by rw [map_snd_numbered]

end Numbered

namespace View

variable (v : View Memory Label Answer)

def answer? (o : Operation) : Option Answer := (v.answers o.thread)[o.index]?

def Answered (o : Operation) : Prop := o.index < (v.answers o.thread).length

def StandsAt (o : Operation) (l : Label) : Prop :=
  o.index = (v.answers o.thread).length ∧ v.label o.thread = some l

def Begun (o : Operation) : Prop := v.Answered o ∨ ∃ l, v.StandsAt o l

/-- The operation that thread `i` is in, or the one it begins next. -/
def current (i : Nat) : Operation := ⟨i, (v.answers i).length⟩

/-- The operation is answered, or has taken effect already. -/
def Covers (effective : Memory → Label → Prop) (o : Operation) : Prop :=
  v.Answered o ∨ ∃ l, v.StandsAt o l ∧ effective v.memory l

variable {v} {alg : Algorithm Memory Call Label Choice Answer} {programs : List (List Call)}
  {i : Nat} {choice : Choice} {v' : View Memory Label Answer} {o : Operation}

theorem current_thread (h : o.index = (v.answers o.thread).length) : o = v.current o.thread := by
  cases o
  simp_all [current]

@[simp] theorem answer?_current : v.answer? (v.current i) = none := by simp [answer?, current]

theorem unanswered_of_answers (h : v'.answers = v.answers) (a : Answer) (ho : o = v.current i) :
    v'.answer? o ≠ some a := by
  subst ho
  rw [answer?, h]
  exact fun ha => by simpa using (answer?_current (v := v)).symm.trans ha

theorem answer?_mapAnswers {Answer' : Type} (reply : Answer → Answer') (v : View Memory Label Answer)
    (o : Operation) : (v.mapAnswers reply).answer? o = (v.answer? o).map reply :=
  List.getElem?_map ..

theorem Covers.begun {effective : Memory → Label → Prop} (h : v.Covers effective o) : v.Begun o :=
  h.imp_right fun ⟨l, at_l, _⟩ => ⟨l, at_l⟩

@[simp] theorem answer?_answer (v : View Memory Label Answer) (i : Nat) (m : Memory) (a : Answer)
    (events : List Event) : (v.answer i m a events).answer? (v.current i) = some a := by
  simp [answer?, current]

theorem Step.answered (h : v.Step alg programs i choice v') (ho : v.Answered o) : v'.Answered o := by
  cases h with
  | rest => exact ho
  | enter => exact ho
  | move => exact ho
  | answer l a here gives =>
    simp only [Answered, answers_answer] at ho ⊢
    by_cases hi : o.thread = i
    · subst hi
      simp
      omega
    · simpa [hi] using ho

theorem Step.begun (h : v.Step alg programs i choice v') (ho : v.Begun o) : v'.Begun o := by
  rcases ho with ho | ⟨l, index, here⟩
  · exact .inl (h.answered ho)
  cases h with
  | rest => exact .inr ⟨l, index, here⟩
  | enter c outside next =>
    have hi : o.thread ≠ i := by
      rintro rfl
      simp [outside] at here
    exact .inr ⟨l, index, by simpa [hi] using here⟩
  | move k k' at_k goes =>
    by_cases hi : o.thread = i
    · exact .inr ⟨k', index, by simp [hi]⟩
    · exact .inr ⟨l, index, by simpa [hi] using here⟩
  | answer k a at_k gives =>
    by_cases hi : o.thread = i
    · refine .inl ?_
      subst hi
      simp [Answered, index]
    · exact .inr ⟨l, by simpa [hi] using index, by simpa [hi] using here⟩

/-- A turn shows at the thread that takes it only. -/
theorem Step.others (h : v.Step alg programs i choice v') {j : Nat} (hj : j ≠ i) :
    v'.label j = v.label j ∧ v'.current j = v.current j := by
  cases h <;> simp [current, hj]

theorem Step.answer?_kept (h : v.Step alg programs i choice v') {a : Answer}
    (ho : v.answer? o = some a) : v'.answer? o = some a := by
  cases h with
  | rest => exact ho
  | enter => exact ho
  | move => exact ho
  | answer l b here gives =>
    by_cases hi : o.thread = i
    · subst hi
      have hlt := (List.getElem?_eq_some_iff.mp ho).1
      simpa [View.answer?, List.getElem?_append_left hlt] using ho
    · simpa [View.answer?, hi] using ho

theorem Step.answer? (h : v.Step alg programs i choice v') {a : Answer} (ho : v'.answer? o = some a) :
    v.answer? o = some a ∨
      o = v.current i ∧ ∃ l, v.label i = some l ∧ (alg.step choice l v.memory).status = .returned a := by
  cases h with
  | rest => exact .inl ho
  | enter => exact .inl ho
  | move => exact .inl ho
  | answer l b here gives =>
    by_cases hi : o.thread = i
    · subst hi
      simp only [View.answer?, answers_answer, Function.update_self] at ho
      rcases lt_or_ge o.index (v.answers o.thread).length with hlt | hge
      · exact .inl (by rwa [List.getElem?_append_left hlt] at ho)
      · rw [List.getElem?_append_right hge, List.getElem?_singleton] at ho
        split at ho
        · next hk =>
          cases ho
          exact .inr ⟨current_thread (by omega), l, here, gives⟩
        · cases ho
    · exact .inl (by simpa [View.answer?, hi] using ho)

theorem Step.answer?_other (h : v.Step alg programs i choice v') (ho : o ≠ v.current i) :
    v'.answer? o = v.answer? o := by
  cases gives : v.answer? o with
  | some a => exact h.answer?_kept gives
  | none =>
    rw [Option.eq_none_iff_forall_ne_some]
    intro a ha
    rcases h.answer? ha with old | ⟨same, _⟩
    · rw [gives] at old
      cases old
    · exact ho same

/-- Any other operation stands where it stood. -/
theorem Step.standsAt_other (h : v.Step alg programs i choice v') (ho : o ≠ v.current i) (l : Label) :
    v'.StandsAt o l ↔ v.StandsAt o l := by
  by_cases hi : o.thread = i
  · subst hi
    have index : o.index ≠ (v.answers o.thread).length := fun index => ho (current_thread index)
    refine iff_of_false ?_ fun stands => index stands.1
    intro ⟨index', here⟩
    cases h with
    | rest => exact index index'
    | enter => exact index index'
    | move => exact index index'
    | answer => simp at here
  · obtain ⟨label, current⟩ := h.others hi
    have answers : (v'.answers o.thread).length = (v.answers o.thread).length :=
      congrArg Operation.index current
    rw [StandsAt, StandsAt, label, answers]

/-- What has taken effect stays so, if it does for every thread at its label. -/
theorem Step.covers {effective : Memory → Label → Prop} (h : v.Step alg programs i choice v')
    (others : ∀ j k, j ≠ i → v.label j = some k → effective v.memory k → effective v'.memory k)
    (own : ∀ l l', v.label i = some l → (alg.step choice l v.memory).status = .running l' →
      effective v.memory l → effective v'.memory l')
    (ho : v.Covers effective o) : v'.Covers effective o := by
  rcases ho with answered | ⟨l, ⟨index, here⟩, eff⟩
  · exact .inl (h.answered answered)
  by_cases hi : o.thread = i
  · subst hi
    cases h with
    | rest => exact .inr ⟨l, ⟨index, here⟩, eff⟩
    | enter c outside next => simp [outside] at here
    | move k k' at_k goes =>
      obtain rfl : k = l := Option.some.inj (at_k.symm.trans here)
      exact .inr ⟨k', ⟨index, by simp⟩, own k k' here goes eff⟩
    | answer k a at_k gives => exact .inl (by simp [Answered, index])
  · obtain ⟨label, current⟩ := h.others hi
    refine .inr ⟨l, ⟨?_, by rw [label, here]⟩, others _ l hi here eff⟩
    exact index.trans (congrArg Operation.index current).symm

section Covers

variable {effective : Memory → Label → Prop} {l l' : Label} {m : Memory} {a : Answer}
  {events : List Event}

def Effective (v : View Memory Label Answer) (effective : Memory → Label → Prop) (j : Nat) : Prop :=
  ∃ l, v.label j = some l ∧ effective v.memory l

theorem covers_iff :
    v.Covers effective o ↔ v.Answered o ∨ o = v.current o.thread ∧ v.Effective effective o.thread := by
  refine or_congr_right ⟨?_, ?_⟩
  · rintro ⟨l, ⟨index, here⟩, eff⟩
    exact ⟨current_thread index, l, here, eff⟩
  · rintro ⟨index, l, here, eff⟩
    exact ⟨l, ⟨congrArg Operation.index index, here⟩, eff⟩

theorem not_covers_current (here : v.label i = some l) (h : ¬ effective v.memory l) :
    ¬ v.Covers effective (v.current i) := by
  rintro (ho | ⟨k, ⟨_, hk⟩, eff⟩)
  · simp [Answered, current] at ho
  · exact h (Option.some.inj (here.symm.trans hk) ▸ eff)

theorem covers_current : v.Covers effective (v.current i) ↔ v.Effective effective i := by
  rw [covers_iff]
  simp [Answered, current]

/-- While no answer is given, an operation is newly covered if it is the present one of a thread for
which that is new. -/
theorem covers_congr (answers : v'.answers = v.answers) (fresh : Nat → Prop)
    (h : ∀ j, v'.Effective effective j ↔ v.Effective effective j ∨ fresh j) :
    v'.Covers effective o ↔ v.Covers effective o ∨ o = v.current o.thread ∧ fresh o.thread := by
  simp only [covers_iff, Answered, current, answers, h]
  tauto

theorem effective_update (v' : View Memory Label Answer) (others : ∀ j k, j ≠ i → v.label j = some k →
      (effective v'.memory k ↔ effective v.memory k))
    (label : ∀ j, j ≠ i → v'.label j = v.label j) {j : Nat} (hj : j ≠ i) :
    v'.Effective effective j ↔ v.Effective effective j := by
  simp only [Effective, label j hj]
  exact exists_congr fun k => and_congr_right fun hk => others j k hj hk

theorem covers_enter (outside : v.label i = none) (ineffective : ¬ effective v.memory l) :
    (v.enter i l).Covers effective o ↔ v.Covers effective o := by
  rw [covers_congr (answers_enter v i l) fun _ => False]
  · simp
  · intro j
    by_cases hj : j = i
    · subst hj
      simp [Effective, outside, ineffective]
    · simp [Effective, hj]

theorem covers_move (here : v.label i = some l)
    (others : ∀ j k, j ≠ i → v.label j = some k → (effective m k ↔ effective v.memory k))
    (same : effective m l' ↔ effective v.memory l) :
    (v.move i m l' events).Covers effective o ↔ v.Covers effective o := by
  rw [covers_congr (answers_move v i m l' events) fun _ => False]
  · simp
  · intro j
    by_cases hj : j = i
    · subst hj
      simp [Effective, here, same]
    · rw [effective_update (v.move i m l' events) others (fun k hk => by simp [hk]) hj]
      simp

theorem covers_commit (here : v.label i = some l)
    (others : ∀ j k, j ≠ i → v.label j = some k → (effective m k ↔ effective v.memory k))
    (now : effective m l') :
    (v.move i m l' events).Covers effective o ↔ v.Covers effective o ∨ o = v.current i := by
  rw [covers_congr (answers_move v i m l' events) (· = i)]
  · refine or_congr_right ⟨?_, ?_⟩
    · rintro ⟨h, rfl⟩
      exact h
    · intro h
      have thread : o.thread = i := congrArg Operation.thread h
      exact ⟨thread ▸ h, thread⟩
  · intro j
    by_cases hj : j = i
    · subst hj
      simp [Effective, now]
    · rw [effective_update (v.move i m l' events) others (fun k hk => by simp [hk]) hj]
      simp [hj]

theorem covers_answer_self (hi : o.thread = i) :
    (v.answer i m a events).Covers effective o ↔ v.Covers effective o ∨ o = v.current i := by
  subst hi
  have current : o = v.current o.thread ↔ o.index = (v.answers o.thread).length := by
    refine ⟨fun h => congrArg Operation.index h, current_thread⟩
  simp only [covers_iff, Answered, answers_answer, Function.update_self, List.length_append,
    List.length_singleton, Effective, label_answer, reduceCtorEq, false_and, exists_false, and_false,
    or_false, current]
  constructor
  · omega
  · rintro ((h | h) | h) <;> omega

theorem covers_answer_other (hi : o.thread ≠ i)
    (same : (v.answer i m a events).Effective effective o.thread ↔ v.Effective effective o.thread) :
    (v.answer i m a events).Covers effective o ↔ v.Covers effective o := by
  rw [covers_iff, covers_iff, same]
  simp [Answered, current, hi]

theorem covers_answer
    (others : ∀ j k, j ≠ i → v.label j = some k → (effective m k ↔ effective v.memory k)) :
    (v.answer i m a events).Covers effective o ↔ v.Covers effective o ∨ o = v.current i := by
  by_cases hi : o.thread = i
  · exact covers_answer_self hi
  · have ne : o ≠ v.current i := fun h => hi (congrArg Operation.thread h)
    rw [or_iff_left ne]
    apply covers_answer_other hi
    exact effective_update (v.answer i m a events) others (fun k hk => by simp [hk]) hi

/-- The answer covers the present operation of thread `i`, and by it that of thread `j` takes effect. -/
theorem covers_exchange {j : Nat} {k : Label} (hj : j ≠ i) (there : v.label j = some k)
    (now : effective m k)
    (others : ∀ j' k', j' ≠ j → v.label j' = some k' → (effective m k' ↔ effective v.memory k')) :
    (v.answer i m a events).Covers effective o ↔
      v.Covers effective o ∨ o = v.current j ∨ o = v.current i := by
  by_cases hi : o.thread = i
  · have ne : o ≠ v.current j := fun h => hj ((congrArg Operation.thread h).symm.trans hi)
    rw [covers_answer_self hi]
    simp [ne]
  have ne : o ≠ v.current i := fun h => hi (congrArg Operation.thread h)
  by_cases ho : o = v.current j
  · refine iff_of_true ?_ (.inr (.inl ho))
    rw [ho, covers_iff]
    refine .inr ⟨?_, k, ?_, now⟩
    · simp [current, hj]
    · simpa [current, hj] using there
  · simp only [ho, ne, or_false]
    rw [covers_iff, covers_iff]
    by_cases hj' : o.thread = j
    · have other : o ≠ v.current o.thread := hj' ▸ ho
      simp [Answered, current, hi] at other ⊢
      simp [other]
    · have same : (v.answer i m a events).Effective effective o.thread ↔
          v.Effective effective o.thread := by
        simp only [Effective, label_answer, Function.update_of_ne hi]
        exact exists_congr fun k' => and_congr_right fun hk => others o.thread k' hj' hk
      rw [same]
      simp [Answered, current, hi]

end Covers

end View

/-- What holds where a call begins, and is kept by its steps, holds of it at every label. -/
theorem Algorithm.call_after (alg : Algorithm Memory Call Label Choice Answer) (m : Memory)
    (programs : List (List Call)) {P : Call → Label → Prop} (enter : ∀ c, P c (alg.enter c))
    (step : ∀ choice c l m l', P c l → (alg.step choice l m).status = .running l' → P c l')
    {schedule : List (Turn Choice)} {i : Nat} {l : Label}
    (here : (alg.viewAfter m programs schedule).label i = some l) :
    ∃ c, ((alg.viewAfter m programs schedule).current i).call? programs = some c ∧ P c l := by
  induction schedule generalizing i l with
  | nil => simp [View.start] at here
  | cons t earlier ih =>
    have turn := alg.viewAfter_cons m programs t earlier
    by_cases same : i = t.thread
    swap
    · obtain ⟨label, current⟩ := turn.others same
      rw [current]
      exact ih (label ▸ here)
    · subst same
      generalize alg.viewAfter m programs (t :: earlier) = v' at turn here
      cases turn with
      | rest => exact ih here
      | enter c outside next =>
        rw [View.label_enter, Function.update_self] at here
        cases here
        exact ⟨c, next, enter c⟩
      | move k k' at_k goes =>
        rw [View.label_move, Function.update_self] at here
        cases here
        obtain ⟨c, call, holds⟩ := ih at_k
        exact ⟨c, call, step _ c k _ _ holds goes⟩
      | answer k a at_k gives => simp at here

/-- What holds where every call begins, and is kept by steps, holds of every label that is reached. -/
theorem Algorithm.label_after (alg : Algorithm Memory Call Label Choice Answer) (m : Memory)
    (programs : List (List Call)) {P : Label → Prop} (enter : ∀ c, P (alg.enter c))
    (step : ∀ choice l m l', P l → (alg.step choice l m).status = .running l' → P l')
    {schedule : List (Turn Choice)} {i : Nat} {l : Label}
    (here : (alg.viewAfter m programs schedule).label i = some l) : P l := by
  obtain ⟨_, _, holds⟩ := alg.call_after m programs (P := fun _ => P) enter
    (fun choice _ l m l' before goes => step choice l m l' before goes) here
  exact holds

section Run

variable (alg : Algorithm Memory Call Label Choice Answer) (m : Memory) (programs : List (List Call))

/-- At some moment of the run `o` was answered and `o'` had not begun. -/
def Precedes (schedule : List (Turn Choice)) (o o' : Operation) : Prop :=
  ∃ moment, moment <:+ schedule ∧
    (alg.viewAfter m programs moment).Answered o ∧ ¬ (alg.viewAfter m programs moment).Begun o'

variable {alg m programs} {t : Turn Choice} {earlier schedule : List (Turn Choice)} {o o' : Operation}

theorem answered_of_suffix {moment : List (Turn Choice)} (h : moment <:+ schedule)
    (ho : (alg.viewAfter m programs moment).Answered o) :
    (alg.viewAfter m programs schedule).Answered o :=
  Turn.later (fun t earlier => (alg.viewAfter_cons m programs t earlier).answered) h ho

theorem begun_of_suffix {moment : List (Turn Choice)} (h : moment <:+ schedule)
    (ho : (alg.viewAfter m programs moment).Begun o) : (alg.viewAfter m programs schedule).Begun o :=
  Turn.later (fun t earlier => (alg.viewAfter_cons m programs t earlier).begun) h ho

theorem answer?_of_suffix {moment : List (Turn Choice)} {a : Answer} (h : moment <:+ schedule)
    (ho : (alg.viewAfter m programs moment).answer? o = some a) :
    (alg.viewAfter m programs schedule).answer? o = some a :=
  Turn.later (fun t earlier => (alg.viewAfter_cons m programs t earlier).answer?_kept) h ho

theorem Precedes.answered (h : Precedes alg m programs schedule o o') :
    (alg.viewAfter m programs schedule).Answered o := by
  obtain ⟨moment, suffix, ho, _⟩ := h
  exact answered_of_suffix suffix ho

theorem precedes_cons :
    Precedes alg m programs (t :: earlier) o o' ↔
      Precedes alg m programs earlier o o' ∨
        (alg.viewAfter m programs (t :: earlier)).Answered o ∧
          ¬ (alg.viewAfter m programs (t :: earlier)).Begun o' := by
  simp only [Precedes, List.suffix_cons_iff]
  constructor
  · rintro ⟨moment, rfl | suffix, ho, ho'⟩
    · exact .inr ⟨ho, ho'⟩
    · exact .inl ⟨moment, suffix, ho, ho'⟩
  · rintro (⟨moment, suffix, ho, ho'⟩ | ⟨ho, ho'⟩)
    · exact ⟨moment, .inr suffix, ho, ho'⟩
    · exact ⟨t :: earlier, .inl rfl, ho, ho'⟩

theorem not_precedes_cons (begun : (alg.viewAfter m programs (t :: earlier)).Begun o')
    (h : ¬ Precedes alg m programs earlier o o') : ¬ Precedes alg m programs (t :: earlier) o o' := by
  rw [precedes_cons]
  rintro (h' | ⟨_, h'⟩)
  · exact h h'
  · exact h' begun

end Run

/-- One place of a linear order. -/
structure Entry (Call Answer : Type) where
  operation : Operation
  call : Call
  answer : Answer

/-- Served in this order from `s` on, the calls are given these answers and lead to `final`. -/
def Legal (serve : Call → State → Answer × State) : State → List (Entry Call Answer) → State → Prop
  | s, [], final => s = final
  | s, e :: rest, final => (serve e.call s).1 = e.answer ∧ Legal serve (serve e.call s).2 rest final

theorem legal_append {serve : Call → State → Answer × State} {s final : State}
    {before rest : List (Entry Call Answer)} :
    Legal serve s (before ++ rest) final ↔
      ∃ between, Legal serve s before between ∧ Legal serve between rest final := by
  induction before generalizing s with
  | nil => simp [Legal]
  | cons e before ih => simp [Legal, ih, and_assoc]

theorem Legal.unique {serve : Call → State → Answer × State} {s final final' : State}
    {order : List (Entry Call Answer)} (h : Legal serve s order final)
    (h' : Legal serve s order final') : final = final' := by
  induction order generalizing s with
  | nil => exact h.symm.trans h'
  | cons e order ih => exact ih h.2 h'.2

theorem Legal.answer_of_mem {serve : Call → State → Answer × State} {s final : State}
    {order : List (Entry Call Answer)} (h : Legal serve s order final) {e : Entry Call Answer}
    (he : e ∈ order) : ∃ between, (serve e.call between).1 = e.answer := by
  induction order generalizing s with
  | nil => simp at he
  | cons f order ih =>
    rcases List.mem_cons.mp he with rfl | he
    · exact ⟨s, h.1⟩
    · exact ih h.2 he

/-- An operation that leaves the state alone may stand wherever its answer is right. -/
theorem Legal.insert {serve : Call → State → Answer × State} {s between final : State}
    {before rest : List (Entry Call Answer)} {e : Entry Call Answer}
    (hb : Legal serve s before between) (hr : Legal serve between rest final)
    (he : serve e.call between = (e.answer, between)) :
    Legal serve s (before ++ [e] ++ rest) final := by
  refine legal_append.mpr ⟨between, legal_append.mpr ⟨between, hb, ?_⟩, hr⟩
  simp [Legal, he]

/-- `order` holds the operations that are answered or have taken effect. It respects real time, every
answer given is the one in the order, and a sequential object gives the same answers. -/
structure Linearization (serve : Call → State → Answer × State) (initial : State)
    (alg : Algorithm Memory Call Label Choice Answer) (m : Memory) (programs : List (List Call))
    (effective : Memory → Label → Prop) (schedule : List (Turn Choice))
    (order : List (Entry Call Answer)) (final : State) : Prop where
  distinct : (order.map Entry.operation).Nodup
  covers : ∀ o, o ∈ order.map Entry.operation ↔
    (alg.viewAfter m programs schedule).Covers effective o
  called : ∀ e ∈ order, e.operation.call? programs = some e.call
  answered : ∀ e ∈ order, ∀ a,
    (alg.viewAfter m programs schedule).answer? e.operation = some a → a = e.answer
  inTime : order.Pairwise fun e f => ¬ Precedes alg m programs schedule f.operation e.operation
  legal : Legal serve initial order final

namespace Linearization

variable {serve : Call → State → Answer × State} {initial : State}
  {alg : Algorithm Memory Call Label Choice Answer} {m : Memory} {programs : List (List Call)}
  {effective : Memory → Label → Prop} {t : Turn Choice} {earlier : List (Turn Choice)}
  {before new rest : List (Entry Call Answer)} {final final' : State}

theorem nil : Linearization serve initial alg m programs effective [] [] initial where
  distinct := by simp
  covers o := by simp [View.Covers, View.Answered, View.StandsAt, View.start]
  called := by simp
  answered := by simp
  inTime := by simp
  legal := rfl

/-- A turn puts `new` between `before` and `rest`. No entry of `rest` may precede a new one. -/
theorem grow
    (h : Linearization serve initial alg m programs effective earlier (before ++ rest) final)
    (fresh : ∀ e ∈ new, ¬ (alg.viewAfter m programs earlier).Covers effective e.operation)
    (distinct : (new.map Entry.operation).Nodup)
    (late : ∀ e ∈ new, ∀ f ∈ rest, ¬ Precedes alg m programs earlier f.operation e.operation)
    (covers : ∀ o, (alg.viewAfter m programs (t :: earlier)).Covers effective o ↔
      (alg.viewAfter m programs earlier).Covers effective o ∨ o ∈ new.map Entry.operation)
    (called : ∀ e ∈ new, e.operation.call? programs = some e.call)
    (gives : ∀ e ∈ before ++ new ++ rest, ∀ a,
      e.operation = (alg.viewAfter m programs earlier).current t.thread →
      (alg.viewAfter m programs (t :: earlier)).answer? e.operation = some a → a = e.answer)
    (legal : Legal serve initial (before ++ new ++ rest) final') :
    Linearization serve initial alg m programs effective (t :: earlier) (before ++ new ++ rest)
      final' := by
  have step := alg.viewAfter_cons m programs t earlier
  have unanswered : ∀ e ∈ new, ∀ o', ¬ Precedes alg m programs earlier e.operation o' :=
    fun e he o' hp => fresh e he (.inl hp.answered)
  have mem : ∀ o, o ∈ (before ++ new ++ rest).map Entry.operation ↔
      o ∈ (before ++ rest).map Entry.operation ∨ o ∈ new.map Entry.operation := by
    intro o
    simp only [List.map_append, List.mem_append]
    tauto
  have covers' : ∀ o, o ∈ (before ++ new ++ rest).map Entry.operation ↔
      (alg.viewAfter m programs (t :: earlier)).Covers effective o := by
    intro o
    rw [mem, h.covers, covers]
  have begun : ∀ e ∈ before ++ new ++ rest,
      (alg.viewAfter m programs (t :: earlier)).Begun e.operation :=
    fun e he => ((covers' _).mp (List.mem_map_of_mem he)).begun
  have perm : (before ++ new ++ rest).Perm (before ++ rest ++ new) := by
    rw [List.append_assoc, List.append_assoc]
    exact List.Perm.append_left before List.perm_append_comm
  refine ⟨?_, covers', ?_, ?_, ?_, legal⟩
  · rw [(perm.map Entry.operation).nodup_iff, List.map_append]
    refine List.nodup_append.mpr ⟨h.distinct, distinct, ?_⟩
    rintro _ ho _ hn rfl
    obtain ⟨e, he, rfl⟩ := List.mem_map.mp hn
    exact fresh e he ((h.covers _).mp ho)
  · intro e he
    rcases List.mem_append.mp (perm.mem_iff.mp he) with he | he
    · exact h.called e he
    · exact called e he
  · intro e he a ha
    rcases step.answer? ha with old | ⟨now, _⟩
    · rcases List.mem_append.mp (perm.mem_iff.mp he) with he | he
      · exact h.answered e he a old
      · exact absurd (.inl (List.getElem?_eq_some_iff.mp old).1) (fresh e he)
    · exact gives e he a now ha
  · have pairs := h.inTime
    rw [List.pairwise_append] at pairs
    obtain ⟨hb, hr, hbr⟩ := pairs
    have all : (before ++ new ++ rest).Pairwise fun e f =>
        ¬ Precedes alg m programs earlier f.operation e.operation := by
      rw [List.pairwise_append, List.pairwise_append]
      refine ⟨⟨hb, ?_, ?_⟩, hr, ?_⟩
      · exact List.pairwise_of_forall_mem_list fun _ _ f hf => unanswered f hf _
      · exact fun _ _ f hf => unanswered f hf _
      · intro e he f hf
        rcases List.mem_append.mp he with he | he
        · exact hbr e he f hf
        · exact late e he f hf
    exact all.imp_of_mem fun he _ hp => not_precedes_cons (begun _ he) hp

theorem append (h : Linearization serve initial alg m programs effective earlier before final)
    (present : ¬ (alg.viewAfter m programs earlier).Covers effective
      ((alg.viewAfter m programs earlier).current t.thread))
    (fresh : ∀ e ∈ new, ¬ (alg.viewAfter m programs earlier).Covers effective e.operation)
    (distinct : (new.map Entry.operation).Nodup)
    (covers : ∀ o, (alg.viewAfter m programs (t :: earlier)).Covers effective o ↔
      (alg.viewAfter m programs earlier).Covers effective o ∨ o ∈ new.map Entry.operation)
    (called : ∀ e ∈ new, e.operation.call? programs = some e.call)
    (gives : ∀ e ∈ new, ∀ a, e.operation = (alg.viewAfter m programs earlier).current t.thread →
      (alg.viewAfter m programs (t :: earlier)).answer? e.operation = some a → a = e.answer)
    (legal : Legal serve final new final') :
    Linearization serve initial alg m programs effective (t :: earlier) (before ++ new) final' := by
  suffices grown : Linearization serve initial alg m programs effective (t :: earlier)
      (before ++ new ++ []) final' by simpa using grown
  refine grow (by simpa using h) fresh distinct (by simp) covers called ?_ ?_
  · intro e he a ho ha
    rw [List.append_nil] at he
    rcases List.mem_append.mp he with he | he
    · exact absurd (ho ▸ (h.covers _).mp (List.mem_map_of_mem he)) present
    · exact gives e he a ho ha
  · rw [List.append_nil]
    exact legal_append.mpr ⟨final, h.legal, legal⟩

theorem keep (h : Linearization serve initial alg m programs effective earlier before final)
    (covers : ∀ o, (alg.viewAfter m programs (t :: earlier)).Covers effective o ↔
      (alg.viewAfter m programs earlier).Covers effective o)
    (gives : ∀ e ∈ before, ∀ a,
      e.operation = (alg.viewAfter m programs earlier).current t.thread →
      (alg.viewAfter m programs (t :: earlier)).answer? e.operation = some a → a = e.answer) :
    Linearization serve initial alg m programs effective (t :: earlier) before final := by
  suffices grown : Linearization serve initial alg m programs effective (t :: earlier)
      (before ++ [] ++ []) final by simpa using grown
  exact grow (by simpa using h) (by simp) (by simp) (by simp) (by simpa using covers) (by simp)
    (by simpa using gives) (by simpa using h.legal)

section Turns

variable {order : List (Entry Call Answer)} {l l' : Label} {m' : Memory} {a : Answer} {c : Call}
  {events : List Event}

theorem unmoved (h : Linearization serve initial alg m programs effective earlier order final)
    (hv : alg.viewAfter m programs (t :: earlier) = alg.viewAfter m programs earlier) :
    Linearization serve initial alg m programs effective (t :: earlier) order final := by
  apply h.keep
  · intro o
    rw [hv]
  · intro e _ a ho ha
    rw [hv] at ha
    exact absurd ha (View.unanswered_of_answers rfl a ho)

theorem enter (h : Linearization serve initial alg m programs effective earlier order final)
    (outside : (alg.viewAfter m programs earlier).label t.thread = none)
    (ineffective : ¬ effective (alg.viewAfter m programs earlier).memory l)
    (hv : alg.viewAfter m programs (t :: earlier) =
      (alg.viewAfter m programs earlier).enter t.thread l) :
    Linearization serve initial alg m programs effective (t :: earlier) order final := by
  apply h.keep
  · intro o
    rw [hv]
    exact View.covers_enter outside ineffective
  · intro e _ a ho ha
    rw [hv] at ha
    exact absurd ha (View.unanswered_of_answers (View.answers_enter _ _ _) a ho)

theorem move (h : Linearization serve initial alg m programs effective earlier order final)
    (here : (alg.viewAfter m programs earlier).label t.thread = some l)
    (others : ∀ j k, j ≠ t.thread → (alg.viewAfter m programs earlier).label j = some k →
      (effective m' k ↔ effective (alg.viewAfter m programs earlier).memory k))
    (same : effective m' l' ↔ effective (alg.viewAfter m programs earlier).memory l)
    (hv : alg.viewAfter m programs (t :: earlier) =
      (alg.viewAfter m programs earlier).move t.thread m' l' events) :
    Linearization serve initial alg m programs effective (t :: earlier) order final := by
  apply h.keep
  · intro o
    rw [hv]
    exact View.covers_move here others same
  · intro e _ a ho ha
    rw [hv] at ha
    exact absurd ha (View.unanswered_of_answers (View.answers_move _ _ _ _ _) a ho)

/-- The present operation is put at the end. -/
theorem put (h : Linearization serve initial alg m programs effective earlier order final)
    (called : ((alg.viewAfter m programs earlier).current t.thread).call? programs = some c)
    (present : ¬ (alg.viewAfter m programs earlier).Covers effective
      ((alg.viewAfter m programs earlier).current t.thread))
    (covers : ∀ o, (alg.viewAfter m programs (t :: earlier)).Covers effective o ↔
      (alg.viewAfter m programs earlier).Covers effective o ∨
        o = (alg.viewAfter m programs earlier).current t.thread)
    (gives : ∀ a, (alg.viewAfter m programs (t :: earlier)).answer?
      ((alg.viewAfter m programs earlier).current t.thread) = some a → a = (serve c final).1) :
    Linearization serve initial alg m programs effective (t :: earlier)
      (order ++ [⟨(alg.viewAfter m programs earlier).current t.thread, c, (serve c final).1⟩])
      (serve c final).2 := by
  apply h.append present
  · simpa using present
  · simp
  · simpa using covers
  · simpa using called
  · simpa using gives
  · simp [Legal]

/-- A step inside a call, by which the call takes effect. -/
theorem commit (h : Linearization serve initial alg m programs effective earlier order final)
    (here : (alg.viewAfter m programs earlier).label t.thread = some l)
    (others : ∀ j k, j ≠ t.thread → (alg.viewAfter m programs earlier).label j = some k →
      (effective m' k ↔ effective (alg.viewAfter m programs earlier).memory k))
    (before : ¬ effective (alg.viewAfter m programs earlier).memory l) (now : effective m' l')
    (called : ((alg.viewAfter m programs earlier).current t.thread).call? programs = some c)
    (hv : alg.viewAfter m programs (t :: earlier) =
      (alg.viewAfter m programs earlier).move t.thread m' l' events) :
    Linearization serve initial alg m programs effective (t :: earlier)
      (order ++ [⟨(alg.viewAfter m programs earlier).current t.thread, c, (serve c final).1⟩])
      (serve c final).2 := by
  refine h.put called (View.not_covers_current here before) (fun o => ?_) fun a ha => ?_
  · rw [hv]
    exact View.covers_commit here others now
  · rw [hv] at ha
    exact absurd ha (View.unanswered_of_answers (View.answers_move _ _ _ _ _) a rfl)

/-- The answer of a call that takes effect only now. -/
theorem answerNow (h : Linearization serve initial alg m programs effective earlier order final)
    (here : (alg.viewAfter m programs earlier).label t.thread = some l)
    (others : ∀ j k, j ≠ t.thread → (alg.viewAfter m programs earlier).label j = some k →
      (effective m' k ↔ effective (alg.viewAfter m programs earlier).memory k))
    (before : ¬ effective (alg.viewAfter m programs earlier).memory l)
    (called : ((alg.viewAfter m programs earlier).current t.thread).call? programs = some c)
    (hv : alg.viewAfter m programs (t :: earlier) =
      (alg.viewAfter m programs earlier).answer t.thread m' (serve c final).1 events) :
    Linearization serve initial alg m programs effective (t :: earlier)
      (order ++ [⟨(alg.viewAfter m programs earlier).current t.thread, c, (serve c final).1⟩])
      (serve c final).2 := by
  refine h.put called (View.not_covers_current here before) (fun o => ?_) fun a ha => ?_
  · rw [hv]
    exact View.covers_answer others
  · rw [hv, View.answer?_answer] at ha
    exact (Option.some.inj ha).symm

/-- The answer of a call that took effect before. -/
theorem report (h : Linearization serve initial alg m programs effective earlier order final)
    (here : (alg.viewAfter m programs earlier).label t.thread = some l)
    (others : ∀ j k, j ≠ t.thread → (alg.viewAfter m programs earlier).label j = some k →
      (effective m' k ↔ effective (alg.viewAfter m programs earlier).memory k))
    (before : effective (alg.viewAfter m programs earlier).memory l)
    (gives : ∀ e ∈ order, e.operation = (alg.viewAfter m programs earlier).current t.thread →
      a = e.answer)
    (hv : alg.viewAfter m programs (t :: earlier) =
      (alg.viewAfter m programs earlier).answer t.thread m' a events) :
    Linearization serve initial alg m programs effective (t :: earlier) order final := by
  have covered : (alg.viewAfter m programs earlier).Covers effective
      ((alg.viewAfter m programs earlier).current t.thread) :=
    View.covers_current.mpr ⟨l, here, before⟩
  apply h.keep
  · intro o
    rw [hv, View.covers_answer others, or_iff_left_of_imp]
    intro same
    rw [same]
    exact covered
  · intro e he a' ho ha
    rw [hv, ho, View.answer?_answer] at ha
    rw [← Option.some.inj ha]
    exact gives e he ho

/-- The answer of thread `t.thread` by which the call of thread `j` takes effect as well, just before. -/
theorem exchange (h : Linearization serve initial alg m programs effective earlier order final)
    {j : Nat} {k : Label} {c' : Call} (hj : j ≠ t.thread)
    (here : (alg.viewAfter m programs earlier).label t.thread = some l)
    (there : (alg.viewAfter m programs earlier).label j = some k)
    (others : ∀ j' k', j' ≠ j → (alg.viewAfter m programs earlier).label j' = some k' →
      (effective m' k' ↔ effective (alg.viewAfter m programs earlier).memory k'))
    (before : ¬ effective (alg.viewAfter m programs earlier).memory l)
    (before' : ¬ effective (alg.viewAfter m programs earlier).memory k) (now : effective m' k)
    (called : ((alg.viewAfter m programs earlier).current t.thread).call? programs = some c)
    (called' : ((alg.viewAfter m programs earlier).current j).call? programs = some c')
    (hv : alg.viewAfter m programs (t :: earlier) = (alg.viewAfter m programs earlier).answer t.thread
      m' (serve c (serve c' final).2).1 events) :
    Linearization serve initial alg m programs effective (t :: earlier)
      (order ++ [⟨(alg.viewAfter m programs earlier).current j, c', (serve c' final).1⟩,
        ⟨(alg.viewAfter m programs earlier).current t.thread, c, (serve c (serve c' final).2).1⟩])
      (serve c (serve c' final).2).2 := by
  have present := View.not_covers_current here before
  have present' := View.not_covers_current there before'
  have apart : (alg.viewAfter m programs earlier).current j ≠
      (alg.viewAfter m programs earlier).current t.thread :=
    fun same => hj (congrArg Operation.thread same)
  apply h.append present
  · simpa using ⟨present', present⟩
  · simpa using apart
  · intro o
    rw [hv]
    simpa using View.covers_exchange hj there now others
  · simpa using ⟨called', called⟩
  · intro e he a ho ha
    rw [hv, ho, View.answer?_answer] at ha
    rw [List.mem_pair] at he
    rcases he with same | same
    · rw [same] at ho
      exact absurd ho apart
    · rw [same, ← Option.some.inj ha]
  · simp [Legal]

end Turns

end Linearization

/-- While `o` was in progress, the sequential object was at a state with `P`: no entry after that
place of the order was answered before `o` began. An operation that only looks may be put there
later. -/
def Saw (serve : Call → State → Answer × State) (initial : State)
    (alg : Algorithm Memory Call Label Choice Answer) (m : Memory) (programs : List (List Call))
    (schedule : List (Turn Choice)) (order : List (Entry Call Answer)) (o : Operation)
    (P : State → Prop) : Prop :=
  ∃ before rest between, order = before ++ rest ∧ Legal serve initial before between ∧ P between ∧
    ∀ f ∈ rest, ¬ Precedes alg m programs schedule f.operation o

namespace Saw

variable {serve : Call → State → Answer × State} {initial : State}
  {alg : Algorithm Memory Call Label Choice Answer} {m : Memory} {programs : List (List Call)}
  {t : Turn Choice} {earlier : List (Turn Choice)} {order before rest : List (Entry Call Answer)}
  {final between : State} {o : Operation} {e : Entry Call Answer} {P : State → Prop}

theorem now (legal : Legal serve initial order final) (h : P final) (schedule : List (Turn Choice)) :
    Saw serve initial alg m programs schedule order o P :=
  ⟨order, [], final, by simp, legal, h, by simp⟩

theorem later (h : Saw serve initial alg m programs earlier order o P)
    (begun : (alg.viewAfter m programs (t :: earlier)).Begun o) :
    Saw serve initial alg m programs (t :: earlier) order o P := by
  obtain ⟨before, rest, between, split, legal, hP, late⟩ := h
  exact ⟨before, rest, between, split, legal, hP, fun f hf => not_precedes_cons begun (late f hf)⟩

theorem append (h : Saw serve initial alg m programs earlier order o P)
    {new : List (Entry Call Answer)}
    (fresh : ∀ f ∈ new, ¬ (alg.viewAfter m programs earlier).Answered f.operation) :
    Saw serve initial alg m programs earlier (order ++ new) o P := by
  obtain ⟨before, rest, between, rfl, legal, hP, late⟩ := h
  refine ⟨before, rest ++ new, between, by simp, legal, hP, fun f hf => ?_⟩
  rcases List.mem_append.mp hf with hf | hf
  · exact late f hf
  · exact fun hp => fresh f hf hp.answered

/-- Another operation that only looks may be put at its own place meanwhile. -/
theorem insert (h : Saw serve initial alg m programs earlier (before ++ rest) o P)
    (legal : Legal serve initial before between) (looks : serve e.call between = (e.answer, between))
    (fresh : ¬ (alg.viewAfter m programs earlier).Answered e.operation) :
    Saw serve initial alg m programs earlier (before ++ [e] ++ rest) o P := by
  obtain ⟨before', rest', between', split, legal', hP, late⟩ := h
  have late' : ¬ Precedes alg m programs earlier e.operation o := fun hp => fresh hp.answered
  rcases List.append_eq_append_iff.mp split with ⟨c, rfl, rfl⟩ | ⟨c, rfl, rfl⟩
  · obtain ⟨between'', hb, hc⟩ := legal_append.mp legal'
    have same : between'' = between := hb.unique legal
    subst same
    exact ⟨before ++ [e] ++ c, rest', between', by simp, hb.insert hc looks, hP, late⟩
  · refine ⟨before', c ++ [e] ++ rest, between', by simp, legal', hP, fun f hf => ?_⟩
    simp only [List.mem_append, List.mem_singleton] at hf
    rcases hf with (hf | rfl) | hf
    · exact late f (List.mem_append_left _ hf)
    · exact late'
    · exact late f (List.mem_append_right _ hf)

/-- The answer to an operation that only looks puts it at the place where it saw what it answers. -/
theorem place {effective : Memory → Label → Prop} {c : Call} {a : Answer}
    (saw : Saw serve initial alg m programs earlier order
      ((alg.viewAfter m programs earlier).current t.thread) P)
    (h : Linearization serve initial alg m programs effective earlier order final)
    (looks : ∀ s, P s → serve c s = (a, s))
    (present : ¬ (alg.viewAfter m programs earlier).Covers effective
      ((alg.viewAfter m programs earlier).current t.thread))
    (covers : ∀ o, (alg.viewAfter m programs (t :: earlier)).Covers effective o ↔
      (alg.viewAfter m programs earlier).Covers effective o ∨
        o = (alg.viewAfter m programs earlier).current t.thread)
    (called : ((alg.viewAfter m programs earlier).current t.thread).call? programs = some c)
    (gives : (alg.viewAfter m programs (t :: earlier)).answer?
      ((alg.viewAfter m programs earlier).current t.thread) = some a) :
    ∃ before rest between, order = before ++ rest ∧ Legal serve initial before between ∧
      serve c between = (a, between) ∧
      Linearization serve initial alg m programs effective (t :: earlier)
        (before ++ [⟨(alg.viewAfter m programs earlier).current t.thread, c, a⟩] ++ rest) final := by
  obtain ⟨before, rest, between, rfl, legal, hP, late⟩ := saw
  obtain ⟨between', hb, hr⟩ := legal_append.mp h.legal
  obtain rfl : between' = between := hb.unique legal
  refine ⟨before, rest, between', rfl, legal, looks _ hP, ?_⟩
  refine h.grow ?_ (by simp) ?_ ?_ ?_ ?_ (legal.insert hr (looks _ hP))
  · simpa using present
  · simpa using late
  · simpa using covers
  · simpa using called
  · intro e he a' ho ha
    rw [ho, gives] at ha
    cases ha
    have old : e ∈ before ++ rest → a = e.answer := fun he =>
      absurd (ho ▸ (h.covers _).mp (List.mem_map_of_mem he)) present
    simp only [List.mem_append, List.mem_singleton] at he
    rcases he with (he | rfl) | he
    · exact old (List.mem_append_left _ he)
    · rfl
    · exact old (List.mem_append_right _ he)

end Saw

end SharedMemory
