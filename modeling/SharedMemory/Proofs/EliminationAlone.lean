import SharedMemory.Proofs.EliminationDelivery
import SharedMemory.Proofs.TreiberClients

/-!
# Elimination alone serves everybody

What attempts leave of the inner stack when none takes effect is said once for every inner stack and
carried through the runs of the elimination stack over it. A stack is shut when attempts at it only try
in vain: a lock that somebody holds shuts the store under it, and endless interference shuts any stack.
-/
namespace SharedMemory

namespace AttemptStack

variable {Memory Item Label : Type} {stack : AttemptStack Memory Item Label}
  {fixed : Label → Option AttemptAnswer} {Good : (Nat → Phase Item Label) → Memory → Prop}

/-- `Good` holds on as long as no attempt takes effect. -/
structure Kept (stack : AttemptStack Memory Item Label) (fixed : Label → Option AttemptAnswer)
    (Good : (Nat → Phase Item Label) → Memory → Prop) : Prop where
  prepare : ∀ {phases m i} (v : Value), Good phases m → phases i = .idle →
    Good (Function.update phases i (.holding (stack.prepare v m).2)) (stack.prepare v m).1
  discard : ∀ {phases m i item}, Good phases m → phases i = .holding item →
    Good (Function.update phases i .idle) (stack.discard item m)
  push : ∀ {phases m i item}, Good phases m → phases i = .holding item →
    fixed (stack.push item) = none ∧
      Good (Function.update phases i (.pushing item (stack.push item))) m
  pop : ∀ {phases m i}, Good phases m → phases i = .idle →
    fixed stack.pop = none ∧ Good (Function.update phases i (.popping stack.pop)) m
  pushing : ∀ {phases m i item l}, Good phases m → phases i = .pushing item l → fixed l = none →
    Futile fixed (stack.step l m).2 →
      Good (Function.update phases i (.afterPush item (stack.step l m).2)) (stack.step l m).1
  popping : ∀ {phases m i l}, Good phases m → phases i = .popping l → fixed l = none →
    Futile fixed (stack.step l m).2 →
      Good (Function.update phases i (.afterPop (stack.step l m).2)) (stack.step l m).1

theorem futile_running {l : Label} : Futile fixed (.running l) ↔ fixed l = none := by
  simp [Futile]

theorem futile_returned {a : AttemptAnswer} : Futile fixed (.returned a) ↔ a = .contended := by
  simp [Futile]

theorem respond_ne_contended (r : Request) (values : List Value) :
    (respond r values).1 ≠ .contended := by
  cases r <;> nofun

theorem Outcome.eq_of_futile {r : Request} {l : Label} {values values' : List Value}
    {s : Status Label AttemptAnswer} (h : Outcome fixed r l values s values')
    (futile : Futile fixed s) : values' = values := by
  cases h with
  | goes | refused | done => rfl
  | fixes l' pending settled => cases settled.symm.trans (futile_running.mp futile)
  | serves pending => exact absurd (futile_returned.mp futile) (respond_ne_contended _ _)

/-- While nothing takes effect a sequential stack would hold the same values. -/
theorem Law.kept (law : Law stack) (values : List Value) :
    Kept stack law.fixed fun phases m => law.Good phases m values where
  prepare v h here := (law.prepare v h here).2
  discard h here := law.discard h here
  push h here := law.push h here
  pop h here := law.pop h here
  pushing h here _ futile := by
    obtain ⟨values', outcome, good⟩ := law.pushing h here
    rwa [outcome.eq_of_futile futile] at good
  popping h here _ futile := by
    obtain ⟨values', outcome, good⟩ := law.popping h here
    rwa [outcome.eq_of_futile futile] at good

end AttemptStack

section Disturbed

open AttemptStack

variable {Memory Item Label : Type} {stack : AttemptStack Memory Item Label}
  {settled : Label → Option AttemptAnswer} {Good : (Nat → Phase Item Label) → Memory → Prop}

def DisturbedLabel.fixed (settled : Label → Option AttemptAnswer) :
    DisturbedLabel Label → Option AttemptAnswer
  | .arriving _ => none
  | .through l => settled l

def AttemptStack.Phase.behind : Phase Item (DisturbedLabel Label) → Phase Item Label
  | .idle | .popping (.arriving _) => .idle
  | .holding item | .pushing item (.arriving _) => .holding item
  | .pushing item (.through l) => .pushing item l
  | .popping (.through l) => .popping l

namespace AttemptStack

/-- A thread that arrives has its attempt still before it. -/
def Arrives (stack : AttemptStack Memory Item Label) : Phase Item (DisturbedLabel Label) → Prop
  | .pushing item (.arriving l) => l = stack.push item
  | .popping (.arriving l) => l = stack.pop
  | _ => True

structure Behind (stack : AttemptStack Memory Item Label)
    (Good : (Nat → Phase Item Label) → Memory → Prop)
    (phases : Nat → Phase Item (DisturbedLabel Label)) (m : Disturbed Memory) : Prop where
  good : Good (Phase.behind ∘ phases) m.memory
  arrives : ∀ i, Arrives stack (phases i)

variable {phases : Nat → Phase Item (DisturbedLabel Label)} {m m' : Disturbed Memory} {i : Nat}
  {p : Phase Item (DisturbedLabel Label)}

theorem Behind.advance (h : Behind stack Good phases m)
    (good : Good (Function.update (Phase.behind ∘ phases) i p.behind) m'.memory)
    (arrives : Arrives stack p) : Behind stack Good (Function.update phases i p) m' where
  good := by
    rw [Function.comp_update]
    exact good
  arrives := (Function.forall_update_iff phases fun _ q => Arrives stack q).mpr
    ⟨arrives, fun j _ => h.arrives j⟩

theorem Behind.stay (h : Behind stack Good phases m) (same : p.behind = (phases i).behind)
    (memory : m'.memory = m.memory) (arrives : Arrives stack p) :
    Behind stack Good (Function.update phases i p) m' := by
  refine h.advance ?_ arrives
  have back : Function.update (Phase.behind ∘ phases) i p.behind = Phase.behind ∘ phases := by
    rw [same]
    exact Function.update_eq_self i _
  rw [back, memory]
  exact h.good

theorem behind_of (here : phases i = p) : (Phase.behind ∘ phases) i = p.behind :=
  congrArg Phase.behind here

theorem disturbedStep_arriving (stack : AttemptStack Memory Item Label) (l : Label)
    (m : Disturbed Memory) :
    (stack.disturbedStep (.arriving l) m).1.memory = m.memory ∧
      ((stack.disturbedStep (.arriving l) m).2 = .running (.through l) ∨
        (stack.disturbedStep (.arriving l) m).2 = .returned .contended) := by
  obtain ⟨m, refusals⟩ := m
  rw [disturbedStep]
  split
  · exact ⟨rfl, .inl rfl⟩
  · exact ⟨rfl, .inr rfl⟩

def passed : Status Label AttemptAnswer → Status (DisturbedLabel Label) AttemptAnswer
  | .running l => .running (.through l)
  | .returned a => .returned a

theorem disturbedStep_through (stack : AttemptStack Memory Item Label) (l : Label)
    (m : Disturbed Memory) :
    stack.disturbedStep (.through l) m =
      (⟨(stack.step l m.memory).1, m.refusals⟩, passed (stack.step l m.memory).2) := by
  obtain ⟨m, refusals⟩ := m
  cases hs : (stack.step l m).2 <;> simp [disturbedStep, passed, hs]

theorem futile_passed {s : Status Label AttemptAnswer} :
    Futile (DisturbedLabel.fixed settled) (passed s) ↔ Futile settled s := by
  cases s <;> simp [Futile, passed, DisturbedLabel.fixed]

theorem behind_afterPush (stack : AttemptStack Memory Item Label) (item : Item)
    (s : Status Label AttemptAnswer) :
    (Phase.afterPush item (passed s)).behind = .afterPush item s ∧
      Arrives stack (.afterPush item (passed s)) := by
  cases s with
  | running => exact ⟨rfl, trivial⟩
  | returned a => cases a <;> exact ⟨rfl, trivial⟩

theorem behind_afterPop (stack : AttemptStack Memory Item Label) (s : Status Label AttemptAnswer) :
    (Phase.afterPop (passed s) : Phase Item _).behind = .afterPop s ∧
      Arrives stack (.afterPop (passed s)) := by
  cases s <;> exact ⟨rfl, trivial⟩

/-- An attempt that arrives gets through, or is refused and has done nothing. -/
theorem Behind.arrive (h : Behind stack Good phases m) (l : Label)
    (after : Status (DisturbedLabel Label) AttemptAnswer → Phase Item (DisturbedLabel Label))
    (passes : Good
      (Function.update (Phase.behind ∘ phases) i (after (.running (.through l))).behind) m.memory)
    (waits : (after (.returned .contended)).behind = (phases i).behind)
    (arrives : Arrives stack (after (.running (.through l))) ∧
      Arrives stack (after (.returned .contended))) :
    Behind stack Good (Function.update phases i (after (stack.disturbedStep (.arriving l) m).2))
      (stack.disturbedStep (.arriving l) m).1 := by
  obtain ⟨memory, goes | refused⟩ := disturbedStep_arriving stack l m
  · rw [goes]
    refine h.advance ?_ arrives.1
    rw [memory]
    exact passes
  · rw [refused]
    exact h.stay waits memory arrives.2

/-- A disturbed stack is left as the stack itself is. -/
theorem Kept.disturbed (kept : Kept stack settled Good) :
    Kept stack.disturbed (DisturbedLabel.fixed settled) (Behind stack Good) where
  prepare v h here := h.advance (kept.prepare v h.good (behind_of here)) trivial
  discard h here := h.advance (kept.discard h.good (behind_of here)) trivial
  push h here := by
    refine ⟨rfl, h.stay ?_ rfl rfl⟩
    rw [here]
    rfl
  pop h here := by
    refine ⟨rfl, h.stay ?_ rfl rfl⟩
    rw [here]
    rfl
  pushing {phases m i item l} h here pending futile := by
    change Futile _ (stack.disturbedStep l m).2 at futile
    change Behind stack Good (Function.update phases i (.afterPush item (stack.disturbedStep l m).2))
      (stack.disturbedStep l m).1
    cases l with
    | arriving l =>
      obtain rfl : l = stack.push item := by
        have arrives := h.arrives i
        rwa [here] at arrives
      refine h.arrive _ _ (kept.push h.good (behind_of here)).2 ?_ ⟨trivial, trivial⟩
      rw [here]
      rfl
    | through l =>
      rw [disturbedStep_through] at futile ⊢
      obtain ⟨behind, arrives⟩ := behind_afterPush stack item (stack.step l m.memory).2
      refine h.advance ?_ arrives
      rw [behind]
      exact kept.pushing h.good (behind_of here) pending (futile_passed.mp futile)
  popping {phases m i l} h here pending futile := by
    change Futile _ (stack.disturbedStep l m).2 at futile
    change Behind stack Good (Function.update phases i (.afterPop (stack.disturbedStep l m).2))
      (stack.disturbedStep l m).1
    cases l with
    | arriving l =>
      obtain rfl : l = stack.pop := by
        have arrives := h.arrives i
        rwa [here] at arrives
      refine h.arrive _ _ (kept.pop h.good (behind_of here)).2 ?_ ⟨trivial, trivial⟩
      rw [here]
      rfl
    | through l =>
      rw [disturbedStep_through] at futile ⊢
      obtain ⟨behind, arrives⟩ := behind_afterPop stack (stack.step l m.memory).2
      refine h.advance ?_ arrives
      rw [behind]
      exact kept.popping h.good (behind_of here) pending (futile_passed.mp futile)

end AttemptStack

end Disturbed

namespace LockedStore

open AttemptStack

variable {LockMemory L Token : Type} {lock : Lock LockMemory L Token} {acquire entry : L}
  {data : Store} {phases : Nat → Phase Value (SectionLabel L Token Store AttemptAnswer)}
  {m m' : Guarded LockMemory Store} {i : Nat} {r : Request}
  {l : SectionLabel L Token Store AttemptAnswer}
  {p : Phase Value (SectionLabel L Token Store AttemptAnswer)}

/-- The store is as it was, and attempts stand where they must. Nothing is known of the lock. -/
structure Untouched (data : Store) (phases : Nat → Phase Value (SectionLabel L Token Store AttemptAnswer))
    (m : Guarded LockMemory Store) : Prop where
  same : m.data = data
  works : ∀ i r l, attempt? (phases i) = some (r, l) → Works r data l

theorem Untouched.advance (h : Untouched data phases m) (same : m'.data = m.data)
    (own : ∀ r l, attempt? p = some (r, l) → Works r data l) :
    Untouched data (Function.update phases i p) m' where
  same := same.trans h.same
  works := (Function.forall_update_iff phases fun _ q =>
    ∀ r l, attempt? q = some (r, l) → Works r data l).mpr ⟨own, fun j _ => h.works j⟩

/-- An attempt that has not written has still to enter, or stands before its write. -/
theorem Untouched.attempt (h : Untouched data phases m) (here : attempt? (phases i) = some (r, l))
    (pending : fixed l = none) (futile : Futile fixed (attemptStep lock l m).2)
    (after : Status (SectionLabel L Token Store AttemptAnswer) AttemptAnswer →
      Phase Value (SectionLabel L Token Store AttemptAnswer))
    (goes : ∀ l', attempt? (after (.running l')) = some (r, l'))
    (returns : ∀ a, attempt? (after (.returned a)) = none) :
    Untouched data (Function.update phases i (after (attemptStep lock l m).2))
      (attemptStep lock l m).1 := by
  have moved : ∀ l', Works r data l' → ∀ r' l'', attempt? (after (.running l')) = some (r', l'') →
      Works r' data l'' := by
    intro l' works' r' l'' hp
    rw [goes] at hp
    cases hp
    exact works'
  have left : ∀ a r' l'', attempt? (after (.returned a)) = some (r', l'') → Works r' data l'' := by
    intro a r' l'' hp
    rw [returns] at hp
    cases hp
  have works := h.works i r l here
  cases works with
  | enters l =>
    rw [attemptStep_entering]
    generalize lock.step l m.lock = stepped
    obtain ⟨lockMemory, s⟩ := stepped
    cases s with
    | running l' => exact h.advance rfl (moved _ (.enters l'))
    | returned a =>
      cases a with
      | acquired token => exact h.advance rfl (moved _ (.reads token))
      | refused | released => exact h.advance rfl (left _)
  | reads token =>
    rw [attemptStep_update, h.same]
    exact h.advance rfl (moved _ (.writes token))
  | writes token =>
    -- whoever writes has taken effect
    rw [attemptStep_write] at futile
    cases futile_running.mp futile
  | leaves token past => cases pending
  | returns l past => cases pending

theorem Untouched.rest (h : Untouched data phases m) (outside : attempt? p = none) :
    Untouched data (Function.update phases i p) m := by
  refine h.advance rfl fun r l hp => ?_
  rw [outside] at hp
  cases hp

theorem Untouched.begin (h : Untouched data phases m)
    (at_entry : attempt? p = some (r, .entering entry (.update (served r)))) :
    Untouched data (Function.update phases i p) m := by
  refine h.advance rfl fun r' l' hp => ?_
  rw [at_entry] at hp
  cases hp
  exact .enters entry

/-- Under any lock, the store is left as it is. -/
theorem kept (lock : Lock LockMemory L Token) (acquire entry : L) (data : Store) :
    Kept (attemptsUnder lock acquire entry) fixed (Untouched data) where
  prepare _ h _ := h.rest rfl
  discard h _ := h.rest rfl
  push {phases m i item} h _ := ⟨rfl, h.begin (r := .insert item) rfl⟩
  pop h _ := ⟨rfl, h.begin (r := .remove) rfl⟩
  pushing {phases m i item l} h here pending futile := by
    refine h.attempt ?_ pending futile (.afterPush item) (fun _ => rfl) ?_
    · rw [here]
      rfl
    · intro a
      cases a <;> rfl
  popping h here pending futile := by
    refine h.attempt ?_ pending futile .afterPop (fun _ => rfl) fun _ => rfl
    rw [here]
    rfl

end LockedStore

namespace EliminationStack

open AttemptStack (Kept Futile)
open EliminationArray (FewClaims Taken Wins)

section Run

variable {Inner Item L : Type} {stack : AttemptStack Inner Item L} {fixed : L → Option AttemptAnswer}
  {Good : (Nat → AttemptStack.Phase Item L) → Inner → Prop} {inner : Inner} {config : EliminationConfig}
  {programs : List (List Request)} {t : Turn EliminationArray.Choice}
  {earlier schedule : List (Turn EliminationArray.Choice)}
  {v : View (Memory Inner) (Label Item L) Answer} {i : Nat}

def AtAttempt (stack : AttemptStack Inner Item L) (P : L → Prop) (l : Option (Label Item L)) : Prop :=
  ∀ l', l = some l' → ∀ r k, attempt? stack l' = some (r, k) → P k

theorem atAttempt_outside (stack : AttemptStack Inner Item L) (P : L → Prop) : AtAttempt stack P none := by
  intro l' same
  cases same

theorem atAttempt_of_none {P : L → Prop} {l : Label Item L} (h : attempt? stack l = none) :
    AtAttempt stack P (some l) := by
  rintro l' same r k at_k
  cases same
  cases h.symm.trans at_k

theorem atAttempt_of_some {P : L → Prop} {l : Label Item L} {r : Request} {k : L}
    (h : attempt? stack l = some (r, k)) (has : P k) : AtAttempt stack P (some l) := by
  rintro l' same r' k' at_k
  cases same
  cases h.symm.trans at_k
  exact has

theorem atAttempt_take {P : L → Prop} (h : ∀ j, AtAttempt stack P (v.label j))
    {e : Effect (Memory Inner) (Label Item L) Answer} (own : AtAttempt stack P e.status.label?) (j : Nat) :
    AtAttempt stack P ((v.take i e).label j) := by
  rw [View.label_take]
  exact (Function.forall_update_iff v.label fun _ l => AtAttempt stack P l).mpr ⟨own, fun j _ => h j⟩ j

/-- The inner stack has its invariant, and no attempt that is under way has taken effect. -/
structure Still (stack : AttemptStack Inner Item L) (fixed : L → Option AttemptAnswer)
    (Good : (Nat → AttemptStack.Phase Item L) → Inner → Prop)
    (v : View (Memory Inner) (Label Item L) Answer) : Prop where
  good : Good (phase ∘ v.label) v.memory.inner
  pending : ∀ i, AtAttempt stack (fixed · = none) (v.label i)

theorem Still.take (h : Still stack fixed Good v) {e : Effect (Memory Inner) (Label Item L) Answer}
    (good : Good (Function.update (phase ∘ v.label) i (phase e.status.label?)) e.memory.inner)
    (pending : AtAttempt stack (fixed · = none) e.status.label?) :
    Still stack fixed Good (v.take i e) where
  good := by
    rw [View.label_take, View.memory_take, Function.comp_update]
    exact good
  pending := atAttempt_take h.pending pending

theorem Still.stay (h : Still stack fixed Good v) {e : Effect (Memory Inner) (Label Item L) Answer}
    (same : phase e.status.label? = phase (v.label i)) (inner : e.memory.inner = v.memory.inner)
    (pending : AtAttempt stack (fixed · = none) e.status.label?) :
    Still stack fixed Good (v.take i e) := by
  refine h.take ?_ pending
  have back : Function.update (phase ∘ v.label) i (phase e.status.label?) = phase ∘ v.label := by
    rw [same]
    exact Function.update_eq_self i _
  rw [back, inner]
  exact h.good

theorem kept_attempt (kept : Kept stack fixed Good) {phases : Nat → AttemptStack.Phase Item L}
    {m : Inner} {l : Label Item L} {r : Request} {k : L} (good : Good phases m)
    (here : phases i = phase (some l)) (at_k : attempt? stack l = some (r, k))
    (pending : fixed k = none) (futile : Futile fixed (stack.step k m).2) :
    Good (Function.update phases i (phase (resumed stack l (stack.step k m).2))) (stack.step k m).1 := by
  cases l with
  | pushing item l =>
    cases at_k
    rw [phase_resumed_pushing]
    exact kept.pushing good here pending futile
  | popping l =>
    cases at_k
    rw [phase_resumed_popping]
    exact kept.popping good here pending futile
  | _ => cases at_k

theorem Still.attempt (kept : Kept stack fixed Good)
    (h : Still stack fixed Good (after stack inner config programs earlier))
    (refused : Refused stack fixed inner config programs (t :: earlier)) {l : Label Item L}
    {r : Request} {k : L}
    (here : (after stack inner config programs earlier).label t.thread = some l)
    (at_k : attempt? stack l = some (r, k)) :
    Still stack fixed Good (after stack inner config programs (t :: earlier)) := by
  have futile := refused t earlier List.suffix_rfl l r k here at_k
  have good := kept_attempt kept h.good (congrArg phase here) at_k (h.pending _ l here r k at_k) futile
  rw [(turn stack inner config programs t earlier).take here]
  rcases futile with gives | ⟨k', goes, unsettled⟩
  · obtain ⟨l', resumes, -, -, outside, -, effect⟩ :=
      @step_refused _ _ _ _ fixed _ _ _ _ t.choice at_k gives
    rw [gives, resumes] at good
    rw [effect]
    exact h.take good (atAttempt_of_none outside)
  · obtain ⟨l', resumes, at_k', effect⟩ := step_running at_k goes
    rw [goes, resumes] at good
    rw [effect]
    exact h.take good (atAttempt_of_some at_k' unsettled)

theorem Still.offer (kept : Kept stack fixed Good)
    (h : Still stack fixed Good (after stack inner config programs earlier)) (slots : config.slots ≠ 0)
    {item : Item} {k : EliminationArray.Label} (suits : Suits stack (.offering item k : Label Item L))
    (here : (after stack inner config programs earlier).label t.thread = some (.offering item k)) :
    Still stack fixed Good (after stack inner config programs (t :: earlier)) := by
  have at_k : (sceneOf (after stack inner config programs earlier)).label t.thread = some k :=
    scene_label here
  have stands : (phase ∘ (after stack inner config programs earlier).label) t.thread = .holding item :=
    congrArg phase here
  rw [(turn stack inner config programs t earlier).take here]
  change Still stack fixed Good (View.take _ _ (EliminationStack.offer stack t.choice item k _))
  rcases ((sound stack inner programs slots earlier).outcome at_k t.choice).of_push suits with
    ⟨k', goes, _⟩ | ⟨gives, _⟩ | ⟨gives, _⟩
  · rw [offer_running goes]
    exact h.stay (congrArg phase here).symm rfl (atAttempt_of_none rfl)
  · rw [offer_eliminated gives]
    exact h.take (kept.discard h.good stands) (atAttempt_outside stack _)
  · rw [offer_withdrawn gives]
    obtain ⟨pending, good⟩ := kept.push h.good stands
    exact h.take good (atAttempt_of_some rfl pending)

theorem Still.seek (kept : Kept stack fixed Good)
    (h : Still stack fixed Good (after stack inner config programs earlier)) (slots : config.slots ≠ 0)
    {k : EliminationArray.Label} (suits : Suits stack (.seeking k : Label Item L))
    (here : (after stack inner config programs earlier).label t.thread = some (.seeking k)) :
    Still stack fixed Good (after stack inner config programs (t :: earlier)) := by
  have at_k : (sceneOf (after stack inner config programs earlier)).label t.thread = some k :=
    scene_label here
  have idle : phase ((after stack inner config programs earlier).label t.thread) = .idle :=
    congrArg phase here
  rw [(turn stack inner config programs t earlier).take here]
  change Still stack fixed Good (View.take _ _ (EliminationStack.seek stack t.choice k _))
  by_cases wins : Wins (after stack inner config programs earlier).memory.array k
  · obtain ⟨s, seen, x, rfl, met⟩ := wins
    rw [seek_met met]
    exact h.stay idle.symm rfl (atAttempt_outside stack _)
  · rcases ((sound stack inner programs slots earlier).outcome at_k t.choice).of_pop suits wins with
      ⟨k', goes, _⟩ | gives
    · rw [seek_running goes]
      exact h.stay idle.symm rfl (atAttempt_of_none rfl)
    · rw [seek_missed gives]
      obtain ⟨pending, good⟩ := kept.pop h.good idle
      exact h.take good (atAttempt_of_some rfl pending)

theorem Still.enter (kept : Kept stack fixed Good) (h : Still stack fixed Good v)
    (outside : v.label i = none) (c : Request) :
    Still stack fixed Good (v.enter i ((algorithm stack).enter c)) := by
  have idle : phase (v.label i) = .idle := congrArg phase outside
  change Still stack fixed Good (v.take i ⟨v.memory, .running ((algorithm stack).enter c), []⟩)
  cases c with
  | insert x => exact h.stay idle.symm rfl (atAttempt_of_none rfl)
  | remove =>
    obtain ⟨pending, good⟩ := kept.pop h.good idle
    exact h.take good (atAttempt_of_some rfl pending)

/-- As long as every attempt is refused, the inner stack keeps its invariant. -/
theorem still_after (kept : Kept stack fixed Good) (good : Good (fun _ => .idle) inner)
    (value : ∀ x m, stack.value (stack.prepare x m).2 = x) (slots : config.slots ≠ 0)
    (schedule : List (Turn EliminationArray.Choice))
    (few : FewClaims (scene stack inner config programs) schedule)
    (refused : Refused stack fixed inner config programs schedule) :
    Still stack fixed Good (after stack inner config programs schedule) := by
  induction schedule with
  | nil =>
    rw [after, Algorithm.viewAfter_nil]
    exact ⟨good, fun _ => atAttempt_outside stack _⟩
  | cons t earlier ih =>
    have h := ih few.earlier refused.before
    have step := turn stack inner config programs t earlier
    rcases step.rest_or_enter_or_take with ⟨_, hv⟩ | ⟨c, outside, _, hv⟩ | ⟨l, here, hv⟩
    · rw [hv]
      exact h
    · rw [hv]
      exact h.enter kept outside c
    · obtain ⟨pairs, delivered⟩ := exists_delivered value slots earlier few.earlier refused.before
      have suits := (delivered.stands t.thread l here).2
      cases l with
      | prepare x =>
        have prepared := kept.prepare x h.good (congrArg phase here)
        obtain ⟨pending, good⟩ := kept.push prepared (Function.update_self _ _ _)
        rw [Function.update_idem] at good
        rw [hv]
        exact h.take good (atAttempt_of_some rfl pending)
      | pushing item k => exact h.attempt kept refused here rfl
      | popping k => exact h.attempt kept refused here rfl
      | offering item k => exact h.offer kept slots suits here
      | seeking k => exact h.seek kept slots suits here

/-- What the clients of an elimination stack see while its inner stack serves nobody: what `contents`
reads of the inner stack stays what it was, everything is exchanged in pairs, a pop that keeps up with
one pusher gets its values in order, and when all calls have returned all values have been popped. -/
structure ServesPairs {State : Type} (stack : AttemptStack Inner Item L) (contents : Inner → State)
    (inner : Inner) (config : EliminationConfig) (programs : List (List Request))
    (schedule : List (Turn EliminationArray.Choice)) : Prop where
  unchanged : contents (after stack inner config programs schedule).memory.inner = contents inner
  inPairs : ∃ pairs, InPairs programs (after stack inner config programs schedule) pairs
  inOrder : ∀ values : List Value,
    programs = [values.map .insert, List.replicate values.length .remove] →
    ((after stack inner config programs schedule).answers 1).length = values.length →
    (after stack inner config programs schedule).answers 1 = values.map fun x => .found (some x)
  matched :
    (∀ i, (callsOf programs i).length ≤
      ((after stack inner config programs schedule).answers i).length) →
    ((List.range programs.length).flatMap fun i =>
      ((after stack inner config programs schedule).answers i).filterMap found?).Perm
        (programs.flatten.filterMap insert?)

theorem servesPairs_of_kept {State : Type} {contents : Inner → State} (kept : Kept stack fixed Good)
    (good : Good (fun _ => .idle) inner)
    (reads : ∀ phases m, Good phases m → contents m = contents inner)
    (value : ∀ x m, stack.value (stack.prepare x m).2 = x) (slots : config.slots ≠ 0)
    (few : FewClaims (scene stack inner config programs) schedule)
    (refused : Refused stack fixed inner config programs schedule) :
    ServesPairs stack contents inner config programs schedule := by
  obtain ⟨pairs, delivered⟩ := exists_delivered value slots schedule few refused
  refine ⟨?_, ⟨pairs, delivered.inPairs⟩, ?_, delivered.perm⟩
  · exact reads _ _ (still_after kept good value slots schedule few refused).good
  · rintro values rfl done
    exact delivered.inPairs.answers_of_two done

end Run

section Shut

variable {Inner Item L : Type} {stack : AttemptStack Inner Item L} {fixed : L → Option AttemptAnswer}
  {Tries : L → Prop} {Closed : Inner → Prop} {inner : Inner}
  {v : View (Memory Inner) (Label Item L) Answer} {i : Nat}

/-- Attempts at a closed stack only try, and leave it closed. -/
structure Shut (stack : AttemptStack Inner Item L) (fixed : L → Option AttemptAnswer) (Tries : L → Prop)
    (Closed : Inner → Prop) : Prop where
  prepare : ∀ x m, Closed m → Closed (stack.prepare x m).1
  discard : ∀ item m, Closed m → Closed (stack.discard item m)
  push : ∀ item, Tries (stack.push item)
  pop : Tries stack.pop
  step : ∀ l m, Tries l → Closed m → Closed (stack.step l m).1 ∧
    ((stack.step l m).2 = .returned .contended ∨
      ∃ l', (stack.step l m).2 = .running l' ∧ Tries l' ∧ fixed l' = none)

structure InVain (stack : AttemptStack Inner Item L) (Tries : L → Prop) (Closed : Inner → Prop)
    (v : View (Memory Inner) (Label Item L) Answer) : Prop where
  closed : Closed v.memory.inner
  tries : ∀ i, AtAttempt stack Tries (v.label i)

theorem InVain.take (h : InVain stack Tries Closed v) {e : Effect (Memory Inner) (Label Item L) Answer}
    (closed : Closed e.memory.inner) (tries : AtAttempt stack Tries e.status.label?) :
    InVain stack Tries Closed (v.take i e) where
  closed := by
    rw [View.memory_take]
    exact closed
  tries := atAttempt_take h.tries tries

variable {m : Memory Inner}

theorem Shut.attempt (shut : Shut stack fixed Tries Closed) (closed : Closed m.inner)
    (choice : EliminationArray.Choice) {l : Label Item L} {r : Request} {k : L}
    (at_k : attempt? stack l = some (r, k)) (tries : Tries k) :
    Closed ((algorithm stack).step choice l m).memory.inner ∧
      AtAttempt stack Tries ((algorithm stack).step choice l m).status.label? := by
  obtain ⟨stays, gives | ⟨k', goes, again, _⟩⟩ := shut.step k m.inner tries closed
  · obtain ⟨l', -, -, -, outside, -, effect⟩ :=
      @step_refused _ _ _ _ fixed _ _ _ _ choice at_k gives
    rw [effect]
    exact ⟨stays, atAttempt_of_none outside⟩
  · obtain ⟨l', -, at_k', effect⟩ := step_running at_k goes
    rw [effect]
    exact ⟨stays, atAttempt_of_some at_k' again⟩

theorem Shut.offer (shut : Shut stack fixed Tries Closed) (closed : Closed m.inner)
    (choice : EliminationArray.Choice) (item : Item) (k : EliminationArray.Label) :
    Closed (EliminationStack.offer stack choice item k m).memory.inner ∧
      AtAttempt stack Tries (EliminationStack.offer stack choice item k m).status.label? := by
  have push : AtAttempt stack Tries (some (.pushing item (stack.push item))) :=
    atAttempt_of_some rfl (shut.push item)
  rw [EliminationStack.offer]
  cases (EliminationArray.step choice k m.array).status with
  | running k' => exact ⟨closed, atAttempt_of_none rfl⟩
  | returned a =>
    cases a with
    | pushed eliminated =>
      cases eliminated
      · exact ⟨closed, push⟩
      · exact ⟨shut.discard item m.inner closed, atAttempt_outside stack _⟩
    | popped => exact ⟨closed, push⟩
    | broken => exact ⟨closed, atAttempt_outside stack _⟩

theorem Shut.seek (shut : Shut stack fixed Tries Closed) (closed : Closed m.inner)
    (choice : EliminationArray.Choice) (k : EliminationArray.Label) :
    Closed (EliminationStack.seek stack choice k m).memory.inner ∧
      AtAttempt stack Tries (EliminationStack.seek stack choice k m).status.label? := by
  have pop : AtAttempt stack Tries (some (.popping stack.pop)) := atAttempt_of_some rfl shut.pop
  rw [EliminationStack.seek]
  cases (EliminationArray.step choice k m.array).status with
  | running k' => exact ⟨closed, atAttempt_of_none rfl⟩
  | returned a =>
    cases a with
    | pushed => exact ⟨closed, pop⟩
    | popped found =>
      cases found
      · exact ⟨closed, pop⟩
      · exact ⟨closed, atAttempt_outside stack _⟩
    | broken => exact ⟨closed, atAttempt_outside stack _⟩

/-- Whatever the threads do in the array, nobody gets into a stack that is shut. -/
theorem Shut.inVain (shut : Shut stack fixed Tries Closed) (closed : Closed inner)
    (config : EliminationConfig) (programs : List (List Request))
    (schedule : List (Turn EliminationArray.Choice)) :
    InVain stack Tries Closed (after stack inner config programs schedule) := by
  induction schedule with
  | nil =>
    rw [after, Algorithm.viewAfter_nil]
    exact ⟨closed, fun _ => atAttempt_outside stack _⟩
  | cons t earlier h =>
    rcases (turn stack inner config programs t earlier).rest_or_enter_or_take with
      ⟨_, hv⟩ | ⟨c, _, _, hv⟩ | ⟨l, here, hv⟩
    · rw [hv]
      exact h
    · rw [hv]
      refine h.take (e := ⟨_, .running ((algorithm stack).enter c), []⟩) h.closed ?_
      cases c with
      | insert x => exact atAttempt_of_none rfl
      | remove => exact atAttempt_of_some rfl shut.pop
    · have tries := h.tries t.thread
      rw [here] at tries
      rw [hv]
      cases l with
      | prepare x => exact h.take (shut.prepare x _ h.closed) (atAttempt_of_some rfl (shut.push _))
      | pushing item k =>
        obtain ⟨stays, again⟩ :=
          shut.attempt h.closed t.choice (l := .pushing item k) rfl (tries _ rfl _ k rfl)
        exact h.take stays again
      | popping k =>
        obtain ⟨stays, again⟩ :=
          shut.attempt h.closed t.choice (l := .popping k) rfl (tries _ rfl _ k rfl)
        exact h.take stays again
      | offering item k =>
        obtain ⟨stays, again⟩ := shut.offer h.closed t.choice item k
        exact h.take stays again
      | seeking k =>
        obtain ⟨stays, again⟩ := shut.seek h.closed t.choice k
        exact h.take stays again

theorem Shut.refused (shut : Shut stack fixed Tries Closed) (closed : Closed inner)
    (config : EliminationConfig) (programs : List (List Request))
    (schedule : List (Turn EliminationArray.Choice)) :
    Refused stack fixed inner config programs schedule := by
  intro t earlier _ l r k here at_k
  have h := shut.inVain closed config programs earlier
  obtain ⟨_, gives | ⟨k', goes, _, unsettled⟩⟩ :=
    shut.step k _ (h.tries t.thread l here r k at_k) h.closed
  · exact .inl gives
  · exact .inr ⟨k', goes, unsettled⟩

end Shut

section Environment

variable {Inner Item L : Type}

/-- Endless interference shuts a stack. -/
theorem shut_of_interference (stack : AttemptStack Inner Item L) (settled : L → Option AttemptAnswer) :
    Shut stack.disturbed (DisturbedLabel.fixed settled) (fun l => ∃ k, l = .arriving k)
      (fun m => m.refusals < 0) where
  prepare _ _ closed := closed
  discard _ _ closed := closed
  push item := ⟨stack.push item, rfl⟩
  pop := ⟨stack.pop, rfl⟩
  step l m := by
    rintro ⟨k, rfl⟩ closed
    have refuses : m.refusals ≠ 0 := Int.ne_of_lt closed
    have ever : ¬ 0 < m.refusals := Int.not_lt.mpr (Int.le_of_lt closed)
    change (AttemptStack.disturbedStep stack (.arriving k) m).1.refusals < 0 ∧ _
    simp [AttemptStack.disturbed, AttemptStack.disturbedStep, refuses, ever, closed]

end Environment

end EliminationStack

/-- Attempts that begin at `entry` are refused, and leave the lock as it is. -/
def Lock.Bars {Memory Label Token : Type} (lock : Lock Memory Label Token) (entry : Label)
    (m : Memory) : Prop :=
  ∃ Tries : Label → Prop, Tries entry ∧ ∀ l, Tries l → (lock.step l m).1 = m ∧
    ((lock.step l m).2 = .returned .refused ∨ ∃ l', Tries l' ∧ (lock.step l m).2 = .running l')

theorem TestAndSet.bars : lock.Bars .attempt true := by
  refine ⟨(· = .attempt), rfl, ?_⟩
  rintro l rfl
  exact ⟨rfl, .inl rfl⟩

theorem TestThenSet.bars : lock.Bars .peek true := by
  refine ⟨(· = .peek), rfl, ?_⟩
  rintro l rfl
  exact ⟨rfl, .inl rfl⟩

/-- The ticket lock refuses while the last ticket drawn has not been passed on. -/
theorem TicketLock.bars {m : Memory} (held : m.nextTicket ≠ m.nowServing) : lock.Bars .look m := by
  refine ⟨fun l => l = .look ∨ l = .attempt m.nowServing, .inl rfl, ?_⟩
  rintro l (rfl | rfl)
  · exact ⟨rfl, .inr ⟨.attempt m.nowServing, .inr rfl, rfl⟩⟩
  · simp [lock, step, held]

namespace EliminationStack

open EliminationArray (FewClaims)
open LockedStore (attemptsUnder)

/-- A lock that somebody holds shuts the store. -/
theorem shut_of_barred {LockMemory L Token : Type} {lock : Lock LockMemory L Token} {entry : L}
    {held : LockMemory} (bars : lock.Bars entry held) (acquire : L) :
    ∃ Tries, Shut (attemptsUnder lock acquire entry) LockedStore.fixed Tries (·.lock = held) := by
  obtain ⟨Tries, first, tries⟩ := bars
  refine ⟨fun l => ∃ k body, l = .entering k body ∧ Tries k, ?_⟩
  refine ⟨fun _ _ closed => closed, fun _ _ closed => closed, ?_, ?_, ?_⟩
  · exact fun item => ⟨entry, _, rfl, first⟩
  · exact ⟨entry, _, rfl, first⟩
  · rintro l m ⟨k, body, rfl, tried⟩ closed
    have effect : (attemptsUnder lock acquire entry).step (.entering k body) m = _ :=
      LockedStore.attemptStep_entering lock k body m
    rw [← closed] at tries ⊢
    obtain ⟨same, refused | ⟨k', again, goes⟩⟩ := tries k tried
    · rw [effect, refused]
      exact ⟨same, .inl rfl⟩
    · rw [effect, goes]
      exact ⟨same, .inr ⟨_, rfl, ⟨k', body, rfl, again⟩, rfl⟩⟩

/-- As long as every attempt at the inner stack is refused, the elimination array alone serves the
threads in pairs and in order: over a lock-free stack that is disturbed, whatever it holds, and over a
store under any lock. -/
theorem pairs_while_refused (config : EliminationConfig) (slots : config.slots ≠ 0)
    (programs : List (List Request)) (schedule : List (Turn EliminationArray.Choice)) :
    (∀ (m : TreiberStack.Memory) (refusals : Int) (values : List Value),
      TreiberStack.Good (fun _ => .idle) m values →
      FewClaims (scene TreiberStack.attempts.disturbed ⟨m, refusals⟩ config programs) schedule →
      Refused TreiberStack.attempts.disturbed (DisturbedLabel.fixed fun _ => none) ⟨m, refusals⟩ config
        programs schedule →
      ServesPairs TreiberStack.attempts.disturbed (fun m => m.memory.toList) ⟨m, refusals⟩ config
        programs schedule) ∧
    ∀ (LockMemory L Token : Type) (lock : Lock LockMemory L Token) (acquire entry : L)
      (inner : Guarded LockMemory Store),
      FewClaims (scene (attemptsUnder lock acquire entry) inner config programs) schedule →
      Refused (attemptsUnder lock acquire entry) LockedStore.fixed inner config programs schedule →
      ServesPairs (attemptsUnder lock acquire entry) Guarded.data inner config programs schedule := by
  constructor
  · intro m refusals values good few refused
    have kept := (TreiberStack.law.kept values).disturbed
    refine servesPairs_of_kept kept ⟨good, fun _ => trivial⟩ ?_ (fun _ _ => rfl) slots few refused
    intro phases m' held
    rw [good.toList_eq]
    exact TreiberStack.Good.toList_eq held.good
  · intro LockMemory L Token lock acquire entry inner few refused
    refine servesPairs_of_kept (LockedStore.kept lock acquire entry inner.data) ⟨rfl, nofun⟩ ?_
      (fun _ _ => rfl) slots few refused
    exact fun _ _ untouched => untouched.same

/-- Two pushes and two pops whose attempts take `n` steps. The first offer is withdrawn and made again. -/
def twice (n : Nat) : List (Turn EliminationArray.Choice) :=
  let offer := List.replicate (n + 4) 0
  let take := List.replicate (n + 4) 1 ++ List.replicate 3 0
  turnsOf (offer ++ [0, 0] ++ take) ++ turnsOf (offer ++ take) ++ [⟨0, 0, true⟩, ⟨0, 0, true⟩] ++
    turnsOf ([0, 0] ++ offer)

theorem pairs_while_shut :
    ServesPairs TreiberStack.attempts.disturbed (fun m => m.memory.toList)
      ⟨{ nodes := #[⟨3, none⟩], head := some 0 }, -1⟩ { slots := 1 }
      [[7, 8].map .insert, List.replicate 2 .remove] (twice 1) ∧
    ServesPairs (attemptsUnder TestAndSet.lock .seize .attempt) Guarded.data ⟨true, ⟨[3], []⟩⟩
      { slots := 1 } [[7, 8].map .insert, List.replicate 2 .remove] (twice 1) ∧
    ServesPairs (attemptsUnder TestThenSet.lock .watch .peek) Guarded.data ⟨true, ⟨[3], []⟩⟩
      { slots := 1 } [[7, 8].map .insert, List.replicate 2 .remove] (twice 1) ∧
    ServesPairs (attemptsUnder TicketLock.lock .draw .look) Guarded.data ⟨⟨0, 1⟩, ⟨[3], []⟩⟩
      { slots := 1 } [[7, 8].map .insert, List.replicate 2 .remove] (twice 2) := by
  have good : TreiberStack.Good (fun _ => .idle) { nodes := #[⟨3, none⟩], head := some 0 } [3] :=
    ⟨⟨[0], ⟨rfl, by decide, rfl⟩, rfl, nofun⟩, nofun, fun _ => trivial⟩
  obtain ⟨_, clear⟩ := shut_of_barred TestAndSet.bars .seize
  obtain ⟨_, watched⟩ := shut_of_barred TestThenSet.bars .watch
  obtain ⟨_, served⟩ := shut_of_barred (TicketLock.bars (m := ⟨0, 1⟩) (by decide)) .draw
  refine ⟨?_, ?_, ?_, ?_⟩
  · exact (pairs_while_refused _ (by decide) _ _).1 _ _ [3] good (.of_length (by decide) _)
      ((shut_of_interference _ _).refused (by decide) _ _ _)
  · exact (pairs_while_refused _ (by decide) _ _).2 _ _ _ _ _ _ _ (.of_length (by decide) _)
      (clear.refused rfl _ _ _)
  · exact (pairs_while_refused _ (by decide) _ _).2 _ _ _ _ _ _ _ (.of_length (by decide) _)
      (watched.refused rfl _ _ _)
  · exact (pairs_while_refused _ (by decide) _ _).2 _ _ _ _ _ _ _ (.of_length (by decide) _)
      (served.refused rfl _ _ _)

example : (after (attemptsUnder TicketLock.lock .draw .look) ⟨⟨0, 1⟩, ⟨[3], []⟩⟩ { slots := 1 }
    [[7, 8].map .insert, List.replicate 2 .remove] (twice 2)).answers 1 =
      [.found (some 7), .found (some 8)] := rfl

end EliminationStack

end SharedMemory
