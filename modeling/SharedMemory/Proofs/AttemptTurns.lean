import SharedMemory.Proofs.LinearOrder
import SharedMemory.Proofs.SoloCalls

/-!
# The turns of one operation

An operation has turns among those of a run: its thread begins it, and takes its steps until it is
answered. What the operation has done to the contents of the memory is what has happened in these turns:
nothing, or one thing at one of them.
-/
namespace SharedMemory

variable {Memory Call Label Choice Answer Label' Answer' Contents : Type}

def Status.map (f : Label → Label') (g : Answer → Answer') : Status Label Answer → Status Label' Answer'
  | .running l => .running (f l)
  | .returned a => .returned (g a)

namespace Algorithm

variable
  (alg : Algorithm Memory Call Label Choice Answer) (m : Memory) (programs : List (List Call))
  (contents : Memory → Contents)

structure TurnOf (schedule : List (Turn Choice)) (o : Operation) (t : Turn Choice)
    (moment : List (Turn Choice)) : Prop where
  suffix : t :: moment <:+ schedule
  current : (alg.viewAfter m programs moment).current t.thread = o

def Still (t : Turn Choice) (moment : List (Turn Choice)) : Prop :=
  contents (alg.viewAfter m programs (t :: moment)).memory =
    contents (alg.viewAfter m programs moment).memory

def Untouched (schedule : List (Turn Choice)) (o : Operation) : Prop :=
  ∀ t moment, alg.TurnOf m programs schedule o t moment → alg.Still m programs contents t moment

/-- The turn is a step inside the call, which reads and writes the memory of that moment. -/
structure Access (schedule : List (Turn Choice)) (o : Operation) (t : Turn Choice)
    (moment : List (Turn Choice)) : Prop extends alg.TurnOf m programs schedule o t moment where
  inside : ((alg.viewAfter m programs moment).label t.thread).isSome

/-- The moment lies between two accesses of the operation, from what the first one finds to what the last
one finds. -/
def Within (schedule : List (Turn Choice)) (o : Operation) (moment : List (Turn Choice)) : Prop :=
  (∃ t first, alg.Access m programs schedule o t first ∧ first <:+ moment) ∧
    ∃ t last, alg.Access m programs schedule o t last ∧ moment <:+ last

/-- At one of its turns the operation has changed the contents as `does` says, and at no other. -/
def Acted (does : Contents → Contents → Prop) (schedule : List (Turn Choice)) (o : Operation) : Prop :=
  ∃ t moment, alg.TurnOf m programs schedule o t moment ∧
    does (contents (alg.viewAfter m programs moment).memory)
      (contents (alg.viewAfter m programs (t :: moment)).memory) ∧
    ∀ t' moment', alg.TurnOf m programs schedule o t' moment' → t' :: moment' ≠ t :: moment →
      alg.Still m programs contents t' moment'

variable {alg m programs contents} {does : Contents → Contents → Prop} {t : Turn Choice}
  {moment earlier schedule : List (Turn Choice)} {o : Operation} {i : Nat}

theorem viewAfter_enter {choice : Choice} {c : Call}
    (outside : (alg.viewAfter m programs schedule).label i = none)
    (next : ((alg.viewAfter m programs schedule).current i).call? programs = some c) :
    alg.viewAfter m programs (⟨i, choice⟩ :: schedule) =
      (alg.viewAfter m programs schedule).enter i (alg.enter c) := by
  have calls : (callsOf programs i)[((alg.viewAfter m programs schedule).answers i).length]? = some c := next
  rw [viewAfter_turn, View.turn, outside, calls]

theorem turnOf_cons {t' : Turn Choice} (h : alg.TurnOf m programs (t :: earlier) o t' moment) :
    t' = t ∧ moment = earlier ∧ (alg.viewAfter m programs earlier).current t.thread = o ∨
      alg.TurnOf m programs earlier o t' moment := by
  rcases List.suffix_cons_iff.mp h.suffix with same | suffix
  · obtain ⟨rfl, rfl⟩ := List.cons.inj same
    exact .inl ⟨rfl, rfl, h.current⟩
  · exact .inr ⟨suffix, h.current⟩

theorem Access.later {t' : Turn Choice} (h : alg.Access m programs earlier o t' moment) :
    alg.Access m programs (t :: earlier) o t' moment :=
  ⟨⟨h.suffix.trans (List.suffix_cons t earlier), h.current⟩, h.inside⟩

theorem Untouched.cons (h : alg.Untouched m programs contents earlier o)
    (still : (alg.viewAfter m programs earlier).current t.thread = o → alg.Still m programs contents t earlier) :
    alg.Untouched m programs contents (t :: earlier) o := by
  intro t' moment turn
  rcases turnOf_cons turn with ⟨rfl, rfl, mine⟩ | before
  · exact still mine
  · exact h t' moment before

theorem Untouched.acts (h : alg.Untouched m programs contents earlier o)
    (mine : (alg.viewAfter m programs earlier).current t.thread = o)
    (now : does (contents (alg.viewAfter m programs earlier).memory)
      (contents (alg.viewAfter m programs (t :: earlier)).memory)) :
    alg.Acted m programs contents does (t :: earlier) o := by
  refine ⟨t, earlier, ⟨List.suffix_rfl, mine⟩, now, fun t' moment turn other => ?_⟩
  rcases turnOf_cons turn with ⟨rfl, rfl, _⟩ | before
  · exact absurd rfl other
  · exact h t' moment before

theorem Acted.cons (h : alg.Acted m programs contents does earlier o)
    (still : (alg.viewAfter m programs earlier).current t.thread = o → alg.Still m programs contents t earlier) :
    alg.Acted m programs contents does (t :: earlier) o := by
  obtain ⟨t', moment, turn, done, rest⟩ := h
  refine ⟨t', moment, ⟨turn.suffix.trans (List.suffix_cons t earlier), turn.current⟩, done, ?_⟩
  intro u moment' turn' other
  rcases turnOf_cons turn' with ⟨rfl, rfl, mine⟩ | before
  · exact still mine
  · exact rest u moment' before other

theorem Acted.mono {does' : Contents → Contents → Prop} (h : alg.Acted m programs contents does schedule o)
    (weaker : ∀ before now, does before now → does' before now) :
    alg.Acted m programs contents does' schedule o := by
  obtain ⟨t, moment, turn, done, rest⟩ := h
  exact ⟨t, moment, turn, weaker _ _ done, rest⟩

theorem answers_mono (suffix : moment <:+ schedule) (i : Nat) :
    ((alg.viewAfter m programs moment).answers i).length ≤
      ((alg.viewAfter m programs schedule).answers i).length := by
  apply Turn.later (P := fun later => ((alg.viewAfter m programs moment).answers i).length ≤
    ((alg.viewAfter m programs later).answers i).length) _ suffix (Nat.le_refl _)
  intro t earlier le
  refine Nat.le_trans le ?_
  have turn := alg.viewAfter_cons m programs t earlier
  generalize alg.viewAfter m programs (t :: earlier) = v' at turn
  cases turn with
  | rest => exact Nat.le_refl _
  | enter => exact Nat.le_refl _
  | move => exact Nat.le_refl _
  | answer l a here gives =>
    by_cases same : i = t.thread
    · subst same
      simp
    · simp [same]

theorem untouched_of_unbegun
    (unbegun : ((alg.viewAfter m programs schedule).answers o.thread).length < o.index) :
    alg.Untouched m programs contents schedule o := by
  intro t moment turn
  obtain rfl := turn.current
  have before : ((alg.viewAfter m programs moment).answers t.thread).length ≤
      ((alg.viewAfter m programs schedule).answers t.thread).length :=
    answers_mono ((List.suffix_cons t moment).trans turn.suffix) t.thread
  exact absurd unbegun (Nat.not_lt.mpr before)

variable (alg m programs contents)

/-- What the operation has done so far: nothing, or what it has settled on. -/
def Did (schedule : List (Turn Choice)) (o : Operation) :
    Option (Contents → Contents → Prop) → Prop
  | none => alg.Untouched m programs contents schedule o
  | some does => alg.Acted m programs contents does schedule o

/-- A turn leaves the contents alone, or it does what the operation settles on. -/
def Settling (t : Turn Choice) (moment : List (Turn Choice))
    (before now : Option (Contents → Contents → Prop)) : Prop :=
  now = before ∧ alg.Still m programs contents t moment ∨
    before = none ∧ ∃ does, now = some does ∧ does (contents (alg.viewAfter m programs moment).memory)
      (contents (alg.viewAfter m programs (t :: moment)).memory)

/-- What an operation has settled on is known from its label, and in the end from its answer. -/
structure Settles (settled : Label → Option (Contents → Contents → Prop))
    (told : Call → Answer → Option (Contents → Contents → Prop)) (schedule : List (Turn Choice)) :
    Prop where
  enter : ∀ c, settled (alg.enter c) = none
  goes : ∀ t moment l l', t :: moment <:+ schedule →
    (alg.viewAfter m programs moment).label t.thread = some l →
      (alg.step t.choice l (alg.viewAfter m programs moment).memory).status = .running l' →
        alg.Settling m programs contents t moment (settled l) (settled l')
  gives : ∀ t moment l c a, t :: moment <:+ schedule →
    (alg.viewAfter m programs moment).label t.thread = some l →
      ((alg.viewAfter m programs moment).current t.thread).call? programs = some c →
        (alg.step t.choice l (alg.viewAfter m programs moment).memory).status = .returned a →
          alg.Settling m programs contents t moment (settled l) (told c a)

/-- What the operations have done that are in progress, or have been answered. -/
structure Progress (settled : Label → Option (Contents → Contents → Prop))
    (told : Call → Answer → Option (Contents → Contents → Prop)) (schedule : List (Turn Choice)) :
    Prop where
  present : ∀ i, alg.Did m programs contents schedule ((alg.viewAfter m programs schedule).current i)
    (((alg.viewAfter m programs schedule).label i).bind settled)
  past : ∀ o c a, o.call? programs = some c → (alg.viewAfter m programs schedule).answer? o = some a →
    alg.Did m programs contents schedule o (told c a)

variable {alg m programs contents} {before now : Option (Contents → Contents → Prop)}
  {settled : Label → Option (Contents → Contents → Prop)}
  {told : Call → Answer → Option (Contents → Contents → Prop)}

theorem Did.other (h : alg.Did m programs contents earlier o before)
    (other : (alg.viewAfter m programs earlier).current t.thread ≠ o) :
    alg.Did m programs contents (t :: earlier) o before := by
  cases before with
  | none => exact Untouched.cons h fun mine => absurd mine other
  | some does => exact Acted.cons h fun mine => absurd mine other

theorem Did.settling (h : alg.Did m programs contents earlier o before)
    (mine : (alg.viewAfter m programs earlier).current t.thread = o)
    (step : alg.Settling m programs contents t earlier before now) :
    alg.Did m programs contents (t :: earlier) o now := by
  rcases step with ⟨rfl, still⟩ | ⟨rfl, does, rfl, acts⟩
  · cases now with
    | none => exact Untouched.cons h fun _ => still
    | some does => exact Acted.cons h fun _ => still
  · exact Untouched.acts h mine acts

theorem Settles.of_cons (h : alg.Settles m programs contents settled told (t :: earlier)) :
    alg.Settles m programs contents settled told earlier where
  enter := h.enter
  goes t' moment l l' suffix := h.goes t' moment l l' (suffix.trans (List.suffix_cons t earlier))
  gives t' moment l c a suffix := h.gives t' moment l c a (suffix.trans (List.suffix_cons t earlier))

theorem Progress.start : alg.Progress m programs contents settled told [] := by
  constructor
  · intro i
    rw [viewAfter_nil, View.start, Option.bind_none]
    exact fun t moment turn => absurd (List.suffix_nil.mp turn.suffix) (List.cons_ne_nil t moment)
  · intro o c a _ gives
    simp [View.start, View.answer?] at gives

theorem Progress.past_kept (h : alg.Progress m programs contents settled told earlier) {c : Call}
    {a : Answer} (called : o.call? programs = some c)
    (gave : (alg.viewAfter m programs earlier).answer? o = some a) :
    alg.Did m programs contents (t :: earlier) o (told c a) := by
  refine (h.past o c a called gave).other ?_
  rintro rfl
  rw [View.answer?_current] at gave
  cases gave

theorem Settles.progress (h : alg.Settles m programs contents settled told schedule) :
    alg.Progress m programs contents settled told schedule := by
  induction schedule with
  | nil => exact .start
  | cons t earlier ih =>
    have before := ih h.of_cons
    have turn := alg.viewAfter_cons m programs t earlier
    have own := before.present t.thread
    -- all threads but one are where they were
    have present : ∀ now, alg.Did m programs contents (t :: earlier)
          ((alg.viewAfter m programs (t :: earlier)).current t.thread) now →
        now = ((alg.viewAfter m programs (t :: earlier)).label t.thread).bind settled →
        ∀ i, alg.Did m programs contents (t :: earlier)
          ((alg.viewAfter m programs (t :: earlier)).current i)
          (((alg.viewAfter m programs (t :: earlier)).label i).bind settled) := by
      rintro now did rfl i
      by_cases same : i = t.thread
      · rw [same]
        exact did
      · obtain ⟨label, current⟩ := turn.others same
        rw [label, current]
        refine (before.present i).other fun mine => same ?_
        exact (congrArg Operation.thread mine).symm
    have kept : (∀ o a, (alg.viewAfter m programs (t :: earlier)).answer? o = some a →
          (alg.viewAfter m programs earlier).answer? o = some a) →
        ∀ o c a, o.call? programs = some c →
          (alg.viewAfter m programs (t :: earlier)).answer? o = some a →
            alg.Did m programs contents (t :: earlier) o (told c a) :=
      fun old o c a called gives => before.past_kept called (old o a gives)
    rcases turn.rest_or_enter_or_take with ⟨outside, hv⟩ | ⟨c, outside, _, hv⟩ | ⟨l, here, hv⟩
    · have still : alg.Still m programs contents t earlier := by rw [Still, hv]
      refine ⟨present _ ?_ rfl, kept fun o a gives => by rwa [hv] at gives⟩
      rw [hv]
      exact own.settling rfl (.inl ⟨rfl, still⟩)
    · have still : alg.Still m programs contents t earlier := by rw [Still, hv, View.memory_enter]
      refine ⟨present none ?_ ?_, kept fun o a gives => by rwa [hv] at gives⟩
      · rw [outside] at own
        have same : (alg.viewAfter m programs (t :: earlier)).current t.thread =
            (alg.viewAfter m programs earlier).current t.thread := by rw [hv]; rfl
        rw [same]
        exact own.settling rfl (.inl ⟨rfl, still⟩)
      · rw [hv, View.label_enter, Function.update_self, Option.bind_some, h.enter]
    · rw [here, Option.bind_some] at own
      cases status : (alg.step t.choice l (alg.viewAfter m programs earlier).memory).status with
      | running l' =>
        rw [View.take_running status] at hv
        have step := h.goes t earlier l l' List.suffix_rfl here status
        refine ⟨present (settled l') ?_ ?_, kept fun o a gives => ?_⟩
        · have same : (alg.viewAfter m programs (t :: earlier)).current t.thread =
              (alg.viewAfter m programs earlier).current t.thread := by rw [hv]; rfl
          rw [same]
          exact own.settling rfl step
        · rw [hv, View.label_move, Function.update_self, Option.bind_some]
        · rwa [hv, View.answer?, View.answers_move] at gives
      | returned a =>
        rw [View.take_returned status] at hv
        constructor
        · refine present none ?_ ?_
          · have other : (alg.viewAfter m programs earlier).current t.thread ≠
                (alg.viewAfter m programs (t :: earlier)).current t.thread := by
              rw [hv]
              intro same
              have index := congrArg Operation.index same
              simp [View.current] at index
            have unbegun : alg.Did m programs contents earlier
                ((alg.viewAfter m programs (t :: earlier)).current t.thread) none := by
              refine untouched_of_unbegun ?_
              rw [hv]
              simp [View.current]
            exact unbegun.other other
          · rw [hv, View.label_answer, Function.update_self, Option.bind_none]
        · intro o c a' called gives
          rcases turn.answer? gives with old | ⟨rfl, l', here', gives'⟩
          · exact before.past_kept called old
          · cases here.symm.trans here'
            exact own.settling rfl (h.gives t earlier l c a' List.suffix_rfl here called gives')

end Algorithm

end SharedMemory
