import Mathlib.Algebra.GroupWithZero.Nat
import SharedMemory.Proofs.LinearOrder

/-!
# Retry loops that only another's success sends back

A lock-free operation loops until a compare-and-swap succeeds. A `Ranking` weighs the label that a
thread stands at: a step that swaps nothing leaves the weights of all other threads and makes that of
its own fall, so no thread returns to the beginning of its loop unless some swap has succeeded since. With
a bound on the swaps of a run, the weights bound the run itself.
-/
namespace SharedMemory

variable {Memory Call Label Choice Answer Swap : Type}

/-- `swap?` is the compare-and-swap by which a step succeeds, and `begins` marks the beginning of each
operation's loop. -/
structure Ranking (alg : Algorithm Memory Call Label Choice Answer)
    (swap? : Memory → Label → Option Swap) (begins : Label → Bool) where
  weight : Memory → Label → Nat
  most : Nat
  full : Nat
  weight_le : ∀ m l, weight m l ≤ most
  weight_begins : ∀ m l, begins l → weight m l = full
  still : ∀ {m l}, swap? m l = none → ∀ choice k, weight (alg.step choice l m).memory k = weight m k
  falls : ∀ {m l}, swap? m l = none → ∀ choice l', (alg.step choice l m).status = .running l' →
    weight m l' < weight m l

namespace Ranking

variable {alg : Algorithm Memory Call Label Choice Answer} {swap? : Memory → Label → Option Swap}
  {begins : Label → Bool} (rank : Ranking alg swap? begins) {m : Memory} {programs : List (List Call)}
  {i : Nat} {l l' : Label} {t : Turn Choice} {earlier turns : List (Turn Choice)}

section Spoiled

theorem length_notes_le (alg : Algorithm Memory Call Label Choice Answer) (m : Memory)
    (programs : List (List Call)) (swap? : Memory → Label → Option Swap)
    (turns earlier : List (Turn Choice)) :
    (alg.notes m programs swap? earlier).length ≤
      (alg.notes m programs swap? (turns ++ earlier)).length := by
  induction turns with
  | nil => exact Nat.le_refl _
  | cons t turns ih =>
    rw [List.cons_append, Algorithm.notes, Algorithm.journal, List.length_append]
    exact Nat.le_trans ih (Nat.le_add_left _ _)

theorem weight_turn
    (quiet : (alg.viewAfter m programs earlier).noted swap? t.thread = none) (k : Label) :
    rank.weight (alg.viewAfter m programs (t :: earlier)).memory k =
      rank.weight (alg.viewAfter m programs earlier).memory k := by
  rcases (alg.viewAfter_cons m programs t earlier).rest_or_enter_or_take with ⟨_, same⟩ |
    ⟨c, _, _, same⟩ | ⟨l, here, same⟩
  · rw [same]
  · rw [same, View.memory_enter]
  · rw [View.noted, here, Option.bind_some] at quiet
    rw [same, View.memory_take, rank.still quiet]

theorem weight_falls (here : (alg.viewAfter m programs earlier).label i = some l)
    (quiet : (alg.notes m programs swap? (turns ++ earlier)).length ≤
      (alg.notes m programs swap? earlier).length) :
    (alg.viewAfter m programs (turns ++ earlier)).Answered
        ((alg.viewAfter m programs earlier).current i) ∨
      ∃ k, (alg.viewAfter m programs (turns ++ earlier)).StandsAt
          ((alg.viewAfter m programs earlier).current i) k ∧
        rank.weight (alg.viewAfter m programs (turns ++ earlier)).memory k +
            turns.countP (fun t => t.thread = i) ≤
          rank.weight (alg.viewAfter m programs earlier).memory l := by
  induction turns with
  | nil => exact .inr ⟨l, ⟨rfl, here⟩, Nat.le_refl _⟩
  | cons t turns ih =>
    have grown := length_notes_le alg m programs swap? turns earlier
    rw [List.cons_append] at quiet ⊢
    have split : (alg.notes m programs swap? (t :: (turns ++ earlier))).length =
        ((alg.viewAfter m programs (turns ++ earlier)).noted swap? t.thread).toList.length +
          (alg.notes m programs swap? (turns ++ earlier)).length := List.length_append
    have still : (alg.viewAfter m programs (turns ++ earlier)).noted swap? t.thread = none := by
      rw [← Option.toList_eq_nil_iff, ← List.length_eq_zero_iff]
      omega
    have step := alg.viewAfter_cons m programs t (turns ++ earlier)
    have weights := rank.weight_turn still
    rcases ih (by omega) with answered | ⟨k, ⟨index, at_k⟩, fallen⟩
    · exact .inl (step.answered answered)
    by_cases mine : t.thread = i
    swap
    · obtain ⟨label, current⟩ := step.others (Ne.symm mine)
      refine .inr ⟨k, ⟨?_, label.trans at_k⟩, ?_⟩
      · exact index.trans (congrArg Operation.index current).symm
      · rw [weights, List.countP_cons_of_neg (by simpa using mine)]
        exact fallen
    · subst mine
      have at_k : (alg.viewAfter m programs (turns ++ earlier)).label t.thread = some k := at_k
      rw [View.noted, at_k, Option.bind_some] at still
      cases status : (alg.step t.choice k (alg.viewAfter m programs (turns ++ earlier)).memory).status with
      | returned a =>
        refine .inl ?_
        rw [step.take at_k, View.take, status, View.Answered, index]
        simp [View.current]
      | running k' =>
        have falls := rank.falls still t.choice k' status
        have stands : (alg.viewAfter m programs (t :: (turns ++ earlier))).StandsAt
            ((alg.viewAfter m programs earlier).current t.thread) k' := by
          rw [step.take at_k, View.take, status]
          exact ⟨index, by simp [View.current]⟩
        refine .inr ⟨k', stands, ?_⟩
        rw [weights, List.countP_cons_of_pos (by simp)]
        omega

include rank in
/-- A thread is back at the beginning of its loop only after a swap. -/
theorem spoiled (here : (alg.viewAfter m programs earlier).label i = some l) (begun : begins l)
    (there : (alg.viewAfter m programs (turns ++ earlier)).label i = some l') (again : begins l')
    (same : (alg.viewAfter m programs (turns ++ earlier)).current i =
      (alg.viewAfter m programs earlier).current i) (moved : ∃ t ∈ turns, t.thread = i) :
    (alg.notes m programs swap? earlier).length <
      (alg.notes m programs swap? (turns ++ earlier)).length := by
  by_contra quiet
  have moved : 0 < turns.countP (fun t => t.thread = i) := by
    simpa [List.countP_pos_iff] using moved
  rcases rank.weight_falls here (Nat.le_of_not_lt quiet) with answered | ⟨k, ⟨_, at_k⟩, fallen⟩
  · rw [← same] at answered
    exact Nat.lt_irrefl _ answered
  · obtain rfl : l' = k := Option.some.inj (there.symm.trans at_k)
    have first := rank.weight_begins (alg.viewAfter m programs earlier).memory l begun
    have last := rank.weight_begins (alg.viewAfter m programs (turns ++ earlier)).memory l' again
    omega

end Spoiled

section Finite

/-- The steps that a thread may still take before a swap spoils its loop. -/
def cost (m : Memory) : ProgramStatus Call Label Answer → Nat
  | .returned _ => 0
  | .running l =>
    1 + (l.inside.elim 0 fun k => 1 + rank.weight m k) + (rank.most + 2) * l.left.length

def potential (c : ProgramCrew Memory Call Label Answer) : Nat :=
  (c.threads.map (rank.cost c.memory)).sum

theorem sum_map_set_le {α : Type} {f g : α → Nat} {d : Nat} (others : ∀ z, g z ≤ f z + d)
    {xs : List α} {i : Nat} {x : α} (here : xs[i]? = some x) (y : α) :
    ((xs.set i y).map g).sum + f x ≤ (xs.map f).sum + g y + xs.length * d := by
  have rest : ∀ zs : List α, (zs.map g).sum ≤ (zs.map f).sum + zs.length * d := by
    intro zs
    induction zs with
    | nil => simp
    | cons z zs ih =>
      have := others z
      simp only [List.map_cons, List.sum_cons, List.length_cons, Nat.add_mul]
      omega
  induction xs generalizing i with
  | nil => simp at here
  | cons z zs ih =>
    cases i with
    | zero =>
      obtain rfl : z = x := by simpa using here
      have := rest zs
      simp only [List.set_cons_zero, List.map_cons, List.sum_cons, List.length_cons, Nat.add_mul]
      omega
    | succ i =>
      have := others z
      have := ih (by simpa using here)
      simp only [List.set_cons_succ, List.map_cons, List.sum_cons, List.length_cons, Nat.add_mul]
      omega

theorem cost_le (m m' : Memory) (s : ProgramStatus Call Label Answer) :
    rank.cost m' s ≤ rank.cost m s + rank.most := by
  cases s with
  | returned => simp [cost]
  | running l =>
    obtain ⟨inside, left, answers⟩ := l
    cases inside with
    | none => simp [cost]
    | some k =>
      have := rank.weight_le m' k
      simp only [cost, Option.elim_some]
      omega

theorem cost_step_lt {m : Memory} {l : ProgramLabel Call Label Answer}
    (quiet : l.inside.bind (swap? m) = none) (choice : Choice) :
    rank.cost m (alg.program.step choice l m).status < rank.cost m (.running l) ∧
      ∀ s : ProgramStatus Call Label Answer,
        rank.cost (alg.program.step choice l m).memory s = rank.cost m s := by
  obtain ⟨inside, left, answers⟩ := l
  cases inside with
  | none =>
    cases left with
    | nil => exact ⟨Nat.succ_pos _, fun _ => rfl⟩
    | cons c left =>
      refine ⟨?_, fun _ => rfl⟩
      have := rank.weight_le m (alg.enter c)
      simp only [Algorithm.program, cost, Option.elim_some, Option.elim_none, List.length_cons,
        Nat.mul_add]
      omega
  | some k =>
    rw [Option.bind_some] at quiet
    have still : ∀ s : ProgramStatus Call Label Answer,
        rank.cost (alg.step choice k m).memory s = rank.cost m s := by
      intro s
      simp only [cost, rank.still quiet]
    cases status : (alg.step choice k m).status with
    | running k' =>
      have falls := rank.falls quiet choice k' status
      refine ⟨?_, fun s => by simpa only [Algorithm.program, status] using still s⟩
      simp only [Algorithm.program, status, cost, Option.elim_some]
      omega
    | returned a =>
      refine ⟨?_, fun s => by simpa only [Algorithm.program, status] using still s⟩
      simp only [Algorithm.program, status, cost, Option.elim_some, Option.elim_none]
      omega

theorem cost_step_le (m : Memory) (l : ProgramLabel Call Label Answer) (choice : Choice) :
    rank.cost (alg.program.step choice l m).memory (alg.program.step choice l m).status ≤
      rank.cost m (.running l) + rank.most := by
  obtain ⟨inside, left, answers⟩ := l
  cases inside with
  | none =>
    obtain ⟨falls, still⟩ := rank.cost_step_lt (m := m) (l := ⟨none, left, answers⟩) rfl choice
    rw [still]
    omega
  | some k =>
    cases status : (alg.step choice k m).status with
    | running k' =>
      have := rank.weight_le (alg.step choice k m).memory k'
      simp only [Algorithm.program, status, cost, Option.elim_some]
      omega
    | returned a =>
      simp only [Algorithm.program, status, cost, Option.elim_some, Option.elim_none]
      omega

variable {c : ProgramCrew Memory Call Label Answer}

theorem potential_act_lt {l : ProgramLabel Call Label Answer}
    (here : c.threads[i]? = some (.running l)) (quiet : l.inside.bind (swap? c.memory) = none)
    (choice : Choice) :
    rank.potential (c.act alg.program i fun _ _ => choice) < rank.potential c := by
  obtain ⟨falls, still⟩ := rank.cost_step_lt quiet choice
  have := sum_map_set_le (d := 0) (f := rank.cost c.memory) (fun s => Nat.le_of_eq (still s)) here
    (alg.program.step choice l c.memory).status
  rw [still] at this
  simp only [Crew.act, here, potential]
  omega

theorem potential_act_le {l : ProgramLabel Call Label Answer}
    (here : c.threads[i]? = some (.running l)) (choice : Choice) :
    rank.potential (c.act alg.program i fun _ _ => choice) ≤
      rank.potential c + (c.threads.length + 1) * rank.most := by
  have own := rank.cost_step_le c.memory l choice
  have := sum_map_set_le (rank.cost_le c.memory (alg.program.step choice l c.memory).memory) here
    (alg.program.step choice l c.memory).status
  simp only [Crew.act, here, potential, Nat.add_mul]
  omega

theorem exists_schedule {bound : Nat}
    (bounded : ∀ schedule, (alg.notes m programs swap? schedule).length ≤ bound)
    (run : Nat → ProgramCrew Memory Call Label Answer) (n : Nat)
    (start : run 0 = Crew.start alg.program m programs)
    (steps : ∀ k < n, Crew.Step alg.program (run k) (run (k + 1))) :
    ∃ schedule, run n = (Crew.start alg.program m programs).after alg.program schedule ∧
      n + rank.potential (run n) +
          (bound - (alg.notes m programs swap? schedule).length) *
            ((programs.length + 1) * rank.most + 1) ≤
        rank.potential (run 0) + bound * ((programs.length + 1) * rank.most + 1) := by
  induction n with
  | zero => exact ⟨[], start, by simp [Algorithm.notes, Algorithm.journal]⟩
  | succ n ih =>
    obtain ⟨schedule, same, fallen⟩ := ih fun k hk => steps k (Nat.lt_succ_of_lt hk)
    have step := steps n (Nat.lt_succ_self n)
    generalize hd : run (n + 1) = d at step ⊢
    cases step with
    | act i l choice here =>
      refine ⟨⟨i, choice⟩ :: schedule, by rw [Crew.after, same], ?_⟩
      have noted : (alg.viewAfter m programs schedule).noted swap? i =
          l.inside.bind (swap? (run n).memory) := by
        rw [Algorithm.viewAfter, ← same]
        simp [View.noted, ProgramCrew.view, here, ProgramStatus.inside]
      have length : (run n).threads.length = programs.length := by
        rw [same, Crew.length_after]
        simp [Crew.start]
      have count := bounded (⟨i, choice⟩ :: schedule)
      simp only [Algorithm.notes, Algorithm.journal, List.length_append, noted] at count fallen ⊢
      cases swap : l.inside.bind (swap? (run n).memory) with
      | none =>
        have := rank.potential_act_lt here swap choice
        simp only [Option.toList_none, List.length_nil, Nat.zero_add]
        omega
      | some w =>
        have risen := rank.potential_act_le here choice
        rw [swap, Option.toList_some, List.length_singleton] at count
        rw [length] at risen
        have left : bound - (alg.notes m programs swap? schedule).length =
            bound - (1 + (alg.notes m programs swap? schedule).length) + 1 := by
          simp only [Algorithm.notes]
          omega
        simp only [Algorithm.notes] at left
        rw [left, Nat.add_mul, Nat.one_mul] at fallen
        simp only [Option.toList_some, List.length_singleton]
        omega

end Finite

end Ranking

section Counted

variable {alg : Algorithm Memory Call Label Choice Answer} {swap? : Memory → Label → Option Swap}
  {m : Memory} {programs : List (List Call)}

/-- Where each operation makes at most one swap of a kind, there are no more of these than calls that
may make one. -/
theorem countP_notes_le (spent : Label → Prop) {p : Swap → Bool} {kind : Call → Bool}
    (pending : ∀ m l w, swap? m l = some w → p w → ¬ spent l)
    (settles : ∀ schedule i l choice l', (alg.viewAfter m programs schedule).label i = some l →
      (spent l ∨ ∃ w, swap? (alg.viewAfter m programs schedule).memory l = some w ∧ p w) →
      (alg.step choice l (alg.viewAfter m programs schedule).memory).status = .running l' → spent l')
    (due : ∀ schedule i l w, (alg.viewAfter m programs schedule).label i = some l →
      swap? (alg.viewAfter m programs schedule).memory l = some w → p w →
      ∃ c, ((alg.viewAfter m programs schedule).current i).call? programs = some c ∧ kind c)
    (schedule : List (Turn Choice)) :
    (alg.notes m programs swap? schedule).countP p ≤ programs.flatten.countP kind := by
  suffices ∃ os : List Operation, os.length = (alg.notes m programs swap? schedule).countP p ∧
      os.Nodup ∧ (∀ o ∈ os, ∃ c, o.call? programs = some c ∧ kind c) ∧
      ∀ o ∈ os, (alg.viewAfter m programs schedule).Covers (fun _ l => spent l) o by
    obtain ⟨os, length, distinct, kinds, _⟩ := this
    rw [← length]
    exact length_le_countP distinct kind kinds
  induction schedule with
  | nil => exact ⟨[], rfl, List.nodup_nil, nofun, nofun⟩
  | cons t earlier ih =>
    obtain ⟨os, length, distinct, kinds, covers⟩ := ih
    have step := alg.viewAfter_cons m programs t earlier
    have kept : ∀ o ∈ os,
        (alg.viewAfter m programs (t :: earlier)).Covers (fun _ l => spent l) o := by
      intro o ho
      refine step.covers (fun _ _ _ _ h => h) ?_ (covers o ho)
      exact fun l l' here goes h => settles earlier t.thread l _ l' here (.inl h) goes
    simp only [Algorithm.notes, Algorithm.journal, List.countP_append] at length ⊢
    cases noted : (alg.viewAfter m programs earlier).noted swap? t.thread with
    | none => exact ⟨os, by simpa using length, distinct, kinds, kept⟩
    | some w =>
      obtain ⟨l, here, swap⟩ := Option.bind_eq_some_iff.mp noted
      cases hp : p w with
      | false => exact ⟨os, by simpa [List.countP_cons, hp] using length, distinct, kinds, kept⟩
      | true =>
        have fresh : (alg.viewAfter m programs earlier).current t.thread ∉ os := fun mem =>
          View.not_covers_current here (pending _ l w swap hp) (covers _ mem)
        refine ⟨(alg.viewAfter m programs earlier).current t.thread :: os, ?_, ?_, ?_, ?_⟩
        · simp [hp, length]
          omega
        · exact List.nodup_cons.mpr ⟨fresh, distinct⟩
        · exact List.forall_mem_cons.mpr ⟨due earlier t.thread l w here swap hp, kinds⟩
        · refine List.forall_mem_cons.mpr ⟨?_, kept⟩
          rw [step.take here]
          cases status : (alg.step t.choice l (alg.viewAfter m programs earlier).memory).status with
          | running l' =>
            refine .inr ⟨l', ?_, settles earlier t.thread l _ l' here (.inr ⟨w, swap, hp⟩) status⟩
            rw [View.take, status]
            exact ⟨rfl, by simp [View.current]⟩
          | returned a =>
            refine .inl ?_
            rw [View.take, status, View.Answered]
            simp [View.current]

end Counted

section Alone

variable (alg : Algorithm Memory Call Label Choice Answer) (begins : Label → Bool)
  (choose : Label → Memory → Choice)

/-- How many of the first `n` moments of a call that moves alone find it at the beginning of its
loop. -/
def Algorithm.visits : Nat → Run Memory Label Answer → Nat
  | 0, _ => 0
  | n + 1, r =>
    (match r.status with
      | .running l => (begins l).toNat
      | .returned _ => 0) + visits n (alg.tick choose r)

/-- A call at `l` that moves alone returns, and is at the beginning of its loop `k` times at most. -/
def Settles (k : Nat) (m : Memory) (l : Label) : Prop :=
  ∀ trace, ∃ n a, (alg.advance choose n ⟨m, .running l, trace⟩).status = .returned a ∧
    alg.visits begins choose n ⟨m, .running l, trace⟩ ≤ k

variable {alg} {begins} {choose} {j k : Nat} {m : Memory} {l : Label}

theorem Settles.last {a : Answer} (gives : (alg.step (choose l m) l m).status = .returned a)
    (enough : (begins l).toNat ≤ k) : Settles alg begins choose k m l := by
  intro trace
  refine ⟨1, a, ?_, enough⟩
  rw [Algorithm.advance_succ]
  exact gives

theorem Settles.step (l' : Label) (goes : (alg.step (choose l m) l m).status = .running l')
    (rest : Settles alg begins choose j (alg.step (choose l m) l m).memory l')
    (enough : (begins l).toNat + j ≤ k) : Settles alg begins choose k m l := by
  intro trace
  obtain ⟨n, a, returned, visits⟩ := rest ((alg.step (choose l m) l m).events.reverse ++ trace)
  have tick : alg.tick choose ⟨m, .running l, trace⟩ = ⟨(alg.step (choose l m) l m).memory, .running l',
      (alg.step (choose l m) l m).events.reverse ++ trace⟩ := by
    rw [Algorithm.tick, ← goes]
  refine ⟨n + 1, a, ?_, ?_⟩
  · rw [Algorithm.advance_succ, tick, returned]
  · simp only [Algorithm.visits, tick]
    omega

end Alone

/-- No run of the programs is infinite: all runs, under every schedule, have at most `bound` steps. An
iteration of a loop ends without an answer only if a swap has succeeded since it began. A call that
moves alone, from wherever it stands or from its beginning and wherever the other threads have stopped,
returns and begins at most `rounds` iterations. -/
structure LockFree (alg : Algorithm Memory Call Label Choice Answer) (m : Memory)
    (swap? : Memory → Label → Option Swap) (begins : Label → Bool) (rounds : Nat)
    (programs : List (List Call)) : Prop where
  finite : ∃ bound, ∀ (run : Nat → ProgramCrew Memory Call Label Answer) n,
    run 0 = Crew.start alg.program m programs →
    (∀ k < n, Crew.Step alg.program (run k) (run (k + 1))) → n ≤ bound
  spoiled : ∀ (earlier turns : List (Turn Choice)) i l l',
    (alg.viewAfter m programs earlier).label i = some l → begins l →
    (alg.viewAfter m programs (turns ++ earlier)).label i = some l' → begins l' →
    (alg.viewAfter m programs (turns ++ earlier)).current i =
      (alg.viewAfter m programs earlier).current i →
    (∃ t ∈ turns, t.thread = i) →
    (alg.notes m programs swap? earlier).length <
      (alg.notes m programs swap? (turns ++ earlier)).length
  alone : ∀ (schedule : List (Turn Choice)) l,
    (∃ i, (alg.viewAfter m programs schedule).label i = some l) ∨ (∃ c, l = alg.enter c) →
    ∀ choose, Settles alg begins choose rounds (alg.viewAfter m programs schedule).memory l

/-- Weights and a bound on the swaps leave only the lone calls to look at. -/
theorem Ranking.lockFree {alg : Algorithm Memory Call Label Choice Answer} {m : Memory}
    {swap? : Memory → Label → Option Swap} {begins : Label → Bool} {rounds : Nat}
    {programs : List (List Call)} (rank : Ranking alg swap? begins) (bound : Nat)
    (bounded : ∀ schedule, (alg.notes m programs swap? schedule).length ≤ bound)
    (alone : ∀ (schedule : List (Turn Choice)) l,
      (∃ i, (alg.viewAfter m programs schedule).label i = some l) ∨ (∃ c, l = alg.enter c) →
      ∀ choose, Settles alg begins choose rounds (alg.viewAfter m programs schedule).memory l) :
    LockFree alg m swap? begins rounds programs where
  finite := by
    refine ⟨rank.potential (Crew.start alg.program m programs) +
      bound * ((programs.length + 1) * rank.most + 1), fun run n start steps => ?_⟩
    obtain ⟨_, _, fallen⟩ := rank.exists_schedule bounded run n start steps
    rw [start] at fallen
    omega
  spoiled _ _ _ _ _ here begun there again same moved :=
    rank.spoiled here begun there again same moved
  alone := alone

end SharedMemory
