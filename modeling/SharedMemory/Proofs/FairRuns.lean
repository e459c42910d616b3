import Mathlib.Order.WellFounded
import SharedMemory.Proofs.Schedule

/-!
# Crews that return under fair schedules

An endless schedule is fair if it gives every thread turns again and again. A crew returns under it if at
any time some thread is helpful: its next turn lowers a rank that the turns of the others never raise, and
until then it stays helpful unless they lower the rank themselves.
-/
namespace SharedMemory

variable {Memory Call Label Choice Answer : Type}

def firstTurns (turns : Nat → Turn Choice) : Nat → List (Turn Choice)
  | 0 => []
  | n + 1 => turns n :: firstTurns turns n

/-- Every one of so many threads has a turn after any moment. -/
def Fair (threads : Nat) (turns : Nat → Turn Choice) : Prop :=
  ∀ i < threads, ∀ n, ∃ k, (turns (n + k)).thread = i

/-- Threads that are taken in turn all have turns again and again. -/
theorem fair_inTurn (threads : Nat) (choice : Choice) : Fair threads fun n => ⟨n % threads, choice⟩ := by
  intro i inside n
  refine ⟨i + (threads - n % threads), ?_⟩
  have whole := Nat.div_add_mod n threads
  have below := Nat.mod_lt n (Nat.zero_lt_of_lt inside)
  have same : n + (i + (threads - n % threads)) = i + threads * (n / threads + 1) := by
    rw [Nat.mul_add]
    omega
  change (n + _) % threads = i
  rw [same, Nat.add_mul_mod_self_left, Nat.mod_eq_of_lt inside]

namespace Crew

variable {alg : Algorithm Memory Call Label Choice Answer} {c : Crew Memory Label Answer}

theorem answers_of_returned (h : ∀ s ∈ c.threads, ∃ a, s = .returned a) : c.answers?.isSome := by
  rw [answers?]
  generalize c.threads = threads at h
  induction threads with
  | nil => rfl
  | cons s rest ih =>
    obtain ⟨a, rfl⟩ := h s List.mem_cons_self
    obtain ⟨as, answers⟩ := Option.isSome_iff_exists.mp (ih fun s hs => h s (List.mem_cons_of_mem _ hs))
    rw [List.mapM_cons, answers]
    rfl

theorem act_of_idle {i : Nat} {l : Label} {choice : Choice} (here : c.threads[i]? = some (.running l))
    (idle : alg.step choice l c.memory = ⟨c.memory, .running l, []⟩) :
    (c.act alg i fun _ _ => choice) = c := by
  obtain ⟨inside, at_l⟩ := List.getElem?_eq_some_iff.mp here
  rw [act_running alg here, idle, ← at_l, List.set_getElem_self]
  rfl

/-- A rank of the reachable crews, and the threads that are helpful at each of them. -/
structure Ranked {Rank : Type} [Preorder Rank] (alg : Algorithm Memory Call Label Choice Answer)
    (c : Crew Memory Label Answer) (rank : Crew Memory Label Answer → Rank)
    (Helpful : Crew Memory Label Answer → Nat → Prop) : Prop where
  some_helpful : ∀ schedule, ¬ (c.after alg schedule).answers?.isSome →
    ∃ i < c.threads.length, Helpful (c.after alg schedule) i
  lowers : ∀ schedule (t : Turn Choice), Helpful (c.after alg schedule) t.thread →
    rank (c.after alg (t :: schedule)) < rank (c.after alg schedule)
  waits : ∀ schedule (t : Turn Choice) i, Helpful (c.after alg schedule) i → i ≠ t.thread →
    rank (c.after alg (t :: schedule)) < rank (c.after alg schedule) ∨
      rank (c.after alg (t :: schedule)) ≤ rank (c.after alg schedule) ∧
        Helpful (c.after alg (t :: schedule)) i

variable {Rank : Type} [Preorder Rank] {rank : Crew Memory Label Answer → Rank}
  {Helpful : Crew Memory Label Answer → Nat → Prop} {turns : Nat → Turn Choice} {i n k : Nat}

/-- By the time a helpful thread has had its turn the rank is lower. -/
theorem Ranked.lower (h : Ranked alg c rank Helpful) (helpful : Helpful (c.after alg (firstTurns turns n)) i)
    (turn : (turns (n + k)).thread = i) :
    ∃ n', rank (c.after alg (firstTurns turns n')) < rank (c.after alg (firstTurns turns n)) := by
  induction k generalizing n with
  | zero => exact ⟨n + 1, h.lowers _ (turns n) (turn ▸ helpful)⟩
  | succ k ih =>
    by_cases now : i = (turns n).thread
    · exact ⟨n + 1, h.lowers _ (turns n) (now ▸ helpful)⟩
    · rcases h.waits _ (turns n) i helpful now with lower | ⟨same, still⟩
      · exact ⟨n + 1, lower⟩
      · obtain ⟨n', lower⟩ := ih (n := n + 1) still (by rwa [Nat.add_right_comm])
        exact ⟨n', lower.trans_le same⟩

/-- A ranked crew returns under every fair schedule. -/
theorem Ranked.returns [WellFoundedLT Rank] (h : Ranked alg c rank Helpful)
    (fair : Fair c.threads.length turns) : ∃ n, (c.after alg (firstTurns turns n)).answers?.isSome := by
  by_contra never
  obtain ⟨least, ⟨n, rfl⟩, minimal⟩ := WellFounded.has_min wellFounded_lt
    (Set.range fun n => rank (c.after alg (firstTurns turns n))) ⟨_, 0, rfl⟩
  obtain ⟨i, inside, helpful⟩ := h.some_helpful (firstTurns turns n) fun done => never ⟨n, done⟩
  obtain ⟨k, turn⟩ := fair i inside n
  obtain ⟨n', lower⟩ := h.lower helpful turn
  exact minimal _ ⟨n', rfl⟩ lower

end Crew

end SharedMemory
