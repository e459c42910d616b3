import SharedMemory.ArraySession

/-!
# Deadlines near the end of the clock

A configuration is accepted if an exchange begun at that moment could set its deadline. Each exchange
sets a deadline of its own, counted from the moment it begins, so an accepted timeout is good for as long
as the clock goes on after the first deadline, and for no longer.
-/
namespace SharedMemory

/-- In nanoseconds, the first moment that the clock does not show. -/
def Instant.clockEnd : Int := (Int64.maxValue.toInt + 1) * nanosPerSecond

namespace EliminationConfig

variable (config : EliminationConfig) (now later : Instant)

/-- In nanoseconds, how much of the clock is left after the deadline of an exchange begun at `now`. -/
def leeway : Int := Instant.clockEnd - (now.totalNanos + config.timeout.totalNanos)

theorem deadline?_eq_none_iff : config.deadline? now = none ↔ config.leeway now ≤ 0 := by
  rw [← Option.not_isSome_iff_eq_none, deadline?, Instant.add?_isSome_iff, leeway, Instant.clockEnd]
  omega

theorem leeway_eq : config.leeway later = config.leeway now - (later.totalNanos - now.totalNanos) := by
  rw [leeway, leeway]
  omega

theorem validate_eq_ok_iff :
    config.validate now = .ok () ↔
      config.slots ≠ 0 ∧ config.timeout.isZero = false ∧ 0 < config.leeway now := by
  have overflows := config.deadline?_eq_none_iff now
  unfold validate fault?
  by_cases none : config.slots = 0
  · simp [none]
  · by_cases zero : config.timeout.isZero = true
    · simp [none, zero]
    · by_cases late : config.deadline? now = .none
      · simp [none, zero, late, overflows.mp late]
      · have left : 0 < config.leeway now := by
          rw [overflows] at late
          omega
        simp [none, zero, late, left]

end EliminationConfig

namespace EliminationArray

variable (config : EliminationConfig) (now : Instant) (c : Call) (m : Memory)

/-- An exchange overflows when it sets its deadline, or not at all. -/
theorem exchange_overflows_iff :
    (exchange config now c m).2.answer = .refused (.panic .deadlineOverflow) ↔
      config.leeway now ≤ 0 := by
  rw [← config.deadline?_eq_none_iff]
  cases deadline : config.deadline? now with
  | none => simp [exchange, deadline]
  | some u =>
    simp only [exchange, deadline, reduceCtorEq, iff_false]
    cases (algorithm.call impatient exchangeSteps c m).status with
    | running l => nofun
    | returned a => cases a <;> nofun

/-- From the moment at which a configuration is accepted, an exchange overflows once as much time has gone
by as was left on the clock after the first deadline. -/
theorem overflows_after_leeway (accepted : config.validate now = .ok ()) :
    0 < config.leeway now ∧ ∀ later c m,
      (exchange config later c m).2.answer = .refused (.panic .deadlineOverflow) ↔
        config.leeway now ≤ later.totalNanos - now.totalNanos := by
  refine ⟨((config.validate_eq_ok_iff now).mp accepted).2.2, fun later c m => ?_⟩
  rw [exchange_overflows_iff, config.leeway_eq now later]
  omega

def longest : EliminationConfig :=
  { slots := 1, timeout := ⟨9223372036853775807, ⟨999999999, by decide⟩⟩ }

theorem longest_within_leeway :
    longest.validate .nominal = .ok () ∧ longest.leeway .nominal = 1 ∧
      (exchange longest .nominal .pop (.ofConfig longest)).2.answer ≠
        .refused (.panic .deadlineOverflow) := by
  have accepted : longest.validate .nominal = .ok () := rfl
  refine ⟨accepted, by decide, fun overflows => ?_⟩
  obtain ⟨left, late⟩ := overflows_after_leeway longest .nominal accepted
  have := (late .nominal .pop (.ofConfig longest)).mp overflows
  omega

/-- A timeout that is accepted, and overflows one nanosecond later. -/
theorem accepted_and_overflows_later :
    ∃ later : Instant, Instant.nominal.totalNanos ≤ later.totalNanos ∧
      longest.validate .nominal = .ok () ∧ longest.deadline? later = none ∧
      ∀ c, (exchange longest later c (.ofConfig longest)).2.answer =
        .refused (.panic .deadlineOverflow) :=
  ⟨⟨1000000, ⟨1, by decide⟩⟩, by decide, rfl, rfl, fun _ => rfl⟩

end EliminationArray

end SharedMemory
