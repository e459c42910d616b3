/-! # A clock of signed 64-bit seconds and nanoseconds, and the deadlines it can hold -/
namespace SharedMemory

def nanosPerSecond : Nat := 1000000000

structure Duration where
  secs : UInt64
  nanos : Fin nanosPerSecond
  deriving DecidableEq

structure Instant where
  secs : Int64
  nanos : Fin nanosPerSecond
  deriving DecidableEq

namespace Duration

def ofMicros (micros : Nat) : Duration where
  secs := UInt64.ofNat (micros / 1000000)
  nanos := ⟨micros % 1000000 * 1000, by
    have := Nat.mod_lt micros (show 0 < 1000000 by decide)
    simp only [nanosPerSecond]; omega⟩

def isZero (d : Duration) : Bool := d.secs == 0 && d.nanos.val == 0

def totalNanos (d : Duration) : Nat := d.secs.toNat * nanosPerSecond + d.nanos.val

/-- Whole microseconds, cut to 64 bits. -/
def toMicros (d : Duration) : UInt64 := UInt64.ofNat (d.secs.toNat * 1000000 + d.nanos.val / 1000)

end Duration

namespace Instant

/-- A moment of the monotonic clock early enough for every timeout below `2 ^ 63 - 10 ^ 12`
seconds. -/
def nominal : Instant := ⟨1000000, ⟨0, by decide⟩⟩

def totalNanos (t : Instant) : Int := t.secs.toInt * nanosPerSecond + t.nanos.val

/-- The moment `d` after `t`; `none` when its seconds do not fit the width. -/
def add? (t : Instant) (d : Duration) : Option Instant :=
  let nanos := t.nanos.val + d.nanos.val
  let secs := t.secs.toInt + d.secs.toNat + (nanos / nanosPerSecond : Nat)
  if secs ≤ Int64.maxValue.toInt then
    some ⟨Int64.ofInt secs, ⟨nanos % nanosPerSecond, Nat.mod_lt _ (by decide)⟩⟩
  else none

theorem add?_isSome_iff {t : Instant} {d : Duration} :
    (t.add? d).isSome ↔
      t.totalNanos + d.totalNanos < (Int64.maxValue.toInt + 1) * nanosPerSecond := by
  have hn := t.nanos.isLt
  have hd := d.nanos.isLt
  have fits : (t.add? d).isSome ↔ t.secs.toInt + d.secs.toNat +
      ((t.nanos.val + d.nanos.val) / nanosPerSecond : Nat) ≤ Int64.maxValue.toInt := by
    simp [add?]
  rw [fits]
  simp only [totalNanos, Duration.totalNanos, nanosPerSecond] at *
  omega

end Instant

end SharedMemory
