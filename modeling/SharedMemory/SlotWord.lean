/-!
# The state word of an elimination slot

Two low bits hold a tag, the other 62 a stamp that grows by one with every claim of the slot and
wraps. Changing the tag keeps the stamp, so a word seen under one claim is not met again under a
later one until the stamp has gone all the way round.
-/
namespace SharedMemory

abbrev SlotWord := UInt64

namespace SlotWord

inductive Tag | free | claimed | offered | taken deriving DecidableEq

def Tag.bits : Tag → UInt64
  | .free => 0
  | .claimed => 1
  | .offered => 2
  | .taken => 3

def mask : UInt64 := 3

/-- How many stamps there are: two to the power 62. -/
def stamps : Nat := 4611686018427387904

def tagBits (w : SlotWord) : UInt64 := w &&& mask

def hasTag (w : SlotWord) (t : Tag) : Bool := w.tagBits == t.bits

def stamp (w : SlotWord) : UInt64 := w >>> 2

def withTag (w : SlotWord) (t : Tag) : SlotWord := (w &&& ~~~mask) ||| t.bits

/-- The word of the next claim; the bit that leaves the stamp at the top is lost. -/
def nextClaim (w : SlotWord) : SlotWord := ((w >>> 2 + 1) <<< 2) ||| Tag.claimed.bits

theorem toNat_tagBits (w : SlotWord) : w.tagBits.toNat = w.toNat % 4 := by
  simpa [tagBits, mask] using Nat.and_two_pow_sub_one_eq_mod w.toNat 2

theorem toNat_stamp (w : SlotWord) : w.stamp.toNat = w.toNat / 4 := by
  simp [stamp, Nat.shiftRight_eq_div_pow]

theorem Tag.toNat_bits_lt (t : Tag) : t.bits.toNat < 4 := by cases t <;> decide

theorem testBit_mask (i : Nat) : (3 : Nat).testBit i = decide (i < 2) :=
  Nat.testBit_two_pow_sub_one 2 i

/-- Without its tag a word is its stamp, shifted back. -/
theorem and_not_mask (w : SlotWord) : w &&& ~~~mask = w.stamp <<< 2 := by
  apply UInt64.toBitVec_inj.mp
  apply BitVec.eq_of_getLsbD_eq
  intro i hi
  have hm : mask.toBitVec.getLsbD i = decide (i < 2) := testBit_mask i
  rw [UInt64.toBitVec_and, UInt64.toBitVec_not, BitVec.getLsbD_and, BitVec.getLsbD_not, hm]
  by_cases h : i < 2 <;> simp [stamp, h, hi, Nat.not_lt.mp]

/-- A tag fills the two bits below a shifted stamp. -/
theorem toNat_or_bits (stamp : UInt64) (t : Tag) :
    (stamp <<< 2 ||| t.bits).toNat = stamp.toNat % stamps * 4 + t.bits.toNat := by
  have h : (stamp <<< 2).toNat = (stamp.toNat % stamps) <<< 2 := by
    simp [Nat.shiftLeft_eq, stamps]
    omega
  rw [UInt64.toNat_or, h, ← Nat.shiftLeft_add_eq_or_of_lt t.toNat_bits_lt, Nat.shiftLeft_eq]

theorem toNat_withTag (w : SlotWord) (t : Tag) :
    (w.withTag t).toNat = w.toNat / 4 * 4 + t.bits.toNat := by
  have hw := w.toNat_lt
  rw [withTag, and_not_mask, toNat_or_bits, toNat_stamp, stamps]
  omega

theorem toNat_nextClaim (w : SlotWord) :
    w.nextClaim.toNat = (w.toNat / 4 + 1) % stamps * 4 + 1 := by
  have h : (w.stamp + 1).toNat = w.toNat / 4 + 1 := by
    have hw := w.toNat_lt
    rw [UInt64.toNat_add, toNat_stamp]
    simp only [UInt64.reduceToNat]
    omega
  rw [nextClaim, show w >>> 2 + 1 = w.stamp + 1 from rfl, toNat_or_bits, h]
  rfl

end SlotWord

end SharedMemory
