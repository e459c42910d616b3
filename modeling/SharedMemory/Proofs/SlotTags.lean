import SharedMemory.EliminationArray

/-!
# Tags, stamps and slots

Only a claim changes the stamp of a slot. A word that a popper saw is met again only under the same
claim, unless the stamp has gone all the way round in the meantime.
-/
namespace SharedMemory

namespace SlotWord

theorem Tag.bits_inj {t t' : Tag} (h : t.bits.toNat = t'.bits.toNat) : t = t' := by
  revert h
  cases t <;> cases t' <;> decide

theorem hasTag_iff (w : SlotWord) (t : Tag) : w.hasTag t ↔ w.toNat % 4 = t.bits.toNat := by
  rw [← toNat_tagBits, hasTag, beq_iff_eq, UInt64.toNat_inj]

@[simp] theorem hasTag_withTag (w : SlotWord) (t t' : Tag) : (w.withTag t).hasTag t' ↔ t = t' := by
  have ht := t.toNat_bits_lt
  rw [hasTag_iff, toNat_withTag]
  constructor
  · intro h
    apply Tag.bits_inj
    omega
  · intro h
    rw [← h]
    omega

theorem hasTag_unique {w : SlotWord} {t t' : Tag} (h : w.hasTag t) (h' : w.hasTag t') : t = t' := by
  rw [hasTag_iff] at h h'
  exact Tag.bits_inj (h.symm.trans h')

theorem hasTag_nextClaim (w : SlotWord) : w.nextClaim.hasTag .claimed := by
  rw [hasTag_iff, toNat_nextClaim]
  have : Tag.claimed.bits.toNat = 1 := rfl
  omega

@[simp] theorem stamp_withTag (w : SlotWord) (t : Tag) : (w.withTag t).stamp = w.stamp := by
  have ht := t.toNat_bits_lt
  apply UInt64.toNat_inj.mp
  rw [toNat_stamp, toNat_stamp, toNat_withTag]
  omega

theorem toNat_stamp_nextClaim (w : SlotWord) :
    w.nextClaim.stamp.toNat = (w.stamp.toNat + 1) % stamps := by
  rw [toNat_stamp, toNat_stamp, toNat_nextClaim]
  omega

@[simp] theorem withTag_withTag (w : SlotWord) (t t' : Tag) :
    (w.withTag t).withTag t' = w.withTag t' := by
  have ht := t.toNat_bits_lt
  apply UInt64.toNat_inj.mp
  rw [toNat_withTag, toNat_withTag, toNat_withTag]
  omega

@[simp] theorem withTag_inj {w : SlotWord} {t t' : Tag} : w.withTag t = w.withTag t' ↔ t = t' := by
  constructor
  · intro h
    have := (hasTag_withTag w t t).mpr rfl
    rw [h, hasTag_withTag] at this
    exact this.symm
  · intro h
    rw [h]

theorem stamp_lt (w : SlotWord) : w.stamp.toNat < stamps := by
  have hw := w.toNat_lt
  rw [toNat_stamp, stamps]
  omega

/-- As long as fewer claims were made than there are stamps, a word met again is a word not claimed
since. -/
theorem claims_eq_zero {w : SlotWord} {n : Nat} (h : w.stamp.toNat = (w.stamp.toNat + n) % stamps)
    (few : n < stamps) : n = 0 := by
  have := w.stamp_lt
  rw [stamps] at *
  omega

end SlotWord

namespace EliminationArray.Memory

variable {m : Memory} {i : Nat}

@[simp] theorem size_setWord (m : Memory) (i : Nat) (word : SlotWord) :
    (m.setWord i word).slots.size = m.slots.size := by simp [setWord]

@[simp] theorem size_setValue (m : Memory) (i : Nat) (value : Value) :
    (m.setValue i value).slots.size = m.slots.size := by simp [setValue]

theorem slot_modify (h : i < m.slots.size) (change : Slot → Slot) (k : Nat) :
    Memory.slot ⟨m.slots.modify i change⟩ k = if k = i then change (m.slot k) else m.slot k := by
  simp only [slot, Array.getD_eq_getD_getElem?, Array.getElem?_modify]
  by_cases hk : i = k
  · subst hk
    simp [h]
  · simp [hk, Ne.symm hk]

theorem slot_setWord (h : i < m.slots.size) (word : SlotWord) (k : Nat) :
    (m.setWord i word).slot k = if k = i then { m.slot k with word } else m.slot k :=
  slot_modify h _ k

theorem slot_setValue (h : i < m.slots.size) (value : Value) (k : Nat) :
    (m.setValue i value).slot k = if k = i then { m.slot k with value } else m.slot k :=
  slot_modify h _ k

end EliminationArray.Memory

end SharedMemory
