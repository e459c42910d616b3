import Mathlib.Algebra.Group.Nat.Defs
import SharedMemory.Proofs.ArrayPairing

/-!
# When the words of a slot come back

A word is its stamp and its tag. Whatever tags a slot is given between a claim and the moment it is free
again, its stamp has grown by one, so its words come back after as many claims as there are stamps, and
not before. A popper whose compare-and-swap succeeds takes the very offer it saw, or one made that many
claims later or a multiple of it.
-/
namespace SharedMemory

namespace SlotWord

variable {w w' : SlotWord} {t : Tag}

theorem toNat_eq (w : SlotWord) : w.toNat = w.stamp.toNat * 4 + w.tagBits.toNat := by
  rw [toNat_stamp, toNat_tagBits]
  omega

theorem eq_iff_stamp_tag : w = w' ↔ w.stamp = w'.stamp ∧ w.tagBits = w'.tagBits := by
  constructor
  · rintro rfl
    exact ⟨rfl, rfl⟩
  · rintro ⟨stamp, tag⟩
    apply UInt64.toNat_inj.mp
    rw [toNat_eq w, stamp, tag, ← toNat_eq w']

theorem tagBits_of_hasTag (h : w.hasTag t) : w.tagBits = t.bits := by
  simpa [hasTag] using h

theorem tagBits_withTag (w : SlotWord) (t : Tag) : (w.withTag t).tagBits = t.bits :=
  tagBits_of_hasTag ((hasTag_withTag w t t).mpr rfl)

theorem withTag_eq_withTag_iff : w.withTag t = w'.withTag t ↔ w.stamp = w'.stamp := by
  rw [eq_iff_stamp_tag, stamp_withTag, stamp_withTag, tagBits_withTag, tagBits_withTag]
  exact and_iff_left rfl

/-- The word of a slot that has been claimed, given some tags one after the other and at last freed. -/
def claimAndFree (w : SlotWord) (tags : List Tag) : SlotWord :=
  (tags.foldl withTag w.nextClaim).withTag .free

theorem stamp_foldl_withTag (w : SlotWord) (tags : List Tag) : (tags.foldl withTag w).stamp = w.stamp := by
  induction tags generalizing w with
  | nil => rfl
  | cons t tags ih => rw [List.foldl_cons, ih, stamp_withTag]

theorem stamp_claimAndFree (w : SlotWord) (tags : List Tag) :
    (w.claimAndFree tags).stamp = w.nextClaim.stamp := by
  rw [claimAndFree, stamp_withTag, stamp_foldl_withTag]

theorem toNat_stamp_rounds (w : SlotWord) (rounds : List (List Tag)) :
    (rounds.foldl claimAndFree w).stamp.toNat = (w.stamp.toNat + rounds.length) % stamps := by
  induction rounds generalizing w with
  | nil => exact (Nat.mod_eq_of_lt w.stamp_lt).symm
  | cons tags rounds ih =>
    rw [List.foldl_cons, ih, stamp_claimAndFree, toNat_stamp_nextClaim, Nat.mod_add_mod,
      List.length_cons, Nat.add_assoc, Nat.add_comm 1]

/-- A stamp is the same again after a multiple of as many claims as there are stamps. -/
theorem stamp_same_iff (w : SlotWord) (n : Nat) :
    (w.stamp.toNat + n) % stamps = w.stamp.toNat ↔ stamps ∣ n := by
  have bound := w.stamp_lt
  rw [stamps] at *
  omega

theorem withTag_rounds_eq_iff (w : SlotWord) (rounds : List (List Tag)) (t : Tag) :
    (rounds.foldl claimAndFree w).withTag t = w.withTag t ↔ stamps ∣ rounds.length := by
  rw [withTag_eq_withTag_iff, ← UInt64.toNat_inj, toNat_stamp_rounds, stamp_same_iff]

/-- What becomes of the two fields of a word. -/
structure Packs (w : SlotWord) : Prop where
  retagged : ∀ t : Tag, (w.withTag t).tagBits = t.bits ∧ (w.withTag t).stamp = w.stamp
  claimed : w.nextClaim.tagBits = Tag.claimed.bits ∧
    w.nextClaim.stamp.toNat = (w.stamp.toNat + 1) % 2 ^ 62
  same : ∀ w' : SlotWord, w = w' ↔ w.stamp = w'.stamp ∧ w.tagBits = w'.tagBits
  /-- Each round is a claim of the slot until it is free again, with the tags it is given meanwhile. -/
  returns : ∀ (rounds : List (List Tag)) (t : Tag),
    (rounds.foldl claimAndFree w).withTag t = w.withTag t ↔ 2 ^ 62 ∣ rounds.length

theorem packs (w : SlotWord) : Packs w where
  retagged t := ⟨tagBits_withTag w t, stamp_withTag w t⟩
  claimed := ⟨tagBits_of_hasTag (hasTag_nextClaim w), toNat_stamp_nextClaim w⟩
  same _ := eq_iff_stamp_tag
  returns := withTag_rounds_eq_iff w

end SlotWord

namespace EliminationArray

open SlotWord

/-- The word that a popper saw stands in the slot again if the slot is offered, and has been claimed since
a multiple of as many times as there are stamps. -/
theorem Since.met_iff {m : Memory} {claims s : Nat} {seen : SlotWord} (h : Since m claims s seen) :
    (m.slot s).word = seen ↔ (m.slot s).word.hasTag .offered ∧ stamps ∣ claims := by
  have stamp : (m.slot s).word.stamp = seen.stamp ↔ stamps ∣ claims := by
    rw [← UInt64.toNat_inj, h.stamp, stamp_same_iff]
  rw [eq_iff_stamp_tag, stamp, tagBits_of_hasTag h.offered, and_comm, hasTag, beq_iff_eq]

/-- The two fields of a word never run into each other, and a word comes back after a multiple of 2 ^ 62
claims. Hence a popper that is about to take an offer finds the word it saw if, and only if, there is an
offer and the slot was claimed such a number of times since it looked. -/
theorem words_come_back :
    (∀ w : SlotWord, w.Packs) ∧
    ∀ (config : EliminationConfig) (programs : List (List Call)) (schedule : List (Turn Choice))
      (i s : Nat) (seen : SlotWord) (v : Value), config.slots ≠ 0 →
      (after config programs schedule).label i = some (.popTake s seen v) →
      let word := ((after config programs schedule).memory.slot s).word
      let claims := claimsSince (scene config programs) schedule i s
      seen.hasTag .offered ∧ (word = seen ↔ word.hasTag .offered ∧ 2 ^ 62 ∣ claims) := by
  refine ⟨packs, ?_⟩
  intro config programs schedule i s seen v slots here word claims
  obtain ⟨since, -⟩ := (sound slots programs schedule).sees i _ here
  exact ⟨since.offered, since.met_iff⟩

/-- Thread 0 offers a seven, thread 1 sees the offer and reads the seven, thread 0 withdraws it, claims the
slot anew and offers an eight. -/
def secondOffer : List (Turn Choice) :=
  ([(0, false), (0, false), (0, false), (0, false), (0, false), (1, false), (1, false), (1, false),
    (0, true), (0, true), (0, false), (0, false), (0, false), (0, false), (0, false)].map
      fun (i, expired) => ⟨i, 0, expired⟩).reverse

/-- One claim is not a multiple of 2 ^ 62, so the seven is not taken in place of the eight. -/
theorem second_offer_not_met :
    let v := after { slots := 1 } [[.push 7, .push 8], [.pop]] secondOffer
    (v.memory.slot 0).word.hasTag .offered ∧ (v.memory.slot 0).value = 8 ∧
      v.label 1 = some (.popTake 0 6 7) ∧ (v.memory.slot 0).word ≠ 6 := by
  have here : (after { slots := 1 } [[.push 7, .push 8], [.pop]] secondOffer).label 1 =
      some (.popTake 0 6 7) := rfl
  have once : claimsSince (scene { slots := 1 } [[.push 7, .push 8], [.pop]]) secondOffer 1 0 = 1 := rfl
  obtain ⟨-, met⟩ := words_come_back.2 { slots := 1 } [[.push 7, .push 8], [.pop]] secondOffer 1 0 6 7
    (by decide) here
  refine ⟨rfl, rfl, here, fun same => ?_⟩
  have divides := (met.mp same).2
  rw [once] at divides
  omega

end EliminationArray

end SharedMemory
