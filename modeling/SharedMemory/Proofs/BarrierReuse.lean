import Mathlib.Data.Nat.Bits
import SharedMemory.Generations
import SharedMemory.Proofs.Schedule

/-!
# A barrier that is met again and again

Participants with fresh tokens wait any number of times each, in any interleaving. Generations
overlap: the leader of a generation resets the counter before it flips the sense, and the fast arrive
again while the slow have still to leave. `Standing` says where everybody may be once the sense has
been flipped `G` times; the sense then is the parity of `G`.
-/
namespace SharedMemory.SenseReversingBarrier

open Generations

abbrev Place : Type := Status (Position Label) Unit

abbrev State : Type := Crew (Tally Memory) (Position Label) Unit

abbrev Member : Type := Participant × Place

namespace Member

def begun : Member → Nat
  | (_, .running (.begin g _)) => g
  | (_, .running (.waiting g _ _)) | (_, .running (.check g _ _)) => g + 1
  | (p, .returned _) => p.waits

def arrivals : Member → Nat
  | (_, .running (.waiting g _ (.arrive _))) => g
  | x => x.begun

def left : Member → Nat
  | (_, .running (.waiting g _ _)) => g
  | x => x.begun

/-- The participant is inside its wait number `g`, counted from zero. -/
def Inside (g : Nat) (x : Member) : Prop := ∃ p l, x.2 = .running (.waiting g p l)

def SpinsFor (sense : Bool) (x : Member) : Prop := ∃ g p, x.2 = .running (.waiting g p (.wait sense))

end Member

def members (ps : List Participant) (c : State) : List Member := ps.zip c.threads

namespace Place

def inside (g : Nat) : Place → Bool
  | .running (.waiting k _ _) => k == g
  | _ => false

/-- Counted as arrived in generation `g`, which it has not left. -/
def counted (g : Nat) : Place → Bool
  | .running (.waiting _ _ (.arrive _)) => false
  | s => s.inside g

def resets : Place → Bool
  | .running (.waiting _ _ (.reset _)) => true
  | _ => false

def flips : Place → Bool
  | .running (.waiting _ _ (.flip _)) => true
  | _ => false

def leads (g : Nat) : Place → Bool
  | .running (.check k _ led) => led && k == g
  | _ => false

end Place

def leadersOf (m : Tally Memory) (threads : List Place) (g : Nat) : Nat :=
  m.leaders.getD g 0 + threads.countP (Place.leads g)

/-- Where in its wait number `g` a participant may be when the sense has been flipped `G` times. -/
def Abreast (G g : Nat) : Label → Prop
  | .arrive sense | .reset sense | .flip sense => g = G ∧ sense = (g + 1).bodd
  | .wait sense => (g = G ∨ g + 1 = G) ∧ sense = (g + 1).bodd

def Fits (G : Nat) (p : Participant) : Place → Prop
  | .returned _ => p.waits = G
  | .running (.begin g q) => g = G ∧ g ≤ p.waits ∧ q.waits = p.waits ∧ q.token.sense = g.bodd
  | .running (.waiting g q l) =>
    g < p.waits ∧ q.waits = p.waits ∧ q.token.sense = g.bodd ∧ Abreast G g l
  | .running (.check g q _) =>
    g + 1 = G ∧ g < p.waits ∧ q.waits = p.waits ∧ q.token.sense = (g + 1).bodd

/-- The sense has been flipped `G` times. Once all have arrived in generation `G`, one of them is about
to reset the counter or to flip the sense. -/
structure Standing (n : UInt64) (ps : List Participant) (rounds G : Nat) (m : Tally Memory)
    (threads : List Place) : Prop where
  parties : m.barrier.parties = n
  length : threads.length = n.toNat
  fits : ∀ (i : Nat) (s : Place), threads[i]? = some s → ∃ p, ps[i]? = some p ∧ Fits G p s
  sense : m.barrier.sense = G.bodd
  closing : threads.countP Place.resets + threads.countP Place.flips =
    if threads.countP (Place.counted G) = n.toNat then 1 else 0
  count : m.barrier.count.toNat =
    if threads.countP Place.flips = 1 then 0 else threads.countP (Place.counted G)
  listed : m.leaders.length = rounds
  led : ∀ g < rounds, leadersOf m threads g = if g < G then 1 else 0
  arrived : m.arrived = G * n.toNat + threads.countP (Place.inside G)
  early : m.early = 0

theorem countP_counted_le (g : Nat) (threads : List Place) :
    threads.countP (Place.counted g) ≤ threads.countP (Place.inside g) := by
  refine List.countP_mono_left fun t _ counted => ?_
  unfold Place.counted at counted
  split at counted
  · cases counted
  · exact counted

section Counts

variable {α : Type} {l : List α} {i : Nat} {a b : α} {p : α → Bool}

theorem countP_set_add (here : l[i]? = some a) (p : α → Bool) (b : α) :
    (l.set i b).countP p + (p a).toNat = l.countP p + (p b).toNat := by
  obtain ⟨hi, rfl⟩ := List.getElem?_eq_some_iff.mp here
  rw [List.countP_set hi]
  cases before : p l[i] with
  | false => cases p b <;> simp
  | true =>
    have pos := List.countP_pos_iff.mpr ⟨l[i], List.getElem_mem hi, before⟩
    cases p b <;> simp <;> omega

theorem countP_set_same (here : l[i]? = some a) (same : p b = p a) :
    (l.set i b).countP p = l.countP p := by
  have counts := countP_set_add here p b
  rw [same] at counts
  omega

theorem countP_set_gain (here : l[i]? = some a) (before : p a = false) (now : p b = true) :
    (l.set i b).countP p = l.countP p + 1 := by
  have counts := countP_set_add here p b
  simpa [before, now] using counts

theorem countP_set_loss (here : l[i]? = some a) (before : p a = true) (now : p b = false) :
    (l.set i b).countP p + 1 = l.countP p := by
  have counts := countP_set_add here p b
  simpa [before, now] using counts

end Counts

def crew (n : UInt64) (waits : List Nat) (rounds : Nat) : State :=
  Crew.start (Generations.algorithm algorithm n.toNat)
    { barrier := { parties := n }, leaders := List.replicate rounds 0 }
    (waits.map fun k => { waits := k })

section Step

variable {n : UInt64} {ps : List Participant} {rounds G g i : Nat} {m m' : Tally Memory}
  {threads : List Place} {s s' : Place} {q : Participant} {sense : Bool}

theorem Standing.fits_set {G' : Nat} (h : Standing n ps rounds G m threads)
    (here : threads[i]? = some s) (own : ∀ p, Fits G p s → Fits G' p s')
    (others : ∀ (j : Nat) t p, j ≠ i → threads[j]? = some t → Fits G p t → Fits G' p t) :
    ∀ (j : Nat) (t : Place), (threads.set i s')[j]? = some t → ∃ p, ps[j]? = some p ∧ Fits G' p t := by
  intro j t there
  by_cases hj : j = i
  · subst hj
    rw [List.getElem?_set_self (List.getElem?_eq_some_iff.mp here).1] at there
    cases there
    obtain ⟨p, hp, hs⟩ := h.fits j s here
    exact ⟨p, hp, own p hs⟩
  · rw [List.getElem?_set_ne (Ne.symm hj)] at there
    obtain ⟨p, hp, ht⟩ := h.fits j t there
    exact ⟨p, hp, others j t p hj there ht⟩

/-- A step that neither arrives, nor resets, nor flips. -/
theorem Standing.look (h : Standing n ps rounds G m threads) (here : threads[i]? = some s)
    (barrier : m'.barrier = m.barrier) (fits : ∀ p, Fits G p s → Fits G p s')
    (counted : s'.counted G = s.counted G) (resets : s'.resets = s.resets)
    (flips : s'.flips = s.flips) (leaders : m'.leaders.length = m.leaders.length)
    (led : ∀ g < rounds, leadersOf m' (threads.set i s') g =
      if g < G then 1 else 0)
    (arrived : m'.arrived = G * n.toNat + (threads.set i s').countP (Place.inside G))
    (early : m'.early = 0) : Standing n ps rounds G m' (threads.set i s') where
  parties := by rw [barrier, h.parties]
  length := by rw [List.length_set, h.length]
  fits := h.fits_set here fits fun _ _ _ _ _ fits => fits
  sense := by rw [barrier, h.sense]
  closing := by
    rw [countP_set_same here resets, countP_set_same here flips, countP_set_same here counted]
    exact h.closing
  count := by
    rw [countP_set_same here flips, countP_set_same here counted, barrier]
    exact h.count
  listed := leaders.trans h.listed
  led := led
  arrived := arrived
  early := early

theorem Standing.led_same (h : Standing n ps rounds G m threads) (here : threads[i]? = some s)
    (leaders : m'.leaders = m.leaders) (same : ∀ g, s'.leads g = s.leads g) :
    ∀ g < rounds, leadersOf m' (threads.set i s') g = if g < G then 1 else 0 := by
  intro g hg
  rw [leadersOf, countP_set_same here (same g), leaders]
  exact h.led g hg

theorem Standing.begin (h : Standing n ps rounds G m threads)
    (here : threads[i]? = some (.running (.begin g q))) (more : g < q.waits) :
    Standing n ps rounds G { m with arrived := m.arrived + 1 }
      (threads.set i (.running (.waiting g q (algorithm.enter q.token)))) := by
  obtain ⟨p, _, same, _⟩ := h.fits i _ here
  subst same
  apply h.look here
  · rfl
  · rintro p ⟨_, _, waits, sense⟩
    refine ⟨waits ▸ more, waits, sense, rfl, ?_⟩
    simp [SenseToken.flip, sense, Nat.bodd_succ]
  · rfl
  · rfl
  · rfl
  · rfl
  · exact h.led_same here rfl fun _ => rfl
  · rw [countP_set_gain here rfl (by simp [Place.inside]), ← Nat.add_assoc, ← h.arrived]
  · exact h.early

theorem Standing.finish (h : Standing n ps rounds G m threads)
    (here : threads[i]? = some (.running (.begin g q))) (done : ¬ g < q.waits) :
    Standing n ps rounds G m (threads.set i (.returned ())) := by
  apply h.look here
  · rfl
  · rintro p ⟨same, bound, waits, _⟩
    rw [waits] at done
    rw [Fits]
    omega
  · rfl
  · rfl
  · rfl
  · rfl
  · exact h.led_same here rfl fun _ => rfl
  · rw [countP_set_same here]
    · exact h.arrived
    · rfl
  · exact h.early

/-- While somebody has still to arrive no leader is at work, and the counter shows how many have. -/
theorem Standing.gathering (h : Standing n ps rounds G m threads)
    (below : threads.countP (Place.counted G) < n.toNat) :
    threads.countP Place.resets + threads.countP Place.flips = 0 ∧
      m.barrier.count.toNat = threads.countP (Place.counted G) := by
  have closing := h.closing
  rw [if_neg (Nat.ne_of_lt below)] at closing
  have count := h.count
  rw [if_neg (by omega)] at count
  exact ⟨closing, count⟩

theorem Standing.last_iff (h : Standing n ps rounds G m threads)
    (below : threads.countP (Place.counted G) < n.toNat) :
    m.barrier.count = m.barrier.parties - 1 ↔ threads.countP (Place.counted G) + 1 = n.toNat := by
  have one : (1 : UInt64) ≤ n := by
    rw [UInt64.le_iff_toNat_le, UInt64.toNat_one]
    omega
  rw [h.parties, ← UInt64.toNat_inj, UInt64.toNat_sub_of_le _ _ one, (h.gathering below).2,
    UInt64.toNat_one]
  omega

theorem Standing.arrive (h : Standing n ps rounds G m threads)
    (here : threads[i]? = some (.running (.waiting g q (.arrive sense)))) :
    Standing n ps rounds G { m with barrier := { m.barrier with count := m.barrier.count + 1 } }
      (threads.set i (.running (.waiting g q
        (if m.barrier.count = m.barrier.parties - 1 then .reset sense else .wait sense)))) := by
  obtain ⟨p, _, _, _, _, same, _⟩ := h.fits i _ here
  subst same
  generalize hl : (if m.barrier.count = m.barrier.parties - 1 then
    Label.reset sense else .wait sense) = l
  have label : l = .reset sense ∨ l = .wait sense := by
    rw [← hl]
    split <;> simp
  have counted : (threads.set i (.running (.waiting g q l))).countP (Place.counted g) =
      threads.countP (Place.counted g) + 1 := by
    apply countP_set_gain here rfl
    rcases label with rfl | rfl <;> simp [Place.counted, Place.inside]
  have below : threads.countP (Place.counted g) < n.toNat := by
    have bound := List.countP_le_length (p := Place.counted g)
      (l := threads.set i (.running (.waiting g q l)))
    rw [counted, List.length_set, h.length] at bound
    exact bound
  obtain ⟨closing, count⟩ := h.gathering below
  have last := h.last_iff below
  have flips : (threads.set i (.running (.waiting g q l))).countP Place.flips = 0 := by
    rw [countP_set_same here]
    · omega
    · rcases label with rfl | rfl <;> rfl
  constructor
  · exact h.parties
  · rw [List.length_set, h.length]
  · apply h.fits_set here
    · rintro p ⟨bound, waits, token, _, sense⟩
      refine ⟨bound, waits, token, ?_⟩
      rcases label with rfl | rfl
      · exact ⟨rfl, sense⟩
      · exact ⟨.inl rfl, sense⟩
    · exact fun _ _ _ _ _ fits => fits
  · exact h.sense
  · rw [flips, counted]
    split at hl
    · next full =>
      subst hl
      rw [if_pos (last.mp full), countP_set_gain here]
      · omega
      · rfl
      · rfl
    · next more =>
      subst hl
      rw [if_neg (mt last.mpr more), countP_set_same here]
      · omega
      · rfl
  · rw [flips, counted, if_neg (by decide), UInt64.toNat_add, count, UInt64.toNat_one]
    have word := n.toNat_lt
    omega
  · exact h.listed
  · exact h.led_same here rfl fun _ => rfl
  · rw [countP_set_same here]
    · exact h.arrived
    · rfl
  · exact h.early

/-- While a leader is at work all have arrived, and it is the only one. -/
theorem Standing.leading (h : Standing n ps rounds G m threads)
    (leader : 0 < threads.countP Place.resets + threads.countP Place.flips) :
    threads.countP (Place.counted G) = n.toNat ∧
      threads.countP Place.resets + threads.countP Place.flips = 1 := by
  have closing := h.closing
  split at closing
  · next full => exact ⟨full, closing⟩
  · omega

theorem Standing.reset (h : Standing n ps rounds G m threads)
    (here : threads[i]? = some (.running (.waiting g q (.reset sense)))) :
    Standing n ps rounds G { m with barrier := { m.barrier with count := 0 } }
      (threads.set i (.running (.waiting g q (.flip sense)))) := by
  generalize after : (Status.running (.waiting g q (.flip sense)) : Place) = s'
  have resets : (threads.set i s').countP Place.resets + 1 = threads.countP Place.resets :=
    countP_set_loss here rfl (after ▸ rfl)
  have flips : (threads.set i s').countP Place.flips = threads.countP Place.flips + 1 :=
    countP_set_gain here rfl (after ▸ rfl)
  have counted : (threads.set i s').countP (Place.counted G) = threads.countP (Place.counted G) :=
    countP_set_same here (after ▸ rfl)
  obtain ⟨full, closing⟩ := h.leading (by omega)
  constructor
  · exact h.parties
  · rw [List.length_set, h.length]
  · apply h.fits_set here
    · exact fun _ fits => after ▸ fits
    · exact fun _ _ _ _ _ fits => fits
  · exact h.sense
  · rw [counted, if_pos full]
    omega
  · rw [if_pos (by omega)]
    rfl
  · exact h.listed
  · exact h.led_same here rfl fun _ => after ▸ rfl
  · rw [countP_set_same here (after ▸ rfl)]
    exact h.arrived
  · exact h.early

/-- Everybody else polls the sense when the leader of generation `G` flips it. -/
theorem Standing.others_wait (h : Standing n ps rounds G m threads)
    (here : threads[i]? = some (.running (.waiting g q (.flip sense)))) {j : Nat} {t : Place}
    (hj : j ≠ i) (there : threads[j]? = some t) :
    ∃ r sense', t = .running (.waiting G r (.wait sense')) := by
  have flips : (threads.set i (.returned ())).countP Place.flips + 1 = threads.countP Place.flips :=
    countP_set_loss here rfl rfl
  have resets : (threads.set i (.returned ())).countP Place.resets = threads.countP Place.resets :=
    countP_set_same here rfl
  obtain ⟨full, closing⟩ := h.leading (by omega)
  have mem : t ∈ threads.set i (.returned ()) := by
    apply List.mem_of_getElem? (i := j)
    rw [List.getElem?_set_ne (Ne.symm hj), there]
  have no_reset : t.resets = false := by
    have none : (threads.set i (.returned ())).countP Place.resets = 0 := by omega
    simpa using List.countP_eq_zero.mp none t mem
  have no_flip : t.flips = false := by
    have none : (threads.set i (.returned ())).countP Place.flips = 0 := by omega
    simpa using List.countP_eq_zero.mp none t mem
  have counted := List.countP_eq_length.mp (full.trans h.length.symm) t (List.mem_of_getElem? there)
  rcases t with (⟨k, r⟩ | ⟨k, r, l⟩ | ⟨k, r, b⟩) | ⟨⟩
  · cases counted
  · cases l with
    | wait sense' =>
      have same : k = G := by simpa [Place.counted, Place.inside] using counted
      exact ⟨r, sense', by rw [same]⟩
    | arrive => cases counted
    | reset => cases no_reset
    | flip => cases no_flip
  · cases counted
  · cases counted

theorem Standing.next_empty (h : Standing n ps rounds G m threads)
    (here : threads[i]? = some (.running (.waiting g q (.flip sense))))
    (own : s'.inside (G + 1) = false) : (threads.set i s').countP (Place.inside (G + 1)) = 0 := by
  refine List.countP_eq_zero.mpr fun t mem => ?_
  obtain ⟨j, there⟩ := List.mem_iff_getElem?.mp mem
  by_cases hj : j = i
  · subst hj
    rw [List.getElem?_set_self (List.getElem?_eq_some_iff.mp here).1] at there
    cases there
    simp [own]
  · rw [List.getElem?_set_ne (Ne.symm hj)] at there
    obtain ⟨r, sense', rfl⟩ := h.others_wait here hj there
    simp [Place.inside]

theorem Standing.led_flip (h : Standing n ps rounds G m threads)
    (here : threads[i]? = some (.running (.waiting G q (.flip sense)))) (p : Participant)
    {k : Nat} (hk : k < rounds) :
    leadersOf m (threads.set i (.running (.check G p true))) k = if k < G + 1 then 1 else 0 := by
  have before := h.led k hk
  have counts := countP_set_add here (Place.leads k) (.running (.check G p true))
  rw [leadersOf] at before ⊢
  simp only [Place.leads, Bool.toNat_false, Bool.true_and] at counts
  rcases Nat.lt_trichotomy k G with earlier | rfl | later
  · rw [beq_false_of_ne (Nat.ne_of_gt earlier), Bool.toNat_false] at counts
    rw [if_pos earlier] at before
    rw [if_pos (by omega)]
    omega
  · rw [beq_self_eq_true, Bool.toNat_true] at counts
    rw [if_neg (Nat.lt_irrefl k)] at before
    rw [if_pos (Nat.lt_succ_self k)]
    omega
  · rw [beq_false_of_ne (Nat.ne_of_lt later), Bool.toNat_false] at counts
    rw [if_neg (by omega)] at before
    rw [if_neg (by omega)]
    omega

/-- The flip ends generation `G`. Those who have still to leave it find the sense they wait for. -/
theorem Standing.flip (h : Standing n ps rounds G m threads)
    (here : threads[i]? = some (.running (.waiting g q (.flip sense)))) :
    Standing n ps rounds (G + 1) { m with barrier := { m.barrier with sense } }
      (threads.set i (.running (.check g { q with token := q.token.flip } true))) := by
  obtain ⟨p, _, _, _, _, same, flipped⟩ := h.fits i _ here
  subst same flipped
  generalize after : (Status.running (.check g { q with token := q.token.flip } true) : Place) = s'
  have resets : (threads.set i s').countP Place.resets = threads.countP Place.resets :=
    countP_set_same here (after ▸ rfl)
  have flips : (threads.set i s').countP Place.flips + 1 = threads.countP Place.flips :=
    countP_set_loss here rfl (after ▸ rfl)
  obtain ⟨full, closing⟩ := h.leading (by omega)
  have count := h.count
  rw [if_pos (by omega)] at count
  have inside : (threads.set i s').countP (Place.inside (g + 1)) = 0 :=
    h.next_empty here (after ▸ rfl)
  have counted : (threads.set i s').countP (Place.counted (g + 1)) = 0 :=
    Nat.le_zero.mp (inside ▸ countP_counted_le (g + 1) _)
  have present : 0 < n.toNat := by
    rw [← h.length]
    exact Nat.zero_lt_of_lt (List.getElem?_eq_some_iff.mp here).1
  constructor
  · exact h.parties
  · rw [List.length_set, h.length]
  · apply h.fits_set here
    · rintro p ⟨bound, waits, token, _⟩
      subst after
      refine ⟨rfl, bound, waits, ?_⟩
      simp [SenseToken.flip, token, Nat.bodd_succ]
    · intro j t p hj there fits
      obtain ⟨r, sense', rfl⟩ := h.others_wait here hj there
      obtain ⟨bound, waits, token, _, sense⟩ := fits
      exact ⟨bound, waits, token, .inr rfl, sense⟩
  · rfl
  · rw [counted, if_neg (by omega)]
    omega
  · rw [counted, if_neg (by omega)]
    exact count
  · exact h.listed
  · subst after
    exact fun k hk => h.led_flip here _ hk
  · have all : threads.countP (Place.inside g) = n.toNat := by
      apply Nat.le_antisymm
      · rw [← h.length]
        exact List.countP_le_length
      · rw [← full]
        exact countP_counted_le g threads
    have arrived := h.arrived
    rw [inside, Nat.add_mul]
    change m.arrived = _
    omega
  · exact h.early

theorem Standing.wait (h : Standing n ps rounds G m threads)
    (here : threads[i]? = some (.running (.waiting g q (.wait sense))))
    (flipped : m.barrier.sense = sense) :
    Standing n ps rounds G m
      (threads.set i (.running (.check g { q with token := q.token.flip } false))) := by
  obtain ⟨p, _, _, _, _, where_, expected⟩ := h.fits i _ here
  have earlier : g + 1 = G := by
    rcases where_ with same | earlier
    · rw [← flipped, h.sense, same, Nat.bodd_succ] at expected
      simp at expected
    · exact earlier
  subst earlier
  have outside : ((g : Nat) == g + 1) = false := by simp
  apply h.look here
  · rfl
  · rintro p ⟨bound, waits, token, _⟩
    refine ⟨rfl, bound, waits, ?_⟩
    simp [SenseToken.flip, token, Nat.bodd_succ]
  · simp [Place.counted, Place.inside]
  · rfl
  · rfl
  · rfl
  · exact h.led_same here rfl fun _ => rfl
  · rw [countP_set_same here]
    · exact h.arrived
    · simp [Place.inside]
  · exact h.early

theorem Standing.led_check {led : Bool} (h : Standing n ps rounds G m threads)
    (here : threads[i]? = some (.running (.check g q led)))
    (leaders : m'.leaders = if led then m.leaders.modify g (· + 1) else m.leaders)
    {k : Nat} (hk : k < rounds) :
    leadersOf m' (threads.set i (.running (.begin (g + 1) q))) k = if k < G then 1 else 0 := by
  have before := h.led k hk
  have counts := countP_set_add here (Place.leads k) (.running (.begin (g + 1) q))
  simp only [Place.leads, Bool.toNat_false, Nat.add_zero] at counts
  rw [leadersOf] at before ⊢
  rw [leaders]
  cases led with
  | false =>
    rw [Bool.false_and, Bool.toNat_false, Nat.add_zero] at counts
    rw [counts]
    exact before
  | true =>
    have noted : (m.leaders.modify g (· + 1)).getD k 0 = m.leaders.getD k 0 + (g == k).toNat := by
      simp only [List.getD_eq_getElem?_getD, List.getElem?_modify,
        List.getElem?_eq_getElem (h.listed ▸ hk : k < m.leaders.length)]
      by_cases same : g = k <;> simp [same]
    rw [Bool.true_and] at counts
    rw [if_pos rfl, noted]
    omega

/-- All have begun their waits by the time that one of them looks how many have. -/
theorem Standing.check {led : Bool} (h : Standing n ps rounds G m threads)
    (here : threads[i]? = some (.running (.check g q led))) :
    Standing n ps rounds G
      { m with
        leaders := if led then m.leaders.modify g (· + 1) else m.leaders
        early := if m.arrived < (g + 1) * n.toNat then m.early + 1 else m.early }
      (threads.set i (.running (.begin (g + 1) q))) := by
  obtain ⟨p, _, same, _⟩ := h.fits i _ here
  subst same
  apply h.look here
  · rfl
  · rintro p ⟨_, bound, waits, token⟩
    exact ⟨rfl, bound, waits, token⟩
  · rfl
  · rfl
  · rfl
  · dsimp only
    split
    · exact List.length_modify _ _ _
    · rfl
  · exact fun k hk => h.led_check here rfl hk
  · rw [countP_set_same here]
    · exact h.arrived
    · rfl
  · have arrived := h.arrived
    dsimp only
    rw [if_neg (by omega)]
    exact h.early

theorem Standing.act {c : State} (h : Standing n ps rounds G c.memory c.threads) (i : Nat)
    (choose : Position Label → Tally Memory → Unit) :
    ∃ G', Standing n ps rounds G' (c.act (Generations.algorithm algorithm n.toNat) i choose).memory
      (c.act (Generations.algorithm algorithm n.toNat) i choose).threads := by
  unfold Crew.act
  split
  · next l here =>
    cases l with
    | begin g q =>
      by_cases more : g < q.waits
      · simp only [Generations.algorithm, Generations.step, more, if_true]
        exact ⟨G, h.begin here more⟩
      · simp only [Generations.algorithm, Generations.step, more, if_false]
        exact ⟨G, h.finish here more⟩
    | waiting g q l =>
      cases l with
      | arrive sense => exact ⟨G, h.arrive here⟩
      | reset sense => exact ⟨G, h.reset here⟩
      | flip sense => exact ⟨G + 1, h.flip here⟩
      | wait sense =>
        by_cases flipped : c.memory.barrier.sense = sense
        · simp only [Generations.algorithm, Generations.step, algorithm, step, flipped, if_true]
          exact ⟨G, h.wait here flipped⟩
        · simp only [Generations.algorithm, Generations.step, algorithm, step, flipped, if_false]
          obtain ⟨hi, same⟩ := List.getElem?_eq_some_iff.mp here
          rw [← same, List.set_getElem_self]
          exact ⟨G, h⟩
    | check g q led => exact ⟨G, h.check here⟩
  · exact ⟨G, h⟩

theorem standing_crew {waits : List Nat} (present : waits.length = n.toNat) (pos : 0 < n)
    (rounds : Nat) : Standing n (waits.map fun k => { waits := k }) rounds 0 (crew n waits rounds).memory
      (crew n waits rounds).threads := by
  have pos : 0 < n.toNat := by simpa [UInt64.lt_iff_toNat_lt] using pos
  have outside : ∀ p : Place → Bool, (∀ q, p (.running (.begin 0 q)) = false) →
      (crew n waits rounds).threads.countP p = 0 := by
    intro p hp
    simp [crew, Crew.start, Generations.algorithm, hp]
  constructor
  · rfl
  · simp [crew, Crew.start, present]
  · intro i s here
    simp only [crew, Crew.start, List.map_map, List.getElem?_map, Option.map_eq_some_iff] at here
    obtain ⟨k, hk, rfl⟩ := here
    exact ⟨{ waits := k }, by simp [hk], rfl, Nat.zero_le k, rfl, rfl⟩
  · rfl
  · rw [outside _ fun _ => rfl, outside _ fun _ => rfl, outside _ fun _ => rfl, if_neg pos.ne]
  · rw [outside _ fun _ => rfl, outside _ fun _ => rfl]
    rfl
  · simp [crew, Crew.start]
  · intro g hg
    rw [leadersOf, outside _ fun _ => rfl]
    simp [crew, Crew.start, hg]
  · rw [outside _ fun _ => rfl, Nat.zero_mul]
    rfl
  · rfl

theorem exists_standing {waits : List Nat} (present : waits.length = n.toNat) (pos : 0 < n)
    (rounds : Nat) (schedule : List (Turn Unit)) :
    ∃ G, Standing n (waits.map fun k => { waits := k }) rounds G
      ((crew n waits rounds).after (Generations.algorithm algorithm n.toNat) schedule).memory
      ((crew n waits rounds).after (Generations.algorithm algorithm n.toNat) schedule).threads := by
  induction schedule with
  | nil => exact ⟨0, standing_crew present pos rounds⟩
  | cons t earlier ih =>
    obtain ⟨G, h⟩ := ih
    exact h.act t.thread fun _ _ => t.choice

end Step

section Members

variable {n : UInt64} {ps : List Participant} {rounds G : Nat} {c : State} {x : Member}

theorem Standing.fits_member (h : Standing n ps rounds G c.memory c.threads)
    (hx : x ∈ members ps c) : Fits G x.1 x.2 := by
  obtain ⟨i, hi⟩ := List.mem_iff_getElem?.mp hx
  obtain ⟨participant, place⟩ := List.getElem?_zip_eq_some.mp hi
  obtain ⟨p, hp, fits⟩ := h.fits i x.2 place
  rw [participant] at hp
  exact Option.some.inj hp ▸ fits

/-- Everybody has begun all generations that are over, and nobody has left another one. -/
theorem Fits.left_le_begun (h : Fits G x.1 x.2) : x.left ≤ G ∧ G ≤ x.begun := by
  obtain ⟨p, (⟨g, q⟩ | ⟨g, q, l⟩ | ⟨g, q, b⟩) | ⟨⟩⟩ := x
  · obtain ⟨same, _⟩ := h
    simp only [Member.left, Member.begun]
    omega
  · obtain ⟨_, _, _, abreast⟩ := h
    have near : g = G ∨ g + 1 = G := by
      cases l with
      | wait => exact abreast.1
      | arrive | reset | flip => exact .inl abreast.1
    simp only [Member.left, Member.begun]
    omega
  · obtain ⟨same, _⟩ := h
    simp only [Member.left, Member.begun]
    omega
  · have same : p.waits = G := h
    simp only [Member.left, Member.begun]
    omega

/-- Who is counted in generation `G` has arrived once more than it has seen the sense flipped. -/
theorem Fits.arrivals (h : Fits G x.1 x.2) :
    x.arrivals = if x.2.counted G then G + 1 else G := by
  obtain ⟨p, (⟨g, q⟩ | ⟨g, q, l⟩ | ⟨g, q, b⟩) | ⟨⟩⟩ := x
  · exact h.1
  · obtain ⟨_, _, _, abreast⟩ := h
    cases l with
    | arrive => exact abreast.1
    | reset | flip =>
      rw [abreast.1]
      simp [Member.arrivals, Member.begun, Place.counted, Place.inside]
    | wait =>
      rcases abreast.1 with same | earlier
      · rw [same]
        simp [Member.arrivals, Member.begun, Place.counted, Place.inside]
      · rw [← earlier]
        simp [Member.arrivals, Member.begun, Place.counted, Place.inside]
  · exact h.1
  · exact h

theorem Standing.map_snd_members (h : Standing n ps rounds G c.memory c.threads)
    (present : ps.length = n.toNat) : (members ps c).map Prod.snd = c.threads :=
  List.map_snd_zip (by rw [h.length, present])

theorem Standing.countP_arrivals (h : Standing n ps rounds G c.memory c.threads)
    (present : ps.length = n.toNat) :
    (members ps c).countP (·.arrivals = G + 1) = c.threads.countP (Place.counted G) := by
  calc (members ps c).countP (·.arrivals = G + 1)
      = (members ps c).countP (Place.counted G ∘ Prod.snd) := by
        apply List.countP_congr
        intro x hx
        rw [(h.fits_member hx).arrivals]
        split <;> simp_all
    _ = c.threads.countP (Place.counted G) := by
        rw [← List.countP_map, h.map_snd_members present]

theorem Standing.all_arrived (h : Standing n ps rounds G c.memory c.threads)
    (present : ps.length = n.toNat) :
    (∀ x ∈ members ps c, x.arrivals = G + 1) ↔ c.threads.countP (Place.counted G) = n.toNat := by
  have length : (members ps c).length = n.toNat := by simp [members, present, h.length]
  rw [← h.countP_arrivals present, ← length, List.countP_eq_length]
  simp

/-- If all are inside the same wait and all poll the sense, they find the one that they wait for:
otherwise the last of them to arrive would be at work as a leader. -/
theorem Standing.awake (h : Standing n ps rounds G c.memory c.threads) (present : ps.length = n.toNat)
    {g : Nat} (inside : ∀ x ∈ members ps c, x.Inside g)
    (spin : ∀ x ∈ members ps c, ∃ sense, x.SpinsFor sense) :
    ∀ x ∈ members ps c, x.SpinsFor c.memory.barrier.sense := by
  have waits : ∀ x ∈ members ps c, ∃ r, x.2 = .running (.waiting g r (.wait (g + 1).bodd)) ∧
      (g = G ∨ g + 1 = G) := by
    intro x hx
    obtain ⟨r, l, place⟩ := inside x hx
    obtain ⟨sense, k, r', place'⟩ := spin x hx
    rw [place] at place'
    cases place'
    have fits := h.fits_member hx
    rw [place] at fits
    obtain ⟨_, _, _, near, rfl⟩ := fits
    exact ⟨r, place, near⟩
  have gone : ∀ x ∈ members ps c, g + 1 = G := by
    intro x hx
    obtain ⟨_, _, same | gone⟩ := waits x hx
    · subst same
      have all : ∀ x ∈ members ps c, x.arrivals = g + 1 := by
        intro x hx
        obtain ⟨r, place, _⟩ := waits x hx
        rw [(h.fits_member hx).arrivals, place]
        simp [Place.counted, Place.inside]
      have closing := h.closing
      rw [if_pos ((h.all_arrived present).mp all), ← h.map_snd_members present, List.countP_map,
        List.countP_map] at closing
      have idle : ∀ p : Place → Bool, (∀ r, p (.running (.waiting g r (.wait (g + 1).bodd))) = false) →
          (members ps c).countP (p ∘ Prod.snd) = 0 := by
        intro p hp
        refine List.countP_eq_zero.mpr fun x hx => ?_
        obtain ⟨r, place, _⟩ := waits x hx
        rw [Function.comp_apply, place, hp]
        decide
      rw [idle _ fun _ => rfl, idle _ fun _ => rfl] at closing
      cases closing
    · exact gone
  intro x hx
  obtain ⟨r, place, _⟩ := waits x hx
  rw [h.sense, ← gone x hx]
  exact ⟨g, r, place⟩

/-- What participants of a barrier may rely on at every moment. -/
structure Reusable (n : UInt64) (ps : List Participant) (rounds : Nat) (c : State) : Prop where
  present : (members ps c).length = n.toNat
  /-- Nobody returns from a wait that somebody has still to begin. -/
  together : ∀ x ∈ members ps c, ∀ y ∈ members ps c, x.left ≤ y.begun
  /-- One call of each generation returns `true`, and does so before any other returns. -/
  led : ∀ g < rounds, leadersOf c.memory c.threads g ≤ 1 ∧
    ∀ x ∈ members ps c, g < x.left → leadersOf c.memory c.threads g = 1
  bounded : c.memory.barrier.count ≤ n
  /-- All have arrived in the generations before `g` and nobody in one after it. The counter shows who
  has arrived in `g` until the leader, last to arrive, resets it. -/
  counted : ∃ g, (∀ x ∈ members ps c, x.arrivals = g ∨ x.arrivals = g + 1) ∧
    (c.memory.barrier.count.toNat = (members ps c).countP (·.arrivals = g + 1) ∨
      c.memory.barrier.count = 0 ∧ (∀ x ∈ members ps c, x.arrivals = g + 1) ∧
        ∃ x ∈ members ps c, x.2.flips)
  /-- Not all are left to poll for a sense that does not come. -/
  awake : ∀ g, (∀ x ∈ members ps c, x.Inside g) →
    (∃ x ∈ members ps c, ∀ sense, ¬ x.SpinsFor sense) ∨
      ∀ x ∈ members ps c, x.SpinsFor c.memory.barrier.sense
  early : c.memory.early = 0

theorem sense_barrier_reusable {n : UInt64} {waits : List Nat} (present : waits.length = n.toNat)
    (pos : 0 < n) (rounds : Nat) (schedule : List (Turn Unit)) :
    Reusable n (waits.map fun k => { waits := k }) rounds
      ((crew n waits rounds).after (Generations.algorithm algorithm n.toNat) schedule) := by
  obtain ⟨G, h⟩ := exists_standing present pos rounds schedule
  generalize (crew n waits rounds).after (Generations.algorithm algorithm n.toNat) schedule = c at h ⊢
  generalize hps : (waits.map fun k => ({ waits := k } : Participant)) = ps at h ⊢
  have length : ps.length = n.toNat := by rw [← hps, List.length_map, present]
  have fits := fun x hx => h.fits_member (x := x) hx
  constructor
  · simp [members, length, h.length]
  · intro x hx y hy
    exact Nat.le_trans (fits x hx).left_le_begun.1 (fits y hy).left_le_begun.2
  · intro g hg
    rw [h.led g hg]
    refine ⟨by split <;> omega, ?_⟩
    intro x hx left
    have bound := (fits x hx).left_le_begun.1
    rw [if_pos (by omega)]
  · rw [UInt64.le_iff_toNat_le, h.count]
    split
    · exact Nat.zero_le _
    · rw [← h.length]
      exact List.countP_le_length
  · refine ⟨G, ?_, ?_⟩
    · intro x hx
      rw [(fits x hx).arrivals]
      split <;> simp
    · have count := h.count
      split at count
      · next flipping =>
        obtain ⟨full, _⟩ := h.leading (by omega)
        refine .inr ⟨UInt64.toNat_inj.mp count, (h.all_arrived length).mpr full, ?_⟩
        rw [← h.map_snd_members length, List.countP_map] at flipping
        obtain ⟨x, hx, flips⟩ := List.countP_pos_iff.mp (Nat.lt_of_lt_of_eq Nat.one_pos flipping.symm)
        exact ⟨x, hx, flips⟩
      · exact .inl (count.trans (h.countP_arrivals length).symm)
  · intro g inside
    by_cases spin : ∃ x ∈ members ps c, ∀ sense, ¬ x.SpinsFor sense
    · exact .inl spin
    · refine .inr (h.awake length inside fun x hx => ?_)
      by_contra silent
      exact spin ⟨x, hx, not_exists.mp silent⟩
  · exact h.early

/-- The second participant is through the first generation and has arrived again, while the first has
still to find the sense flipped. -/
theorem reusable_while_generations_overlap :
    [1, 2].length = (2 : UInt64).toNat ∧ (0 : UInt64) < 2 ∧
      Reusable 2 [{ waits := 1 }, { waits := 2 }] 2
        ((crew 2 [1, 2] 2).after (Generations.algorithm algorithm 2)
          [⟨1, ()⟩, ⟨1, ()⟩, ⟨1, ()⟩, ⟨1, ()⟩, ⟨1, ()⟩, ⟨1, ()⟩, ⟨1, ()⟩, ⟨0, ()⟩, ⟨0, ()⟩]) :=
  ⟨rfl, by decide, @sense_barrier_reusable 2 [1, 2] rfl (by decide) 2 _⟩

example :
    let c := (crew 2 [1, 2] 2).after (Generations.algorithm algorithm 2)
      [⟨1, ()⟩, ⟨1, ()⟩, ⟨1, ()⟩, ⟨1, ()⟩, ⟨1, ()⟩, ⟨1, ()⟩, ⟨1, ()⟩, ⟨0, ()⟩, ⟨0, ()⟩]
    c.memory.barrier = ⟨1, true, 2⟩ ∧ c.memory.leaders = [1, 0] ∧
      (members [{ waits := 1 }, { waits := 2 }] c).map Member.arrivals = [1, 2] := by
  decide

end Members

end SharedMemory.SenseReversingBarrier
