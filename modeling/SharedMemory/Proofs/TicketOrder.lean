import Mathlib.Algebra.Group.Nat.Defs
import Mathlib.Data.Fintype.Card
import Mathlib.Data.List.Nodup
import SharedMemory.Proofs.LockUsers

/-!
# The order of tickets

Tickets are words that wrap, so nothing can be read off their size. The record of a run tells how many
were drawn and how many were given back, and both counters are these numbers modulo `2 ^ 64`. The users
in between stand in a line, each with the ticket of its place. Counters meet only when the line is empty
as long as the line, and what a single attempt has not seen of the draws, is shorter than the words
count.
-/
namespace SharedMemory.TicketLock

open Lock (Scene Taken Phase)

variable {User : Type}

def drawn? (e : Taken User Memory Label) : Option (User × UInt64) :=
  match e.label with
  | .draw => some (e.user, e.found.nextTicket)
  | .attempt serving => if e.found.nextTicket = serving then some (e.user, serving) else none
  | _ => none

def served? (e : Taken User Memory Label) : Option (User × UInt64) :=
  match (step e.label e.found).2 with
  | .returned (.acquired ticket) => some (e.user, ticket)
  | _ => none

def passed? (e : Taken User Memory Label) : Option (User × UInt64) :=
  match e.label with
  | .pass ticket => some (e.user, ticket)
  | _ => none

section Record

/-- The tickets drawn, the first of them first, each with its user. -/
def drawn (record : List (Taken User Memory Label)) : List (User × UInt64) :=
  (record.filterMap drawn?).reverse

def served (record : List (Taken User Memory Label)) : List (User × UInt64) :=
  (record.filterMap served?).reverse

def passed (record : List (Taken User Memory Label)) : List (User × UInt64) :=
  (record.filterMap passed?).reverse

def outstanding (record : List (Taken User Memory Label)) : Nat :=
  (drawn record).length - (passed record).length

variable (e : Taken User Memory Label) (record later : List (Taken User Memory Label))

theorem drawn_cons : drawn (e :: record) = drawn record ++ (drawn? e).toList := by
  cases h : drawn? e <;> simp [drawn, h]

theorem served_cons : served (e :: record) = served record ++ (served? e).toList := by
  cases h : served? e <;> simp [served, h]

theorem passed_cons : passed (e :: record) = passed record ++ (passed? e).toList := by
  cases h : passed? e <;> simp [passed, h]

theorem drawn_append : drawn (later ++ record) = drawn record ++ drawn later := by
  simp [drawn]

theorem passed_append : passed (later ++ record) = passed record ++ passed later := by
  simp [passed]

end Record

def ticket? : Phase Label UInt64 → Option UInt64
  | .entering (.wait t) | .holding t | .leaving (.pass t) => some t
  | _ => none

/-- The ticket of a user that has the lock: it has been served and has still to give its ticket back. -/
def owned? : Phase Label UInt64 → Option UInt64
  | .holding t | .leaving (.pass t) => some t
  | _ => none

def Proper : Phase Label UInt64 → Prop
  | .entering (.pass _) => False
  | .leaving (.pass _) => True
  | .leaving _ => False
  | _ => True

/-- Of a line, those that have the lock: no one but the first may have it. -/
def inside (phases : User → Phase Label UInt64) : List (User × UInt64) → List (User × UInt64)
  | p :: _ => if (owned? (phases p.1)).isSome then [p] else []
  | [] => []

/-- The moment at which a user that is about to attempt has looked, which was its last step. -/
structure Looked (record : List (Taken User Memory Label)) (i : User) (serving : UInt64)
    (later : List (Taken User Memory Label)) (look : Taken User Memory Label)
    (before : List (Taken User Memory Label)) : Prop where
  record : record = later ++ look :: before
  user : look.user = i
  label : look.label = .look
  others : ∀ e ∈ later, e.user ≠ i
  found : look.found.nowServing = serving
  serving : serving = UInt64.ofNat (passed before).length

/-- The ticket counter has not come round to the number that a user has found being served. -/
def Soon (record : List (Taken User Memory Label)) (i : User) (serving : UInt64) : Prop :=
  ∀ later look before, Looked record i serving later look before →
    (drawn record).length < (passed before).length + 2 ^ 64

/-- What the record says of the counters and of the users in line. -/
structure Kept (phases : User → Phase Label UInt64) (m : Memory)
    (record : List (Taken User Memory Label)) (line : List (User × UInt64)) : Prop where
  proper : ∀ i, Proper (phases i)
  serving : m.nowServing = UInt64.ofNat (passed record).length
  next : m.nextTicket = UInt64.ofNat (drawn record).length
  numbered : ∀ (k : Nat) (p : User × UInt64), (drawn record)[k]? = some p → p.2 = UInt64.ofNat k
  draws : drawn record = passed record ++ line
  serves : served record = passed record ++ inside phases line
  member : ∀ i t, (i, t) ∈ line ↔ ticket? (phases i) = some t
  distinct : (line.map Prod.fst).Nodup
  owner : ∀ i t, owned? (phases i) = some t → line.head? = some (i, t)
  looked : ∀ i serving, phases i = .entering (.attempt serving) →
    ∃ later look before, Looked record i serving later look before
  past : ∀ moment, moment <:+ record →
    ∃ line, drawn moment = passed moment ++ line ∧ (line.map Prod.fst).Nodup

/-- Words that count up are equal only if the numbers are, until the words wrap. -/
theorem eq_of_ofNat_eq {m n : Nat} (same : UInt64.ofNat m = UInt64.ofNat n) (le : m ≤ n)
    (close : n < m + 2 ^ 64) : m = n := by
  have h := congrArg UInt64.toNat same
  simp only [UInt64.toNat_ofNat'] at h
  omega

section Line

variable {phases : User → Phase Label UInt64} {m : Memory} {line rest : List (User × UInt64)} {i : User}
  {t serving : UInt64} {p : Phase Label UInt64} {e : Taken User Memory Label}
  {record later before : List (Taken User Memory Label)} {look : Taken User Memory Label}

theorem inside_heads_line (phases : User → Phase Label UInt64) (line : List (User × UInt64)) :
    inside phases line <+: line := by
  cases line with
  | nil => exact List.nil_prefix
  | cons p rest =>
    rw [inside]
    split
    · exact List.prefix_append [p] rest
    · exact List.nil_prefix

theorem inside_congr {phases' : User → Phase Label UInt64}
    (h : ∀ p ∈ line, owned? (phases' p.1) = owned? (phases p.1)) :
    inside phases' line = inside phases line := by
  cases line with
  | nil => rfl
  | cons p rest => rw [inside, inside, h p List.mem_cons_self]

theorem inside_cons (h : owned? (phases i) = some t) :
    inside phases ((i, t) :: rest) = [(i, t)] := by
  rw [inside, h]
  rfl

theorem inside_cons_of_not (h : owned? (phases i) = none) :
    inside phases ((i, t) :: rest) = [] := by
  rw [inside, h]
  rfl

/-- Who has the lock is the first in line. -/
theorem Kept.front (h : Kept phases m record line) (owns : owned? (phases i) = some t) :
    ∃ rest, line = (i, t) :: rest := by
  cases line with
  | nil => cases h.owner i t owns
  | cons p rest => exact ⟨rest, by rw [Option.some.inj (h.owner i t owns)]⟩

theorem Kept.alone (h : Kept phases m record line) {j : User} {u : UInt64}
    (own : owned? (phases i) = some t) (theirs : owned? (phases j) = some u) : i = j := by
  obtain ⟨rest, rfl⟩ := h.front own
  obtain ⟨_, same⟩ := h.front theirs
  exact congrArg Prod.fst (List.cons.inj same).1

theorem Kept.first_ticket (h : Kept phases m record ((i, t) :: rest)) : t = m.nowServing := by
  have first : (drawn record)[(passed record).length]? = some (i, t) := by
    rw [h.draws, List.getElem?_append_right (Nat.le_refl _), Nat.sub_self]
    rfl
  rw [h.serving]
  exact h.numbered _ _ first

/-- A user whose ticket is the one being served is the first in line. -/
theorem Kept.served_first (h : Kept phases m record line) (short : line.length < 2 ^ 64)
    (waits : ticket? (phases i) = some t) (same : m.nowServing = t) :
    ∃ rest, line = (i, t) :: rest := by
  obtain ⟨k, at_k⟩ := List.mem_iff_getElem?.mp ((h.member i t).mpr waits)
  have bound := (List.getElem?_eq_some_iff.mp at_k).1
  have number : t = UInt64.ofNat ((passed record).length + k) := by
    apply h.numbered ((passed record).length + k) (i, t)
    rw [h.draws, List.getElem?_append_right (Nat.le_add_right _ _), Nat.add_sub_cancel_left]
    exact at_k
  have first : (passed record).length = (passed record).length + k := by
    apply eq_of_ofNat_eq
    · rw [← h.serving, same, number]
    · omega
    · omega
  obtain rfl : k = 0 := by omega
  cases line with
  | nil => cases at_k
  | cons q rest => exact ⟨rest, by rw [Option.some.inj at_k]⟩

theorem Kept.not_mem (h : Kept phases m record line) (out : ticket? (phases i) = none) (u : UInt64) :
    (i, u) ∉ line := by
  intro mem
  have here := (h.member i u).mp mem
  rw [out] at here
  cases here

theorem Kept.elsewhere (h : Kept phases m record line) (out : ticket? (phases i) = none) :
    ∀ q ∈ line, q.1 ≠ i := by
  rintro ⟨j, u⟩ hq rfl
  exact h.not_mem out u hq

theorem Kept.distinct_join (h : Kept phases m record line) (out : ticket? (phases i) = none) (t : UInt64) :
    ((line ++ [(i, t)]).map Prod.fst).Nodup := by
  rw [List.map_append, List.nodup_append]
  refine ⟨h.distinct, List.nodup_singleton i, ?_⟩
  intro j hj k hk
  obtain ⟨q, hq, rfl⟩ := List.mem_map.mp hj
  rw [List.mem_singleton.mp hk]
  exact h.elsewhere out q hq

theorem Kept.numbered_join (h : Kept phases m record line) (k : Nat) (q : User × UInt64)
    (hk : (drawn record ++ [(i, m.nextTicket)])[k]? = some q) : q.2 = UInt64.ofNat k := by
  rw [List.getElem?_append] at hk
  split at hk
  · exact h.numbered k q hk
  · next late =>
    obtain ⟨bound, rfl⟩ := List.getElem?_eq_some_iff.mp hk
    rw [List.length_singleton] at bound
    obtain rfl : k = (drawn record).length := by omega
    rw [List.getElem_singleton]
    exact h.next

theorem Looked.cons (h : Looked record i serving later look before) (other : e.user ≠ i) :
    Looked (e :: record) i serving (e :: later) look before := by
  refine ⟨by rw [h.record]; rfl, h.user, h.label, ?_, h.found, h.serving⟩
  intro x hx
  rcases List.mem_cons.mp hx with rfl | hx
  · exact other
  · exact h.others x hx

theorem past_cons (h : ∀ moment, moment <:+ record →
      ∃ line, drawn moment = passed moment ++ line ∧ (line.map Prod.fst).Nodup)
    (now : drawn (e :: record) = passed (e :: record) ++ line)
    (distinct : (line.map Prod.fst).Nodup) :
    ∀ moment, moment <:+ e :: record →
      ∃ line, drawn moment = passed moment ++ line ∧ (line.map Prod.fst).Nodup := by
  intro moment suffix
  rcases List.suffix_cons_iff.mp suffix with rfl | suffix
  · exact ⟨line, now, distinct⟩
  · exact h moment suffix

theorem Kept.start : Kept (fun _ : User => .outside) {} [] [] := by
  refine ⟨fun _ => trivial, rfl, rfl, nofun, rfl, rfl, ?_, List.nodup_nil, nofun, nofun, ?_⟩
  · exact fun i t => iff_of_false List.not_mem_nil nofun
  · intro moment suffix
    rw [List.suffix_nil.mp suffix]
    exact ⟨[], rfl, List.nodup_nil⟩

/-- A user that has drawn no ticket attempts to, and does so only if the line is empty. -/
theorem Kept.line_empty (h : Kept phases m record line)
    (here : phases i = .entering (.attempt serving)) (same : m.nextTicket = serving)
    (soon : Soon record i serving) : line = [] := by
  obtain ⟨later, look, before, looked⟩ := h.looked i serving here
  have close := soon later look before looked
  have passes : (passed record).length =
      (passed before).length + (passed? look).toList.length + (passed later).length := by
    rw [looked.record, passed_append, passed_cons, List.length_append, List.length_append]
  have draws : (drawn record).length = (passed record).length + line.length := by
    rw [h.draws, List.length_append]
  have equal : (passed before).length = (drawn record).length := by
    apply eq_of_ofNat_eq
    · rw [← looked.serving, ← same, h.next]
    · omega
    · exact close
  exact List.length_eq_zero_iff.mp (by omega)

end Line

section Moves

variable [DecidableEq User] {phases : User → Phase Label UInt64} {m : Memory}
  {line rest : List (User × UInt64)} {i j : User} {t serving : UInt64} {p : Phase Label UInt64}
  {e : Taken User Memory Label} {record : List (Taken User Memory Label)}

theorem ticket?_update (same : ticket? p = ticket? (phases i)) (j : User) :
    ticket? (Function.update phases i p j) = ticket? (phases j) := by
  by_cases hj : j = i
  · rw [hj, Function.update_self, same]
  · rw [Function.update_of_ne hj]

theorem owned?_update (same : owned? p = owned? (phases i)) (j : User) :
    owned? (Function.update phases i p j) = owned? (phases j) := by
  by_cases hj : j = i
  · rw [hj, Function.update_self, same]
  · rw [Function.update_of_ne hj]

theorem Kept.proper_update (h : Kept phases m record line) (proper : Proper p) :
    ∀ j, Proper (Function.update phases i p j) :=
  (Function.forall_update_iff phases fun _ q => Proper q).mpr ⟨proper, fun j _ => h.proper j⟩

theorem Kept.place (h : Kept phases m record line) (proper : Proper p)
    (ticket : ticket? p = ticket? (phases i)) (owned : owned? p = owned? (phases i))
    (new : ∀ serving, p ≠ .entering (.attempt serving)) :
    Kept (Function.update phases i p) m record line := by
  refine ⟨h.proper_update proper, h.serving, h.next, h.numbered, h.draws, ?_, ?_, h.distinct, ?_, ?_,
    h.past⟩
  · exact (inside_congr fun q _ => owned?_update owned q.1).symm ▸ h.serves
  · intro j u
    exact (ticket?_update ticket j).symm ▸ h.member j u
  · intro j u
    exact (owned?_update owned j).symm ▸ h.owner j u
  · apply (Function.forall_update_iff phases fun j q => ∀ serving, q = .entering (.attempt serving) →
      ∃ later look before, Looked record j serving later look before).mpr
    exact ⟨fun serving here => absurd here (new serving), fun j _ => h.looked j⟩

/-- The users that have looked did so at the same moment as before if others take a step. -/
theorem Kept.looked_step (h : Kept phases m record line) (user : e.user = i)
    (new : ∀ serving, p = .entering (.attempt serving) →
      ∃ later look before, Looked (e :: record) i serving later look before) :
    ∀ j serving, Function.update phases i p j = .entering (.attempt serving) →
      ∃ later look before, Looked (e :: record) j serving later look before := by
  apply (Function.forall_update_iff phases fun j q => ∀ serving, q = .entering (.attempt serving) →
    ∃ later look before, Looked (e :: record) j serving later look before).mpr
  refine ⟨new, fun j other serving here => ?_⟩
  obtain ⟨later, look, before, looked⟩ := h.looked j serving here
  exact ⟨e :: later, look, before, looked.cons (user ▸ other.symm)⟩

theorem Kept.stay (h : Kept phases m record line) (user : e.user = i) (draws : drawn? e = none)
    (passes : passed? e = none) (proper : Proper p) (ticket : ticket? p = ticket? (phases i))
    (serves : served (e :: record) = passed record ++ inside (Function.update phases i p) line)
    (owner : ∀ j u, owned? (Function.update phases i p j) = some u → line.head? = some (j, u))
    (new : ∀ serving, p = .entering (.attempt serving) →
      ∃ later look before, Looked (e :: record) i serving later look before) :
    Kept (Function.update phases i p) m (e :: record) line := by
  have drawn_eq : drawn (e :: record) = drawn record := by
    rw [drawn_cons, draws]
    exact List.append_nil _
  have passed_eq : passed (e :: record) = passed record := by
    rw [passed_cons, passes]
    exact List.append_nil _
  have now : drawn (e :: record) = passed (e :: record) ++ line := by
    rw [drawn_eq, passed_eq, h.draws]
  refine ⟨h.proper_update proper, ?_, ?_, ?_, now, ?_, ?_, h.distinct, owner, h.looked_step user new,
    past_cons h.past now h.distinct⟩
  · rw [passed_eq]
    exact h.serving
  · rw [drawn_eq]
    exact h.next
  · rw [drawn_eq]
    exact h.numbered
  · rw [passed_eq]
    exact serves
  · intro j u
    exact (ticket?_update ticket j).symm ▸ h.member j u

theorem Kept.idle (h : Kept phases m record line) (user : e.user = i) (draws : drawn? e = none)
    (serves : served? e = none) (passes : passed? e = none) (proper : Proper p)
    (ticket : ticket? p = ticket? (phases i)) (owned : owned? p = owned? (phases i))
    (new : ∀ serving, p = .entering (.attempt serving) →
      ∃ later look before, Looked (e :: record) i serving later look before) :
    Kept (Function.update phases i p) m (e :: record) line := by
  refine h.stay user draws passes proper ticket ?_ ?_ new
  · rw [served_cons, serves, inside_congr fun q _ => owned?_update owned q.1, Option.toList_none,
      List.append_nil]
    exact h.serves
  · intro j u
    exact (owned?_update owned j).symm ▸ h.owner j u

/-- A user that comes last and is not served leaves the lock to who has it. -/
theorem Kept.inside_join (h : Kept phases m record line) (out : ticket? (phases i) = none)
    (free : owned? p = none) (t : UInt64) :
    inside (Function.update phases i p) (line ++ [(i, t)]) = inside phases line := by
  cases line with
  | nil => exact inside_cons_of_not (by rw [Function.update_self, free])
  | cons q rest =>
    rw [List.cons_append, inside, inside,
      Function.update_of_ne (h.elsewhere out q List.mem_cons_self)]

/-- A user draws the next ticket and is the last in line. -/
theorem Kept.join (h : Kept phases m record line) (user : e.user = i) (out : ticket? (phases i) = none)
    (draws : drawn? e = some (i, m.nextTicket)) (passes : passed? e = none)
    (proper : Proper p) (ticket : ticket? p = some m.nextTicket)
    (serves : served? e = none ∧ owned? p = none ∨
      line = [] ∧ served? e = some (i, m.nextTicket) ∧ owned? p = some m.nextTicket)
    (new : ∀ serving, p ≠ .entering (.attempt serving)) :
    Kept (Function.update phases i p) { m with nextTicket := m.nextTicket + 1 } (e :: record)
      (line ++ [(i, m.nextTicket)]) := by
  have drawn_eq : drawn (e :: record) = drawn record ++ [(i, m.nextTicket)] := by
    rw [drawn_cons, draws]
    rfl
  have passed_eq : passed (e :: record) = passed record := by
    rw [passed_cons, passes]
    exact List.append_nil _
  have now : drawn (e :: record) = passed (e :: record) ++ (line ++ [(i, m.nextTicket)]) := by
    rw [drawn_eq, passed_eq, h.draws, List.append_assoc]
  have distinct := h.distinct_join out m.nextTicket
  refine ⟨h.proper_update proper, ?_, ?_, ?_, now, ?_, ?_, distinct, ?_,
    h.looked_step user fun serving here => absurd here (new serving), past_cons h.past now distinct⟩
  · rw [passed_eq]
    exact h.serving
  · rw [drawn_eq, List.length_append, UInt64.ofNat_add, ← h.next]
    rfl
  · rw [drawn_eq]
    exact h.numbered_join
  · rcases serves with ⟨none, free⟩ | ⟨rfl, gives, owned⟩
    · rw [served_cons, none, Option.toList_none, List.append_nil, passed_eq, h.serves,
        h.inside_join out free]
    · rw [served_cons, gives, passed_eq, h.serves, inside, List.append_nil, List.nil_append,
        inside_cons (by rw [Function.update_self, owned])]
      rfl
  · intro j u
    rw [List.mem_append, List.mem_singleton]
    by_cases hj : j = i
    · subst hj
      rw [Function.update_self, ticket, or_iff_right (h.not_mem out u)]
      constructor
      · rintro ⟨⟩
        rfl
      · rintro ⟨⟩
        rfl
    · rw [Function.update_of_ne hj, h.member, or_iff_left]
      rintro ⟨⟩
      exact hj rfl
  · intro j u
    by_cases hj : j = i
    · subst hj
      rw [Function.update_self]
      intro owns
      rcases serves with ⟨-, free⟩ | ⟨rfl, -, owned⟩
      · rw [free] at owns
        cases owns
      · rw [owned] at owns
        cases owns
        rfl
    · rw [Function.update_of_ne hj]
      intro owns
      obtain ⟨rest, rfl⟩ := h.front owns
      rfl

theorem Kept.serve (h : Kept phases m record ((i, t) :: rest)) (user : e.user = i)
    (out : owned? (phases i) = none) (draws : drawn? e = none) (serves : served? e = some (i, t))
    (passes : passed? e = none) :
    Kept (Function.update phases i (.holding t)) m (e :: record) ((i, t) :: rest) := by
  have ticket : ticket? (.holding t) = ticket? (phases i) :=
    ((h.member i t).mp List.mem_cons_self).symm
  refine h.stay user draws passes trivial ticket ?_ ?_ nofun
  · rw [served_cons, serves, h.serves, inside_cons_of_not out, List.append_nil,
      inside_cons (by rw [Function.update_self]; rfl)]
    rfl
  · intro j u
    by_cases hj : j = i
    · subst hj
      rw [Function.update_self]
      rintro ⟨⟩
      rfl
    · rw [Function.update_of_ne hj]
      exact h.owner j u

theorem Kept.pass (h : Kept phases m record ((i, t) :: rest)) (user : e.user = i)
    (owns : owned? (phases i) = some t) (draws : drawn? e = none) (serves : served? e = none)
    (passes : passed? e = some (i, t)) :
    Kept (Function.update phases i .outside) { m with nowServing := t + 1 } (e :: record) rest := by
  have distinct := h.distinct
  rw [List.map_cons, List.nodup_cons] at distinct
  have elsewhere : ∀ q ∈ rest, q.1 ≠ i := by
    intro q hq same
    exact distinct.1 (List.mem_map.mpr ⟨q, hq, same⟩)
  -- nobody but the first has the lock
  have others : ∀ j u, j ≠ i → owned? (phases j) ≠ some u := by
    intro j u hj theirs
    exact hj (h.alone owns theirs).symm
  have drawn_eq : drawn (e :: record) = drawn record := by
    rw [drawn_cons, draws]
    exact List.append_nil _
  have passed_eq : passed (e :: record) = passed record ++ [(i, t)] := by
    rw [passed_cons, passes]
    rfl
  have now : drawn (e :: record) = passed (e :: record) ++ rest := by
    rw [drawn_eq, passed_eq, h.draws, List.append_assoc]
    rfl
  refine ⟨h.proper_update trivial, ?_, ?_, ?_, now, ?_, ?_, distinct.2, ?_, h.looked_step user nofun,
    past_cons h.past now distinct.2⟩
  · rw [passed_eq, List.length_append, UInt64.ofNat_add, ← h.serving, h.first_ticket]
    rfl
  · rw [drawn_eq]
    exact h.next
  · rw [drawn_eq]
    exact h.numbered
  · have out : inside (Function.update phases i .outside) rest = [] := by
      cases rest with
      | nil => rfl
      | cons q more =>
        have other := elsewhere q List.mem_cons_self
        apply inside_cons_of_not
        rw [Function.update_of_ne other, Option.eq_none_iff_forall_ne_some]
        exact fun u => others q.1 u other
    rw [served_cons, serves, passed_eq, h.serves, inside_cons owns, out]
    rfl
  · intro j u
    by_cases hj : j = i
    · subst hj
      rw [Function.update_self]
      exact iff_of_false (fun mem => elsewhere _ mem rfl) nofun
    · rw [Function.update_of_ne hj, ← h.member, List.mem_cons, or_iff_right]
      rintro ⟨⟩
      exact hj rfl
  · intro j u
    by_cases hj : j = i
    · subst hj
      rw [Function.update_self]
      nofun
    · rw [Function.update_of_ne hj]
      exact fun theirs => absurd theirs (others j u hj)

theorem Kept.seek (h : Kept phases m record line) (short : line.length < 2 ^ 64)
    (here : phases i = .entering l) (soon : ∀ serving, l = .attempt serving → Soon record i serving) :
    ∃ line, Kept (Function.update phases i (.afterEnter (step l m).2)) (step l m).1 (⟨i, l, m⟩ :: record)
      line := by
  cases l with
  | draw =>
    have out : ticket? (phases i) = none := by
      rw [here]
      rfl
    exact ⟨_, h.join rfl out rfl rfl trivial rfl (.inl ⟨rfl, rfl⟩) nofun⟩
  | wait t =>
    have waits : ticket? (phases i) = some t := by
      rw [here]
      rfl
    have out : owned? (phases i) = none := by
      rw [here]
      rfl
    by_cases same : m.nowServing = t
    · obtain ⟨rest, rfl⟩ := h.served_first short waits same
      refine ⟨(i, t) :: rest, ?_⟩
      have serves : served? (⟨i, .wait t, m⟩ : Taken User Memory Label) = some (i, t) := by
        simp [served?, step, same]
      simpa [step, same, Phase.afterEnter] using h.serve rfl out rfl serves rfl
    · refine ⟨line, ?_⟩
      have serves : served? (⟨i, .wait t, m⟩ : Taken User Memory Label) = none := by
        simp [served?, step, same]
      simpa [step, same, Phase.afterEnter] using
        h.idle (p := .entering (.wait t)) rfl rfl serves rfl trivial waits.symm out.symm nofun
  | look =>
    refine ⟨line, h.idle rfl rfl rfl rfl trivial ?_ ?_ ?_⟩
    · rw [here]
      rfl
    · rw [here]
      rfl
    · rintro serving ⟨⟩
      exact ⟨[], _, record, rfl, rfl, rfl, nofun, rfl, h.serving⟩
  | attempt serving =>
    have out : ticket? (phases i) = none := by
      rw [here]
      rfl
    by_cases same : m.nextTicket = serving
    · obtain rfl := h.line_empty here same (soon serving rfl)
      refine ⟨[(i, m.nextTicket)], ?_⟩
      have draws : drawn? (⟨i, .attempt serving, m⟩ : Taken User Memory Label) =
          some (i, m.nextTicket) := by
        simp [drawn?, same]
      have serves : served? (⟨i, .attempt serving, m⟩ : Taken User Memory Label) =
          some (i, m.nextTicket) := by
        simp [served?, step, same]
      simpa [step, same, Phase.afterEnter] using
        h.join (p := .holding m.nextTicket) rfl out draws rfl trivial rfl
          (.inr ⟨rfl, serves, rfl⟩) nofun
    · refine ⟨line, ?_⟩
      have draws : drawn? (⟨i, .attempt serving, m⟩ : Taken User Memory Label) = none := by
        simp [drawn?, same]
      have serves : served? (⟨i, .attempt serving, m⟩ : Taken User Memory Label) = none := by
        simp [served?, step, same]
      simpa [step, same, Phase.afterEnter] using
        h.idle (p := .outside) rfl draws serves rfl trivial out.symm (by rw [here]; rfl) nofun
  | pass t =>
    have proper := h.proper i
    rw [here] at proper
    cases proper

theorem Kept.leave (h : Kept phases m record line) (here : phases i = .leaving l) :
    ∃ line, Kept (Function.update phases i (.afterLeave (step l m).2)) (step l m).1 (⟨i, l, m⟩ :: record)
      line := by
  have proper := h.proper i
  rw [here] at proper
  cases l with
  | pass t =>
    have owns : owned? (phases i) = some t := by
      rw [here]
      rfl
    obtain ⟨rest, rfl⟩ := h.front owns
    exact ⟨rest, h.pass rfl owns rfl rfl rfl⟩
  | draw | wait t | look | attempt serving => cases proper

theorem Kept.act {entrances : User → List Label} {s s' : Scene User Memory Label UInt64}
    (h : Kept s.phases s.memory s.record line) (short : line.length < 2 ^ 64)
    (first : ∀ i, entrances i ⊆ [.draw, .look]) (next : s.Next lock entrances s')
    (soon : ∀ e serving, s'.record = e :: s.record → e.label = .attempt serving →
      Soon s.record e.user serving) :
    ∃ line, Kept s'.phases s'.memory s'.record line := by
  cases next with
  | rest => exact ⟨line, h⟩
  | enter i l here entrance =>
    refine ⟨line, ?_⟩
    have at_draw_or_look := first i entrance
    rw [List.mem_cons, List.mem_singleton] at at_draw_or_look
    rcases at_draw_or_look with rfl | rfl
    all_goals exact h.place trivial (by rw [here]; rfl) (by rw [here]; rfl) nofun
  | giveUp i t here =>
    exact ⟨line, h.place trivial (by rw [here]; rfl) (by rw [here]; rfl) nofun⟩
  | seek i l here => exact h.seek short here fun serving same => soon _ serving rfl same
  | leave i l here => exact h.leave here

end Moves

section Attempts

variable {phases : User → Phase Label UInt64} {m : Memory} {line : List (User × UInt64)} {i : User}
  {serving : UInt64} {e : Taken User Memory Label} {record later before : List (Taken User Memory Label)}

/-- Right after a ticket is drawn, one is outstanding. -/
theorem outstanding_of_drawn (draws : (drawn? e).isSome) {line : List (User × UInt64)}
    (past : drawn record = passed record ++ line) : 0 < outstanding (e :: record) := by
  obtain ⟨d, draws⟩ := Option.isSome_iff_exists.mp draws
  have passes : passed? e = none := by
    cases l : e.label with
    | pass ticket => simp [drawn?, l] at draws
    | draw | wait ticket | look | attempt serving => simp [passed?, l]
  rw [outstanding, drawn_cons, passed_cons, draws, passes, past]
  simp only [Option.toList_some, Option.toList_none, List.length_append, List.length_singleton,
    List.append_nil]
  omega

theorem Kept.outstanding_eq (h : Kept phases m record line) : outstanding record = line.length := by
  rw [outstanding, h.draws, List.length_append, Nat.add_sub_cancel_left]

/-- If the counters have moved apart since a user looked, some ticket was outstanding meanwhile. -/
theorem Kept.refused (h : Kept phases m record line) (here : phases i = .entering (.attempt serving))
    (other : m.nextTicket ≠ serving) :
    ∃ later look before, Looked record i serving later look before ∧
      ∃ moment, look :: before <:+ moment ∧ moment <:+ record ∧ 0 < outstanding moment := by
  obtain ⟨later, look, before, looked⟩ := h.looked i serving here
  refine ⟨later, look, before, looked, ?_⟩
  have suffix : look :: before <:+ record := ⟨later, looked.record.symm⟩
  have quiet : (drawn? look).toList = [] ∧ (passed? look).toList = [] := by
    simp [drawn?, passed?, looked.label]
  by_cases none : drawn later = []
  · refine ⟨look :: before, List.suffix_rfl, suffix, ?_⟩
    obtain ⟨past, split, -⟩ := h.past before ((List.suffix_cons look before).trans suffix)
    rw [outstanding, drawn_cons, passed_cons, quiet.1, quiet.2, List.append_nil, List.append_nil]
    have draws : drawn record = drawn before := by
      rw [looked.record, drawn_append, drawn_cons, quiet.1, none, List.append_nil, List.append_nil]
    rw [split, List.length_append, Nat.add_sub_cancel_left]
    rw [h.next, looked.serving, draws, split, List.length_append] at other
    exact Nat.pos_of_ne_zero fun zero => other (by rw [zero]; rfl)
  · have some_draw : ∃ e ∈ later, (drawn? e).isSome := by
      by_contra all
      refine none (List.reverse_eq_nil_iff.mpr (List.filterMap_eq_nil_iff.mpr fun e he => ?_))
      exact Option.not_isSome_iff_eq_none.mp fun draws => all ⟨e, he, draws⟩
    obtain ⟨e, he, draws⟩ := some_draw
    obtain ⟨more, rest, rfl⟩ := List.append_of_mem he
    have whole : record = more ++ e :: (rest ++ look :: before) := by
      rw [looked.record, List.append_assoc]
      rfl
    have moment : e :: (rest ++ look :: before) <:+ record := ⟨more, whole.symm⟩
    obtain ⟨past, split, -⟩ := h.past _ ((List.suffix_cons e _).trans moment)
    refine ⟨_, ?_, moment, outstanding_of_drawn draws split⟩
    exact (List.suffix_append rest _).trans (List.suffix_cons e _)

/-- If the counters are where a user found them, no ticket is outstanding. -/
theorem Kept.accepted (h : Kept phases m record line) (here : phases i = .entering (.attempt serving))
    (soon : Soon record i serving) (same : m.nextTicket = serving) :
    outstanding record = 0 ∧ m.nowServing = serving := by
  obtain rfl := h.line_empty here same soon
  refine ⟨h.outstanding_eq, ?_⟩
  rw [← same, h.next, h.serving, h.draws, List.append_nil]

end Attempts

end SharedMemory.TicketLock
