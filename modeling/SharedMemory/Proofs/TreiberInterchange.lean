import SharedMemory.Proofs.TreiberRequests

/-!
# A used request is as good as a new one

A thread has two requests of one value: one that an attempt handed back, with a link that is out of date,
and one that it has just prepared. If it uses them the other way round from now on, then the names of their
two nodes are exchanged, and nothing else: the stack has the same values at all times, and all threads get
the same answers.
-/
namespace SharedMemory.TreiberStack

open AttemptStack (Call Position Phase)

section Exchange

variable {programs : List (List (Call Item))} {schedule : List (Turn Unit)} {item item' : Item} {i j : Nat}

/-- From its next call on, the thread uses the two requests the other way round. -/
def exchange (programs : List (List (Call Item))) (i made : Nat) (item item' : Item) :
    List (List (Call Item)) :=
  programs.modify i fun calls =>
    calls.take made ++ (calls.drop made).map (Call.map (Item.rename (Equiv.swap item.node item'.node)))

theorem next_exchange {made index : Nat} (later : made ≤ index) :
    (callsOf (exchange programs i made item item') i)[index]? =
      ((callsOf programs i)[index]?).map (Call.map (Item.rename (Equiv.swap item.node item'.node))) := by
  simp only [callsOf, exchange, List.getD_eq_getElem?_getD, List.getElem?_modify, if_pos]
  cases programs[i]? with
  | none => simp
  | some calls =>
    simp only [Option.map_eq_map, Option.map_some, Option.getD_some]
    by_cases inside : made ≤ calls.length
    · rw [List.getElem?_append_right ((List.length_take_le made calls).trans later), List.length_take,
        Nat.min_eq_left inside, List.getElem?_map, List.getElem?_drop, Nat.add_sub_cancel' later]
    · have past : calls.length ≤ made := Nat.le_of_not_le inside
      rw [List.take_of_length_le past, List.drop_of_length_le past, List.map_nil, List.append_nil,
        List.getElem?_eq_none (Nat.le_trans past later), Option.map_none]

theorem callsOf_exchange {made : Nat} (other : j ≠ i) :
    callsOf (exchange programs i made item item') j = callsOf programs j := by
  simp [callsOf, exchange, Ne.symm other]

/-- A label names the node that its thread links, and addresses that the thread knows. -/
theorem Label.rename_pushing {σ : Equiv.Perm Nat} {phases : Nat → Phase Item Label} {m : Memory} {k : Label}
    (stands : Stands phases m (.pushing item k)) (mine : σ item.node = item.node)
    (fixed : ∀ y, Knows y k → σ y = y) : k.rename σ = k := by
  cases k with
  | pushLoad node =>
    rw [Label.rename, stands.2, mine]
  | pushLink node seen =>
    rw [Label.rename, stands.2, mine]
    cases seen with
    | none => rfl
    | some y => rw [Option.map_some, fixed y rfl]
  | pushSwing node seen =>
    rw [Label.rename, stands.2.1, mine]
    cases seen with
    | none => rfl
    | some y => rw [Option.map_some, fixed y rfl]
  | popLoad | popNext | popSwing | look => exact absurd stands id

theorem Label.rename_popping {σ : Equiv.Perm Nat} {phases : Nat → Phase Item Label} {m : Memory} {k : Label}
    (stands : Stands phases m (.popping k)) (fixed : ∀ y, Knows y k → σ y = y) : k.rename σ = k := by
  cases k with
  | popLoad => rfl
  | popNext seen => rw [Label.rename, fixed seen rfl]
  | popSwing seen next =>
    rw [Label.rename, fixed seen (.inl rfl)]
    cases next with
    | none => rfl
    | some y => rw [Option.map_some, fixed y (.inr rfl)]
  | pushLoad | pushLink | pushSwing | look => exact absurd stands id

theorem Item.rename_eq {σ : Equiv.Perm Nat} (fixed : σ item.node = item.node) : item.rename σ = item := by
  rw [Item.rename, fixed]

/-- The names of two nodes that one thread has to itself can be exchanged. -/
theorem alike_of_hand (own : owning programs schedule) (outside : (after programs schedule).label i = none)
    (has : item ∈ items programs (after programs schedule) i)
    (has' : item' ∈ items programs (after programs schedule) i) (same : item.value = item'.value) :
    Alike (Equiv.swap item.node item'.node) programs (after programs schedule) (after programs schedule) ∧
      ∀ j ≠ i, ∀ other ∈ items programs (after programs schedule) j,
        Equiv.swap item.node item'.node other.node = other.node := by
  obtain ⟨phases, sits⟩ := exists_sits schedule own
  have secret := secret own
  have released {y : Nat} (h : Released programs (after programs schedule) y) :
      Equiv.swap item.node item'.node y = y :=
    Equiv.swap_apply_of_ne_of_ne (h.nobody i item has).symm (h.nobody i item' has').symm
  have released_link {link : Option Nat}
      (h : ∀ y, link = some y → Released programs (after programs schedule) y) :
      link.map (Equiv.swap item.node item'.node) = link := by
    cases link with
    | none => rfl
    | some y => rw [Option.map_some, released (h y rfl)]
  have foreign (j : Nat) (hj : j ≠ i) (other : Item)
      (mem : other ∈ items programs (after programs schedule) j) :
      Equiv.swap item.node item'.node other.node = other.node := by
    have apart := (sits.seated.foreign hj (List.mem_map_of_mem mem)).1
    refine Equiv.swap_apply_of_ne_of_ne ?_ ?_
    · intro eq
      exact apart (eq ▸ List.mem_map_of_mem has)
    · intro eq
      exact apart (eq ▸ List.mem_map_of_mem has')
  have unlinked (mine : Item) (mem : mine ∈ items programs (after programs schedule) i) :
      Unlinked programs (after programs schedule) mine.node := by
    refine ⟨i, mine, mem, rfl, fun untilServed node seen here => ?_⟩
    cases outside.symm.trans here
  refine ⟨⟨⟨?_, rfl, ?_, ?_, ?_⟩, ?_, fun j => rfl⟩, foreign⟩
  · intro n beyond
    have := sits.seated.allocated has
    have := sits.seated.allocated has'
    exact Equiv.swap_apply_of_ne_of_ne (by omega) (by omega)
  · exact (released_link fun y head => sits.released_head head).symm
  · intro n
    have carries := (carries_of_items own has).value
    have carries' := (carries_of_items own has').value
    by_cases first : n = item.node
    · rw [first, Equiv.swap_apply_left, carries, carries', same]
    by_cases second : n = item'.node
    · rw [second, Equiv.swap_apply_right, carries, carries', same]
    rw [Equiv.swap_apply_of_ne_of_ne first second]
  · intro n
    by_cases first : n = item.node
    · exact .inl (first ▸ unlinked item has)
    by_cases second : n = item'.node
    · exact .inl (second ▸ unlinked item' has')
    rw [Equiv.swap_apply_of_ne_of_ne first second]
    exact .inr (released_link fun y link => secret.links n y link).symm
  · intro j
    cases here : (after programs schedule).label j with
    | none => rfl
    | some l =>
      have hj : j ≠ i := by
        rintro rfl
        cases outside.symm.trans here
      have known (k : Label) (at_k : within? l = some k) (y : Nat) (knows : Knows y k) :=
        released (secret.known j l k y here at_k knows)
      cases l with
      | prepare => rfl
      | looking k =>
        obtain rfl : k = .look := (called programs schedule here).2
        rfl
      | pushing item'' untilServed k =>
        have mem := sits.seated.pushes j item'' untilServed k here
        have mine := foreign j hj item'' mem
        have stands := sits.good.stands (holder item''.node)
        rw [sits.seated.holds j item'' mem, here, itemPhase_pushing] at stands
        have label := Label.rename_pushing stands mine (known k rfl)
        rw [Option.map_some, renamePosition, Position.map, Item.rename_eq mine, label]
      | popping untilServed k =>
        have stands := sits.good.stands (popper j)
        rw [sits.seated.pops, here] at stands
        have label := Label.rename_popping stands (known k rfl)
        rw [Option.map_some, renamePosition, Position.map, label]

/-- What can be told of a run without the names of nodes. -/
structure SameEffect (v v' : View Memory (Position Item Label) (AttemptStack.Answer Item)) : Prop where
  contents : v'.memory.toList = v.memory.toList
  answers : ∀ j, (v'.answers j).map (AttemptStack.Answer.map Item.value) =
    (v.answers j).map (AttemptStack.Answer.map Item.value)

/-- It makes no difference which of two requests of one value a thread uses first, whatever it and the
others go on to do. -/
def Interchangeable (programs : List (List (Call Item))) (schedule : List (Turn Unit)) : Prop :=
  ∀ i item item', (after programs schedule).label i = none →
    item ∈ items programs (after programs schedule) i → item' ∈ items programs (after programs schedule) i →
      item.value = item'.value → ∀ turns, owning programs (turns ++ schedule) →
        SameEffect (after programs (turns ++ schedule))
          ((after programs schedule).resume attempts.retrying
            (exchange programs i ((after programs schedule).answers i).length item item') turns)

theorem interchangeable (own : owning programs schedule) : Interchangeable programs schedule := by
  intro i item item' outside has has' same turns owns
  obtain ⟨start, foreign⟩ := alike_of_hand own outside has has' same
  have later : Alike (Equiv.swap item.node item'.node) programs (after programs (turns ++ schedule))
        ((after programs schedule).resume attempts.retrying
          (exchange programs i ((after programs schedule).answers i).length item item') turns) ∧
      ∀ j ≠ i, ∀ other ∈ items programs (after programs (turns ++ schedule)) j,
        Equiv.swap item.node item'.node other.node = other.node := by
    induction turns with
    | nil => exact ⟨start, foreign⟩
    | cons t turns ih =>
      have before := owning_of_suffix (List.suffix_cons t _) owns
      obtain ⟨alike, apart⟩ := ih before
      have lengths (j : Nat) := congrArg List.length (alike.answers j)
      simp only [List.length_map] at lengths
      constructor
      · refine alike.turn owns fun _ => ?_
        rw [lengths]
        by_cases mine : t.thread = i
        · rw [mine]
          exact next_exchange (Algorithm.answers_mono (List.suffix_append turns schedule) i)
        · rw [callsOf_exchange mine]
          -- another thread has only items whose names stay
          cases next : (callsOf programs t.thread)[((after programs (turns ++ schedule)).answers
            t.thread).length]? with
          | none => rfl
          | some c =>
            cases c with
            | attemptPush other =>
              rw [List.cons_append, owning, next, Bool.and_eq_true, decide_eq_true_eq] at owns
              have mem : other ∈ items programs (after programs (turns ++ schedule)) t.thread := by
                rw [items, List.mem_append]
                exact .inr owns.2
              rw [Option.map_some, Call.map, Item.rename_eq (apart t.thread mine other mem)]
            | push | pop | isEmpty | prepare | attemptPop => rfl
      · intro j hj other mem
        have step := TreiberStack.turn programs t (turns ++ schedule)
        rcases items_step step (fun l here => (called programs (turns ++ schedule) here).1) mem with
          old | fresh
        · exact apart j hj other old
        · exact alike.copies.fixed other.node fresh
  obtain ⟨phases, sits⟩ := exists_sits (turns ++ schedule) owns
  exact ⟨later.1.toList_eq sits, later.1.answers⟩

/-- Thread 0 has been handed back its first request, with a link that is out of date, and has a second
one of the same value. -/
example :
    let programs : List (List (Call Item)) :=
      [[.prepare 5, .prepare 5, .attemptPush ⟨0, 5⟩, .attemptPush ⟨0, 5⟩], [.push 7, .pop]]
    let schedule : List (Turn Unit) :=
      ([0, 0, 0, 0, 1, 1, 1, 1, 1, 0, 0, 0, 1, 1, 1, 1, 0].map fun i => ⟨i, ()⟩).reverse
    owning programs schedule ∧ items programs (after programs schedule) 0 = [⟨1, 5⟩, ⟨0, 5⟩] ∧
      (after programs schedule).memory.next 0 = some 2 ∧ (after programs schedule).memory.head = none := by
  decide

end Exchange

end SharedMemory.TreiberStack
