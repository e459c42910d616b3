import SharedMemory.Proofs.Conservation

/-!
# Consumers never see a producer's values out of order

Behind what a consumer last saw of a producer come, in this order, the producer's values in the queue and
those it has still to insert. A consumer takes the first value of the queue, so what it takes is behind
all it has seen; and as long as a value is in the queue, with a consumer that has not counted it, or yet to
be inserted, the count of the values taken is below the total.
-/
namespace SharedMemory.ProducerOrder

variable {plan : Plan}

/-- The plan's total is what its sizes multiply to, and all its values are positive as signed words. -/
structure Plan.Sized (plan : Plan) : Prop where
  counted : Size.mul? plan.producers plan.perProducer = some plan.total
  fits : plan.producers.toNat * plan.perProducer.toNat < 2 ^ 63

namespace Plan

def nth (plan : Plan) (t k : Nat) : Value := plan.value (UInt64.ofNat t) (UInt64.ofNat k)

theorem Sized.total (sized : plan.Sized) :
    plan.total.toNat = plan.producers.toNat * plan.perProducer.toNat :=
  Size.mul?_eq_some_iff.mp sized.counted

theorem Sized.place_lt (_ : plan.Sized) {t k : Nat} (ht : t < plan.producers.toNat)
    (hk : k < plan.perProducer.toNat) :
    t + plan.producers.toNat * k < plan.producers.toNat * plan.perProducer.toNat := by
  have row : plan.producers.toNat * (k + 1) ≤ plan.producers.toNat * plan.perProducer.toNat :=
    Nat.mul_le_mul_left _ hk
  rw [Nat.mul_succ] at row
  omega

theorem Sized.toNat_nth (sized : plan.Sized) {t k : Nat} (ht : t < plan.producers.toNat)
    (hk : k < plan.perProducer.toNat) :
    (plan.nth t k).toUInt64.toNat = t + plan.producers.toNat * k := by
  have below := sized.place_lt ht hk
  have fits := sized.fits
  have hp := plan.producers.toNat_lt
  have hn := plan.perProducer.toNat_lt
  have product : plan.producers.toNat * k < 2 ^ 64 := by omega
  change (UInt64.ofNat t + plan.producers * UInt64.ofNat k).toNat = _
  rw [UInt64.toNat_add, UInt64.toNat_mul, UInt64.toNat_ofNat_of_lt' (show t < 2 ^ 64 by omega),
    UInt64.toNat_ofNat_of_lt' (show k < 2 ^ 64 by omega), Nat.mod_eq_of_lt product]
  exact Nat.mod_eq_of_lt (by omega)

theorem Sized.toInt_nth (sized : plan.Sized) {t k : Nat} (ht : t < plan.producers.toNat)
    (hk : k < plan.perProducer.toNat) :
    (plan.nth t k).toInt = (t + plan.producers.toNat * k : Nat) := by
  have word := sized.toNat_nth ht hk
  have below := sized.place_lt ht hk
  have fits := sized.fits
  rw [← word]
  apply BitVec.toInt_eq_toNat_of_lt
  change 2 * (plan.nth t k).toUInt64.toNat < 2 ^ 64
  omega

theorem Sized.producerOf_nth (sized : plan.Sized) {t k : Nat} (ht : t < plan.producers.toNat)
    (hk : k < plan.perProducer.toNat) : plan.producerOf (plan.nth t k) = t := by
  rw [producerOf, UInt64.toNat_mod, sized.toNat_nth ht hk, Nat.add_mul_mod_self_left,
    Nat.mod_eq_of_lt ht]

theorem Sized.nth_lt_nth (sized : plan.Sized) {t k k' : Nat} (ht : t < plan.producers.toNat)
    (hk : k < k') (hk' : k' < plan.perProducer.toNat) : plan.nth t k < plan.nth t k' := by
  have steps : plan.producers.toNat * k < plan.producers.toNat * k' :=
    Nat.mul_lt_mul_of_pos_left hk (by omega)
  rw [Int64.lt_iff_toInt_lt, sized.toInt_nth ht (hk.trans hk'), sized.toInt_nth ht hk']
  omega

theorem Sized.mark_lt_nth (sized : plan.Sized) {t k : Nat} (ht : t < plan.producers.toNat)
    (hk : k < plan.perProducer.toNat) : -1 < plan.nth t k := by
  have mark : Int64.toInt (-1) = -1 := rfl
  rw [Int64.lt_iff_toInt_lt, sized.toInt_nth ht hk, mark]
  omega

theorem value_eq_nth (plan : Plan) {p i : UInt64} {t : Nat} (hp : p.toNat = t) :
    plan.value p i = plan.nth t i.toNat := by
  rw [nth, ← hp, UInt64.ofNat_toNat, UInt64.ofNat_toNat]

end Plan

abbrev Place : Type := Status (Label Unit) (Except Panic Unit)

def Plan.made (plan : Plan) : Place → Nat
  | .running (.produce _ i) | .running (.inserting _ _ i) => i.toNat
  | _ => plan.perProducer.toNat

def Plan.due (plan : Plan) : Place → Nat
  | .running (.produce _ i) | .running (.inserting _ _ i) => plan.perProducer.toNat - i.toNat
  | .running (.countTaken _ _) => 1
  | _ => 0

def Plan.madeBy (plan : Plan) (places : List Place) (t : Nat) : Nat :=
  (places[t]?.map plan.made).getD 0

/-- What one turn of a thread does to the queue, the count and the thread's place. -/
inductive Moves (plan : Plan) : List Value → UInt64 → Place → List Value → UInt64 → Place → Prop
  | rest {values taken s} : Moves plan values taken s values taken s
  | begin {values taken p i} (more : i < plan.perProducer) :
      Moves plan values taken (.running (.produce p i)) values taken (.running (.inserting () p i))
  | finish {values taken p i} (all_in : ¬ i < plan.perProducer) :
      Moves plan values taken (.running (.produce p i)) values taken (.returned (.ok ()))
  | insert {values taken p i} :
      Moves plan values taken (.running (.inserting () p i)) (values ++ [plan.value p i]) taken
        (.running (.produce p (i + 1)))
  | goOn {values taken last} (more : taken < plan.total) :
      Moves plan values taken (.running (.look last)) values taken (.running (.removing () last))
  | stop {values taken last} (enough : ¬ taken < plan.total) :
      Moves plan values taken (.running (.look last)) values taken (.returned (.ok ()))
  | take {v values taken last} :
      Moves plan (v :: values) taken (.running (.removing () last)) values taken
        (.running (.countTaken v last))
  | miss {values taken last} :
      Moves plan values taken (.running (.removing () last)) values taken (.running (.look last))
  | count {values taken v last} :
      Moves plan values taken (.running (.countTaken v last)) values (taken + 1)
        (.running (.judge v last))
  | accept {values taken v last} (larger : last.getD (plan.producerOf v) (-1) < v) :
      Moves plan values taken (.running (.judge v last)) values taken
        (.running (.look (last.set (plan.producerOf v) v)))
  | reject {values taken v last} (smaller : ¬ last.getD (plan.producerOf v) (-1) < v) :
      Moves plan values taken (.running (.judge v last)) values taken
        (.returned (.error (.outOfOrder (plan.producerOf v) v (last.getD (plan.producerOf v) (-1)))))

/-- A value that a producer has inserted, whoever has it now. -/
def Made (plan : Plan) (made : Nat → Nat) (x : Value) : Prop :=
  ∃ t k, t < plan.producers.toNat ∧ k < made t ∧ k < plan.perProducer.toNat ∧ x = plan.nth t k

/-- All values of producer `t` that are in the queue, or are still to come, are larger. -/
structure Before (plan : Plan) (values : List Value) (made : Nat → Nat) (x : Value) (t : Nat) :
    Prop where
  queued : ∀ y ∈ values, plan.producerOf y = t → x < y
  coming : ∀ k, made t ≤ k → k < plan.perProducer.toNat → x < plan.nth t k

/-- What a consumer has seen comes before all it can still see. -/
structure Watches (plan : Plan) (values : List Value) (made : Nat → Nat) (last : List Value) :
    Prop where
  length : last.length = plan.producers.toNat
  before : ∀ t < plan.producers.toNat, Before plan values made (last.getD t (-1)) t

/-- What a consumer has in hand was inserted and comes between what it has seen and what it can still
see. -/
structure Holds (plan : Plan) (values : List Value) (made : Nat → Nat) (v : Value) (last : List Value) :
    Prop where
  watches : Watches plan values made last
  inserted : Made plan made v
  before : Before plan values made v (plan.producerOf v)
  larger : last.getD (plan.producerOf v) (-1) < v

def Fits (plan : Plan) (values : List Value) (taken : UInt64) (made : Nat → Nat) (t : Nat) :
    Place → Prop
  | .running (.produce p i) =>
    t < plan.producers.toNat ∧ p.toNat = t ∧ i.toNat ≤ plan.perProducer.toNat
  | .running (.inserting _ p i) =>
    t < plan.producers.toNat ∧ p.toNat = t ∧ i.toNat < plan.perProducer.toNat
  | .running (.look last) | .running (.removing _ last) =>
    plan.producers.toNat ≤ t ∧ Watches plan values made last
  | .running (.countTaken v last) | .running (.judge v last) =>
    plan.producers.toNat ≤ t ∧ Holds plan values made v last
  | .returned r => r = .ok () ∧ (plan.producers.toNat ≤ t → plan.total ≤ taken)

structure Orderly (plan : Plan) (values : List Value) (taken : UInt64) (places : List Place) :
    Prop where
  fits : ∀ t s, places[t]? = some s → Fits plan values taken (plan.madeBy places) t s
  inserted : ∀ x ∈ values, Made plan (plan.madeBy places) x
  order : values.Pairwise fun x y => plan.producerOf x = plan.producerOf y → x < y
  count : values.length + taken.toNat + (places.map plan.due).sum =
    plan.producers.toNat * plan.perProducer.toNat

/-- No value leaves a producer's order: those inserted since are among those that were to come. -/
structure Later (plan : Plan) (values : List Value) (made : Nat → Nat) (values' : List Value)
    (made' : Nat → Nat) : Prop where
  made_le : ∀ t, made t ≤ made' t
  source : ∀ y ∈ values', y ∈ values ∨
    ∃ k, made (plan.producerOf y) ≤ k ∧ k < plan.perProducer.toNat ∧
      y = plan.nth (plan.producerOf y) k

section Later

variable {values values' : List Value} {made made' : Nat → Nat} {taken taken' : UInt64}
  {x v : Value} {last : List Value} {t : Nat} {s : Place}

theorem Made.later (h : Made plan made x) (later : Later plan values made values' made') :
    Made plan made' x := by
  obtain ⟨t, k, ht, hk, hk', rfl⟩ := h
  exact ⟨t, k, ht, hk.trans_le (later.made_le t), hk', rfl⟩

theorem Before.later (h : Before plan values made x t) (later : Later plan values made values' made') :
    Before plan values' made' x t where
  queued y hy from_t := by
    rcases later.source y hy with old | ⟨k, since, hk, same⟩
    · exact h.queued y old from_t
    · rw [from_t] at since same
      rw [same]
      exact h.coming k since hk
  coming k since hk := h.coming k ((later.made_le t).trans since) hk

theorem Watches.later (h : Watches plan values made last)
    (later : Later plan values made values' made') : Watches plan values' made' last :=
  ⟨h.length, fun t ht => (h.before t ht).later later⟩

theorem Holds.later (h : Holds plan values made v last) (later : Later plan values made values' made') :
    Holds plan values' made' v last :=
  ⟨h.watches.later later, h.inserted.later later, h.before.later later, h.larger⟩

theorem Fits.later (h : Fits plan values taken made t s) (later : Later plan values made values' made')
    (more : taken ≤ taken') : Fits plan values' taken' made' t s := by
  cases s with
  | returned r => exact ⟨h.1, fun consumer => UInt64.le_trans (h.2 consumer) more⟩
  | running l =>
    cases l with
    | produce p i | inserting l p i => exact h
    | look last | removing l last => exact ⟨h.1, h.2.later later⟩
    | countTaken v last | judge v last => exact ⟨h.1, h.2.later later⟩

theorem Later.of_subset (made : Nat → Nat) (subset : values' ⊆ values) :
    Later plan values made values' made := ⟨fun _ => Nat.le_refl _, fun _ hy => .inl (subset hy)⟩

end Later

namespace Orderly

variable {values values' : List Value} {taken taken' : UInt64} {places : List Place} {t : Nat}
  {s s' : Place} {v : Value} {last : List Value}

theorem madeBy_of_place (here : places[t]? = some s) : plan.madeBy places t = plan.made s := by
  rw [Plan.madeBy, here]
  rfl

theorem madeBy_set (here : places[t]? = some s) :
    plan.madeBy (places.set t s') = Function.update (plan.madeBy places) t (plan.made s') := by
  funext u
  by_cases same : u = t
  · subst same
    rw [Function.update_self, madeBy_of_place]
    exact List.getElem?_set_self (List.getElem?_eq_some_iff.mp here).1
  · rw [Function.update_of_ne same, Plan.madeBy, List.getElem?_set_ne (Ne.symm same), Plan.madeBy]

/-- What is in the queue, counted and due is no more than the plan has. -/
theorem room (h : Orderly plan values taken places) (here : places[t]? = some s) :
    values.length + taken.toNat + plan.due s ≤ plan.producers.toNat * plan.perProducer.toNat := by
  obtain ⟨rest, whole, -⟩ := Crew.sum_split plan.due here
  have count := h.count
  omega

/-- One thread moves to a place that fits, and what the others have seen comes before what is new. -/
theorem advance (h : Orderly plan values taken places) (here : places[t]? = some s)
    (later : Later plan values (plan.madeBy places) values'
      (Function.update (plan.madeBy places) t (plan.made s')))
    (more : taken ≤ taken')
    (own : Fits plan values' taken' (Function.update (plan.madeBy places) t (plan.made s')) t s')
    (inserted : ∀ x ∈ values', Made plan (Function.update (plan.madeBy places) t (plan.made s')) x)
    (order : values'.Pairwise fun x y => plan.producerOf x = plan.producerOf y → x < y)
    (count : values'.length + taken'.toNat + plan.due s' =
      values.length + taken.toNat + plan.due s) :
    Orderly plan values' taken' (places.set t s') := by
  refine ⟨fun u w there => ?_, ?_, order, ?_⟩
  · rw [madeBy_set here]
    by_cases same : u = t
    · subst same
      rw [List.getElem?_set_self (List.getElem?_eq_some_iff.mp here).1] at there
      cases there
      exact own
    · rw [List.getElem?_set_ne (Ne.symm same)] at there
      exact (h.fits u w there).later later more
  · rw [madeBy_set here]
    exact inserted
  · obtain ⟨rest, whole, replaced⟩ := Crew.sum_split plan.due here
    have before := h.count
    rw [whole] at before
    rw [replaced]
    omega

theorem stay (h : Orderly plan values taken places) (here : places[t]? = some s)
    (same : plan.made s' = plan.made s) (subset : values'.Sublist values) (more : taken ≤ taken')
    (own : Fits plan values' taken' (plan.madeBy places) t s')
    (count : values'.length + taken'.toNat + plan.due s' =
      values.length + taken.toNat + plan.due s) :
    Orderly plan values' taken' (places.set t s') := by
  have kept : Function.update (plan.madeBy places) t (plan.made s') = plan.madeBy places := by
    rw [same, ← madeBy_of_place here, Function.update_eq_self]
  apply h.advance here _ more _ _ (h.order.sublist subset) count
  · rw [kept]
    exact .of_subset _ subset.subset
  · rw [kept]
    exact own
  · rw [kept]
    exact fun x hx => h.inserted x (subset.subset hx)

/-- A producer's next value is larger than all it has inserted. -/
theorem insert (sized : plan.Sized) {p i : UInt64} (h : Orderly plan values taken places)
    (here : places[t]? = some (.running (.inserting () p i))) :
    Orderly plan (values ++ [plan.value p i]) taken (places.set t (.running (.produce p (i + 1)))) := by
  obtain ⟨ht, hp, hi⟩ := h.fits t _ here
  have now : plan.madeBy places t = i.toNat := madeBy_of_place here
  have next : (i + 1).toNat = i.toNat + 1 := by
    have := plan.perProducer.toNat_lt
    rw [UInt64.toNat_add]
    exact Nat.mod_eq_of_lt (by change i.toNat + 1 < _; omega)
  have producer : plan.producerOf (plan.nth t i.toNat) = t := sized.producerOf_nth ht hi
  rw [Plan.value_eq_nth plan hp]
  have later : Later plan values (plan.madeBy places) (values ++ [plan.nth t i.toNat])
      (Function.update (plan.madeBy places) t (i + 1).toNat) := by
    constructor
    · intro u
      by_cases same : u = t
      · subst same
        rw [Function.update_self, now, next]
        exact Nat.le_succ _
      · rw [Function.update_of_ne same]
    · intro y hy
      rcases List.mem_append.mp hy with old | new
      · exact .inl old
      · rw [List.mem_singleton] at new
        subst new
        refine .inr ⟨i.toNat, ?_, hi, ?_⟩
        · rw [producer, now]
        · rw [producer]
  apply h.advance here later (UInt64.le_refl _)
  · exact ⟨ht, hp, next ▸ hi⟩
  · intro x hx
    rcases List.mem_append.mp hx with old | new
    · exact (h.inserted x old).later later
    · rw [List.mem_singleton] at new
      refine ⟨t, i.toNat, ht, ?_, hi, new⟩
      rw [Function.update_self]
      change _ < (i + 1).toNat
      omega
  · refine List.pairwise_append.mpr ⟨h.order, List.pairwise_singleton _ _, ?_⟩
    intro x hx y hy same
    rw [List.mem_singleton] at hy
    subst hy
    obtain ⟨u, k, hu, hk, hk', rfl⟩ := h.inserted x hx
    rw [sized.producerOf_nth hu hk', producer] at same
    subst same
    exact sized.nth_lt_nth ht (now ▸ hk) hi
  · rw [List.length_append, List.length_singleton]
    change _ + _ + (plan.perProducer.toNat - (i + 1).toNat) =
      _ + _ + (plan.perProducer.toNat - i.toNat)
    omega

/-- The first value of the queue is larger than all that a consumer has seen of its producer, and smaller
than all that is left. -/
theorem take (sized : plan.Sized) (h : Orderly plan (v :: values) taken places)
    (here : places[t]? = some (.running (.removing () last))) :
    Orderly plan values taken (places.set t (.running (.countTaken v last))) := by
  obtain ⟨consumer, watches⟩ := h.fits t _ here
  have inserted := h.inserted v List.mem_cons_self
  have later : Later plan (v :: values) (plan.madeBy places) values (plan.madeBy places) :=
    .of_subset _ (List.subset_cons_self v values)
  have order := List.pairwise_cons.mp h.order
  have known : plan.producerOf v < plan.producers.toNat := by
    obtain ⟨u, k, hu, -, hk, rfl⟩ := inserted
    rwa [sized.producerOf_nth hu hk]
  have before : Before plan values (plan.madeBy places) v (plan.producerOf v) := by
    refine ⟨fun y hy same => order.1 y hy same.symm, fun k since hk => ?_⟩
    obtain ⟨u, k', hu, hk', hk'', rfl⟩ := inserted
    rw [sized.producerOf_nth hu hk''] at since ⊢
    exact sized.nth_lt_nth hu (hk'.trans_le since) hk
  refine h.stay here rfl (List.sublist_cons_self v values) (UInt64.le_refl _)
    ⟨consumer, watches.later later, inserted, before, ?_⟩ ?_
  · exact (watches.before _ known).queued v List.mem_cons_self rfl
  · change values.length + _ + 1 = values.length + 1 + _ + 0
    omega

theorem count_one (sized : plan.Sized) (h : Orderly plan values taken places)
    (here : places[t]? = some (.running (.countTaken v last))) :
    Orderly plan values (taken + 1) (places.set t (.running (.judge v last))) := by
  have room : _ + _ + 1 ≤ _ := h.room here
  have fits := sized.fits
  have next : (taken + 1).toNat = taken.toNat + 1 := by
    rw [UInt64.toNat_add]
    exact Nat.mod_eq_of_lt (by change taken.toNat + 1 < _; omega)
  refine h.stay here rfl (List.Sublist.refl _) ?_ (h.fits t _ here) ?_
  · rw [UInt64.le_iff_toNat_le, next]
    exact Nat.le_succ _
  · rw [next]
    change _ + _ + 0 = _ + _ + 1
    omega

/-- What a consumer has judged is the last it has seen of its producer. -/
theorem accept (h : Orderly plan values taken places)
    (here : places[t]? = some (.running (.judge v last))) :
    Orderly plan values taken (places.set t (.running (.look (last.set (plan.producerOf v) v)))) := by
  obtain ⟨consumer, holds⟩ := h.fits t _ here
  refine h.stay here rfl (List.Sublist.refl _) (UInt64.le_refl _) ⟨consumer, ?_, fun u hu => ?_⟩ rfl
  · rw [List.length_set]
    exact holds.watches.length
  · by_cases same : u = plan.producerOf v
    · subst same
      rw [List.getD_eq_getElem?_getD, List.getElem?_set_self (holds.watches.length ▸ hu)]
      exact holds.before
    · rw [List.getD_eq_getElem?_getD, List.getElem?_set_ne (Ne.symm same),
        ← List.getD_eq_getElem?_getD]
      exact holds.watches.before u hu

theorem move (sized : plan.Sized) (h : Orderly plan values taken places) (here : places[t]? = some s)
    (moves : Moves plan values taken s values' taken' s') :
    Orderly plan values' taken' (places.set t s') := by
  cases moves with
  | rest =>
    exact h.stay here rfl (List.Sublist.refl _) (UInt64.le_refl _) (h.fits t _ here) rfl
  | begin more =>
    obtain ⟨ht, hp, -⟩ := h.fits t _ here
    exact h.stay here rfl (List.Sublist.refl _) (UInt64.le_refl _)
      ⟨ht, hp, UInt64.lt_iff_toNat_lt.mp more⟩ rfl
  | @finish _ _ p i all_in =>
    obtain ⟨ht, -, hi⟩ := h.fits t _ here
    have all : i.toNat = plan.perProducer.toNat := by
      rw [UInt64.lt_iff_toNat_lt] at all_in
      omega
    refine h.stay here all.symm (List.Sublist.refl _) (UInt64.le_refl _)
      ⟨rfl, fun consumer => absurd ht (Nat.not_lt.mpr consumer)⟩ ?_
    change _ + _ + 0 = _ + _ + (plan.perProducer.toNat - i.toNat)
    omega
  | insert => exact h.insert sized here
  | goOn more =>
    obtain ⟨consumer, watches⟩ := h.fits t _ here
    exact h.stay here rfl (List.Sublist.refl _) (UInt64.le_refl _) ⟨consumer, watches⟩ rfl
  | stop enough =>
    refine h.stay here rfl (List.Sublist.refl _) (UInt64.le_refl _) ⟨rfl, fun _ => ?_⟩ rfl
    exact UInt64.not_lt.mp enough
  | take => exact h.take sized here
  | miss =>
    obtain ⟨consumer, watches⟩ := h.fits t _ here
    exact h.stay here rfl (List.Sublist.refl _) (UInt64.le_refl _) ⟨consumer, watches⟩ rfl
  | count => exact h.count_one sized here
  | accept larger => exact h.accept here
  | reject smaller => exact absurd (h.fits t _ here).2.larger smaller

theorem start (sized : plan.Sized) :
    Orderly plan [] 0
      ((List.range plan.producers.toNat).map (fun p => .running (.produce (UInt64.ofNat p) 0)) ++
        List.replicate plan.producers.toNat
          (.running (.look (List.replicate plan.producers.toNat (-1))))) := by
  refine ⟨fun t s here => ?_, nofun, List.Pairwise.nil, ?_⟩
  · rw [List.getElem?_append, List.length_map, List.length_range] at here
    split at here
    · next producer =>
      rw [List.getElem?_map, List.getElem?_range producer] at here
      cases here
      have small := plan.producers.toNat_lt
      exact ⟨producer, UInt64.toNat_ofNat_of_lt' (producer.trans small), Nat.zero_le _⟩
    · next consumer =>
      rw [List.getElem?_replicate] at here
      split at here
      · cases here
        refine ⟨Nat.not_lt.mp consumer, List.length_replicate, fun u hu => ⟨nofun, fun k _ hk => ?_⟩⟩
        rw [List.getD_eq_getElem?_getD, List.getElem?_replicate_of_lt hu]
        exact sized.mark_lt_nth hu hk
      · cases here
  · rw [List.map_append, List.sum_append, List.map_map, List.map_replicate, List.sum_replicate]
    simp [Function.comp_def, Plan.due]

/-- Once all threads have returned, as many values are counted as there were, and none is left. -/
theorem finish (sized : plan.Sized) (h : Orderly plan values taken places)
    (done : ∀ s ∈ places, ∃ r, s = .returned r)
    (crowd : places.length = plan.producers.toNat + plan.producers.toNat) :
    taken = plan.total ∧ values = [] := by
  have paid : (places.map plan.due).sum = 0 := by
    apply List.sum_eq_zero
    intro n hn
    obtain ⟨s, hs, rfl⟩ := List.mem_map.mp hn
    obtain ⟨r, rfl⟩ := done s hs
    rfl
  have count := h.count
  rw [paid, ← sized.total] at count
  have enough : plan.total.toNat ≤ taken.toNat := by
    rcases Nat.eq_zero_or_pos plan.producers.toNat with none | some
    · rw [sized.total, none, Nat.zero_mul]
      exact Nat.zero_le _
    · have consumer : plan.producers.toNat < places.length := by omega
      obtain ⟨r, hr⟩ := done _ (List.getElem_mem consumer)
      have fits := h.fits _ _ (List.getElem?_eq_getElem consumer)
      rw [hr] at fits
      exact UInt64.le_iff_toNat_le.mp (fits.2 (Nat.le_refl _))
  refine ⟨UInt64.toNat_inj.mp ?_, List.eq_nil_of_length_eq_zero ?_⟩ <;> omega

end Orderly

end SharedMemory.ProducerOrder
