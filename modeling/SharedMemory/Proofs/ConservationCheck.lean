import SharedMemory.Proofs.Conservation

/-!
# Which observations the conservation check accepts

The check adds up the expected values in ascending order, and every partial sum has to fit. The partial
sums fall while the values are negative and rise from then on, so all of them fit if the lowest does, which
is the sum of the negative values, and the last, which is the total. A run's own sum wraps, and is the
total whenever the check gets that far.
-/
namespace SharedMemory

namespace Value

def total (values : List Value) : Int := (values.map Int64.toInt).sum

/-- The lowest of the partial sums in ascending order. -/
def lowest (values : List Value) : Int := total (values.filter (· < 0))

variable {values values' : List Value}

@[simp] theorem total_nil : total [] = 0 := rfl

@[simp] theorem total_cons (v : Value) (values : List Value) :
    total (v :: values) = v.toInt + total values := rfl

theorem total_append (values more : List Value) : total (values ++ more) = total values + total more := by
  rw [total, List.map_append, List.sum_append, total, total]

theorem total_perm (h : values.Perm values') : total values = total values' := (h.map _).sum_eq

theorem lowest_perm (h : values.Perm values') : lowest values = lowest values' := total_perm (h.filter _)

theorem toInt_bounds (v : Value) : -2 ^ 63 ≤ v.toInt ∧ v.toInt ≤ 2 ^ 63 - 1 :=
  ⟨Int64.le_toInt v, Int.le_sub_one_of_lt (Int64.toInt_lt v)⟩

theorem exists_toInt {n : Int} (low : -2 ^ 63 ≤ n) (high : n ≤ 2 ^ 63 - 1) : ∃ v : Value, v.toInt = n :=
  ⟨Int64.ofInt n, Int64.toInt_ofInt_of_le low (Int.lt_of_le_sub_one high)⟩

theorem total_nonneg (h : ∀ v ∈ values, 0 ≤ v.toInt) : 0 ≤ total values :=
  List.sum_nonneg (by simpa using h)

theorem total_nonpos (h : ∀ v ∈ values, v.toInt ≤ 0) : total values ≤ 0 := by
  induction values with
  | nil => rfl
  | cons v rest ih =>
    have first := h v List.mem_cons_self
    have others := ih fun w hw => h w (List.mem_cons_of_mem v hw)
    rw [total_cons]
    omega

/-- While all values are of one sign, no partial sum lies beyond the last one. -/
theorem foldlM_add?_eq_some_iff (sign : (∀ v ∈ values, v.toInt ≤ 0) ∨ ∀ v ∈ values, 0 ≤ v.toInt)
    {start sum : Value} :
    values.foldlM add? start = some sum ↔ sum.toInt = start.toInt + total values := by
  induction values generalizing start with
  | nil =>
    rw [List.foldlM_nil, total_nil, Int.add_zero, Int64.toInt_inj]
    exact (Option.some_inj).trans eq_comm
  | cons v rest ih =>
    have sign_rest : (∀ w ∈ rest, w.toInt ≤ 0) ∨ ∀ w ∈ rest, 0 ≤ w.toInt :=
      sign.imp (fun h w hw => h w (List.mem_cons_of_mem v hw)) fun h w hw =>
        h w (List.mem_cons_of_mem v hw)
    rw [List.foldlM_cons, total_cons]
    refine Option.bind_eq_some_iff.trans ?_
    constructor
    · rintro ⟨next, adds, goes⟩
      rw [add?_eq_some_iff] at adds
      rw [ih sign_rest, adds] at goes
      omega
    · intro last
      have low := toInt_bounds start
      have high := toInt_bounds sum
      have between : -2 ^ 63 ≤ start.toInt + v.toInt ∧ start.toInt + v.toInt ≤ 2 ^ 63 - 1 := by
        rcases sign with falls | rises
        · have first := falls v List.mem_cons_self
          have others := total_nonpos fun w hw => falls w (List.mem_cons_of_mem v hw)
          omega
        · have first := rises v List.mem_cons_self
          have others := total_nonneg fun w hw => rises w (List.mem_cons_of_mem v hw)
          omega
      obtain ⟨next, adds⟩ := exists_toInt between.1 between.2
      refine ⟨next, add?_eq_some_iff.mpr adds, (ih sign_rest).mpr ?_⟩
      omega

/-- An ascending list begins with its negative values. -/
theorem eq_filter_append (ascending : values.Pairwise (· ≤ ·)) :
    values = values.filter (· < 0) ++ values.filter (0 ≤ ·) := by
  induction values with
  | nil => rfl
  | cons v rest ih =>
    obtain ⟨least, ascending⟩ := List.pairwise_cons.mp ascending
    by_cases positive : 0 ≤ v
    · have all_positive : ∀ w ∈ v :: rest, 0 ≤ w := by
        intro w hw
        rcases List.mem_cons.mp hw with rfl | hw
        · exact positive
        · exact Int64.le_trans positive (least w hw)
      rw [List.filter_eq_nil_iff.mpr fun w hw => by simpa using all_positive w hw,
        List.filter_eq_self.mpr (by simpa using all_positive), List.nil_append]
    · have negative : v < 0 := Int64.not_le.mp positive
      rw [List.filter_cons_of_pos (by simpa using negative), List.filter_cons_of_neg (by simpa using positive),
        List.cons_append, ← ih ascending]

theorem negative_of_mem {v : Value} (hv : v ∈ values.filter (· < 0)) : v.toInt ≤ 0 :=
  Int.le_of_lt (Int64.lt_iff_toInt_lt.mp (of_decide_eq_true (List.mem_filter.mp hv).2))

theorem positive_of_mem {v : Value} (hv : v ∈ values.filter (0 ≤ ·)) : 0 ≤ v.toInt :=
  Int64.le_iff_toInt_le.mp (of_decide_eq_true (List.mem_filter.mp hv).2)

theorem total_eq_lowest_add (ascending : values.Pairwise (· ≤ ·)) :
    total values = lowest values + total (values.filter (0 ≤ ·)) := by
  rw [lowest, ← total_append, ← eq_filter_append ascending]

/-- All partial sums fit when the values are added up in ascending order. -/
def Summable (values : List Value) : Prop := -2 ^ 63 ≤ lowest values ∧ total values ≤ 2 ^ 63 - 1

/-- In ascending order the checked sum is the total, if that fits and the lowest partial sum does. -/
theorem checkedSum_eq_some_iff (ascending : values.Pairwise (· ≤ ·)) {sum : Value} :
    checkedSum values = some sum ↔ Summable values ∧ sum.toInt = total values := by
  have whole := total_eq_lowest_add ascending
  have fits := toInt_bounds sum
  rw [checkedSum, eq_filter_append ascending, List.foldlM_append, ← eq_filter_append ascending]
  refine Option.bind_eq_some_iff.trans ?_
  simp only [foldlM_add?_eq_some_iff (.inl fun v => negative_of_mem),
    foldlM_add?_eq_some_iff (.inr fun v => positive_of_mem)]
  constructor
  · rintro ⟨turning, falls, rises⟩
    have bounds := toInt_bounds turning
    have least : turning.toInt = lowest values := falls.trans (Int.zero_add _)
    refine ⟨⟨?_, ?_⟩, ?_⟩ <;> omega
  · rintro ⟨⟨low, high⟩, last⟩
    have below : lowest values ≤ 0 := total_nonpos fun v => negative_of_mem
    obtain ⟨turning, least⟩ := exists_toInt low (Int.le_trans below (by decide))
    refine ⟨turning, least.trans (Int.zero_add _).symm, ?_⟩
    omega

theorem summable_perm (h : values.Perm values') : Summable values ↔ Summable values' := by
  rw [Summable, Summable, total_perm h, lowest_perm h]

theorem exists_checkedSum (ascending : values.Pairwise (· ≤ ·)) (fit : Summable values) :
    ∃ sum, checkedSum values = some sum ∧ sum.toInt = total values := by
  have rises : 0 ≤ total (values.filter (0 ≤ ·)) := total_nonneg fun v => positive_of_mem
  have whole := total_eq_lowest_add ascending
  obtain ⟨low, high⟩ := fit
  obtain ⟨sum, last⟩ := exists_toInt (n := total values) (by omega) high
  exact ⟨sum, (checkedSum_eq_some_iff ascending).mpr ⟨⟨low, high⟩, last⟩, last⟩

theorem checkedSum_eq_none (ascending : values.Pairwise (· ≤ ·)) (unfit : ¬ Summable values) :
    checkedSum values = none :=
  Option.eq_none_iff_forall_ne_some.mpr fun _ sums => unfit ((checkedSum_eq_some_iff ascending).mp sums).1

theorem wrappingSum_eq (values : List Value) : wrappingSum values = Int64.ofInt (total values) := by
  have fold : ∀ start : Value, values.foldl (· + ·) start = start + Int64.ofInt (total values) := by
    induction values with
    | nil => exact fun start => (Int64.add_zero start).symm
    | cons v rest ih =>
      intro start
      rw [List.foldl_cons, ih, total_cons, Int64.ofInt_add, Int64.ofInt_toInt, Int64.add_assoc]
  rw [wrappingSum, fold, Int64.zero_add]

end Value

namespace Observation

open Value (total Summable)

theorem expected_ascending (pairs : UInt64) (values : List Value) :
    (expected pairs values).Pairwise (· ≤ ·) := Value.sort_ascending _

theorem count_expected (pairs : UInt64) (values : List Value) (v : Value) :
    (expected pairs values).count v = pairs.toNat * values.count v := by
  rw [expected, (Value.sort_perm _).count_eq]
  induction values with
  | nil => rfl
  | cons w rest ih =>
    rw [List.flatMap_cons, List.count_append, ih, List.count_replicate, List.count_cons]
    split
    · rw [Nat.mul_add, Nat.mul_one, Nat.add_comm]
    · rw [Nat.zero_add, Nat.add_zero]

theorem expected_perm (pairs : UInt64) (values : List Value) :
    (expected pairs values).Perm (List.replicate pairs.toNat values).flatten := by
  rw [List.perm_iff_count]
  intro v
  rw [count_expected, List.count_flatten, List.map_replicate, List.sum_replicate_nat]

/-- An ascending list is what is expected as soon as it holds the same values. -/
theorem eq_expected {sorted values : List Value} {pairs : UInt64} (ascending : sorted.Pairwise (· ≤ ·))
    (same : sorted.Perm (List.replicate pairs.toNat values).flatten) : sorted = expected pairs values :=
  (same.trans (expected_perm pairs values).symm).eq_of_pairwise
    (fun _ _ _ _ below above => Int64.le_antisymm below above) ascending (expected_ascending pairs values)

section Verdict

variable {o : Observation} {pairs : UInt64} {values : List Value}

theorem mul?_length (fits : pairs.toNat * values.length < 2 ^ 64) :
    Size.mul? pairs (UInt64.ofNat values.length) = some (UInt64.ofNat (pairs.toNat * values.length)) := by
  rw [← Size.mul?_ofNat fits, UInt64.ofNat_toNat]

variable (o pairs values) in
/-- How the check of an observation ends. -/
structure Judged : Prop where
  /-- Expected is the ascending list of `pairs` copies of each value. -/
  ascending : (expected pairs values).Pairwise (· ≤ ·)
  copies : ∀ v, (expected pairs values).count v = pairs.toNat * values.count v
  accepts : o.checkConserved pairs values = .ok () ↔
    o.inserted.toNat = pairs.toNat * values.length ∧ o.removed.toNat = pairs.toNat * values.length ∧
      Summable (expected pairs values) ∧ o.sum.toInt = total (expected pairs values) ∧
      o.removedSorted = expected pairs values
  /-- What is not accepted is refused over the first of the five that fails. -/
  inserts : o.inserted.toNat ≠ pairs.toNat * values.length →
    o.checkConserved pairs values = .error (.mismatch (some "insert count mismatch")
      (toString o.inserted.toNat) (toString (pairs.toNat * values.length)))
  removals : o.inserted.toNat = pairs.toNat * values.length →
    o.removed.toNat ≠ pairs.toNat * values.length →
    o.checkConserved pairs values = .error (.mismatch (some "remove count mismatch")
      (toString o.removed.toNat) (toString (pairs.toNat * values.length)))
  overflow : o.inserted.toNat = pairs.toNat * values.length →
    o.removed.toNat = pairs.toNat * values.length → ¬ Summable (expected pairs values) →
    o.checkConserved pairs values = .error .addOverflow
  sum : o.inserted.toNat = pairs.toNat * values.length →
    o.removed.toNat = pairs.toNat * values.length → Summable (expected pairs values) →
    o.sum.toInt ≠ total (expected pairs values) →
    o.checkConserved pairs values = .error (.mismatch (some "sum mismatch")
      (toString o.sum.toInt) (toString (total (expected pairs values))))
  multiset : o.inserted.toNat = pairs.toNat * values.length →
    o.removed.toNat = pairs.toNat * values.length → Summable (expected pairs values) →
    o.sum.toInt = total (expected pairs values) → o.removedSorted ≠ expected pairs values →
    o.checkConserved pairs values = .error (.mismatch (some "multiset mismatch")
      (DebugText.ofList o.removedSorted) (DebugText.ofList (expected pairs values)))

theorem require_bind (holds : Bool) (label left right : String) (next : Unit → Except Panic Unit) :
    (require holds label left right >>= next) =
      if holds then next () else .error (.mismatch (some label) left right) := by
  cases holds <;> rfl

/-- The check, with the counts as numbers. -/
theorem checkConserved_eq (fits : pairs.toNat * values.length < 2 ^ 64) :
    o.checkConserved pairs values =
      if o.inserted.toNat = pairs.toNat * values.length then
        if o.removed.toNat = pairs.toNat * values.length then
          match Value.checkedSum (expected pairs values) with
          | some sum =>
            if o.sum = sum then
              if o.removedSorted = expected pairs values then .ok ()
              else .error (.mismatch (some "multiset mismatch") (DebugText.ofList o.removedSorted)
                (DebugText.ofList (expected pairs values)))
            else .error (.mismatch (some "sum mismatch") (DebugText.ofValue o.sum)
              (DebugText.ofValue sum))
          | none => .error .addOverflow
        else .error (.mismatch (some "remove count mismatch") (toString o.removed.toNat)
          (toString (pairs.toNat * values.length)))
      else .error (.mismatch (some "insert count mismatch") (toString o.inserted.toNat)
        (toString (pairs.toNat * values.length))) := by
  have counted : (UInt64.ofNat (pairs.toNat * values.length)).toNat = pairs.toNat * values.length :=
    UInt64.toNat_ofNat_of_lt' fits
  have equal : ∀ count : UInt64, count = UInt64.ofNat (pairs.toNat * values.length) ↔
      count.toNat = pairs.toNat * values.length := by
    intro count
    rw [← UInt64.toNat_inj, counted]
  simp only [checkConserved, mul?_length fits, requireTotal, require_bind, counted, equal,
    decide_eq_true_eq]
  congr 2
  cases Value.checkedSum (expected pairs values) with
  | none => rfl
  | some sum => simp only [require, decide_eq_true_eq]

theorem judged (fits : pairs.toNat * values.length < 2 ^ 64) : Judged o pairs values := by
  have whole := checkConserved_eq (o := o) fits
  have ascending := expected_ascending pairs values
  refine ⟨ascending, count_expected pairs values, ?_, ?_, ?_, ?_, ?_, ?_⟩
  · by_cases inserts : o.inserted.toNat = pairs.toNat * values.length
    swap
    · rw [whole, if_neg inserts]
      exact iff_of_false nofun fun h => inserts h.1
    by_cases removals : o.removed.toNat = pairs.toNat * values.length
    swap
    · rw [whole, if_pos inserts, if_neg removals]
      exact iff_of_false nofun fun h => removals h.2.1
    by_cases fit : Summable (expected pairs values)
    swap
    · rw [whole, if_pos inserts, if_pos removals, Value.checkedSum_eq_none ascending fit]
      exact iff_of_false nofun fun h => fit h.2.2.1
    obtain ⟨sum, sums, last⟩ := Value.exists_checkedSum ascending fit
    rw [whole, if_pos inserts, if_pos removals, sums, ← last, Int64.toInt_inj]
    by_cases same : o.sum = sum
    · by_cases equal : o.removedSorted = expected pairs values <;> simp [same, equal, inserts, removals, fit]
    · simp [same]
  · intro inserts
    rw [whole, if_neg inserts]
  · intro inserts removals
    rw [whole, if_pos inserts, if_neg removals]
  · intro inserts removals unfit
    rw [whole, if_pos inserts, if_pos removals, Value.checkedSum_eq_none ascending unfit]
  · intro inserts removals fit differs
    obtain ⟨sum, sums, last⟩ := Value.exists_checkedSum ascending fit
    rw [← last] at differs ⊢
    rw [whole, if_pos inserts, if_pos removals, sums]
    exact if_neg fun same => differs (congrArg Int64.toInt same)
  · intro inserts removals fit same differs
    obtain ⟨sum, sums, last⟩ := Value.exists_checkedSum ascending fit
    rw [← last, Int64.toInt_inj] at same
    rw [whole, if_pos inserts, if_pos removals, sums]
    simp only [same, if_true]
    exact if_neg differs

end Verdict

/-- The check accepts just those observations in which the counts, the sum and the values are as expected
and the expected values can be added up in ascending order. So it accepts a run that has conserved the
values unless the total is too large or the negative values alone are too low, whatever the order in which
the values are given. -/
theorem conservation_check_exact (pairs : UInt64) (values : List Value)
    (fits : pairs.toNat * values.length < 2 ^ 64) :
    (∀ o, Judged o pairs values) ∧
      ∀ given o, given.Perm values → Conserves [] values pairs.toNat [] o →
        (o.checkConserved pairs given = .ok () ↔ Summable (expected pairs values)) := by
  refine ⟨fun o => judged fits, fun given o same conserves => ?_⟩
  have fits' : pairs.toNat * given.length < 2 ^ 64 := by rwa [same.length_eq]
  have all : expected pairs given = expected pairs values := by
    apply eq_expected (expected_ascending pairs given)
    refine (List.perm_iff_count.mpr fun v => ?_).trans (expected_perm pairs values)
    rw [count_expected, count_expected, same.count_eq]
  have sorted : o.removedSorted = expected pairs values := by
    apply eq_expected conserves.ascending
    simpa using conserves.perm
  have counted : (UInt64.ofNat (pairs.toNat * values.length)).toNat = pairs.toNat * given.length := by
    rw [same.length_eq, UInt64.toNat_ofNat_of_lt' fits]
  rw [(judged fits').accepts, all, conserves.inserted, conserves.removed, counted, conserves.sum, sorted]
  refine ⟨fun h => h.2.2.1, fun fit => ⟨rfl, rfl, fit, ?_, rfl⟩⟩
  obtain ⟨sum, -, last⟩ := Value.exists_checkedSum (expected_ascending pairs values) fit
  rw [Value.wrappingSum_eq, ← last, Int64.ofInt_toInt]

/-- The total fits, and yet the negative values cannot be added up: a run that has conserved the values is
refused, in whatever order they were given. -/
theorem refused_over_negative_values :
    let values : List Value := [Int64.minValue, -1, 1]
    let o : Observation := ⟨3, 3, Int64.minValue, values⟩
    (1 : UInt64).toNat * values.length < 2 ^ 64 ∧ [1, -1, Int64.minValue].Perm values ∧
      Conserves [] values 1 [] o ∧ total values = -2 ^ 63 ∧
      o.checkConserved 1 values = .error .addOverflow ∧
      o.checkConserved 1 [1, -1, Int64.minValue] ≠ .ok () := by
  intro values o
  have fits : (1 : UInt64).toNat * values.length < 2 ^ 64 := by decide
  have given : [1, -1, Int64.minValue].Perm values := by decide
  have conserves : Conserves [] values 1 [] o :=
    ⟨rfl, rfl, rfl, by decide, List.Perm.refl values, rfl⟩
  have unfit : ¬ Summable (expected 1 values) := by
    have lowest : Value.lowest values = -2 ^ 63 - 1 := by decide
    rw [Value.summable_perm (expected_perm 1 values), Value.Summable]
    change ¬ (_ ≤ Value.lowest values ∧ _)
    omega
  obtain ⟨judged, conserved⟩ := conservation_check_exact 1 values fits
  exact ⟨fits, given, conserves, by decide, (judged o).overflow rfl rfl unfit,
    fun accepted => unfit ((conserved _ o given conserves).mp accepted)⟩

end Observation

end SharedMemory
