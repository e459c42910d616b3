import SharedMemory.Proofs.EliminationLinearization

/-!
# What the array delivers while the inner stack serves nobody

As long as every attempt at the inner stack is refused, a push returns only when a pop has taken its
value, and a pop only with the value it has taken. What was taken is kept in a list, the latest last;
what a thread has given and what it has got can be read off it, call by call.
-/
namespace SharedMemory

section Tagged

variable {α : Type}

/-- What `f` makes of the elements, each with its place in the list. -/
def tagged (f : α → Option Value) (xs : List α) : List (Nat × Value) :=
  xs.zipIdx.filterMap fun x => (f x.1).map fun v => (x.2, v)

variable {f : α → Option Value} {xs : List α} {x : α} {n : Nat} {v : Value}

theorem tagged_append_some (h : f x = some v) :
    tagged f (xs ++ [x]) = tagged f xs ++ [(xs.length, v)] := by
  simp [tagged, List.zipIdx_append, h]

theorem tagged_append_none (h : f x = none) : tagged f (xs ++ [x]) = tagged f xs := by
  simp [tagged, List.zipIdx_append, h]

theorem mem_tagged : (n, v) ∈ tagged f xs ↔ ∃ x, xs[n]? = some x ∧ f x = some v := by
  simp only [tagged, List.mem_filterMap, Option.map_eq_some_iff, Prod.mk.injEq, Prod.exists]
  constructor
  · rintro ⟨x, k, mem, w, some, rfl, rfl⟩
    exact ⟨x, List.mem_zipIdx_iff_getElem?.mp mem, some⟩
  · rintro ⟨x, here, some⟩
    exact ⟨x, n, List.mem_zipIdx_iff_getElem?.mpr here, v, some, rfl, rfl⟩

theorem map_snd_tagged (f : α → Option Value) (xs : List α) :
    (tagged f xs).map Prod.snd = xs.filterMap f := by
  have back : xs.filterMap f = (xs.zipIdx.map Prod.fst).filterMap f := by rw [List.zipIdx_map_fst]
  rw [back, tagged, List.map_filterMap, List.filterMap_map]
  apply List.filterMap_congr
  intro x _
  simp [Function.comp_def]

theorem lt_of_mem_tagged (h : (n, v) ∈ tagged f xs) : n < xs.length := by
  obtain ⟨x, here, _⟩ := mem_tagged.mp h
  exact (List.getElem?_eq_some_iff.mp here).1

theorem nodup_tagged (f : α → Option Value) (xs : List α) : ((tagged f xs).map Prod.fst).Nodup := by
  induction xs using List.reverseRecOn with
  | nil => exact List.nodup_nil
  | append_singleton xs x ih =>
    cases hf : f x with
    | none => rwa [tagged_append_none hf]
    | some v =>
      rw [tagged_append_some hf, List.map_append, List.nodup_append]
      refine ⟨ih, by simp, ?_⟩
      intro n hn k hk same
      obtain ⟨⟨n, w⟩, mem, rfl⟩ := List.mem_map.mp hn
      obtain rfl := List.mem_singleton.mp hk
      have := lt_of_mem_tagged mem
      omega

theorem tagged_take_succ (here : xs[n]? = some x) (h : f x = some v) :
    tagged f (xs.take (n + 1)) = tagged f (xs.take n) ++ [(n, v)] := by
  obtain ⟨inside, rfl⟩ := List.getElem?_eq_some_iff.mp here
  rw [List.take_succ_eq_append_getElem inside, tagged_append_some h, List.length_take,
    Nat.min_eq_left (Nat.le_of_lt inside)]

theorem tagged_take_succ_none (h : ∀ x, xs[n]? = some x → f x = none) :
    tagged f (xs.take (n + 1)) = tagged f (xs.take n) := by
  rw [List.take_add_one]
  cases here : xs[n]? with
  | none => rw [Option.toList_none, List.append_nil]
  | some x => rw [Option.toList_some, tagged_append_none (h x here)]

end Tagged

namespace EliminationArray

/-- What the thread `i` has to do with the pairs, on the side that `side` names: the number of its call
and the value. -/
def Pair.share (side : Pair → Operation) (i : Nat) (pairs : List Pair) : List (Nat × Value) :=
  (pairs.filter fun p => (side p).thread = i).map fun p => ((side p).index, p.value)

variable {side : Pair → Operation} {pairs : List Pair} {p : Pair} {i : Nat}

theorem Pair.share_append_own (h : (side p).thread = i) :
    share side i (pairs ++ [p]) = share side i pairs ++ [((side p).index, p.value)] := by
  simp [share, h]

theorem Pair.share_append_other (h : (side p).thread ≠ i) :
    share side i (pairs ++ [p]) = share side i pairs := by
  simp [share, h]

theorem Pair.mem_share {n : Nat} {v : Value} :
    (n, v) ∈ share side i pairs ↔ ∃ p ∈ pairs, side p = ⟨i, n⟩ ∧ p.value = v := by
  simp only [share, List.mem_map, List.mem_filter, decide_eq_true_eq, Prod.mk.injEq]
  constructor
  · rintro ⟨p, ⟨mem, rfl⟩, rfl, rfl⟩
    exact ⟨p, mem, rfl, rfl⟩
  · rintro ⟨p, mem, same, rfl⟩
    exact ⟨p, ⟨mem, by rw [same]⟩, by rw [same], rfl⟩

theorem Pair.nodup_of_share (h : ∀ i, ((share side i pairs).map Prod.fst).Nodup) :
    (pairs.map side).Nodup := by
  induction pairs with
  | nil => exact List.nodup_nil
  | cons p pairs ih =>
    rw [List.map_cons, List.nodup_cons]
    constructor
    · intro mem
      obtain ⟨q, hq, same⟩ := List.mem_map.mp mem
      have own := h (side p).thread
      rw [share, List.filter_cons_of_pos (by simp), List.map_cons, List.map_cons, List.nodup_cons] at own
      apply own.1
      have mem : ((side p).index, q.value) ∈ share side (side p).thread pairs :=
        Pair.mem_share.mpr ⟨q, hq, same, rfl⟩
      exact List.mem_map.mpr ⟨_, mem, rfl⟩
    · apply ih
      intro i
      refine (h i).sublist (List.Sublist.map _ (List.Sublist.map _ (List.Sublist.filter _ ?_)))
      exact List.sublist_cons_self p pairs

/-- All shares together are the values of all pairs. -/
theorem Pair.perm_shares {n : Nat} (h : ∀ p ∈ pairs, (side p).thread < n) :
    ((List.range n).flatMap fun i => (share side i pairs).map Prod.snd).Perm (pairs.map Pair.value) := by
  induction n generalizing pairs with
  | zero =>
    cases pairs with
    | nil => exact .nil
    | cons p pairs => exact absurd (h p List.mem_cons_self) (Nat.not_lt_zero _)
  | succ n ih =>
    have below : ∀ p ∈ pairs.filter (fun p => !decide ((side p).thread = n)), (side p).thread < n := by
      intro p hp
      obtain ⟨mem, other⟩ := List.mem_filter.mp hp
      have := h p mem
      have : (side p).thread ≠ n := by simpa using other
      omega
    have rest := ih below
    have same : ∀ i ∈ List.range n,
        (share side i (pairs.filter fun p => !decide ((side p).thread = n))).map Prod.snd =
          (share side i pairs).map Prod.snd := by
      intro i hi
      have := List.mem_range.mp hi
      rw [share, share, List.filter_filter]
      congr 2
      apply List.filter_congr
      intro p _
      by_cases hp : (side p).thread = i <;> simp [hp]
      omega
    rw [List.flatMap_def, List.map_congr_left same, ← List.flatMap_def] at rest
    rw [List.range_succ, List.flatMap_append, List.flatMap_singleton]
    have last : (share side n pairs).map Prod.snd =
        (pairs.filter fun p => decide ((side p).thread = n)).map Pair.value := by
      rw [share, List.map_map]
      rfl
    rw [last]
    refine (rest.append_right _).trans ?_
    rw [← List.map_append]
    exact ((List.perm_append_comm).trans
      (List.filter_append_perm (fun p => decide ((side p).thread = n)) pairs)).map _

end EliminationArray

/-- A step of an attempt is futile if it is refused, or goes on without having taken effect. -/
def AttemptStack.Futile {L : Type} (fixed : L → Option AttemptAnswer) (s : Status L AttemptAnswer) : Prop :=
  s = .returned .contended ∨ ∃ l, s = .running l ∧ fixed l = none

namespace EliminationStack

open EliminationArray (Scene Sound FewClaims Taken Wins Waits Pair claimsSince)

variable {Inner Item L : Type}

def insert? : Request → Option Value
  | .insert v => some v
  | .remove => none

def found? : Answer → Option Value
  | .found v => v
  | .broken .. => none

/-- The value that thread `i` offers has been taken. -/
def Waiting (scene : Scene) (i : Nat) : Prop := ∃ k, scene.label i = some k ∧ Taken scene.array k

/-- What the pairs that met say of the threads' calls: a thread has given the values of all pushes that
have returned, and of the one it is in if this was taken; it has got what its pops have returned. -/
structure Delivered (stack : AttemptStack Inner Item L) (programs : List (List Request))
    (v : View (Memory Inner) (Label Item L) Answer) (pairs : List Pair) : Prop where
  stands : ∀ i l, v.label i = some l →
    (v.current i).call? programs = some (request stack l) ∧ Suits stack l
  told : ∀ o a, v.answer? o = some a →
    (∃ x, o.call? programs = some (.insert x) ∧ a = .found none) ∨
      o.call? programs = some .remove ∧ ∃ x, a = .found (some x)
  given : ∀ i, ¬ Waiting (sceneOf v) i →
    Pair.share Pair.push i pairs = tagged insert? ((callsOf programs i).take (v.answers i).length)
  owed : ∀ i, Waiting (sceneOf v) i →
    Pair.share Pair.push i pairs = tagged insert? ((callsOf programs i).take ((v.answers i).length + 1))
  got : ∀ i, Pair.share Pair.pop i pairs = tagged found? (v.answers i)
  taken : EliminationArray.popEliminations v.trace = (pairs.map Pair.value).reverse

def Refused (stack : AttemptStack Inner Item L) (fixed : L → Option AttemptAnswer) (inner : Inner)
    (config : EliminationConfig) (programs : List (List Request))
    (schedule : List (Turn EliminationArray.Choice)) : Prop :=
  ∀ t earlier, t :: earlier <:+ schedule → ∀ l r k,
    (after stack inner config programs earlier).label t.thread = some l →
    attempt? stack l = some (r, k) →
    AttemptStack.Futile fixed (stack.step k (after stack inner config programs earlier).memory.inner).2

section View

variable {stack : AttemptStack Inner Item L} {programs : List (List Request)} {i j : Nat}
  {choice : EliminationArray.Choice} {v v' : View (Memory Inner) (Label Item L) Answer}
  {pairs : List Pair} {scene scene' : Scene} {age : Nat → Nat → Nat}

/-- A turn that takes no offer takes nothing from the others. -/
theorem waiting_other (sound : Sound scene age) (turn : scene.Step i choice scene')
    (lost : Spares scene i) (hj : j ≠ i) : Waiting scene' j ↔ Waiting scene j := by
  have label : scene'.label j = scene.label j := by
    cases turn with
    | rest => rfl
    | enter | move | leave => exact Function.update_of_ne hj _ _
  simp only [Waiting, label]
  apply exists_congr
  intro k
  apply and_congr_right
  intro there
  cases turn with
  | rest => rfl
  | enter => rfl
  | move l l' here => exact sound.spared here choice (lost l here) hj there
  | leave l a here => exact sound.spared here choice (lost l here) hj there

theorem not_waiting_of_none (h : scene.label i = none) : ¬ Waiting scene i := by
  rintro ⟨k, here, _⟩
  rw [h] at here
  cases here

theorem waiting_iff {k : EliminationArray.Label} (here : scene.label i = some k) :
    Waiting scene i ↔ Taken scene.array k := by
  simp [Waiting, here]

theorem popEliminations_append {events : List Event}
    (calm : EliminationArray.popEliminations events = []) (trace : List Event) :
    EliminationArray.popEliminations (events ++ trace) = EliminationArray.popEliminations trace := by
  rw [EliminationArray.popEliminations, List.filterMap_append]
  exact congrArg (· ++ _) calm

theorem Delivered.silent (h : Delivered stack programs v pairs) (answers : v'.answers = v.answers)
    (calm : EliminationArray.popEliminations v'.trace = EliminationArray.popEliminations v.trace)
    (waiting : ∀ j, Waiting (sceneOf v') j ↔ Waiting (sceneOf v) j)
    (others : ∀ j, j ≠ i → v'.label j = v.label j)
    (own : ∀ l, v'.label i = some l →
      (v.current i).call? programs = some (request stack l) ∧ Suits stack l) :
    Delivered stack programs v' pairs where
  stands j l here := by
    rw [View.current, answers]
    by_cases hj : j = i
    · subst hj
      exact own l here
    · rw [others j hj] at here
      exact h.stands j l here
  told o a gives := by
    rw [View.answer?, answers] at gives
    exact h.told o a gives
  given j free := by
    rw [waiting] at free
    rw [answers]
    exact h.given j free
  owed j waits := by
    rw [waiting] at waits
    rw [answers]
    exact h.owed j waits
  got j := by
    rw [answers]
    exact h.got j
  taken := calm.trans h.taken

section Answer

variable {m : Memory Inner} {a : Answer} {events : List Event} {x : Value}

theorem Delivered.stands_answer (h : Delivered stack programs v pairs)
    (step : v.Step (algorithm stack) programs i choice (v.answer i m a events)) (l : Label Item L)
    (here : (v.answer i m a events).label j = some l) :
    ((v.answer i m a events).current j).call? programs = some (request stack l) ∧ Suits stack l := by
  have hj : j ≠ i := by
    rintro rfl
    rw [View.label_answer, Function.update_self] at here
    cases here
  obtain ⟨label, current⟩ := step.others hj
  rw [label] at here
  rw [current]
  exact h.stands j l here

theorem Delivered.told_answer (h : Delivered stack programs v pairs)
    (step : v.Step (algorithm stack) programs i choice (v.answer i m a events))
    (own : (∃ x, (v.current i).call? programs = some (.insert x) ∧ a = .found none) ∨
      (v.current i).call? programs = some .remove ∧ ∃ x, a = .found (some x))
    {o : Operation} {a' : Answer} (gives : (v.answer i m a events).answer? o = some a') :
    (∃ x, o.call? programs = some (.insert x) ∧ a' = .found none) ∨
      o.call? programs = some .remove ∧ ∃ x, a' = .found (some x) := by
  by_cases ho : o = v.current i
  · subst ho
    rw [View.answer?_answer] at gives
    cases gives
    exact own
  · rw [step.answer?_other ho] at gives
    exact h.told o a' gives

theorem answers_answer_self : (v.answer i m a events).answers i = v.answers i ++ [a] := by
  rw [View.answers_answer, Function.update_self]

theorem answers_answer_other (hj : j ≠ i) : (v.answer i m a events).answers j = v.answers j := by
  rw [View.answers_answer, Function.update_of_ne hj]

theorem not_waiting_answer : ¬ Waiting (sceneOf (v.answer i m a events)) i :=
  not_waiting_of_none (by simp [sceneOf])

theorem Delivered.eliminated (h : Delivered stack programs v pairs)
    (step : v.Step (algorithm stack) programs i choice (v.answer i m (.found none) events))
    (called : (v.current i).call? programs = some (.insert x)) (waits : Waiting (sceneOf v) i)
    (calm : EliminationArray.popEliminations events.reverse = [])
    (others : ∀ j, j ≠ i →
      (Waiting (sceneOf (v.answer i m (.found none) events)) j ↔ Waiting (sceneOf v) j)) :
    Delivered stack programs (v.answer i m (.found none) events) pairs where
  stands _ l here := h.stands_answer step l here
  told _ _ gives := h.told_answer step (.inl ⟨x, called, rfl⟩) gives
  given j free := by
    by_cases hj : j = i
    · subst hj
      rw [answers_answer_self, List.length_append, List.length_singleton]
      exact h.owed j waits
    · rw [answers_answer_other hj]
      exact h.given j (mt (others j hj).mpr free)
  owed j waits' := by
    have hj : j ≠ i := by
      rintro rfl
      exact not_waiting_answer waits'
    rw [answers_answer_other hj]
    exact h.owed j ((others j hj).mp waits')
  got j := by
    by_cases hj : j = i
    · subst hj
      rw [answers_answer_self, tagged_append_none rfl]
      exact h.got j
    · rw [answers_answer_other hj]
      exact h.got j
  taken := (popEliminations_append calm _).trans h.taken

/-- The pop of thread `i` takes the value of the push of thread `j`. -/
theorem Delivered.meet (h : Delivered stack programs v pairs)
    (step : v.Step (algorithm stack) programs i choice (v.answer i m (.found (some x)) [.popEliminated x]))
    (called : (v.current i).call? programs = some .remove) (hj : j ≠ i)
    (offered : (v.current j).call? programs = some (.insert x))
    (unclaimed : ¬ Waiting (sceneOf v) i) (untaken : ¬ Waiting (sceneOf v) j)
    (taken : Waiting (sceneOf (v.answer i m (.found (some x)) [.popEliminated x])) j)
    (others : ∀ k, k ≠ i → k ≠ j →
      (Waiting (sceneOf (v.answer i m (.found (some x)) [.popEliminated x])) k ↔ Waiting (sceneOf v) k)) :
    Delivered stack programs (v.answer i m (.found (some x)) [.popEliminated x])
      (pairs ++ [⟨v.current j, v.current i, x⟩]) where
  stands _ l here := h.stands_answer step l here
  told _ _ gives := h.told_answer step (.inr ⟨called, x, rfl⟩) gives
  given k free := by
    have hk : k ≠ j := by
      rintro rfl
      exact free taken
    rw [Pair.share_append_other (p := ⟨v.current j, v.current i, x⟩) fun same => hk same.symm]
    by_cases hi : k = i
    · subst hi
      rw [answers_answer_self, List.length_append, List.length_singleton, h.given k unclaimed]
      refine (tagged_take_succ_none fun c here => ?_).symm
      obtain rfl : Request.remove = c := Option.some.inj (called.symm.trans here)
      rfl
    · rw [answers_answer_other hi]
      exact h.given k (mt (others k hi hk).mpr free)
  owed k waits := by
    have hi : k ≠ i := by
      rintro rfl
      exact not_waiting_answer waits
    rw [answers_answer_other hi]
    by_cases hk : k = j
    · subst hk
      have own : Pair.share Pair.push k (pairs ++ [⟨v.current k, v.current i, x⟩]) =
          Pair.share Pair.push k pairs ++ [((v.answers k).length, x)] := Pair.share_append_own rfl
      rw [own, h.given k untaken]
      exact (tagged_take_succ offered rfl).symm
    · rw [Pair.share_append_other (p := ⟨v.current j, v.current i, x⟩) fun same => hk same.symm]
      exact h.owed k ((others k hi hk).mp waits)
  got k := by
    by_cases hi : k = i
    · subst hi
      have own : Pair.share Pair.pop k (pairs ++ [⟨v.current j, v.current k, x⟩]) =
          Pair.share Pair.pop k pairs ++ [((v.answers k).length, x)] := Pair.share_append_own rfl
      rw [own, answers_answer_self, h.got k]
      exact (tagged_append_some (f := found?) rfl).symm
    · rw [Pair.share_append_other (p := ⟨v.current j, v.current i, x⟩) fun same => hi same.symm,
        answers_answer_other hi]
      exact h.got k
  taken := by
    rw [List.map_append, List.reverse_append, ← h.taken]
    rfl

end Answer

theorem spares_of_none (h : scene.label i = none) : Spares scene i := by
  intro l here
  rw [h] at here
  cases here

/-- A turn after which the thread is inside its call, where it was or at the beginning. -/
theorem Delivered.goes {l : Label Item L} {m : Memory Inner} {events : List Event}
    (h : Delivered stack programs v pairs) (hv : v' = v.move i m l events)
    (sound : Sound (sceneOf v) age) (turn : (sceneOf v).Step i choice (sceneOf v'))
    (lost : Spares (sceneOf v) i) (own : Waiting (sceneOf v') i ↔ Waiting (sceneOf v) i)
    (called : (v.current i).call? programs = some (request stack l)) (suits : Suits stack l)
    (calm : EliminationArray.popEliminations events.reverse = []) :
    Delivered stack programs v' pairs := by
  have waiting : ∀ j, Waiting (sceneOf v') j ↔ Waiting (sceneOf v) j := by
    intro j
    by_cases hj : j = i
    · subst hj
      exact own
    · exact waiting_other sound turn lost hj
  subst hv
  refine h.silent rfl (popEliminations_append calm _) waiting (fun j hj => Function.update_of_ne hj _ _) ?_
  intro l' here
  rw [View.label_move, Function.update_self] at here
  cases here
  exact ⟨called, suits⟩

theorem Delivered.outside {l : Label Item L} {m : Memory Inner}
    (h : Delivered stack programs v pairs) (hv : v' = v.move i m l [])
    (sound : Sound (sceneOf v) age) (turn : (sceneOf v).Step i choice (sceneOf v'))
    (free : (sceneOf v).label i = none) (fresh : ∀ k, inArray l = some k → ∀ m, ¬ Taken m k)
    (called : (v.current i).call? programs = some (request stack l)) (suits : Suits stack l) :
    Delivered stack programs v' pairs := by
  refine h.goes hv sound turn (spares_of_none free) ?_ called suits rfl
  refine iff_of_false ?_ (not_waiting_of_none free)
  rintro ⟨k, here, taken⟩
  refine fresh k ?_ _ taken
  simpa [sceneOf, hv] using here

end View

section Run

variable {stack : AttemptStack Inner Item L} {fixed : L → Option AttemptAnswer} {inner : Inner}
  {config : EliminationConfig} {programs : List (List Request)} {t : Turn EliminationArray.Choice}
  {earlier schedule : List (Turn EliminationArray.Choice)} {pairs : List Pair}

theorem Refused.before (h : Refused stack fixed inner config programs (t :: earlier)) :
    Refused stack fixed inner config programs earlier :=
  fun t' moment suffix => h t' moment (suffix.trans (List.suffix_cons t earlier))

theorem Delivered.start : Delivered stack programs (after stack inner config programs []) [] where
  stands i l here := by simp [after, View.start] at here
  told o a gives := by simp [after, View.start, View.answer?] at gives
  given i _ := by simp [after, View.start, Pair.share, tagged]
  owed i waits := by
    refine absurd waits (not_waiting_of_none ?_)
    simp [after, View.start, sceneOf]
  got i := by simp [after, View.start, Pair.share, tagged]
  taken := by
    rw [after, Algorithm.viewAfter_nil]
    rfl

theorem inArray_of_attempt {l : Label Item L} {r : Request} {k : L}
    (h : attempt? stack l = some (r, k)) : inArray l = none := by
  cases l <;> first | rfl | cases h

/-- A thread that comes to the array has offered nothing yet. -/
theorem not_taken_of_resumed {l l' : Label Item L} {k : EliminationArray.Label}
    (h : resumed stack l (.returned .contended) = some l') (inside : inArray l' = some k)
    (m : EliminationArray.Memory) : ¬ Taken m k := by
  cases l <;> cases h <;> cases inside <;> exact id

theorem Delivered.attempt (h : Delivered stack programs (after stack inner config programs earlier) pairs)
    (slots : config.slots ≠ 0) (refused : Refused stack fixed inner config programs (t :: earlier))
    {l : Label Item L} {r : Request} {k : L}
    (here : (after stack inner config programs earlier).label t.thread = some l)
    (at_k : attempt? stack l = some (r, k)) :
    Delivered stack programs (after stack inner config programs (t :: earlier)) pairs := by
  have hv := (turn stack inner config programs t earlier).take here
  have moves := scene_turn stack inner config programs t earlier
  have sound := sound stack inner programs slots earlier
  have called := (h.stands t.thread l here).1
  rw [request_of_attempt at_k] at called
  have free : (scene stack inner config programs earlier).label t.thread = none :=
    (scene_label here).trans (inArray_of_attempt at_k)
  rcases refused t earlier List.suffix_rfl l r k here at_k with gives | ⟨k', goes, _⟩
  · obtain ⟨l', resumes, requests, suits, _, _, effect⟩ :=
      @step_refused _ _ _ _ fixed _ _ _ _ t.choice at_k gives
    rw [effect] at hv
    change _ = View.move _ _ _ _ _ at hv
    refine h.outside hv sound moves free ?_ ?_ suits
    · exact fun k inside m => not_taken_of_resumed resumes inside m
    · rw [requests, called]
  · obtain ⟨l', _, at_k', effect⟩ := step_running at_k goes
    rw [effect] at hv
    change _ = View.move _ _ _ _ _ at hv
    refine h.outside hv sound moves free ?_ ?_ (suits_of_attempt at_k')
    · intro k inside
      cases (inArray_of_attempt at_k').symm.trans inside
    · rw [request_of_attempt at_k', called]

theorem calm_of_outcome {m m' : EliminationArray.Memory} {k : EliminationArray.Label}
    {status : Status EliminationArray.Label EliminationArray.Answer} {events : List Event}
    (h : EliminationArray.Outcome m k m' status events)
    (other : ∀ x, status ≠ .returned (.popped (some x))) :
    EliminationArray.popEliminations events.reverse = [] := by
  cases h with
  | goes => rfl
  | eliminated => rfl
  | withdrawn _ _ _ _ _ silent => rcases silent with rfl | rfl <;> rfl
  | missed => rfl
  | met s seen x => exact absurd rfl (other x)

theorem Delivered.offer (h : Delivered stack programs (after stack inner config programs earlier) pairs)
    (slots : config.slots ≠ 0) {item : Item} {k : EliminationArray.Label}
    (here : (after stack inner config programs earlier).label t.thread = some (.offering item k)) :
    Delivered stack programs (after stack inner config programs (t :: earlier)) pairs := by
  have step := turn stack inner config programs t earlier
  have hv := step.take here
  have moves := scene_turn stack inner config programs t earlier
  have sound := sound stack inner programs slots earlier
  obtain ⟨called, suits⟩ := h.stands t.thread _ here
  have at_k : (sceneOf (after stack inner config programs earlier)).label t.thread = some k :=
    scene_label here
  have lost : Spares (sceneOf (after stack inner config programs earlier)) t.thread := by
    intro k' at_k'
    cases at_k.symm.trans at_k'
    exact EliminationArray.not_wins_of_value suits
  have outcome := sound.outcome at_k t.choice
  change _ = View.take _ _ (EliminationStack.offer stack t.choice item k _) at hv
  rcases outcome.of_push suits with ⟨k', goes, taken, value⟩ | ⟨gives, taken⟩ | ⟨gives, untaken⟩
  · rw [offer_running goes] at hv
    change _ = View.move _ _ _ _ _ at hv
    have calm := calm_of_outcome outcome fun _ popped => by cases goes.symm.trans popped
    refine h.goes hv sound moves lost ?_ called value calm
    rw [waiting_iff at_k, waiting_iff (k := k') (by simp [hv, sceneOf, inArray])]
    rw [hv]
    exact taken
  · rw [offer_eliminated gives] at hv
    change _ = View.answer _ _ _ _ _ at hv
    have others := fun j hj => waiting_other (j := j) sound moves lost hj
    rw [scene, hv] at others
    rw [hv] at step ⊢
    have calm := calm_of_outcome outcome fun _ popped => by cases gives.symm.trans popped
    exact h.eliminated step called ⟨k, at_k, taken⟩ calm others
  · rw [offer_withdrawn gives] at hv
    change _ = View.move _ _ _ _ _ at hv
    have calm := calm_of_outcome outcome fun _ popped => by cases gives.symm.trans popped
    refine h.goes hv sound moves lost ?_ called trivial calm
    refine iff_of_false (not_waiting_of_none ?_) ?_
    · simp [hv, sceneOf, inArray]
    · rw [waiting_iff at_k]
      exact untaken

theorem Delivered.seek (h : Delivered stack programs (after stack inner config programs earlier) pairs)
    (slots : config.slots ≠ 0) {k : EliminationArray.Label}
    (here : (after stack inner config programs earlier).label t.thread = some (.seeking k))
    (lost : ¬ Wins (after stack inner config programs earlier).memory.array k) :
    Delivered stack programs (after stack inner config programs (t :: earlier)) pairs := by
  have hv := (turn stack inner config programs t earlier).take here
  have moves := scene_turn stack inner config programs t earlier
  have sound := sound stack inner programs slots earlier
  obtain ⟨called, suits⟩ := h.stands t.thread _ here
  have at_k : (sceneOf (after stack inner config programs earlier)).label t.thread = some k :=
    scene_label here
  have spares : Spares (sceneOf (after stack inner config programs earlier)) t.thread := by
    intro k' at_k'
    cases at_k.symm.trans at_k'
    exact lost
  -- nothing is ever taken from a pop
  have unclaimed : ∀ k' m, k'.value? = none → ¬ Taken m k' := by
    intro k' m none
    cases k' <;> first | exact id | cases none
  have outcome := sound.outcome at_k t.choice
  change _ = View.take _ _ (EliminationStack.seek stack t.choice k _) at hv
  rcases outcome.of_pop suits lost with ⟨k', goes, value⟩ | gives
  · rw [seek_running goes] at hv
    change _ = View.move _ _ _ _ _ at hv
    have calm := calm_of_outcome outcome fun _ popped => by cases goes.symm.trans popped
    refine h.goes hv sound moves spares ?_ called value calm
    rw [waiting_iff at_k, waiting_iff (k := k') (by simp [hv, sceneOf, inArray])]
    exact iff_of_false (unclaimed k' _ value) (unclaimed k _ suits)
  · rw [seek_missed gives] at hv
    change _ = View.move _ _ _ _ _ at hv
    have calm := calm_of_outcome outcome fun _ popped => by cases gives.symm.trans popped
    refine h.goes hv sound moves spares ?_ called trivial calm
    refine iff_of_false (not_waiting_of_none ?_) ?_
    · simp [hv, sceneOf, inArray]
    · rw [waiting_iff at_k]
      exact unclaimed k _ suits

theorem Delivered.met (h : Delivered stack programs (after stack inner config programs earlier) pairs)
    (slots : config.slots ≠ 0) (few : FewClaims (scene stack inner config programs) (t :: earlier))
    {s : Nat} {seen : SlotWord} {x : Value}
    (here : (after stack inner config programs earlier).label t.thread =
      some (.seeking (.popTake s seen x)))
    (met : ((after stack inner config programs earlier).memory.array.slot s).word = seen) :
    ∃ p, Delivered stack programs (after stack inner config programs (t :: earlier)) (pairs ++ [p]) := by
  have step := turn stack inner config programs t earlier
  have hv := step.take here
  change _ = View.take _ _ (EliminationStack.seek stack t.choice _ _) at hv
  rw [seek_met met] at hv
  change _ = View.answer _ _ _ _ _ at hv
  have called := (h.stands t.thread _ here).1
  have at_take : (sceneOf (after stack inner config programs earlier)).label t.thread =
      some (.popTake s seen x) := scene_label here
  obtain ⟨j, k, c, hj, at_k, waits, untaken, taken, others⟩ :=
    (sound stack inner programs slots earlier).met at_take met
      (few earlier (List.suffix_cons t earlier) _ s seen x at_take)
  have at_k' : (sceneOf (after stack inner config programs earlier)).label j = some k := at_k
  obtain ⟨l, there, inside⟩ := Option.bind_eq_some_iff.mp at_k'
  obtain ⟨offered, suits⟩ := h.stands j l there
  obtain ⟨item, rfl, value⟩ := offering_of_waits suits inside waits
  rw [request, value] at offered
  have label : ∀ k, k ≠ t.thread →
      (sceneOf (after stack inner config programs (t :: earlier))).label k =
        (sceneOf (after stack inner config programs earlier)).label k := fun _ hk => scene_other hk
  have array : (sceneOf (after stack inner config programs (t :: earlier))).array =
      (after stack inner config programs earlier).memory.array.setWord s (seen.withTag .taken) := by
    rw [hv]
    rfl
  refine ⟨⟨(after stack inner config programs earlier).current j,
    (after stack inner config programs earlier).current t.thread, x⟩, ?_⟩
  have waiting : Waiting (sceneOf (after stack inner config programs (t :: earlier))) j := by
    rw [waiting_iff ((label j hj).trans at_k), array]
    exact taken
  have spared : ∀ k, k ≠ t.thread → k ≠ j →
      (Waiting (sceneOf (after stack inner config programs (t :: earlier))) k ↔
        Waiting (sceneOf (after stack inner config programs earlier)) k) := by
    intro k hk hkj
    simp only [Waiting, label k hk, array]
    exact exists_congr fun k' => and_congr_right fun at_k' => others k k' hkj at_k'
  rw [hv] at step waiting spared ⊢
  refine h.meet step called hj offered ?_ ?_ waiting spared
  · rw [waiting_iff at_take]
    exact id
  · rw [waiting_iff at_k']
    exact untaken

/-- As long as every attempt is refused, the pairs that met account for all that was given and got. -/
theorem exists_delivered (value : ∀ x m, stack.value (stack.prepare x m).2 = x)
    (slots : config.slots ≠ 0) (schedule : List (Turn EliminationArray.Choice))
    (few : FewClaims (scene stack inner config programs) schedule)
    (refused : Refused stack fixed inner config programs schedule) :
    ∃ pairs, Delivered stack programs (after stack inner config programs schedule) pairs := by
  induction schedule with
  | nil => exact ⟨[], .start⟩
  | cons t earlier ih =>
    obtain ⟨pairs, h⟩ := ih few.earlier refused.before
    have step := turn stack inner config programs t earlier
    have moves := scene_turn stack inner config programs t earlier
    have sound := sound stack inner programs slots earlier
    rcases step.rest_or_enter_or_take with ⟨_, hv⟩ | ⟨c, outside, next, hv⟩ | ⟨l, here, hv⟩
    · rw [hv]
      exact ⟨pairs, h⟩
    · have free : (sceneOf (after stack inner config programs earlier)).label t.thread = none := by
        simp [sceneOf, outside]
      change _ = View.move _ _ (after stack inner config programs earlier).memory _ [] at hv
      refine ⟨pairs, h.outside hv sound moves free ?_ ?_ ?_⟩
      · intro k inside
        cases c <;> cases inside
      · cases c <;> exact next
      · cases c <;> exact trivial
    · cases l with
      | prepare x =>
        have called := (h.stands t.thread _ here).1
        refine ⟨pairs, h.outside hv sound moves (scene_label here) ?_ ?_ trivial⟩
        · intro k inside
          cases inside
        · rw [request, value]
          exact called
      | pushing item k => exact ⟨pairs, h.attempt slots refused here rfl⟩
      | popping k => exact ⟨pairs, h.attempt slots refused here rfl⟩
      | offering item k => exact ⟨pairs, h.offer slots here⟩
      | seeking k =>
        by_cases wins : Wins (after stack inner config programs earlier).memory.array k
        · obtain ⟨s, seen, x, rfl, met⟩ := wins
          obtain ⟨p, h'⟩ := h.met slots few here met
          exact ⟨pairs ++ [p], h'⟩
        · exact ⟨pairs, h.seek slots here wins⟩

end Run

section Clients

variable {stack : AttemptStack Inner Item L} {programs : List (List Request)}
  {v : View (Memory Inner) (Label Item L) Answer} {pairs : List Pair}

/-- Everything is exchanged in pairs, which are listed in the order in which they met: each pop that
returns has taken the value of one push, which it shares with no other pop, and the values of a thread
are taken in the order in which it pushes them. -/
structure InPairs (programs : List (List Request)) (v : View (Memory Inner) (Label Item L) Answer)
    (pairs : List Pair) : Prop where
  met : EliminationArray.popEliminations v.trace = (pairs.map Pair.value).reverse
  pushes : (pairs.map Pair.push).Nodup
  pops : (pairs.map Pair.pop).Nodup
  pushed : ∀ p ∈ pairs, p.push.call? programs = some (.insert p.value)
  answered : ∀ p ∈ pairs, p.pop.call? programs = some .remove ∧
    v.answer? p.pop = some (.found (some p.value))
  popped : ∀ o a, o.call? programs = some .remove → v.answer? o = some a →
    ∃ p ∈ pairs, p.pop = o ∧ a = .found (some p.value)
  returned : ∀ o x a, o.call? programs = some (.insert x) → v.answer? o = some a →
    a = .found none ∧ ∃ p ∈ pairs, p.push = o ∧ p.value = x
  inOrder : ∀ i, (pairs.filter fun p => p.push.thread = i).map Pair.value <+:
    (callsOf programs i).filterMap insert?
  received : ∀ i, (pairs.filter fun p => p.pop.thread = i).map Pair.value =
    (v.answers i).filterMap found?

theorem values_of_share (side : Pair → Operation) (i : Nat) (pairs : List Pair) :
    (pairs.filter fun p => (side p).thread = i).map Pair.value = (Pair.share side i pairs).map Prod.snd := by
  rw [Pair.share, List.map_map]
  rfl

/-- What a thread has given is what it has pushed with its first calls. -/
theorem Delivered.exists_given (h : Delivered stack programs v pairs) (i : Nat) :
    ∃ n, (v.answers i).length ≤ n ∧
      Pair.share Pair.push i pairs = tagged insert? ((callsOf programs i).take n) := by
  by_cases waits : Waiting (sceneOf v) i
  · exact ⟨_, Nat.le_succ _, h.owed i waits⟩
  · exact ⟨_, Nat.le_refl _, h.given i waits⟩

theorem Delivered.inPairs (h : Delivered stack programs v pairs) : InPairs programs v pairs where
  met := h.taken
  pushes := Pair.nodup_of_share fun i => by
    obtain ⟨n, -, given⟩ := h.exists_given i
    rw [given]
    exact nodup_tagged _ _
  pops := Pair.nodup_of_share fun i => by
    rw [h.got]
    exact nodup_tagged _ _
  pushed p mem := by
    obtain ⟨n, -, given⟩ := h.exists_given p.push.thread
    have share : (p.push.index, p.value) ∈ Pair.share Pair.push p.push.thread pairs :=
      Pair.mem_share.mpr ⟨p, mem, rfl, rfl⟩
    rw [given] at share
    obtain ⟨c, here, value⟩ := mem_tagged.mp share
    cases c with
    | remove => cases value
    | insert x =>
      cases value
      rw [List.getElem?_take] at here
      split at here
      · exact here
      · cases here
  answered p mem := by
    have share : (p.pop.index, p.value) ∈ Pair.share Pair.pop p.pop.thread pairs :=
      Pair.mem_share.mpr ⟨p, mem, rfl, rfl⟩
    rw [h.got, mem_tagged] at share
    obtain ⟨a, gives, found⟩ := share
    rcases h.told p.pop a gives with ⟨_, _, rfl⟩ | ⟨called, x, rfl⟩
    · cases found
    · refine ⟨called, ?_⟩
      rw [← found]
      exact gives
  popped o a called gives := by
    rcases h.told o a gives with ⟨x, inserts, _⟩ | ⟨_, x, rfl⟩
    · cases called.symm.trans inserts
    · have share : (o.index, x) ∈ Pair.share Pair.pop o.thread pairs := by
        rw [h.got, mem_tagged]
        exact ⟨.found (some x), gives, rfl⟩
      obtain ⟨p, mem, same, rfl⟩ := Pair.mem_share.mp share
      exact ⟨p, mem, same, rfl⟩
  returned o x a called gives := by
    rcases h.told o a gives with ⟨y, _, rfl⟩ | ⟨removes, _⟩
    · refine ⟨rfl, ?_⟩
      obtain ⟨n, answered, given⟩ := h.exists_given o.thread
      have early : o.index < n :=
        Nat.lt_of_lt_of_le (List.getElem?_eq_some_iff.mp gives).1 answered
      have share : (o.index, x) ∈ Pair.share Pair.push o.thread pairs := by
        rw [given, mem_tagged]
        exact ⟨.insert x, by rw [List.getElem?_take_of_lt early]; exact called, rfl⟩
      exact Pair.mem_share.mp share
    · cases called.symm.trans removes
  inOrder i := by
    obtain ⟨n, -, given⟩ := h.exists_given i
    rw [values_of_share, given, map_snd_tagged]
    exact (List.take_prefix n _).filterMap insert?
  received i := by rw [values_of_share, h.got, map_snd_tagged]

theorem thread_lt {o : Operation} {c : Request} (h : o.call? programs = some c) :
    o.thread < programs.length := by
  rw [Operation.call?, callsOf, List.getD_eq_getElem?_getD] at h
  by_contra beyond
  rw [List.getElem?_eq_none (Nat.le_of_not_lt beyond)] at h
  cases h

/-- If one thread only pushes and another pops as often, the pops return what the pushes bring, in
order. -/
theorem InPairs.answers_of_two {values : List Value}
    (h : InPairs [values.map .insert, List.replicate values.length .remove] v pairs)
    (done : (v.answers 1).length = values.length) :
    v.answers 1 = values.map fun x => .found (some x) := by
  have pushes : ∀ p ∈ pairs, p.push.thread = 0 := by
    intro p mem
    have called := h.pushed p mem
    by_contra other
    have last : p.push.thread = 1 := by
      have below := thread_lt called
      rw [List.length_cons, List.length_singleton] at below
      omega
    rw [Operation.call?, last] at called
    cases List.eq_of_mem_replicate (List.mem_of_getElem? called)
  have pops : ∀ p ∈ pairs, p.pop.thread = 1 := by
    intro p mem
    obtain ⟨called, _⟩ := h.answered p mem
    by_contra other
    have first : p.pop.thread = 0 := by
      have below := thread_lt called
      rw [List.length_cons, List.length_singleton] at below
      omega
    rw [Operation.call?, first] at called
    obtain ⟨x, _, same⟩ := List.mem_map.mp (List.mem_of_getElem? called)
    cases same
  have found : ∀ a ∈ v.answers 1, ∃ x, a = .found (some x) := by
    intro a mem
    obtain ⟨n, inside, gives⟩ := List.mem_iff_getElem.mp mem
    have called : (⟨1, n⟩ : Operation).call?
        [values.map Request.insert, List.replicate values.length Request.remove] = some .remove := by
      rw [done] at inside
      simp [Operation.call?, callsOf, inside]
    have answered : v.answer? ⟨1, n⟩ = some a := List.getElem?_eq_some_iff.mpr ⟨inside, gives⟩
    obtain ⟨p, _, _, same⟩ := h.popped _ a called answered
    exact ⟨_, same⟩
  have read : ((v.answers 1).filterMap found?).map (fun x => Answer.found (some x)) = v.answers 1 := by
    rw [List.map_filterMap]
    refine (List.filterMap_congr ?_).trans List.filterMap_some
    intro a mem
    obtain ⟨x, rfl⟩ := found a mem
    rfl
  have all : pairs.map Pair.value = (v.answers 1).filterMap found? := by
    rw [← h.received 1, List.filter_eq_self.mpr]
    simpa using pops
  have prefixed : pairs.map Pair.value <+: values := by
    have inOrder := h.inOrder 0
    rw [List.filter_eq_self.mpr (by simpa using pushes)] at inOrder
    simpa [callsOf, insert?, List.filterMap_map, Function.comp_def] using inOrder
  have size : (pairs.map Pair.value).length = values.length := by
    rw [all, ← done, ← List.length_map (fun x => Answer.found (some x)), read]
  rw [← read, ← all, prefixed.eq_of_length size]

theorem flatMap_callsOf (f : Request → Option Value) (programs : List (List Request)) :
    ((List.range programs.length).flatMap fun i => (callsOf programs i).filterMap f) =
      programs.flatten.filterMap f := by
  have all : (List.range programs.length).map (callsOf programs) = programs := by
    apply List.ext_getElem
    · simp
    · intro i _ inside
      simp [callsOf, inside]
  calc ((List.range programs.length).flatMap fun i => (callsOf programs i).filterMap f)
      = ((List.range programs.length).map (callsOf programs)).flatten.filterMap f := by
        rw [List.filterMap_flatten, List.map_map, List.flatMap_def]
        rfl
    _ = programs.flatten.filterMap f := by rw [all]

/-- If all calls have returned, the pops have returned what the pushes brought. -/
theorem Delivered.perm (h : Delivered stack programs v pairs)
    (done : ∀ i, (callsOf programs i).length ≤ (v.answers i).length) :
    ((List.range programs.length).flatMap fun i => (v.answers i).filterMap found?).Perm
      (programs.flatten.filterMap insert?) := by
  have pairing := h.inPairs
  have pops : ∀ p ∈ pairs, p.pop.thread < programs.length :=
    fun p mem => thread_lt (pairing.answered p mem).1
  have pushes : ∀ p ∈ pairs, p.push.thread < programs.length :=
    fun p mem => thread_lt (pairing.pushed p mem)
  have got : ∀ i, (v.answers i).filterMap found? = (Pair.share Pair.pop i pairs).map Prod.snd := by
    intro i
    rw [h.got, map_snd_tagged]
  have given : ∀ i, (callsOf programs i).filterMap insert? =
      (Pair.share Pair.push i pairs).map Prod.snd := by
    intro i
    obtain ⟨n, answered, given⟩ := h.exists_given i
    rw [given, List.take_of_length_le (Nat.le_trans (done i) answered), map_snd_tagged]
  rw [← flatMap_callsOf]
  simp only [got, given]
  exact (Pair.perm_shares pops).trans (Pair.perm_shares pushes).symm

end Clients

end EliminationStack

end SharedMemory
