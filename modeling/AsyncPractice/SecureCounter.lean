import AsyncPractice.MachineInt
import AsyncPractice.Pool
import AsyncPractice.Runs

/- Concurrent calls of counterIncrement in solution2RaceConditionSecurity of
solution07_security.go. A call adds one to the counter and, when that went over the limit, takes it
back in a second atomic operation; until then the counter overshoots. -/
namespace AsyncPractice.SecureCounter

open Option List Runs
open MachineInt (toInt_add_neg_one toInt_add_one)

/-- A call that has not added yet, has to roll back, or has returned. -/
inductive Call
  | called
  | rollingBack
  | returned (ok : Bool) (value : Int64)

structure State where
  value : Int64
  calls : List Call

def start (n : Nat) : State := ⟨0, List.replicate n .called⟩

def counterIncrement (limit : Int64) (s : State) (i : Nat) : Option State :=
  match s.calls[i]? with
  | some .called =>
    let newVal := s.value + 1
    if newVal > limit then some ⟨newVal, s.calls.set i .rollingBack⟩
    else some ⟨newVal, s.calls.set i (.returned true newVal)⟩
  | some .rollingBack => some ⟨s.value + -1, s.calls.set i (.returned false limit)⟩
  | _ => none

def Call.granted : Call → Option Int64
  | .returned true value => some value
  | _ => none

def Call.overshot : Call → Bool
  | .rollingBack => true
  | .returned false _ => true
  | _ => false

def Call.isRollingBack : Call → Bool
  | .rollingBack => true
  | _ => false

def Call.isReturned : Call → Bool
  | .returned _ _ => true
  | _ => false

def State.granted (s : State) : List Int64 := s.calls.filterMap Call.granted

def State.Finished (s : State) : Prop := ∀ call ∈ s.calls, call.isReturned = true

variable {limit : Int64} {n i : Nat} {s t : State}

inductive Moves (limit : Int64) (s : State) (i : Nat) : State → Prop
  | overshoot (here : s.calls[i]? = some .called) (above : limit < s.value + 1) :
      Moves limit s i ⟨s.value + 1, s.calls.set i .rollingBack⟩
  | grant (here : s.calls[i]? = some .called) (within : s.value + 1 ≤ limit) :
      Moves limit s i ⟨s.value + 1, s.calls.set i (.returned true (s.value + 1))⟩
  | rollBack (here : s.calls[i]? = some .rollingBack) :
      Moves limit s i ⟨s.value + -1, s.calls.set i (.returned false limit)⟩

theorem moves_of_step (took : counterIncrement limit s i = some t) : Moves limit s i t := by
  unfold counterIncrement at took
  split at took
  next here =>
    dsimp only at took
    split at took
    next above =>
      cases took
      exact .overshoot here above
    next within =>
      cases took
      exact .grant here (Int64.not_lt.mp within)
  next here =>
    obtain rfl := some.inj took
    exact .rollBack here
  · cases took

/-- The counter is ahead of the successes by the calls that have yet to roll back, and once any call
has gone over the limit the successes have reached it. -/
structure Counts (limit : Int64) (n : Nat) (s : State) : Prop where
  length : s.calls.length = n
  value : s.value.toInt = s.granted.length + s.calls.countP Call.isRollingBack
  within : s.granted.length ≤ limit.toInt
  full : ∀ call ∈ s.calls, call.overshot = true → s.granted.length = limit.toInt
  below : ∀ value ∈ s.granted, value.toInt ≤ s.granted.length
  distinct : s.granted.Nodup

theorem counts_start (nonneg : 0 ≤ limit) (n) : Counts limit n (start n) := by
  have nobody : ∀ call ∈ (start n).calls, call = .called := fun call mem =>
    eq_of_mem_replicate mem
  have none : (start n).granted = [] := by
    rw [State.granted, filterMap_eq_nil_iff]
    intro call mem
    rw [nobody call mem]
    rfl
  have still : (start n).calls.countP Call.isRollingBack = 0 := by
    rw [countP_eq_zero]
    intro call mem
    rw [nobody call mem]
    decide
  refine ⟨length_replicate, ?_, ?_, ?_, ?_, ?_⟩
  · rw [none, still]
    rfl
  · rw [none]
    exact Int64.le_iff_toInt_le.mp nonneg
  · intro call mem beyond
    rw [nobody call mem] at beyond
    cases beyond
  · rw [none]
    simp
  · rw [none]
    exact nodup_nil

theorem Call.overshot_of_isRollingBack {call : Call} (pending : call.isRollingBack = true) :
    call.overshot = true := by
  cases call <;> first | rfl | cases pending

theorem granted_add_pending_le (s : State) :
    s.granted.length + s.calls.countP Call.isRollingBack ≤ s.calls.length := by
  have ne : s.calls.countP Call.isRollingBack ≤
      s.calls.countP (fun call => !call.granted.isSome) := by
    apply countP_mono_left
    intro call _ pending
    cases call <;> first | rfl | cases pending
  have all := length_eq_countP_add_countP (fun call => call.granted.isSome) (l := s.calls)
  rw [State.granted, length_filterMap_eq_countP]
  simp only [decide_not, Bool.decide_eq_true] at all
  omega

section

variable {old : Call}

theorem granted_moved (here : s.calls[i]? = some old) (new v) :
    (new.granted.toList ++ s.granted).Perm
      (old.granted.toList ++ (State.mk v (s.calls.set i new)).granted) :=
  Pool.filterMap_moved here new Call.granted

theorem pending_moved (here : s.calls[i]? = some old) (new) :
    (s.calls.set i new).countP Call.isRollingBack + (if old.isRollingBack then 1 else 0) =
      s.calls.countP Call.isRollingBack + (if new.isRollingBack then 1 else 0) := by
  have moved := Pool.countP_moved here new [] Call.isRollingBack
  rwa [append_nil, countP_nil, Nat.add_zero] at moved

variable (counts : Counts limit n s)
include counts

/-- With fewer than 2 ^ 63 calls the counter has room for one that has not added yet. -/
theorem Counts.below_max (few : n < 2 ^ 63) (here : s.calls[i]? = some .called) :
    s.value.toInt < 2 ^ 63 - 1 := by
  have fits := granted_add_pending_le ⟨s.value, s.calls.set i .rollingBack⟩
  have eq := (granted_moved here .rollingBack s.value).length_eq
  have more := pending_moved here .rollingBack
  have v := counts.value
  have length := counts.length
  simp only [Call.granted, toList_none, nil_append, length_set,
    Call.isRollingBack, if_true, Bool.false_eq_true, if_false] at fits eq more
  omega

theorem Counts.keep (here : s.calls[i]? = some old) {new : Call} (pre : old.granted = none)
    (after : new.granted = none) {v : Int64}
    (moved : v.toInt = s.granted.length + (s.calls.set i new).countP Call.isRollingBack)
    (full : new.overshot = true → s.granted.length = limit.toInt) :
    Counts limit n ⟨v, s.calls.set i new⟩ := by
  have eq : s.granted.Perm (State.mk v (s.calls.set i new)).granted := by
    simpa only [pre, after, toList_none, nil_append] using granted_moved here new v
  refine ⟨?_, ?_, ?_, ?_, ?_, ?_⟩
  · rw [length_set]
    exact counts.length
  · rw [← eq.length_eq]
    exact moved
  · rw [← eq.length_eq]
    exact counts.within
  · intro call mem beyond
    rw [← eq.length_eq]
    rcases mem_or_eq_of_mem_set mem with old | own
    · exact counts.full call old beyond
    · exact full (own ▸ beyond)
  · intro granted mem
    rw [← eq.length_eq]
    exact counts.below granted (eq.mem_iff.mpr mem)
  · exact eq.nodup_iff.mp counts.distinct

/-- A success is one more than all successes before it. -/
theorem Counts.grant (here : s.calls[i]? = some .called) (room : s.value.toInt < 2 ^ 63 - 1)
    (within : s.value + 1 ≤ limit) :
    Counts limit n ⟨s.value + 1, s.calls.set i (.returned true (s.value + 1))⟩ := by
  have added := toInt_add_one room
  have small := Int64.le_iff_toInt_le.mp within
  have v := counts.value
  have still := pending_moved here (.returned true (s.value + 1))
  simp only [Call.isRollingBack, Bool.false_eq_true, if_false, Nat.add_zero] at still
  -- Nobody is over the limit, or the counter would be at it.
  have nobody : ∀ call ∈ s.calls, ¬ call.overshot = true := by
    intro call mem beyond
    have full := counts.full call mem beyond
    omega
  have idle : s.calls.countP Call.isRollingBack = 0 := by
    rw [countP_eq_zero]
    intro call mem pending
    exact nobody call mem (Call.overshot_of_isRollingBack pending)
  have eq : ((s.value + 1) :: s.granted).Perm
      (State.mk (s.value + 1) (s.calls.set i (.returned true (s.value + 1)))).granted :=
    granted_moved here (.returned true (s.value + 1)) (s.value + 1)
  have length := eq.length_eq
  rw [length_cons] at length
  refine ⟨?_, ?_, ?_, ?_, ?_, ?_⟩
  · rw [length_set]
    exact counts.length
  · push_cast
    omega
  · omega
  · intro call mem beyond
    rcases mem_or_eq_of_mem_set mem with old | own
    · exact absurd beyond (nobody call old)
    · rw [own] at beyond
      cases beyond
  · intro granted mem
    rcases mem_cons.mp (eq.mem_iff.mpr mem) with own | pre
    · rw [own]
      omega
    · have below := counts.below granted pre
      omega
  · rw [← eq.nodup_iff, nodup_cons]
    refine ⟨fun pre => ?_, counts.distinct⟩
    have below := counts.below _ pre
    omega

theorem Counts.moves (few : n < 2 ^ 63) (moves : Moves limit s i t) : Counts limit n t := by
  have v := counts.value
  have within := counts.within
  cases moves with
  | overshoot here above =>
    have added := toInt_add_one (counts.below_max few here)
    have beyond := Int64.lt_iff_toInt_lt.mp above
    have more := pending_moved here .rollingBack
    simp only [Call.isRollingBack, Bool.false_eq_true, if_false, if_true] at more
    refine counts.keep here rfl rfl (by omega) fun _ => ?_
    -- The first call over the limit finds nobody rolling back; the others find it full already.
    by_cases idle : s.calls.countP Call.isRollingBack = 0
    · omega
    · obtain ⟨call, mem, pending⟩ := countP_pos_iff.mp (Nat.pos_of_ne_zero idle)
      exact counts.full call mem (Call.overshot_of_isRollingBack pending)
  | grant here within => exact counts.grant here (counts.below_max few here) within
  | rollBack here =>
    have fewer := pending_moved here (.returned false limit)
    simp only [Call.isRollingBack, Bool.false_eq_true, if_false, if_true] at fewer
    have taken : (s.value + -1).toInt = s.value.toInt - 1 := toInt_add_neg_one (by omega)
    refine counts.keep here rfl rfl (by omega) fun _ => ?_
    exact counts.full .rollingBack (mem_of_getElem? here) rfl

end

/-- The successful calls return different values, and when all calls have returned as many as the
limit allows were successful, which is then the value of the counter. -/
theorem grants_exactly_limit {steps : List Nat} {final : State} (nonneg : 0 ≤ limit)
    (few : n < 2 ^ 63) (run : exec (counterIncrement limit) (start n) steps = some final) :
    final.granted.Nodup ∧
      (final.Finished → (final.granted.length : Int) = min (n : Int) limit.toInt ∧
        final.value.toInt = final.granted.length) := by
  have counts : Counts limit n final := exec_invariant (Counts limit n) (counts_start nonneg n)
    (fun _ _ _ held stepped => held.moves few (moves_of_step stepped)) run
  refine ⟨counts.distinct, fun finished => ?_⟩
  have idle : final.calls.countP Call.isRollingBack = 0 := by
    rw [countP_eq_zero]
    intro call member pending
    have returned := finished call member
    cases call with
    | called => cases pending
    | rollingBack => cases returned
    | returned ok value => cases pending
  have value := counts.value
  have within := counts.within
  have fits := granted_add_pending_le final
  rw [counts.length] at fits
  refine ⟨?_, by omega⟩
  by_cases beyond : ∃ call ∈ final.calls, call.overshot = true
  · obtain ⟨call, member, beyond⟩ := beyond
    have full := counts.full call member beyond
    omega
  · -- Every call is successful.
    have every : ∀ call ∈ final.calls, call.granted.isSome = true := by
      intro call member
      have returned := finished call member
      cases call with
      | called => cases returned
      | rollingBack => cases returned
      | returned ok value =>
        cases ok with
        | true => rfl
        | false => exact absurd ⟨_, member, rfl⟩ beyond
    have length : final.granted.length = n := by
      rw [State.granted, length_filterMap_eq_countP, ← counts.length]
      exact countP_eq_length.mpr every
    omega

/-- The third call goes over a limit of two while the fourth is under way. -/
theorem two_of_four_granted :
    ∃ final, exec (counterIncrement 2) (start 4) [0, 2, 1, 3, 3, 1] = some final ∧
      final.granted = [1, 2] ∧ final.granted.Nodup ∧ final.value.toInt = 2 := by
  refine exists_exec (fun s => s.granted = [1, 2] ∧ ∀ c ∈ s.calls, c.isReturned = true)
    (by decide) ?_
  intro final run ⟨granted, finished⟩
  have counted := grants_exactly_limit (by decide) (by decide) run
  refine ⟨granted, counted.1, ?_⟩
  rw [(counted.2 finished).2, granted]
  rfl

theorem step_unlimited (v front rest) :
    counterIncrement Int64.maxValue ⟨v, front ++ .called :: rest⟩ front.length =
      some ⟨v + 1, front ++ .returned true (v + 1) :: rest⟩ := by
  have within : ¬ v + 1 > Int64.maxValue := Int64.not_lt.mpr (v + 1).le_maxValue
  simp [counterIncrement, within]

theorem exec_unlimited (n k) (within : k ≤ n) :
    ∃ front, front.length = k ∧ (∀ call ∈ front, ∃ value, call = .returned true value) ∧
      exec (counterIncrement Int64.maxValue) (start n) (List.range k) =
        some ⟨Int64.ofNat k, front ++ List.replicate (n - k) .called⟩ := by
  induction k with
  | zero => exact ⟨[], rfl, by simp, rfl⟩
  | succ k ih =>
    obtain ⟨front, length, granted, run⟩ := ih (Nat.le_of_succ_le within)
    have left : n - k = (n - (k + 1)) + 1 := by omega
    rw [left, replicate_succ] at run
    refine ⟨front ++ [.returned true (Int64.ofNat k + 1)], by simp [length], ?_, ?_⟩
    · exact forall_mem_snoc granted ⟨_, rfl⟩
    · rw [range_succ]
      refine exec_snoc_some.mpr ⟨_, run, ?_⟩
      rw [← length, step_unlimited, length, append_assoc, Int64.ofNat_add]
      rfl

/-- The last of 2 ^ 63 calls wraps the counter around and is successful beyond the limit. -/
theorem counter_wraps_around :
    ∃ final, exec (counterIncrement Int64.maxValue) (start (2 ^ 63)) (List.range (2 ^ 63)) =
        some final ∧ final.Finished ∧
      (final.granted.length : Int) = Int64.maxValue.toInt + 1 ∧
      final.value.toInt = - 2 ^ 63 := by
  obtain ⟨front, length, granted, run⟩ := exec_unlimited (2 ^ 63) (2 ^ 63) (Nat.le_refl _)
  rw [Nat.sub_self, replicate_zero, append_nil] at run
  refine ⟨_, run, ?_, ?_, rfl⟩
  · intro call member
    obtain ⟨value, rfl⟩ := granted call member
    rfl
  · have every : ∀ call ∈ front, call.granted.isSome = true := by
      intro call member
      obtain ⟨value, rfl⟩ := granted call member
      rfl
    rw [State.granted, length_filterMap_eq_countP, countP_eq_length.mpr every, length]
    rfl

end AsyncPractice.SecureCounter
