import AsyncPractice.GoTime
import AsyncPractice.MachineInt
import AsyncPractice.Pool
import AsyncPractice.Runs

/- Concurrent calls of limiterTryAcquire in solution2RaceConditionSecurity of
solution07_security.go: the load of the tokens, the refill under its lock, the add that takes a
token and the add that gives it back are steps of their own. -/
namespace AsyncPractice.TokenLimiter

open Option List Runs
open GoTime (second sub)
open MachineInt (toInt_add_neg_one toInt_add_one)

/-- A call before its load, before the refill section, before it takes a token, before it gives
back one that was not there, and at its end. -/
inductive Call
  | called
  | refilling
  | taking
  | rollingBack
  | returned (ok : Bool)
  deriving DecidableEq

structure SecureRateLimiter where
  tokens : Int64
  maxTokens : Int64
  lastRefill : Int

/-- `taken` counts the calls that took a token since the last refill; it only observes. -/
structure State where
  limiter : SecureRateLimiter
  clock : Int
  calls : List Call
  taken : Nat

def start (maxTokens : Int64) (now : Int) (n : Nat) : State :=
  ⟨⟨maxTokens, maxTokens, now⟩, now, List.replicate n .called, 0⟩

/-- The call `i` goes on at the time `now`, which only the refill section reads. -/
structure Event where
  i : Nat
  now : Int

@[simps] def State.goto (s : State) (i : Nat) (call : Call) : State :=
  { s with calls := s.calls.set i call }

@[simps] def State.tick (s : State) (now : Int) : State := { s with clock := now }

@[simps] def State.fill (s : State) (now : Int) : State :=
  { s with limiter := ⟨s.limiter.maxTokens, s.limiter.maxTokens, now⟩, taken := 0 }

@[simps] def State.addTokens (s : State) (delta : Int64) : State :=
  { s with limiter := { s.limiter with tokens := s.limiter.tokens + delta } }

@[simps] def State.count (s : State) : State := { s with taken := s.taken + 1 }

def limiterTryAcquire (s : State) (i : Nat) (now : Int) : Option State :=
  match s.calls[i]? with
  | some .called =>
    if s.limiter.tokens ≤ 0 then some (s.goto i .refilling) else some (s.goto i .taking)
  | some .refilling =>
    if sub now s.limiter.lastRefill > second then some ((s.fill now).goto i .taking)
    else some (s.goto i .taking)
  | some .taking =>
    if (s.addTokens (-1)).limiter.tokens < 0 then some ((s.addTokens (-1)).goto i .rollingBack)
    else some ((s.addTokens (-1)).count.goto i (.returned true))
  | some .rollingBack => some ((s.addTokens 1).goto i (.returned false))
  | _ => none

def step (s : State) (event : Event) : Option State :=
  if s.clock ≤ event.now then limiterTryAcquire (s.tick event.now) event.i event.now else none

/-- There are never more tokens than allowed, and no more were taken since the last refill. -/
def State.Bounded (s : State) : Prop :=
  s.limiter.tokens ≤ s.limiter.maxTokens ∧ s.taken ≤ s.limiter.maxTokens.toInt

def Refills (s : State) (event : Event) : Prop :=
  s.calls[event.i]? = some .refilling ∧ sub event.now s.limiter.lastRefill > second

instance (s : State) (event : Event) : Decidable (Refills s event) :=
  inferInstanceAs (Decidable (_ ∧ _))

/-- The tokens are filled up only when every token that was not there has been given back. -/
def Settled (s : State) (event : Event) : Prop :=
  Refills s event → .rollingBack ∉ s.calls

instance (s : State) (event : Event) : Decidable (Settled s event) :=
  inferInstanceAs (Decidable (_ → _))

variable {maxTokens : Int64} {now : Int} {n : Nat} {s next : State} {event : Event}

/-- What a step can do: one call moves on, the tokens stay, are filled up, taken or given back. -/
inductive Moves (s : State) (event : Event) : State → Prop
  | pass {old new : Call} (here : s.calls[event.i]? = some old) (before : old ≠ .rollingBack)
      (after : new ≠ .rollingBack) (kept : ¬ Refills s event) :
      Moves s event ((s.tick event.now).goto event.i new)
  | fill (refills : Refills s event) :
      Moves s event (((s.tick event.now).fill event.now).goto event.i .taking)
  | overdraw (here : s.calls[event.i]? = some .taking) :
      Moves s event (((s.tick event.now).addTokens (-1)).goto event.i .rollingBack)
  | take (here : s.calls[event.i]? = some .taking) (there : 0 ≤ s.limiter.tokens + -1) :
      Moves s event (((s.tick event.now).addTokens (-1)).count.goto event.i (.returned true))
  | rollBack (here : s.calls[event.i]? = some .rollingBack) :
      Moves s event (((s.tick event.now).addTokens 1).goto event.i (.returned false))

theorem moves_of_step (took : step s event = some next) : Moves s event next := by
  obtain ⟨-, took⟩ := ite_none_right_eq_some.mp took
  unfold limiterTryAcquire at took
  split at took
  next here =>
    have kept : ¬ Refills s event := by
      intro refills
      cases here.symm.trans refills.1
    split at took
    · obtain rfl := some.inj took
      exact .pass here (by decide) (by decide) kept
    · obtain rfl := some.inj took
      exact .pass here (by decide) (by decide) kept
  next here =>
    split at took
    next late =>
      obtain rfl := some.inj took
      exact .fill ⟨here, late⟩
    next early =>
      obtain rfl := some.inj took
      exact .pass here (by decide) (by decide) fun refills => early refills.2
  next here =>
    split at took
    · obtain rfl := some.inj took
      exact .overdraw here
    next there =>
      obtain rfl := some.inj took
      exact .take here (Int64.not_lt.mp there)
  next here =>
    obtain rfl := some.inj took
    exact .rollBack here
  · cases took

def State.owed (s : State) : Nat := s.calls.count .rollingBack

/-- What is missing of the tokens was taken or is owed. -/
structure Balanced (maxTokens : Int64) (n : Nat) (s : State) : Prop where
  limit : s.limiter.maxTokens = maxTokens
  length : s.calls.length = n
  tokens : s.limiter.tokens.toInt = maxTokens.toInt - s.taken - s.owed
  taken : s.taken ≤ maxTokens.toInt

theorem balanced_start (pos : 1 ≤ maxTokens) (now n) :
    Balanced maxTokens n (start maxTokens now n) := by
  have nobody : (start maxTokens now n).owed = 0 := by
    rw [State.owed, count_eq_zero]
    intro mem
    cases eq_of_mem_replicate mem
  have low := Int64.le_iff_toInt_le.mp pos
  rw [show (1 : Int64).toInt = 1 from rfl] at low
  refine ⟨rfl, length_replicate, ?_, ?_⟩
  · rw [nobody]
    simp [start]
  · simp only [start]
    omega

variable (balanced : Balanced maxTokens n s)
include balanced

theorem Balanced.low (few : n < 2 ^ 63) : - 2 ^ 63 < s.limiter.tokens.toInt := by
  have tokens := balanced.tokens
  have taken := balanced.taken
  have owed : s.owed ≤ s.calls.length := count_le_length
  rw [balanced.length] at owed
  omega

theorem Balanced.goto {t : State} {i : Nat} {old new : Call} (here : s.calls[i]? = some old)
    (cs : t.calls = s.calls) (limit : t.limiter.maxTokens = s.limiter.maxTokens)
    (tokens : t.limiter.tokens.toInt + (if new = .rollingBack then 1 else 0) =
      maxTokens.toInt - t.taken - s.owed + (if old = .rollingBack then 1 else 0))
    (taken : t.taken ≤ maxTokens.toInt) : Balanced maxTokens n (t.goto i new) := by
  have moved := Pool.countP_moved here new [] (· == .rollingBack)
  rw [append_nil, countP_nil, Nat.add_zero] at moved
  have owed : (t.goto i new).owed + (if old = .rollingBack then 1 else 0) =
      s.owed + (if new = .rollingBack then 1 else 0) := by
    simp only [beq_iff_eq] at moved
    rw [State.owed, State.goto_calls, cs]
    exact moved
  refine ⟨limit.trans balanced.limit, ?_, ?_, taken⟩
  · rw [State.goto_calls, length_set, cs]
    exact balanced.length
  · have cnt : ((t.goto i new).owed : Int) + (if old = .rollingBack then 1 else 0) =
        s.owed + (if new = .rollingBack then 1 else 0) := by
      exact_mod_cast owed
    rw [State.goto_limiter, State.goto_taken]
    omega

theorem Balanced.moves (few : n < 2 ^ 63) (inv : Settled s event) (moves : Moves s event next) :
    Balanced maxTokens n next := by
  have tokens := balanced.tokens
  have taken := balanced.taken
  cases moves with
  | @pass old new here pre after kept =>
    refine balanced.goto here (by simp) (by simp) ?_ (by simpa using taken)
    simpa [pre, after] using tokens
  | fill refills =>
    have nobody : s.owed = 0 := count_eq_zero.mpr (inv refills)
    refine balanced.goto refills.1 (by simp) (by simp) ?_ ?_
    · simp [nobody, balanced.limit]
    · simp
      omega
  | overdraw here =>
    have fewer := toInt_add_neg_one (balanced.low few)
    refine balanced.goto here (by simp) (by simp) ?_ (by simpa using taken)
    simp only [State.addTokens_limiter_tokens, State.addTokens_taken, State.tick_limiter,
      State.tick_taken, reduceCtorEq, if_false, if_true]
    omega
  | take here there =>
    have fewer := toInt_add_neg_one (balanced.low few)
    have there := Int64.le_iff_toInt_le.mp there
    rw [show (0 : Int64).toInt = 0 from rfl] at there
    refine balanced.goto here (by simp) (by simp) ?_ ?_
    · simp only [State.count_limiter, State.count_taken, State.addTokens_limiter_tokens,
        State.addTokens_taken, State.tick_limiter, State.tick_taken, reduceCtorEq, if_false]
      omega
    · simp only [State.count_taken, State.addTokens_taken, State.tick_taken]
      omega
  | rollBack here =>
    have owing : 0 < s.owed := count_pos_iff.mpr (mem_of_getElem? here)
    have high := maxTokens.toInt_lt
    have more := toInt_add_one (n := s.limiter.tokens) (by omega)
    refine balanced.goto here (by simp) (by simp) ?_ (by simpa using taken)
    simp only [State.addTokens_limiter_tokens, State.addTokens_taken, State.tick_limiter,
      State.tick_taken, reduceCtorEq, if_false, if_true]
    omega

theorem Balanced.bounded : s.Bounded := by
  have tokens := balanced.tokens
  refine ⟨?_, ?_⟩
  · rw [Int64.le_iff_toInt_le, balanced.limit]
    omega
  · rw [balanced.limit]
    exact balanced.taken

omit balanced

theorem maxTokens_of_step (took : step s event = some next) :
    next.limiter.maxTokens = s.limiter.maxTokens := by
  cases moves_of_step took <;> simp

/-- A refill forgets the tokens that are owed: the first one given back is too many. -/
theorem exceeds_of_unsettled (room : s.limiter.maxTokens.toInt < 2 ^ 63 - 1)
    (unsettled : ¬ Settled s event) (took : step s event = some next) :
    ∃ i last, step next ⟨i, next.clock⟩ = some last ∧
      s.limiter.maxTokens < last.limiter.tokens := by
  rw [Settled, Classical.not_imp, not_not] at unsettled
  obtain ⟨refills, owing⟩ := unsettled
  cases moves_of_step took with
  | pass here pre after kept => exact absurd refills kept
  | overdraw here | take here there | rollBack here => cases here.symm.trans refills.1
  | fill refills =>
    have still : .rollingBack ∈ s.calls.set event.i .taking :=
      Pool.mem_of_ne refills.1 owing (by decide)
    obtain ⟨i, there⟩ := mem_iff_getElem?.mp still
    have gives : ∀ t : State, t.calls[i]? = some .rollingBack →
        step t ⟨i, t.clock⟩ = some (((t.tick t.clock).addTokens 1).goto i (.returned false)) := by
      intro t there
      rw [step, if_pos (Int.le_refl _), limiterTryAcquire, State.tick_calls, there]
    refine ⟨i, _, gives _ there, ?_⟩
    rw [Int64.lt_iff_toInt_lt]
    simp only [State.goto_limiter, State.addTokens_limiter_tokens, State.tick_limiter,
      State.fill_limiter_tokens]
    rw [toInt_add_one room]
    omega

/-- As long as no refill happens while a token is owed there are never more tokens than allowed,
and never more taken between two refills; a refill while a token is owed can be followed by more
tokens than allowed. -/
theorem tokens_bounded_settled {events : List Event} {final : State} (positive : 1 ≤ maxTokens)
    (few : n < 2 ^ 63) (run : exec step (start maxTokens now n) events = some final) :
    (Along step Settled (start maxTokens now n) events →
      Throughout step State.Bounded (start maxTokens now n) events) ∧
    ∀ event next, step final event = some next → ¬ Settled final event →
      maxTokens.toInt < 2 ^ 63 - 1 →
        ∃ i last, step next ⟨i, next.clock⟩ = some last ∧ maxTokens < last.limiter.tokens := by
  have limit : final.limiter.maxTokens = maxTokens :=
    exec_invariant (fun s => s.limiter.maxTokens = maxTokens) rfl
      (fun _ _ _ held stepped => (maxTokens_of_step stepped).trans held) run
  constructor
  · intro settled before after split state reached
    subst split
    have balanced : Balanced maxTokens n state :=
      exec_guarded (Balanced maxTokens n) (balanced_start positive now n)
        (fun _ _ _ held settled stepped => held.moves few settled (moves_of_step stepped))
        reached settled.initial
    exact balanced.bounded
  · intro event next stepped unsettled room
    rw [← limit] at room ⊢
    exact exceeds_of_unsettled room unsettled stepped

/-- The second call comes after the only token was taken and finds it filled up again. -/
theorem refilled_once_settled :
    let events : List Event := [⟨0, 0⟩, ⟨0, 0⟩, ⟨1, 0⟩, ⟨1, 2 * second⟩, ⟨1, 2 * second⟩]
    ∃ final, exec step (start 1 0 2) events = some final ∧
      final.calls = [.returned true, .returned true] ∧ final.Bounded := by
  intro events
  refine exists_exec (fun s => s.calls = [.returned true, .returned true]) (by decide) ?_
  intro final run calls
  have settled : Along step Settled (start 1 0 2) events :=
    along_of_decide (by decide)
  exact ⟨calls, ((tokens_bounded_settled (by decide) (by decide) run).1 settled).last run⟩

def owedAtRefill : List Event :=
  [⟨0, 0⟩, ⟨0, 0⟩, ⟨1, 0⟩, ⟨1, 0⟩, ⟨1, 0⟩, ⟨2, 0⟩, ⟨2, 2 * second⟩, ⟨1, 2 * second⟩]

/-- Two tokens with a limit of one, and two calls that take one without a refill between them. -/
theorem tokens_exceed_maximum :
    (∃ s, exec step (start 1 0 4) owedAtRefill = some s ∧ s.limiter.tokens = 2 ∧
      s.limiter.maxTokens = 1) ∧
    ∃ s, exec step (start 1 0 4) (owedAtRefill ++
        [⟨2, 2 * second⟩, ⟨3, 2 * second⟩, ⟨3, 2 * second⟩]) = some s ∧
      s.calls = [.returned true, .returned false, .returned true, .returned true] ∧
      s.taken = 2 :=
  ⟨⟨_, rfl, rfl, rfl⟩, ⟨_, rfl, rfl, rfl⟩⟩

end AsyncPractice.TokenLimiter
