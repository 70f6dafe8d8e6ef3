import AsyncPractice.GoTime
import AsyncPractice.MachineInt
import AsyncPractice.Runs

/- The CircuitBreaker of event_bus_example.go, under calls of Allow, RecordFailure and RecordSuccess
one after another. -/
namespace AsyncPractice.EventBusExampleBreaker

open GoTime Runs
open MachineInt (toInt_add_neg_one toInt_add_one)

inductive BreakerState
  | closed
  | opened
  | halfOpen
  deriving DecidableEq

structure CircuitBreaker where
  failures : Int64
  maxFailures : Int64
  state : BreakerState
  lastFailure : Int
  cooldown : Int

/-- The breaker that NewEventBusExample makes, with any limit. -/
def newCircuitBreaker (maxFailures : Int64) : CircuitBreaker :=
  ⟨0, maxFailures, .closed, 0, 30 * second⟩

namespace CircuitBreaker

variable (cb : CircuitBreaker)

def allow (now : Int) : CircuitBreaker × Bool :=
  match cb.state with
  | .opened =>
    if sub now cb.lastFailure > cb.cooldown then
      ({ cb with state := .halfOpen, failures := 0 }, true)
    else (cb, false)
  | .halfOpen => (cb, cb.failures < cb.maxFailures / 2)
  | .closed => (cb, true)

def recordFailure (now : Int) : CircuitBreaker :=
  let cb := { cb with failures := cb.failures + 1, lastFailure := now }
  if cb.failures ≥ cb.maxFailures then { cb with state := .opened } else cb

def recordSuccess : CircuitBreaker :=
  let cb := if cb.state = .halfOpen ∧ cb.failures = 0 then { cb with state := .closed } else cb
  if cb.failures > 0 then { cb with failures := cb.failures - 1 } else cb

end CircuitBreaker

structure State where
  cb : CircuitBreaker
  clock : Int

def start (maxFailures : Int64) (now : Int) : State := ⟨newCircuitBreaker maxFailures, now⟩

inductive Event
  | allow (now : Int)
  | recordFailure (now : Int)
  | recordSuccess

def step (s : State) : Event → Option State
  | .allow now => if s.clock ≤ now then some ⟨(s.cb.allow now).1, now⟩ else none
  | .recordFailure now => if s.clock ≤ now then some ⟨s.cb.recordFailure now, now⟩ else none
  | .recordSuccess => some { s with cb := s.cb.recordSuccess }

/-- After some delay Allow returns true. -/
def State.Recovers (s : State) : Prop := ∃ delay ≥ 0, (s.cb.allow (s.clock + delay)).2 = true

/-- No failure is recorded in the half-open state that brings the failures to half the limit. -/
def BelowHalf (s : State) : Event → Prop
  | .recordFailure _ => s.cb.state = .halfOpen → s.cb.failures + 1 < s.cb.maxFailures / 2
  | _ => True

instance (s : State) (event : Event) : Decidable (BelowHalf s event) :=
  match event with
  | .recordFailure _ => inferInstanceAs (Decidable (_ → _))
  | .allow _ | .recordSuccess => isTrue trivial

variable {maxFailures : Int64} {cb : CircuitBreaker} {now : Int}

theorem toInt_half (least : 2 ≤ maxFailures) :
    2 ≤ maxFailures.toInt ∧ (maxFailures / 2).toInt = maxFailures.toInt / 2 := by
  have low := Int64.le_iff_toInt_le.mp least
  rw [show (2 : Int64).toInt = 2 from rfl] at low
  refine ⟨low, ?_⟩
  rw [Int64.toInt_div_of_ne_right _ _ (by decide), show (2 : Int64).toInt = 2 from rfl,
    Int.tdiv_eq_ediv_of_nonneg (by omega)]

/-- In the half-open state there is room for a call. -/
structure Sound (maxFailures : Int64) (cb : CircuitBreaker) : Prop where
  limit : cb.maxFailures = maxFailures
  cooldown : cb.cooldown = 30 * second
  halfOpen : cb.state = .halfOpen → 0 ≤ cb.failures ∧ cb.failures < maxFailures / 2

theorem sound_new (maxFailures) : Sound maxFailures (newCircuitBreaker maxFailures) := by
  refine ⟨rfl, rfl, fun s => ?_⟩
  cases s

theorem Sound.recovers (inv : Sound maxFailures cb) (clock) : State.Recovers ⟨cb, clock⟩ := by
  cases s : cb.state with
  | closed => exact ⟨0, Int.le_refl 0, by simp [CircuitBreaker.allow, s]⟩
  | halfOpen =>
    refine ⟨0, Int.le_refl 0, ?_⟩
    simp [CircuitBreaker.allow, s, inv.limit, (inv.halfOpen s).2]
  | opened =>
    obtain ⟨delay, later, past⟩ :
        ∃ delay ≥ 0, 30 * second < clock + delay - cb.lastFailure :=
      ⟨max 0 (cb.lastFailure + 30 * second + 1 - clock), by omega, by omega⟩
    have elapsed := (lt_sub_iff (by decide) (by decide)).mpr past
    refine ⟨delay, later, ?_⟩
    simp [CircuitBreaker.allow, s, inv.cooldown, elapsed]

theorem Sound.allow (inv : Sound maxFailures cb) (least : 2 ≤ maxFailures) (now) :
    Sound maxFailures (cb.allow now).1 := by
  unfold CircuitBreaker.allow
  split
  · split
    · refine ⟨inv.limit, inv.cooldown, fun _ => ⟨Int64.le_refl 0, ?_⟩⟩
      obtain ⟨low, half⟩ := toInt_half least
      rw [Int64.lt_iff_toInt_lt, half]
      change 0 < _
      omega
    · exact inv
  · exact inv
  · exact inv

theorem recordSuccess_cases (cb : CircuitBreaker) :
    cb.recordSuccess = { cb with state := .closed } ∨
      (0 < cb.failures ∧ cb.recordSuccess = { cb with failures := cb.failures - 1 }) ∨
      cb.recordSuccess = cb := by
  unfold CircuitBreaker.recordSuccess
  by_cases recovered : cb.state = .halfOpen ∧ cb.failures = 0
  · left
    simp [recovered]
  · right
    simp only [recovered, if_false]
    split
    next failed =>
      exact .inl ⟨failed, rfl⟩
    · exact .inr rfl

variable (sound : Sound maxFailures cb)
include sound

theorem Sound.recordSuccess : Sound maxFailures cb.recordSuccess := by
  rcases recordSuccess_cases cb with closed | ⟨failed, fewer⟩ | same
  · rw [closed]
    refine ⟨sound.limit, sound.cooldown, fun s => ?_⟩
    cases s
  · rw [fewer]
    refine ⟨sound.limit, sound.cooldown, fun s => ?_⟩
    have below := (sound.halfOpen s).2
    have pos := Int64.lt_iff_toInt_lt.mp failed
    rw [show (0 : Int64).toInt = 0 from rfl] at pos
    have taken : (cb.failures - 1).toInt = cb.failures.toInt - 1 := by
      rw [Int64.sub_eq_add_neg]
      exact toInt_add_neg_one (by omega)
    rw [Int64.lt_iff_toInt_lt] at below
    rw [Int64.le_iff_toInt_le, Int64.lt_iff_toInt_lt, taken, show (0 : Int64).toInt = 0 from rfl]
    omega
  · rw [same]
    exact sound

theorem Sound.recordFailure_halfOpen (least : 2 ≤ maxFailures) (s : cb.state = .halfOpen) (now) :
    (cb.failures + 1).toInt = cb.failures.toInt + 1 ∧
      cb.recordFailure now = { cb with failures := cb.failures + 1, lastFailure := now } := by
  obtain ⟨low, half⟩ := toInt_half least
  obtain ⟨nonneg, below⟩ := sound.halfOpen s
  rw [Int64.lt_iff_toInt_lt, half] at below
  have high := maxFailures.toInt_lt
  have added := toInt_add_one (n := cb.failures) (by omega)
  refine ⟨added, ?_⟩
  have few : ¬ cb.failures + 1 ≥ cb.maxFailures := by
    rw [sound.limit, ge_iff_le, Int64.le_iff_toInt_le, added]
    omega
  simp only [CircuitBreaker.recordFailure, few, if_false]

theorem Sound.recordFailure (least : 2 ≤ maxFailures)
    (below : cb.state = .halfOpen → cb.failures + 1 < cb.maxFailures / 2) (now) :
    Sound maxFailures (cb.recordFailure now) := by
  by_cases s : cb.state = .halfOpen
  · obtain ⟨added, kept⟩ := sound.recordFailure_halfOpen least s now
    rw [kept]
    refine ⟨sound.limit, sound.cooldown, fun _ => ⟨?_, ?_⟩⟩
    · have nonneg := Int64.le_iff_toInt_le.mp (sound.halfOpen s).1
      rw [Int64.le_iff_toInt_le, added]
      change 0 ≤ _ at nonneg
      change 0 ≤ _
      omega
    · rw [← sound.limit]
      exact below s
  · have other : (cb.recordFailure now).state ≠ .halfOpen := by
      unfold CircuitBreaker.recordFailure
      dsimp only
      split
      · exact BreakerState.noConfusion
      · exact s
    refine ⟨?_, ?_, fun s => absurd s other⟩
    · rw [← sound.limit]
      unfold CircuitBreaker.recordFailure
      dsimp only
      split <;> rfl
    · rw [← sound.cooldown]
      unfold CircuitBreaker.recordFailure
      dsimp only
      split <;> rfl

theorem Sound.blocked (least : 2 ≤ maxFailures) (s : cb.state = .halfOpen)
    (came : ¬ cb.failures + 1 < cb.maxFailures / 2) :
    ¬ State.Recovers ⟨cb.recordFailure now, now⟩ := by
  rintro ⟨delay, -, allowed⟩
  rw [(sound.recordFailure_halfOpen least s now).2] at allowed
  simp [CircuitBreaker.allow, s] at allowed
  exact came allowed

omit sound

variable {s t : State} {e : Event}

theorem Sound.step (sound : Sound maxFailures s.cb) (least : 2 ≤ maxFailures)
    (below : BelowHalf s e) (took : step s e = some t) : Sound maxFailures t.cb := by
  cases e with
  | allow now =>
    obtain ⟨-, rfl⟩ := guard_some.mp took
    exact sound.allow least now
  | recordFailure now =>
    obtain ⟨-, rfl⟩ := guard_some.mp took
    exact sound.recordFailure least below now
  | recordSuccess =>
    cases took
    exact sound.recordSuccess

theorem Sound.below_of_recovers (sound : Sound maxFailures s.cb) (least : 2 ≤ maxFailures)
    (took : EventBusExampleBreaker.step s e = some t) (recovers : t.Recovers) : BelowHalf s e := by
  cases e with
  | allow now => trivial
  | recordSuccess => trivial
  | recordFailure now =>
    intro state
    obtain ⟨-, rfl⟩ := guard_some.mp took
    by_contra reached
    exact sound.blocked least state reached recovers

/-- In every state of a run there is a delay after which Allow returns true, exactly if no failure
recorded in the half-open state brings the failures to half the limit. -/
theorem breaker_recovers_iff {events : List Event} {final : State} (least : 2 ≤ maxFailures)
    (run : exec step (start maxFailures now) events = some final) :
    Throughout step State.Recovers (start maxFailures now) events ↔
      Along step BelowHalf (start maxFailures now) events := by
  refine throughout_iff_along_of_run (fun s => Sound maxFailures s.cb) (sound_new maxFailures)
    ?_ ?_ ?_ run
  · intro s sound
    exact sound.recovers s.clock
  · intro s event next sound below stepped
    exact sound.step least below stepped
  · intro s event next sound stepped recovers
    exact sound.below_of_recovers least stepped recovers

/-- Four failures open the breaker; a success closes it once it is half open. -/
theorem recovers_after_success :
    let events : List Event := List.replicate 4 (.recordFailure 0) ++
      [.allow (31 * second), .recordFailure (31 * second), .recordSuccess, .recordSuccess]
    ∃ final, exec step (start 4 0) events = some final ∧ final.cb.state = .closed ∧
      final.Recovers := by
  intro events
  refine exists_exec (fun s => s.cb.state = .closed) (by decide) fun final run state => ?_
  have below : Along step BelowHalf (start 4 0) events :=
    along_of_decide (by decide)
  exact ⟨state, ((breaker_recovers_iff (by decide) run).mpr below).last run⟩

/-- One failure in the half-open state blocks a breaker with a limit of two for good. -/
theorem half_open_blocks :
    ∃ final, exec step (start 2 0) [.recordFailure 0, .recordFailure 0, .allow (31 * second),
        .recordFailure (31 * second)] = some final ∧
      ∀ delay, (final.cb.allow (final.clock + delay)).2 = false :=
  ⟨_, rfl, fun _ => rfl⟩

end AsyncPractice.EventBusExampleBreaker
