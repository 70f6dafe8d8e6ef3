import AsyncPractice.GoTime
import AsyncPractice.Runs

/- The CircuitBreaker of Example12_CircuitBreaker in 04_advanced_patterns.go. Call holds the lock
while fn runs, so the calls are made one after another. The printed lines are left out. -/
namespace AsyncPractice.Example12CircuitBreaker

open Runs (exec exec_invariant exists_exec)

inductive Mode
  | closed
  | opened
  | halfOpen
  deriving DecidableEq

structure CircuitBreaker where
  failures : Nat
  maxFailures : Nat
  state : Mode
  lastFailTime : Int
  resetTimeout : Int
  successCount : Nat

def newCircuitBreaker (maxFailures : Nat) (resetTimeout : Int) : CircuitBreaker :=
  ⟨0, maxFailures, .closed, 0, resetTimeout, 0⟩

/-- The clock at the beginning of a Call and after fn, and whether fn would return an error. -/
structure Call where
  now : Int
  failed : Bool
  later : Int

/-- The check whether to try half-open. -/
def enter (cb : CircuitBreaker) (now : Int) : CircuitBreaker :=
  if cb.state = .opened ∧ GoTime.sub now cb.lastFailTime > cb.resetTimeout
  then { cb with state := .halfOpen, successCount := 0 } else cb

def recordFailure (cb : CircuitBreaker) (later : Int) : CircuitBreaker :=
  let cb := { cb with failures := cb.failures + 1, lastFailTime := later }
  if cb.state = .halfOpen then { cb with state := .opened }
  else if cb.failures ≥ cb.maxFailures then { cb with state := .opened }
  else cb

def recordSuccess (cb : CircuitBreaker) : CircuitBreaker :=
  if cb.state = .halfOpen then
    let cb := { cb with successCount := cb.successCount + 1 }
    if cb.successCount ≥ 2 then { cb with state := .closed, failures := 0 } else cb
  else { cb with failures := 0 }

/-- A run of fn, with the state of the breaker in which it ran. -/
structure Record where
  mode : Mode
  failed : Bool
  time : Int

def call (cb : CircuitBreaker) (c : Call) : CircuitBreaker × Option Record :=
  let cb := enter cb c.now
  if cb.state = .opened then (cb, none)
  else (if c.failed then recordFailure cb c.later else recordSuccess cb,
    some ⟨cb.state, c.failed, c.later⟩)

/-- With the runs of fn, the latest first. -/
structure State where
  cb : CircuitBreaker
  history : List Record
  clock : Int

def start (maxFailures : Nat) (resetTimeout clock : Int) : State :=
  ⟨newCircuitBreaker maxFailures resetTimeout, [], clock⟩

def step (s : State) (c : Call) : Option State :=
  if s.clock ≤ c.now ∧ c.now ≤ c.later then
    let (cb, record) := call s.cb c
    some ⟨cb, record.toList ++ s.history, c.later⟩
  else none

/-- The failures in the closed state since the last success or closing. -/
def consecutive (history : List Record) : Nat :=
  (history.takeWhile fun r => r.mode = .closed ∧ r.failed).length

/-- The last two runs of fn were successes in the half-open state. -/
def Recovered (history : List Record) : Prop :=
  (history.take 2).map (fun r => (r.mode, r.failed)) = [(.halfOpen, false), (.halfOpen, false)]

/-- What each state of the breaker says about the runs of fn. -/
def Explained (maxFailures : Nat) (resetTimeout : Int) (s : State) : Prop :=
  (s.cb.maxFailures = maxFailures ∧ s.cb.resetTimeout = resetTimeout) ∧
  match s.cb.state with
  | .closed => s.cb.failures = consecutive s.history ∧ s.cb.failures < maxFailures
  | .opened => s.cb.lastFailTime ≤ s.clock ∧
      ∃ mode earlier, s.history = ⟨mode, true, s.cb.lastFailTime⟩ :: earlier
  | .halfOpen => s.cb.successCount = 1 ∧
      ∃ time earlier, s.history = ⟨.halfOpen, false, time⟩ :: earlier

/-- When a Call changes the state, by the runs of fn before and after it. -/
structure Transition (maxFailures : Nat) (resetTimeout : Int) (s : State) (c : Call)
    (next : State) : Prop where
  leaves : s.cb.state = .closed →
    (next.cb.state ≠ .closed ↔ consecutive next.history = maxFailures)
  waits : s.cb.state = .opened → next.history ≠ s.history →
    ∃ mode time earlier, s.history = ⟨mode, true, time⟩ :: earlier ∧ resetTimeout < c.now - time
  recovers : s.cb.state ≠ .closed → (next.cb.state = .closed ↔ Recovered next.history)

variable {failures max successes : Nat} {last reset now later : Int} {failed : Bool}

theorem call_closed : call ⟨failures, max, .closed, last, reset, successes⟩ ⟨now, failed, later⟩ =
    (if failed then
      ⟨failures + 1, max, if max ≤ failures + 1 then .opened else .closed, later, reset, successes⟩
    else ⟨0, max, .closed, last, reset, successes⟩, some ⟨.closed, failed, later⟩) := by
  cases failed with
  | false => rfl
  | true =>
    by_cases full : max ≤ failures + 1
    · simp [call, enter, recordFailure, full]
    · simp [call, enter, recordFailure, full]

theorem call_opened : call ⟨failures, max, .opened, last, reset, successes⟩ ⟨now, failed, later⟩ =
    if reset < GoTime.sub now last then
      call ⟨failures, max, .halfOpen, last, reset, 0⟩ ⟨now, failed, later⟩
    else (⟨failures, max, .opened, last, reset, successes⟩, none) := by
  by_cases waited : reset < GoTime.sub now last
  · simp [call, enter, waited]
  · simp [call, enter, waited]

theorem call_halfOpen :
    call ⟨failures, max, .halfOpen, last, reset, successes⟩ ⟨now, failed, later⟩ =
    (if failed then ⟨failures + 1, max, .opened, later, reset, successes⟩
    else if 2 ≤ successes + 1 then ⟨0, max, .closed, last, reset, successes + 1⟩
    else ⟨failures, max, .halfOpen, last, reset, successes + 1⟩,
    some ⟨.halfOpen, failed, later⟩) := by
  cases failed <;> rfl

theorem explained_step {maxFailures} (atLeast : 1 ≤ maxFailures) {resetTimeout s t c}
    (explained : Explained maxFailures resetTimeout s) (took : step s c = some t) :
    Explained maxFailures resetTimeout t ∧ Transition maxFailures resetTimeout s c t := by
  obtain ⟨⟨failures, max, state, last, reset, successes⟩, history, clock⟩ := s
  obtain ⟨now, failed, later⟩ := c
  obtain ⟨⟨rfl, rfl⟩, runs⟩ := explained
  unfold step at took
  split at took
  case isFalse => cases took
  case isTrue ordered =>
  cases state with
  | closed =>
    dsimp only at *
    obtain ⟨count, below⟩ := runs
    rw [call_closed] at took
    cases took
    cases failed with
    | false =>
      refine ⟨⟨⟨rfl, rfl⟩, rfl, atLeast⟩, fun _ => ?_, nofun, fun out => absurd rfl out⟩
      exact ⟨fun out => absurd rfl out, fun full => absurd full (by simp [consecutive]; omega)⟩
    | true =>
      have longer : consecutive (⟨.closed, true, later⟩ :: history) = failures + 1 := by
        simp [consecutive, count]
      by_cases full : max ≤ failures + 1
      · refine ⟨⟨⟨rfl, rfl⟩, ?_⟩, fun _ => ?_, nofun, fun out => absurd rfl out⟩
        · simp [full]
        · have came : failures + 1 = max := by omega
          simp [longer, came]
      · have short : failures + 1 < max := by omega
        refine ⟨⟨⟨rfl, rfl⟩, ?_⟩, fun _ => ?_, nofun, fun out => absurd rfl out⟩
        · simp [full, longer, short]
        · simp [full, longer, Nat.ne_of_lt short]
  | opened =>
    dsimp only at *
    obtain ⟨past, mode, pre, rfl⟩ := runs
    rw [call_opened] at took
    split at took
    next waited =>
      have elapsed : reset < now - last := by
        unfold GoTime.sub GoTime.minDuration GoTime.maxDuration at waited
        omega
      rw [call_halfOpen] at took
      cases took
      -- the last run before this one failed, so this one is at most the first success
      have recovers : ∀ res, ¬Recovered (⟨.halfOpen, res, later⟩ :: ⟨mode, true, last⟩ :: pre) :=
        fun res => by simp [Recovered]
      cases failed with
      | false =>
        exact ⟨⟨⟨rfl, rfl⟩, rfl, _, _, rfl⟩, nofun, fun _ _ => ⟨_, _, _, rfl, elapsed⟩,
          fun _ => iff_of_false nofun (recovers false)⟩
      | true =>
        exact ⟨⟨⟨rfl, rfl⟩, Int.le_refl _, _, _, rfl⟩, nofun,
          fun _ _ => ⟨_, _, _, rfl, elapsed⟩, fun _ => iff_of_false nofun (recovers true)⟩
    · cases took
      have kept := Int.le_trans past (Int.le_trans ordered.1 ordered.2)
      refine ⟨⟨⟨rfl, rfl⟩, kept, _, _, rfl⟩, nofun, fun _ changed => absurd rfl changed,
        fun _ => ?_⟩
      simp [Recovered]
  | halfOpen =>
    dsimp only at *
    obtain ⟨rfl, time, pre, rfl⟩ := runs
    rw [call_halfOpen] at took
    cases took
    cases failed with
    | false =>
      refine ⟨⟨⟨rfl, rfl⟩, rfl, atLeast⟩, nofun, nofun, fun _ => ?_⟩
      simp [Recovered]
    | true =>
      refine ⟨⟨⟨rfl, rfl⟩, Int.le_refl _, _, _, rfl⟩, nofun, nofun, fun _ => ?_⟩
      simp [Recovered]

end AsyncPractice.Example12CircuitBreaker
