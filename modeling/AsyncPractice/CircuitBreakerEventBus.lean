import AsyncPractice.ReliableEventBus
import AsyncPractice.MachineInt
import AsyncPractice.Pool

/- CircuitBreakerEventBus of solution17_event_bus.go, with its dead letter queue. Here one call
runs at a time. -/
namespace AsyncPractice.EventBreaker

section

open List

open EventBus (Outcome)

structure Event extends EventBus.Event where
  retryCount : Int64
  maxRetries : Int64

inductive BreakerState
  | closed
  | opened
  | halfOpen
  deriving DecidableEq

structure CircuitBreaker where
  failures : Int64
  lastFailTime : Int
  state : BreakerState
  maxFailures : Int64
  cooldownTime : Int
  deriving DecidableEq

namespace CircuitBreaker

def allow (cb : CircuitBreaker) (now : Int) : CircuitBreaker × Bool :=
  match cb.state with
  | .closed => (cb, true)
  | .opened =>
    if now - cb.lastFailTime > cb.cooldownTime then ({ cb with state := .halfOpen }, true)
    else (cb, false)
  | .halfOpen => (cb, cb.failures < cb.maxFailures / 2)

def recordFailure (cb : CircuitBreaker) (now : Int) : CircuitBreaker :=
  let failures := cb.failures + 1
  { cb with
    failures
    lastFailTime := now
    state := if failures ≥ cb.maxFailures then .opened else cb.state }

def recordSuccess (cb : CircuitBreaker) : CircuitBreaker :=
  match cb.state with
  | .halfOpen => { cb with state := .closed, failures := 0 }
  | _ => cb

end CircuitBreaker

structure CircuitBreakerEventBus (H : Type) where
  subscribers : GoMap String (List H)
  circuitBreakers : GoMap String CircuitBreaker
  dlq : List Event

variable {H : Type}

def newCircuitBreakerEventBus : CircuitBreakerEventBus H := ⟨∅, ∅, []⟩

def newCircuitBreaker : CircuitBreaker := ⟨0, 0, .closed, 5, 30 * 10 ^ 9⟩

def CircuitBreakerEventBus.handlers (eb : CircuitBreakerEventBus H) (eventType : String) :
    List H :=
  (eb.subscribers.lookup eventType).getD []

def subscribe (eb : CircuitBreakerEventBus H) (eventType : String) (handler : H) :
    CircuitBreakerEventBus H :=
  { eb with
    subscribers := eb.subscribers.insert eventType (eb.handlers eventType ++ [handler])
    circuitBreakers :=
      if (eb.circuitBreakers.lookup eventType).isSome then eb.circuitBreakers
      else eb.circuitBreakers.insert eventType newCircuitBreaker }

def executeWithRecovery : Outcome → Option String
  | .returned err => err
  | .panicked value => some ("panic: " ++ value)

inductive PublishError
  | breakerOpen (eventType : String)
  | allFailed

def PublishError.text : PublishError → String
  | .breakerOpen eventType => "circuit breaker open for event type " ++ eventType
  | .allFailed => "all handlers failed"

/-- The clock as the breaker reads it in one call of Publish, and how each handler ends. -/
structure Attempt where
  allowed : Int
  outcome : Nat → Outcome
  recorded : Int

def failureCount (handlers : List H) (attempt : Attempt) : Nat :=
  (List.range handlers.length).countP fun i =>
    (executeWithRecovery (attempt.outcome i)).isSome

/-- What Publish returns once the handlers are done. -/
def result (handlers : List H) (attempt : Attempt) : Except PublishError Unit :=
  let failures := failureCount handlers attempt
  if 0 < failures ∧ handlers.length - failures = 0 then .error .allFailed else .ok ()

def CircuitBreaker.record (cb : CircuitBreaker) (handlers : List H) (attempt : Attempt) :
    CircuitBreaker :=
  let failures := failureCount handlers attempt
  if 0 < failures then cb.recordFailure attempt.recorded
  else if 0 < handlers.length - failures then cb.recordSuccess
  else cb

def publish (eb : CircuitBreakerEventBus H) (event : Event) (attempt : Attempt) :
    CircuitBreakerEventBus H × Except PublishError Unit :=
  let handlers := eb.handlers event.type
  if handlers.length = 0 then (eb, .ok ())
  else
    match eb.circuitBreakers.lookup event.type with
    | none => (eb, result handlers attempt)
    | some cb =>
      let allowed := cb.allow attempt.allowed
      if allowed.2 then
        let recorded := allowed.1.record handlers attempt
        ({ eb with circuitBreakers := eb.circuitBreakers.insert event.type recorded },
          result handlers attempt)
      else
        ({ eb with
            circuitBreakers := eb.circuitBreakers.insert event.type allowed.1
            dlq := eb.dlq ++ [event] }, .error (.breakerOpen event.type))

/-- What becomes of an entry of the dead letter queue. -/
inductive Fate
  | discarded
  | published
  | failed
  | refused
  deriving DecidableEq

def Fate.ofResult : Except PublishError Unit → Fate
  | .ok () => .published
  | .error .allFailed => .failed
  | .error (.breakerOpen _) => .refused

def reprocess (eb : CircuitBreakerEventBus H) (event : Event) (attempt : Attempt) :
    CircuitBreakerEventBus H × Fate :=
  let event := { event with retryCount := event.retryCount + 1 }
  if event.retryCount ≤ event.maxRetries then
    let published := publish eb event attempt
    match published.2 with
    | .ok () => (published.1, .published)
    | .error err =>
      ({ published.1 with dlq := published.1.dlq ++ [event] }, .ofResult (.error err))
  else (eb, .discarded)

/-- The loop, with what became of each entry. Entry `i` is published by the attempt `i`. -/
def reprocessAll (attempts : Nat → Attempt) :
    Nat → List Event → CircuitBreakerEventBus H → CircuitBreakerEventBus H × List (Event × Fate)
  | _, [], eb => (eb, [])
  | i, event :: events, eb =>
    let done := reprocess eb event (attempts i)
    let rest := reprocessAll attempts (i + 1) events done.1
    (rest.1, (event, done.2) :: rest.2)

def processDLQ (eb : CircuitBreakerEventBus H) (attempts : Nat → Attempt) :
    CircuitBreakerEventBus H × List (Event × Fate) :=
  reprocessAll attempts 0 eb.dlq { eb with dlq := [] }

def occurrences (id : String) (dlq : List Event) : Nat := dlq.countP (·.id = id)

/-- The entries of an ID that the breaker refused. -/
def refusals (id : String) (fates : List (Event × Fate)) : Nat :=
  fates.countP fun entry => entry.1.id = id ∧ entry.2 = .refused

/-- The entries of an ID that left the queue for good. -/
def departures (id : String) (fates : List (Event × Fate)) : Nat :=
  fates.countP fun entry => entry.1.id = id ∧ (entry.2 = .discarded ∨ entry.2 = .published)

variable (eb : CircuitBreakerEventBus H)

theorem publish_dlq (e attempt) :
    (publish eb e attempt).1.dlq =
      eb.dlq ++ if .ofResult (publish eb e attempt).2 = Fate.refused then [e] else [] := by
  have unrefused : ∀ handlers : List H, Fate.ofResult (result handlers attempt) ≠ .refused := by
    intro handlers
    unfold result
    dsimp only
    split <;> simp [Fate.ofResult]
  unfold publish
  dsimp only
  split
  · simp [Fate.ofResult]
  · split
    · simp [unrefused]
    · split
      · simp [unrefused]
      · simp [Fate.ofResult]

def Fate.copies : Fate → Nat
  | .discarded => 0
  | .published => 0
  | .failed => 1
  | .refused => 2

theorem reprocess_dlq (e attempt) :
    (reprocess eb e attempt).1.dlq = eb.dlq ++ List.replicate (reprocess eb e attempt).2.copies
        { e with retryCount := e.retryCount + 1 } := by
  unfold reprocess
  dsimp only
  split
  · have queued := publish_dlq eb { e with retryCount := e.retryCount + 1 } attempt
    split
    next returned =>
      rw [queued, returned]
      simp [Fate.ofResult, Fate.copies]
    next err returned =>
      rw [queued, returned]
      cases err <;> simp [Fate.ofResult, Fate.copies, replicate]
  · simp [Fate.copies]

theorem occurrences_reprocess (id e attempt) :
    occurrences id (reprocess eb e attempt).1.dlq = occurrences id eb.dlq +
        if e.id = id then (reprocess eb e attempt).2.copies else 0 := by
  rw [reprocess_dlq]
  simp [occurrences, countP_append, countP_replicate]

/-- Every entry comes back once, a refused one once more, a departed one not at all. -/
theorem occurrences_reprocessAll (attempts) (id : String) (es) (i : Nat)
    (eb : CircuitBreakerEventBus H) :
    occurrences id (reprocessAll attempts i es eb).1.dlq +
        departures id (reprocessAll attempts i es eb).2 =
      occurrences id eb.dlq + occurrences id es +
        refusals id (reprocessAll attempts i es eb).2 := by
  induction es generalizing i eb with
  | nil => simp [reprocessAll, departures, refusals, occurrences]
  | cons e es ih =>
    have turn := occurrences_reprocess eb id e (attempts i)
    have rest := ih (i + 1) (reprocess eb e (attempts i)).1
    simp only [reprocessAll, departures, refusals, countP_cons] at rest ⊢
    rw [turn] at rest
    rw [show occurrences id (e :: es) =
      occurrences id es + if e.id = id then 1 else 0 by simp [occurrences, countP_cons]]
    by_cases same : e.id = id
    · cases fate : (reprocess eb e (attempts i)).2 <;>
        simp [same, fate, Fate.copies] at rest ⊢ <;> omega
    · simp [same] at rest ⊢
      omega

end

/- Concurrent calls of Publish on a CircuitBreakerEventBus. Every atomic load, store and add of
the breaker is a step of its own, and so is the write of the last failure time, which waits until
no call is inside Allow. -/
open Option List Runs

/-- What a call of Publish does next. -/
inductive Phase
  | allowing
  | sawOpen
  | storing
  | sawHalfOpen
  | refused
  | running
  | failing
  | stamping (failures : Int64)
  | opening (failures : Int64)
  | succeeding
  | closing
  | resetting
  | done
  deriving DecidableEq

def Phase.inAllow : Phase → Bool
  | .sawOpen | .storing | .sawHalfOpen => true
  | _ => false

structure Call where
  event : Event
  phase : Phase

structure State (H : Type) where
  bus : CircuitBreakerEventBus H
  calls : List Call
  now : Int

inductive Act
  | begin (event : Event)
  | tick (elapsed : Nat)
  /-- The next step of a call; `failed` tells whether a handler failed. -/
  | advance (i : Nat) (failed : Bool)

def turn (cb : CircuitBreaker) (now : Int) (unlocked failed : Bool) :
    Phase → Option (CircuitBreaker × Phase)
  | .allowing => some (cb, match cb.state with
      | .closed => .running
      | .opened => .sawOpen
      | .halfOpen => .sawHalfOpen)
  | .sawOpen => some (cb, if now - cb.lastFailTime > cb.cooldownTime then .storing else .refused)
  | .storing => some ({ cb with state := .halfOpen }, .running)
  | .sawHalfOpen => some (cb, if cb.failures < cb.maxFailures / 2 then .running else .refused)
  | .refused => some (cb, .done)
  | .running => some (cb, if failed then .failing else .succeeding)
  | .failing => some ({ cb with failures := cb.failures + 1 }, .stamping (cb.failures + 1))
  | .stamping failures =>
    if unlocked then some ({ cb with lastFailTime := now }, .opening failures) else none
  | .opening failures =>
    some (if failures ≥ cb.maxFailures then { cb with state := .opened } else cb, .done)
  | .succeeding => some (cb, if cb.state = .halfOpen then .closing else .done)
  | .closing => some ({ cb with state := .closed }, .resetting)
  | .resetting => some ({ cb with failures := 0 }, .done)
  | .done => none

variable {H : Type}

def step (s : State H) : Act → Option (State H)
  | .begin event =>
    -- Without handlers Publish returns at once.
    if (s.bus.handlers event.type).length = 0 then some s
    else some { s with calls := s.calls ++ [⟨event, .allowing⟩] }
  | .tick elapsed => some { s with now := s.now + elapsed }
  | .advance i failed =>
    s.calls[i]?.bind fun call => (s.bus.circuitBreakers.lookup call.event.type).bind fun cb =>
      let unlocked := s.calls.all fun other =>
        !(other.event.type = call.event.type && other.phase.inAllow)
      (turn cb s.now unlocked failed call.phase).map fun (cb, phase) =>
        { s with
          bus := { s.bus with
            circuitBreakers := s.bus.circuitBreakers.insert call.event.type cb
            dlq := s.bus.dlq ++ if call.phase = .refused then [call.event] else [] }
          calls := s.calls.set i { call with phase } }

def start (subscriptions : List (String × H)) (now : Int) : State H :=
  ⟨subscriptions.foldl (fun eb subscription => subscribe eb subscription.1 subscription.2)
    newCircuitBreakerEventBus, [], now⟩

/-- The write a call is about to make is not behind the times: it does not make a closed breaker
half open, open one whose failures were reset, or reset the failures of one that is not closed;
and the counter has room. -/
def Timely (cb : CircuitBreaker) : Phase → Prop
  | .storing => cb.state ≠ .closed
  | .opening failures => cb.maxFailures ≤ failures → cb.maxFailures ≤ cb.failures
  | .resetting => cb.state = .closed
  | .failing => cb.failures.toInt < 2 ^ 63 - 1
  | _ => True

def ActsTimely (s : State H) : Act → Prop
  | .advance i _ => ∀ call, s.calls[i]? = some call →
      ∀ cb, s.bus.circuitBreakers.lookup call.event.type = some cb → Timely cb call.phase
  | _ => True

/-- A call in this phase will bring a half-open breaker into another state. -/
def Answers (maxFailures : Int64) : Phase → Prop
  | .running | .failing | .succeeding | .closing => True
  | .stamping failures => maxFailures ≤ failures
  | .opening failures => maxFailures ≤ failures
  | _ => False

/-- A breaker that is not closed has its failures, and one that is half open a call that answers
for it. -/
structure Attended (calls : List Call) (eventType : String) (cb : CircuitBreaker) : Prop where
  counted : cb.state ≠ .closed → cb.maxFailures ≤ cb.failures
  answered : cb.state = .halfOpen →
    ∃ call ∈ calls, call.event.type = eventType ∧ Answers cb.maxFailures call.phase

def AllAttended (s : State H) : Prop :=
  ∀ eventType cb, s.bus.circuitBreakers.lookup eventType = some cb →
    Attended s.calls eventType cb

variable {s t : State H} {cb after : CircuitBreaker} {phase later : Phase} {now : Int}
  {unlocked failed : Bool}

theorem le_add_one {failures bound : Int64} (room : failures.toInt < 2 ^ 63 - 1)
    (came : bound ≤ failures) : bound ≤ failures + 1 := by
  rw [Int64.le_iff_toInt_le] at came ⊢
  rw [MachineInt.toInt_add_one room]
  omega

theorem turn_maxFailures (turned : turn cb now unlocked failed phase = some (after, later)) :
    after.maxFailures = cb.maxFailures := by
  cases phase <;> simp only [turn, some.injEq, Prod.mk.injEq, reduceCtorEq] at turned
  case stamping failures =>
      obtain ⟨-, turned⟩ := ite_none_right_eq_some.mp turned
      simp only [some.injEq, Prod.mk.injEq] at turned
      rw [← turned.1]
  case opening failures =>
      rw [← turned.1]
      split <;> rfl
  all_goals rw [← turned.1]

/-- A step of a call that does not answer leaves a breaker it does not change to the others. -/
theorem attended_of_silent (cnt : cb.state ≠ .closed → cb.maxFailures ≤ cb.failures)
    (unchanged : cb = after) (silent : ¬Answers cb.maxFailures phase) :
    (after.state ≠ .closed → cb.maxFailures ≤ after.failures) ∧
      (after.state = .halfOpen → Answers cb.maxFailures later ∨
        cb.state = .halfOpen ∧ ¬Answers cb.maxFailures phase) := by
  subst unchanged
  exact ⟨cnt, fun half => .inr ⟨half, silent⟩⟩

/-- Only an answering call leaves the half-open state, or answers itself afterwards. -/
theorem turn_attended (cnt : cb.state ≠ .closed → cb.maxFailures ≤ cb.failures)
    (timely : Timely cb phase) (turned : turn cb now unlocked failed phase = some (after, later)) :
    (after.state ≠ .closed → cb.maxFailures ≤ after.failures) ∧
      (after.state = .halfOpen → Answers cb.maxFailures later ∨
        cb.state = .halfOpen ∧ ¬Answers cb.maxFailures phase) := by
  cases phase with
  | allowing | sawOpen | sawHalfOpen | refused =>
    simp only [turn, some.injEq, Prod.mk.injEq] at turned
    exact attended_of_silent cnt turned.1 id
  | storing =>
    obtain ⟨rfl, rfl⟩ := turned
    exact ⟨fun _ => cnt timely, fun _ => .inl trivial⟩
  | running =>
    obtain ⟨rfl, rfl⟩ := turned
    refine ⟨cnt, fun _ => Or.inl ?_⟩
    cases failed <;> trivial
  | failing =>
    obtain ⟨rfl, rfl⟩ := turned
    refine ⟨fun away => le_add_one timely (cnt away), fun half => Or.inl ?_⟩
    have away : cb.state ≠ .closed := by
      rw [show cb.state = .halfOpen from half]
      decide
    exact le_add_one timely (cnt away)
  | stamping failures =>
    obtain ⟨-, turned⟩ := ite_none_right_eq_some.mp turned
    obtain ⟨rfl, rfl⟩ := turned
    refine ⟨cnt, fun half => ?_⟩
    by_cases enough : cb.maxFailures ≤ failures
    · exact .inl enough
    · exact .inr ⟨half, enough⟩
  | opening failures =>
    obtain ⟨rfl, rfl⟩ := turned
    split
    next enough =>
      exact ⟨fun _ => timely enough, fun half => by cases half⟩
    next few =>
      exact ⟨cnt, fun half => .inr ⟨half, few⟩⟩
  | succeeding =>
    obtain ⟨rfl, rfl⟩ := turned
    refine ⟨cnt, fun half => Or.inl ?_⟩
    rw [if_pos half]
    trivial
  | closing =>
    obtain ⟨rfl, -⟩ := turned
    exact ⟨fun away => absurd rfl away, fun half => by cases half⟩
  | resetting =>
    obtain ⟨rfl, -⟩ := turned
    have closed : cb.state = .closed := timely
    refine ⟨fun away => absurd closed away, fun half => ?_⟩
    rw [show cb.state = .halfOpen from half] at closed
    cases closed
  | done => cases turned

theorem advance_inv {i} (took : step s (.advance i failed) = some t) :
    ∃ c cb after later unlocked, s.calls[i]? = some c ∧
      s.bus.circuitBreakers.lookup c.event.type = some cb ∧
      turn cb s.now unlocked failed c.phase = some (after, later) ∧
      t.bus.circuitBreakers = s.bus.circuitBreakers.insert c.event.type after ∧
      t.calls = s.calls.set i ⟨c.event, later⟩ := by
  simp only [step, bind_eq_some_iff, map_eq_some_iff] at took
  obtain ⟨c, here, cb, hit, ⟨after, later⟩, turned, rfl⟩ := took
  exact ⟨c, cb, after, later, _, here, hit, turned, rfl, rfl⟩

theorem step_attended {act} (inv : AllAttended s) (timely : ActsTimely s act)
    (took : step s act = some t) : AllAttended t := by
  cases act with
  | begin e =>
    simp only [step] at took
    split at took
    · exact some.inj took ▸ inv
    · cases took
      intro eventType cb found
      obtain ⟨cnt, answered⟩ := inv eventType cb found
      refine ⟨cnt, fun half => ?_⟩
      obtain ⟨c, mem, answers⟩ := answered half
      exact ⟨c, mem_append_left _ mem, answers⟩
  | tick elapsed => exact some.inj took ▸ inv
  | advance i failed =>
    obtain ⟨c, cb, after, later, unlocked, here, found, turned, breakers, cs⟩ :=
      advance_inv took
    obtain ⟨cnt, answered⟩ := inv c.event.type cb found
    have kept := turn_maxFailures turned
    obtain ⟨counted', answered'⟩ := turn_attended cnt (timely c here cb found) turned
    have moved : (⟨c.event, later⟩ : Call) ∈ t.calls := by
      rw [cs]
      exact Pool.mem_moved here
    intro eventType x hit
    rw [breakers] at hit
    rcases GoMap.lookup_insert_cases hit with ⟨rfl, rfl⟩ | ⟨elsewhere, hit⟩
    · rw [← kept] at counted' answered'
      refine ⟨counted', fun half => ?_⟩
      rcases answered' half with answers | ⟨pre, silent⟩
      · exact ⟨_, moved, rfl, answers⟩
      · obtain ⟨witness, mem, eq, answers⟩ := answered pre
        rw [← kept] at answers
        refine ⟨witness, ?_, eq, answers⟩
        rw [cs]
        apply Pool.mem_of_ne here mem
        rintro rfl
        exact silent answers
    · obtain ⟨cnt, answered⟩ := inv eventType x hit
      refine ⟨cnt, fun half => ?_⟩
      obtain ⟨witness, mem, eq, answers⟩ := answered half
      refine ⟨witness, ?_, eq, answers⟩
      rw [cs]
      apply Pool.mem_of_ne here mem
      rintro rfl
      exact elsewhere eq.symm

theorem start_attended (subscriptions : List (String × H)) (now) :
    AllAttended (start subscriptions now) := by
  have closed : ∀ eventType cb, (start subscriptions now).bus.circuitBreakers.lookup eventType =
      some cb → cb.state = .closed := by
    unfold start
    induction subscriptions using reverseRecOn with
    | nil =>
      intro eventType cb hit
      cases hit
    | append_singleton subscriptions subscription ih =>
      intro eventType cb hit
      rw [foldl_concat, subscribe] at hit
      split at hit
      · exact ih eventType cb hit
      · rcases GoMap.lookup_insert_cases hit with ⟨-, rfl⟩ | ⟨-, hit⟩
        · rfl
        · exact ih eventType cb hit
  intro eventType cb hit
  have s := closed eventType cb hit
  exact ⟨fun away => absurd s away, fun half => by rw [s] at half; cases half⟩

/-- In every state without a call in progress, reached by calls whose writes were all timely, each
breaker lets a call through after some delay. -/
theorem allow_after_delay {subscriptions : List (String × H)} {now : Int} {acts : List Act}
    {s : State H} (run : exec step (start subscriptions now) acts = some s)
    (timely : Along step ActsTimely (start subscriptions now) acts)
    (idle : ∀ call ∈ s.calls, call.phase = .done) {eventType : String} {cb : CircuitBreaker}
    (found : s.bus.circuitBreakers.lookup eventType = some cb) :
    ∃ delay : Nat, (cb.allow (s.now + delay)).2 = true := by
  have attended : AllAttended s := exec_guarded AllAttended (start_attended subscriptions now)
    (fun _ _ _ held met stepped => step_attended held met stepped) run timely
  cases state : cb.state with
  | closed => exact ⟨0, by simp [CircuitBreaker.allow, state]⟩
  | opened =>
    refine ⟨(cb.cooldownTime + cb.lastFailTime - s.now + 1).toNat, ?_⟩
    have elapsed : cb.cooldownTime < s.now +
        ((cb.cooldownTime + cb.lastFailTime - s.now + 1).toNat : Int) - cb.lastFailTime := by
      omega
    simp only [CircuitBreaker.allow, state]
    rw [if_pos elapsed]
  | halfOpen =>
    obtain ⟨call, member, -, answers⟩ := (attended eventType cb found).answered state
    rw [idle call member] at answers
    cases answers

def failedCall (i : Nat) : List Act :=
  .begin ⟨⟨"e", "t"⟩, 0, 0⟩ :: List.replicate 5 (.advance i true)

def openedByFive : List Act :=
  failedCall 0 ++ failedCall 1 ++ failedCall 2 ++ failedCall 3 ++ failedCall 4

instance (cb : CircuitBreaker) : (phase : Phase) → Decidable (Timely cb phase)
  | .storing => inferInstanceAs (Decidable (_ ≠ _))
  | .opening failures =>
    inferInstanceAs (Decidable (cb.maxFailures ≤ failures → cb.maxFailures ≤ cb.failures))
  | .resetting => inferInstanceAs (Decidable (_ = _))
  | .failing => inferInstanceAs (Decidable (_ < _))
  | .allowing | .sawOpen | .sawHalfOpen | .refused | .running | .stamping _ | .succeeding
  | .closing | .done => inferInstanceAs (Decidable True)

def failedProbe : List Act :=
  .tick (31 * 10 ^ 9) :: .begin ⟨⟨"e", "t"⟩, 0, 0⟩ :: List.replicate 7 (.advance 5 true)

def timelyTest (s : State Unit) : Act → Bool
  | .advance i _ => s.calls[i]?.all fun call =>
    (s.bus.circuitBreakers.lookup call.event.type).all fun cb => Timely cb call.phase
  | _ => true

theorem actsTimely_of_test (s act) (ok : timelyTest s act = true) : ActsTimely s act := by
  cases act with
  | begin e => trivial
  | tick elapsed => trivial
  | advance i failed =>
    intro c here cb hit
    simpa [timelyTest, here, hit] using ok

/-- After a probe that fails while it is alone the breaker is open again, and lets the next call
through after its delay. -/
theorem allow_after_failed_probe :
    ∃ s cb, exec step (start [("t", ())] 0) (openedByFive ++ failedProbe) = some s ∧
      s.bus.circuitBreakers.lookup "t" = some cb ∧ cb.state = .opened ∧
      ∃ delay : Nat, (cb.allow (s.now + delay)).2 = true := by
  obtain ⟨s, run, idle, found⟩ : ∃ s,
      exec step (start [("t", ())] 0) (openedByFive ++ failedProbe) = some s ∧
      (∀ call ∈ s.calls, call.phase = .done) ∧
      s.bus.circuitBreakers.lookup "t" = some ⟨6, 31 * 10 ^ 9, .opened, 5, 30 * 10 ^ 9⟩ :=
    exists_exec_of_decide (by decide +kernel)
  exact ⟨s, _, run, found, rfl, allow_after_delay run
    (along_of_check timelyTest actsTimely_of_test (by decide +kernel)) idle found⟩

def overlappingProbes : List Act :=
  [.tick (31 * 10 ^ 9), .begin ⟨⟨"e", "t"⟩, 0, 0⟩, .begin ⟨⟨"f", "t"⟩, 0, 0⟩,
    -- Both find the delay over and make the breaker half open.
    .advance 5 true, .advance 5 true, .advance 6 true, .advance 6 true,
    .advance 5 true, .advance 6 true,
    -- One fails, and is about to open the breaker while the other one closes it.
    .advance 5 true, .advance 5 true, .advance 5 true,
    .advance 6 false, .advance 6 false, .advance 6 false, .advance 6 false,
    .advance 5 true]

def laterFailures : List Act :=
  .tick (31 * 10 ^ 9) :: .begin ⟨⟨"g", "t"⟩, 0, 0⟩ :: List.replicate 7 (.advance 7 true) ++
    .begin ⟨⟨"h", "t"⟩, 0, 0⟩ :: List.replicate 6 (.advance 8 true)

/-- The breaker is opened again after its failures were reset; the next two failures leave it half
open for good. -/
theorem overlapping_probes_block :
    ∃ s cb, exec step (start [("t", ())] 0) (openedByFive ++ overlappingProbes ++ laterFailures) =
        some s ∧
      (∀ call ∈ s.calls, call.phase = .done) ∧
      s.bus.circuitBreakers.lookup "t" = some cb ∧
      ∀ delay : Nat, (cb.allow (s.now + delay)).2 = false := by
  obtain ⟨s, run, idle, found⟩ : ∃ s, exec step (start [("t", ())] 0)
        (openedByFive ++ overlappingProbes ++ laterFailures) = some s ∧
      (∀ call ∈ s.calls, call.phase = .done) ∧
      s.bus.circuitBreakers.lookup "t" = some ⟨2, 62 * 10 ^ 9, .halfOpen, 5, 30 * 10 ^ 9⟩ :=
    exists_exec_of_decide (by decide +kernel)
  exact ⟨s, _, run, idle, found, fun delay => rfl⟩

end AsyncPractice.EventBreaker
