import AsyncPractice.GoMap
import AsyncPractice.Runs

/- ReliableEventBus of solution17_event_bus.go. The calls of Publish run one after another; what
the handlers do in a call is part of the call. -/
namespace AsyncPractice.EventBus

open List Runs

/-- The bus reads no other field of an event. -/
structure Event where
  id : String
  type : String
  deriving DecidableEq

inductive Outcome
  | returned (err : Option String)
  | panicked (value : String)

def safeExecute : Outcome → Option String
  | .returned err => err
  | .panicked value => some ("panic recovered: " ++ value)

structure ReliableEventBus (H : Type) where
  subscribers : GoMap String (List H)
  processedIDs : GoMap String Int
  processed : Int64
  failed : Int64
  duplicates : Int64

variable {H : Type}

def newReliableEventBus : ReliableEventBus H := ⟨∅, ∅, 0, 0, 0⟩

def historyTTL : Int := 3600 * 10 ^ 9

def ReliableEventBus.handlers (eb : ReliableEventBus H) (eventType : String) : List H :=
  (eb.subscribers.lookup eventType).getD []

/-- The check for a duplicate compares the addresses of two variables and never finds one. -/
def subscribe (eb : ReliableEventBus H) (eventType : String) (handler : H) :
    ReliableEventBus H :=
  { eb with subscribers := eb.subscribers.insert eventType (eb.handlers eventType ++ [handler]) }

/-- A call of Publish, with the clock it reads and how each handler ends. -/
structure PublishCall where
  event : Event
  now : Int
  outcome : Nat → Outcome

/-- The errors that arrive on the channel, up to their order. -/
def errorsOf (eb : ReliableEventBus H) (call : PublishCall) : List String :=
  (List.range (eb.handlers call.event.type).length).filterMap fun i => safeExecute (call.outcome i)

def publish (eb : ReliableEventBus H) (call : PublishCall) :
    ReliableEventBus H × Except String Unit :=
  if (eb.processedIDs.lookup call.event.id).isSome then
    ({ eb with duplicates := eb.duplicates + 1 }, .ok ())
  else
    let stored := { eb with processedIDs := eb.processedIDs.insert call.event.id call.now }
    let handlers := eb.handlers call.event.type
    if handlers.length = 0 then (stored, .ok ())
    else
      let errors := errorsOf eb call
      let counted := { stored with
        failed := stored.failed + .ofNat errors.length
        processed := stored.processed + .ofNat (handlers.length - errors.length) }
      if 0 < errors.length then
        (counted, .error
          ("failed to process event for " ++ toString errors.length ++ " handlers"))
      else (counted, .ok ())

/-- One pass of the loop in cleanupHistory, over the IDs in any order. -/
def cleanupPass (eb : ReliableEventBus H) (now : Int) (order : List String) :
    ReliableEventBus H :=
  { eb with
    processedIDs := order.foldl (fun ids id =>
      if (eb.processedIDs.lookup id).any (· < now - historyTTL) then ids.erase id else ids)
      eb.processedIDs }

/-- Every handler subscribed to the event's type was run by the call and returned no error. -/
def Handled (eb : ReliableEventBus H) (call : PublishCall) : Prop :=
  eb.processedIDs.lookup call.event.id = none ∧
    ∀ i < (eb.handlers call.event.type).length, safeExecute (call.outcome i) = none

instance (eb : ReliableEventBus H) (call : PublishCall) : Decidable (Handled eb call) :=
  inferInstanceAs (Decidable (_ ∧ _))

/-- The bus, the events that some call handled, and the events with handlers that some call
reported as processed. -/
structure State (H : Type) where
  bus : ReliableEventBus H
  handled : List Event
  reported : List Event

inductive Op
  | publish (call : PublishCall)
  | cleanup (now : Int) (order : List String)

def start (subscriptions : List (String × H)) : State H :=
  ⟨subscriptions.foldl (fun eb subscription => subscribe eb subscription.1 subscription.2)
    newReliableEventBus, [], []⟩

def step (s : State H) : Op → Option (State H)
  | .publish call =>
    let handlers := s.bus.handlers call.event.type
    some {
      bus := (publish s.bus call).1
      handled := s.handled ++ if Handled s.bus call then [call.event] else []
      reported := s.reported ++
        if (publish s.bus call).2.isOk ∧ 0 < handlers.length then [call.event] else [] }
  | .cleanup now order =>
    if GoMap.Ranges order s.bus.processedIDs then
      some { s with bus := cleanupPass s.bus now order }
    else none

/-- Publish returned nil only for events that were handled. -/
def Honest (s : State H) : Prop := ∀ event ∈ s.reported, event ∈ s.handled

/-- An event that is taken for a duplicate, and has handlers, was handled before. -/
def RepeatsHandled (s : State H) : Op → Prop
  | .publish call => (s.bus.processedIDs.lookup call.event.id).isSome →
      0 < (s.bus.handlers call.event.type).length → call.event ∈ s.handled
  | .cleanup _ _ => True

variable {s t : State H} {eb : ReliableEventBus H} {c : PublishCall}

theorem errorsOf_eq_nil_iff :
    errorsOf eb c = [] ↔
      ∀ i < (eb.handlers c.event.type).length, safeExecute (c.outcome i) = none := by
  simp [errorsOf, filterMap_eq_nil_iff]

theorem publish_isOk_iff :
    (publish eb c).2.isOk = true ↔ (eb.processedIDs.lookup c.event.id).isSome ∨
        (eb.handlers c.event.type).length = 0 ∨ errorsOf eb c = [] := by
  unfold publish
  split
  next duplicate =>
    simp [duplicate, Except.isOk, Except.toBool]
  next new =>
    dsimp only
    split
    next unheard =>
      simp [unheard, Except.isOk, Except.toBool]
    next heard =>
      split
      next failed =>
        have some : errorsOf eb c ≠ [] := length_pos_iff.mp failed
        simp [new, heard, some, Except.isOk, Except.toBool]
      next fine =>
        have none : errorsOf eb c = [] :=
          length_eq_zero_iff.mp (Nat.eq_zero_of_not_pos fine)
        simp [none, Except.isOk, Except.toBool]

theorem step_honest {op} (honest : Honest s) (repeats : RepeatsHandled s op)
    (took : step s op = some t) : Honest t := by
  cases op with
  | cleanup now order =>
    obtain ⟨-, rfl⟩ := guard_some.mp took
    exact honest
  | publish c =>
    cases took
    intro e mem
    rcases mem_append.mp mem with old | new
    · exact mem_append_left _ (honest e old)
    · split at new
      next reported =>
        obtain rfl := mem_singleton.mp new
        rcases publish_isOk_iff.mp reported.1 with duplicate | unheard | fine
        · exact mem_append_left _ (repeats duplicate reported.2)
        · omega
        · by_cases seen : (s.bus.processedIDs.lookup c.event.id).isSome
          · exact mem_append_left _ (repeats seen reported.2)
          · have handled : Handled s.bus c :=
              ⟨Option.not_isSome_iff_eq_none.mp seen, errorsOf_eq_nil_iff.mp fine⟩
            simp [handled]
      · cases new

theorem repeatsHandled_of_honest {op} (good : ∀ t, step s op = some t → Honest t) :
    RepeatsHandled s op := by
  cases op with
  | cleanup now order => trivial
  | publish c =>
    intro duplicate heard
    have ok : (publish s.bus c).2.isOk = true := publish_isOk_iff.mpr (.inl duplicate)
    have honest := good _ rfl c.event (by simp [ok, heard])
    have unhandled : ¬Handled s.bus c := by
      rintro ⟨new, -⟩
      rw [new] at duplicate
      cases duplicate
    simpa [unhandled] using honest

/-- Whatever the handlers do, every nil that Publish returns for an event with handlers stands for
a call that handled it exactly when no event is taken for a duplicate before it was handled. -/
theorem reports_honest_iff (subscriptions : List (String × H)) (ops : List Op) :
    Throughout step Honest (start subscriptions) ops ↔
      Along step RepeatsHandled (start subscriptions) ops := by
  refine throughout_iff_along Honest ?_ (fun _ honest => honest) (fun _ => True)
    (fun _ _ _ honest _ repeats stepped => step_honest honest repeats stepped)
    (fun _ _ _ _ good => repeatsHandled_of_honest good) (fun _ _ => trivial)
  intro event member
  cases member

/-- The only handler fails; the retry is taken for a duplicate and reported as processed. -/
theorem retry_after_failure_reported :
    ((exec step (start [("t", ())])
        [.publish ⟨⟨"e", "t"⟩, 0, fun _ => .returned (some "down")⟩,
          .publish ⟨⟨"e", "t"⟩, 1, fun _ => .returned none⟩]).map
      fun s => (s.handled, s.reported)) = some ([], [⟨"e", "t"⟩]) := by
  decide +kernel

end AsyncPractice.EventBus
