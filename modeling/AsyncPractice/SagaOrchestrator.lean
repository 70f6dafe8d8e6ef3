import AsyncPractice.Runs

/- The orchestrated saga of solution2_OrchestrationSaga. startSaga, the orchestrator's
event loop, the goroutine that serves one command and the goroutine that compensates one
saga are separate parties; each of their sections between two channel operations or lock
operations is one step. Any buffered command or event may be taken next, which contains
the order of the channels. -/
namespace AsyncPractice.SagaOrchestrator

structure Command where
  id : String
  type : String
  deriving DecidableEq

structure Event where
  id : String
  type : String
  success : Bool
  error : Option String

inductive Status
  | running
  | completed
  | compensating
  | compensated
  deriving DecidableEq

structure SagaState where
  id : String
  currentStep : Nat
  steps : List String
  status : Status
  completedSteps : List String

def completion (cmd : Command) : Event :=
  ⟨cmd.id, cmd.type ++ "_completed", true, none⟩

def inventory (cmd : Command) : Event := completion cmd

def payment (cmd : Command) : Event := completion cmd

/-- `nano` is the UnixNano reading that decides over success. -/
def shipping (cmd : Command) (nano : Int) : Event :=
  if nano.tmod 10 < 3 then
    ⟨cmd.id, cmd.type ++ "_failed", false, some "shipping unavailable"⟩
  else
    completion cmd

def route (cmd : Command) (nano : Int) : Event :=
  match cmd.type with
  | "reserve_inventory" => inventory cmd
  | "release_inventory" => inventory cmd
  | "process_payment" => payment cmd
  | "refund_payment" => payment cmd
  | "ship_order" => shipping cmd nano
  | "cancel_shipping" => shipping cmd nano
  | _ => ⟨cmd.id, "unknown_command", false, some ("unknown command type: " ++ cmd.type)⟩

def compensationSteps : String → Option String
  | "reserve_inventory_completed" => some "release_inventory"
  | "process_payment_completed" => some "refund_payment"
  | "ship_order_completed" => some "cancel_shipping"
  | _ => none

/-- The compensation goroutine of one saga. `remaining` is its loop index plus one, absent
until the goroutine reads the length of CompletedSteps. -/
structure Compensator where
  saga : Nat
  remaining : Option Nat

/-- What an observer of the orchestrator sees, in order. Sagas are named by their address. -/
inductive Action
  | handledFailure (saga : Nat)
  | sentCommand (saga : Nat) (cmd : Command)
  | setStatus (saga : Nat) (status : Status)
  deriving DecidableEq

/-- SagaState values live at addresses below `allocated`; `sagas` maps an ID to the address
of its latest saga, so a second startSaga with one ID leaves the first saga behind.
`starting` are the sagas whose startSaga has yet to send the first command, `serving` the
commands taken by service goroutines. `history` only observes. -/
structure State where
  heap : Nat → SagaState
  allocated : Nat
  sagas : String → Option Nat
  starting : List Nat
  commandBus : List Command
  serving : List Command
  eventBus : List Event
  compensators : List Compensator
  crashed : Bool
  history : List Action

def init : State where
  heap := fun _ => ⟨"", 0, [], .running, []⟩
  allocated := 0
  sagas := fun _ => none
  starting := []
  commandBus := []
  serving := []
  eventBus := []
  compensators := []
  crashed := false
  history := []

def State.steps (s : State) (saga : Nat) : List String := (s.heap saga).steps

def State.store (s : State) (saga : Nat) (value : SagaState) : State :=
  { s with heap := Function.update s.heap saga value }

def State.observe (s : State) (action : Action) : State :=
  { s with history := s.history ++ [action] }

def State.send (s : State) (saga : Nat) (type : String) : State :=
  let cmd : Command := ⟨(s.heap saga).id, type⟩
  { s with commandBus := s.commandBus ++ [cmd] }.observe (.sentCommand saga cmd)

def State.setStatus (s : State) (saga : Nat) (status : Status) : State :=
  (s.store saga { s.heap saga with status := status }).observe (.setStatus saga status)

/-- The section of startSaga under the lock. -/
def startSaga (s : State) (sagaID : String) (steps : List String) : State :=
  { s with
    heap := Function.update s.heap s.allocated ⟨sagaID, 0, steps, .running, []⟩
    allocated := s.allocated + 1
    sagas := Function.update s.sagas sagaID (some s.allocated)
    starting := s.starting ++ [s.allocated] }

/-- The first command. Indexing an empty list of steps panics. -/
def sendFirst (s : State) (saga : Nat) : State :=
  match s.steps saga with
  | [] => { s with crashed := true }
  | first :: _ => s.send saga first

def handleSuccess (s : State) (saga : Nat) (event : Event) : State :=
  let old := s.heap saga
  let s := s.store saga { old with
    completedSteps := old.completedSteps ++ [event.type]
    currentStep := old.currentStep + 1 }
  if inside : old.currentStep + 1 < old.steps.length then
    s.send saga old.steps[old.currentStep + 1]
  else
    s.setStatus saga .completed

def handleFailure (s : State) (saga : Nat) : State :=
  let s := (s.observe (.handledFailure saga)).setStatus saga .compensating
  { s with compensators := s.compensators ++ [⟨saga, none⟩] }

def handleEvent (s : State) (event : Event) : State :=
  match s.sagas event.id with
  | none => s
  | some saga => if event.success then handleSuccess s saga event else handleFailure s saga

/-- One step of the compensation goroutine at position `i`. -/
def compensate (s : State) (i : Nat) (c : Compensator) : State :=
  match c.remaining with
  | none =>
    { s with compensators :=
        s.compensators.set i ⟨c.saga, some (s.heap c.saga).completedSteps.length⟩ }
  | some 0 => { s with compensators := s.compensators.eraseIdx i }.setStatus c.saga .compensated
  | some (index + 1) =>
    let s' := { s with compensators := s.compensators.set i ⟨c.saga, some index⟩ }
    match (s.heap c.saga).completedSteps[index]?.bind compensationSteps with
    | none => s'
    | some compCmd => s'.send c.saga compCmd

inductive Label
  | startSaga (sagaID : String) (steps : List String)
  | sendFirst (i : Nat)
  | takeCommand (i : Nat)
  | reply (i : Nat) (nano : Int)
  | takeEvent (i : Nat)
  | compensate (i : Nat)

def advance (s : State) : Label → Option State
  | .startSaga sagaID steps => some (startSaga s sagaID steps)
  | .sendFirst i => do
      let saga ← s.starting[i]?
      some (sendFirst { s with starting := s.starting.eraseIdx i } saga)
  | .takeCommand i => do
      let cmd ← s.commandBus[i]?
      some { s with commandBus := s.commandBus.eraseIdx i, serving := s.serving ++ [cmd] }
  | .reply i nano => do
      let cmd ← s.serving[i]?
      some { s with
        serving := s.serving.eraseIdx i
        eventBus := s.eventBus ++ [route cmd nano] }
  | .takeEvent i => do
      let event ← s.eventBus[i]?
      some (handleEvent { s with eventBus := s.eventBus.eraseIdx i } event)
  | .compensate i => do
      let c ← s.compensators[i]?
      some (compensate s i c)

def step (s : State) (label : Label) : Option State :=
  if s.crashed then none else advance s label

/-- After a failure of a saga was handled, no command among its own steps is sent for it and
its status is not set to completed. -/
def NeverResumes (s : State) : Prop :=
  ∀ before saga after, s.history = before ++ .handledFailure saga :: after →
    (∀ cmd, .sentCommand saga cmd ∈ after → cmd.type ∉ s.steps saga) ∧
      .setStatus saga .completed ∉ after

section

open List

def Action.saga : Action → Nat
  | handledFailure saga => saga
  | sentCommand saga _ => saga
  | setStatus saga _ => saga

/-- The actions a saga must not show once it has failed. -/
def Action.Resumes (steps : Nat → List String) : Action → Prop
  | sentCommand saga cmd => cmd.type ∈ steps saga
  | setStatus _ status => status = .completed
  | handledFailure _ => False

def Clean (steps : Nat → List String) (history : List Action) : Prop :=
  ∀ before saga after, history = before ++ .handledFailure saga :: after →
    ∀ action ∈ after, action.saga = saga → ¬ action.Resumes steps

theorem neverResumes_iff_clean (s) : NeverResumes s ↔ Clean s.steps s.history := by
  constructor
  · intro never pre saga after split a mem eq resumes
    obtain ⟨commands, status⟩ := never pre saga after split
    cases a with
    | handledFailure x => exact resumes
    | sentCommand x cmd =>
      obtain rfl : x = saga := eq
      exact commands cmd mem resumes
    | setStatus x v =>
      obtain rfl : x = saga := eq
      obtain rfl : v = .completed := resumes
      exact status mem
  · intro clean pre saga after split
    exact ⟨fun cmd mem => clean pre saga after split _ mem rfl,
      fun mem => clean pre saga after split _ mem rfl rfl⟩

/-- One more action keeps a history clean unless it resumes a saga that has failed. -/
theorem clean_snoc (steps hist a) :
    Clean steps (hist ++ [a]) ↔
      Clean steps hist ∧ (a.Resumes steps → .handledFailure a.saga ∉ hist) := by
  constructor
  · intro clean
    constructor
    · intro pre saga after split
      have longer : hist ++ [a] = pre ++ .handledFailure saga :: (after ++ [a]) := by
        simp [split]
      intro earlier mem
      exact clean pre saga _ longer earlier (mem_append_left _ mem)
    · intro resumes failed
      obtain ⟨pre, after, split⟩ := append_of_mem failed
      have longer : hist ++ [a] = pre ++ .handledFailure a.saga :: (after ++ [a]) := by
        simp [split]
      exact clean pre a.saga _ longer a (by simp) rfl resumes
  · rintro ⟨clean, last⟩ pre saga after split earlier mem same
    obtain ⟨-, -, rfl⟩ | ⟨front, shorter, rfl⟩ := Runs.snoc_cases split
    · cases mem
    · rcases mem_append.mp mem with old | new
      · exact clean pre saga front shorter earlier old same
      · obtain rfl := mem_singleton.mp new
        intro resumes
        apply last resumes
        rw [shorter, same]
        simp

/-- Only the steps of the sagas that appear in a history matter. -/
theorem clean_congr {first second hist} (eq : ∀ a ∈ hist, first a.saga = second a.saga) :
    Clean first hist ↔ Clean second hist := by
  have resumes : ∀ a ∈ hist, a.Resumes first ↔ a.Resumes second := by
    intro a mem
    have agree := eq a mem
    cases a with
    | sentCommand saga cmd =>
      change cmd.type ∈ first saga ↔ cmd.type ∈ second saga
      rw [show first saga = second saga from agree]
    | handledFailure saga => rfl
    | setStatus saga status => rfl
  constructor <;> intro clean pre saga after split a mem owner
  · rw [← resumes a (by simp [split, mem])]
    exact clean pre saga after split a mem owner
  · rw [resumes a (by simp [split, mem])]
    exact clean pre saga after split a mem owner

variable (s : State) (saga other : Nat) (a : Action) (type : String) (status : Status)

@[simp] theorem observe_history : (s.observe a).history = s.history ++ [a] := rfl

@[simp] theorem send_history :
    (s.send saga type).history = s.history ++ [.sentCommand saga ⟨(s.heap saga).id, type⟩] := rfl

@[simp] theorem send_steps : (s.send saga type).steps = s.steps := rfl

theorem store_steps (v) (eq : v.steps = s.steps saga) : (s.store saga v).steps = s.steps := by
  funext other
  by_cases here : other = saga
  · subst other
    simpa [State.store, State.steps] using eq
  · simp [State.store, State.steps, here]

@[simp] theorem setStatus_history :
    (s.setStatus saga status).history = s.history ++ [.setStatus saga status] := rfl

@[simp] theorem setStatus_steps : (s.setStatus saga status).steps = s.steps :=
  store_steps s saga _ rfl

/-- Addresses in use are allocated, and only failed sagas are compensated. -/
structure Valid (s : State) : Prop where
  mapped : ∀ id saga, s.sagas id = some saga → saga < s.allocated
  starting : ∀ saga ∈ s.starting, saga < s.allocated
  compensating : ∀ c ∈ s.compensators, .handledFailure c.saga ∈ s.history
  observed : ∀ action ∈ s.history, action.saga < s.allocated

theorem init_valid : Valid init := by
  refine ⟨?_, ?_, ?_, ?_⟩ <;> simp [init]

theorem Valid.extend {s t} (valid : Valid s) (new) (sagas : t.sagas = s.sagas)
    (allocated : t.allocated = s.allocated) (starting : ∀ saga ∈ t.starting, saga ∈ s.starting)
    (hist : t.history = s.history ++ new)
    (compensating : ∀ c ∈ t.compensators,
      .handledFailure c.saga ∈ s.history ∨ .handledFailure c.saga ∈ new)
    (observed : ∀ a ∈ new, a.saga < s.allocated) : Valid t := by
  refine ⟨?_, ?_, ?_, ?_⟩
  · rw [sagas, allocated]
    exact valid.mapped
  · intro saga mem
    rw [allocated]
    exact valid.starting saga (starting saga mem)
  · intro c mem
    rw [hist]
    exact mem_append.mpr (compensating c mem)
  · intro a mem
    rw [hist, mem_append] at mem
    rw [allocated]
    exact mem.elim (valid.observed a) (observed a)

end

open Option List Runs

/-- The steps that keep a failed saga from resuming: no success is handled for it, no
compensation command is one of its own steps, and startSaga is not behind with its first
command. -/
def Forward (s : State) : Label → Prop
  | .sendFirst i => ∀ saga, s.starting[i]? = some saga → s.steps saga ≠ [] →
      .handledFailure saga ∉ s.history
  | .takeEvent i => ∀ event, s.eventBus[i]? = some event →
      ∀ saga, s.sagas event.id = some saga → event.success = true →
        .handledFailure saga ∉ s.history
  | .compensate i => ∀ c, s.compensators[i]? = some c →
      ∀ index, c.remaining = some (index + 1) →
      ∀ compCmd, (s.heap c.saga).completedSteps[index]?.bind compensationSteps = some compCmd →
        compCmd ∉ s.steps c.saga
  | _ => True

/-- What one function of the model does: it stays within the known sagas, and the history
it leaves is clean exactly when it was before and `ok` holds. -/
structure Effect (s t : State) (ok : Prop) : Prop where
  valid : Valid t
  clean : NeverResumes t ↔ NeverResumes s ∧ ok

variable {s t : State} {ok : Prop}

theorem Effect.silent (valid : Valid t) (steps : Clean t.steps s.history ↔ Clean s.steps s.history)
    (hist : t.history = s.history) (trivially : ok) : Effect s t ok := by
  refine ⟨valid, ?_⟩
  rw [neverResumes_iff_clean, neverResumes_iff_clean, hist, steps]
  simp [trivially]

theorem Effect.single (a) (valid : Valid s) (known : a.saga < s.allocated)
    (compensating : ∀ c ∈ t.compensators, .handledFailure c.saga ∈ s.history)
    (exactly : (a.Resumes s.steps → .handledFailure a.saga ∉ s.history) ↔ ok)
    (sagas : t.sagas = s.sagas) (new : t.allocated = s.allocated)
    (starting : t.starting = s.starting) (steps : t.steps = s.steps)
    (hist : t.history = s.history ++ [a]) : Effect s t ok := by
  refine ⟨valid.extend [a] sagas new (fun _ mem => starting ▸ mem) hist
    (fun c mem => .inl (compensating c mem)) (by simpa using known), ?_⟩
  rw [neverResumes_iff_clean, neverResumes_iff_clean, hist, steps, clean_snoc, exactly]

variable (valid : Valid s)
include valid

theorem startSaga_valid (sagaID steps) : Valid (startSaga s sagaID steps) := by
  have older : ∀ saga, saga < s.allocated → saga < s.allocated + 1 := fun _ => Nat.lt_succ_of_lt
  refine ⟨?_, ?_, valid.compensating, ?_⟩
  · intro id saga hit
    by_cases same : id = sagaID
    · subst id
      have fresh : s.allocated = saga := by simpa [startSaga] using hit
      exact fresh ▸ Nat.lt_succ_self _
    · exact older saga (valid.mapped id saga (by simpa [startSaga, same] using hit))
  · exact forall_mem_snoc (fun saga old => older saga (valid.starting saga old))
      (Nat.lt_succ_self _)
  · exact fun a mem => older _ (valid.observed a mem)

theorem startSaga_effect (sagaID steps) : Effect s (startSaga s sagaID steps) True := by
  apply Effect.silent (startSaga_valid valid sagaID steps)
  · apply clean_congr
    intro a mem
    have known := valid.observed a mem
    simp [State.steps, startSaga, Nat.ne_of_lt known]
  · rfl
  · trivial

theorem sendFirst_effect (saga) (known : saga < s.allocated) :
    Effect s (sendFirst s saga) (s.steps saga ≠ [] → .handledFailure saga ∉ s.history) := by
  unfold sendFirst
  split
  next empty =>
    apply Effect.silent
    · exact ⟨valid.mapped, valid.starting, valid.compensating, valid.observed⟩
    · rfl
    · rfl
    · exact fun ne => absurd empty ne
  next x rest steps =>
    apply Effect.single (.sentCommand saga ⟨(s.heap saga).id, x⟩) valid known
    · exact valid.compensating
    · simp [Action.Resumes, Action.saga, steps]
    all_goals rfl

theorem handleSuccess_effect (saga e) (known : saga < s.allocated) :
    Effect s (handleSuccess s saga e) (.handledFailure saga ∉ s.history) := by
  unfold handleSuccess
  dsimp only
  -- Both branches observe one action, and either one resumes the saga.
  split
  next lt =>
    have mem : (s.heap saga).steps[(s.heap saga).currentStep + 1] ∈ s.steps saga :=
      getElem_mem lt
    apply Effect.single (.sentCommand saga
      ⟨(s.heap saga).id, (s.heap saga).steps[(s.heap saga).currentStep + 1]⟩) valid known
    · exact valid.compensating
    · simp [Action.Resumes, Action.saga, mem]
    · rfl
    · rfl
    · rfl
    · rw [send_steps, store_steps]
      rfl
    · simp [State.store]
  · apply Effect.single (.setStatus saga .completed) valid known
    · exact valid.compensating
    · simp [Action.Resumes, Action.saga]
    · rfl
    · rfl
    · rfl
    · rw [setStatus_steps, store_steps]
      rfl
    · rfl

theorem handleFailure_effect (saga) (known : saga < s.allocated) :
    Effect s (handleFailure s saga) True := by
  have hist : (handleFailure s saga).history =
      s.history ++ [.handledFailure saga, .setStatus saga .compensating] := by
    simp [handleFailure]
  have steps : (handleFailure s saga).steps = s.steps :=
    setStatus_steps (s.observe (.handledFailure saga)) saga .compensating
  refine ⟨valid.extend _ rfl rfl (fun _ mem => mem) hist ?_ ?_, ?_⟩
  · exact forall_mem_snoc (fun c old => .inl (valid.compensating c old)) (.inr (by simp))
  · simpa [Action.saga] using known
  · have split : s.history ++ [.handledFailure saga, .setStatus saga .compensating] =
        s.history ++ [.handledFailure saga] ++ [.setStatus saga .compensating] := by simp
    rw [neverResumes_iff_clean, neverResumes_iff_clean, hist, steps, split, clean_snoc, clean_snoc]
    simp [Action.Resumes]

theorem handleEvent_effect (e) :
    Effect s (handleEvent s e) (∀ saga, s.sagas e.id = some saga →
      e.success = true → .handledFailure saga ∉ s.history) := by
  unfold handleEvent
  split
  next unknown =>
    exact Effect.silent valid Iff.rfl rfl (by simp [unknown])
  next saga hit =>
    have known := valid.mapped _ _ hit
    split
    next success =>
      simpa [hit, success] using handleSuccess_effect valid saga e known
    next failure =>
      simpa [hit, failure] using handleFailure_effect valid saga known

theorem compensate_effect (i c) (running : s.compensators[i]? = some c) :
    Effect s (compensate s i c) (∀ index, c.remaining = some (index + 1) →
      ∀ compCmd, (s.heap c.saga).completedSteps[index]?.bind compensationSteps = some compCmd →
        compCmd ∉ s.steps c.saga) := by
  have failed := valid.compensating c (mem_of_getElem? running)
  have known := valid.observed _ failed
  have moved : ∀ remaining, ∀ d ∈ s.compensators.set i ⟨c.saga, remaining⟩,
      .handledFailure d.saga ∈ s.history := by
    intro remaining d mem
    rcases mem_or_eq_of_mem_set mem with old | rfl
    · exact valid.compensating d old
    · exact failed
  unfold compensate
  split
  next remaining =>
    apply Effect.silent
    · exact ⟨valid.mapped, valid.starting, moved _, valid.observed⟩
    · rfl
    · rfl
    · simp [remaining]
  next remaining =>
    apply Effect.single (.setStatus c.saga .compensated) valid known
    · exact fun d mem => valid.compensating d (mem_of_mem_eraseIdx mem)
    · simp [Action.Resumes, remaining]
    · rfl
    · rfl
    · rfl
    · exact setStatus_steps ..
    · rfl
  next index remaining =>
    split
    next nothing =>
      apply Effect.silent
      · exact ⟨valid.mapped, valid.starting, moved _, valid.observed⟩
      · rfl
      · rfl
      · intro index' eq compCmd hit
        obtain rfl : index = index' := by simpa [remaining] using eq
        simp [nothing] at hit
    next compCmd hit =>
      apply Effect.single (.sentCommand c.saga ⟨(s.heap c.saga).id, compCmd⟩) valid known
      · exact moved _
      · -- The saga has failed, so the command must not be one of its steps.
        simp [Action.Resumes, Action.saga, remaining, hit, failed]
      all_goals rfl

theorem step_effect (label) (took : step s label = some t) : Effect s t (Forward s label) := by
  unfold step at took
  split at took
  · cases took
  cases label with
  | startSaga sagaID steps =>
    simp only [advance, some.injEq] at took
    exact took ▸ startSaga_effect valid sagaID steps
  | sendFirst i =>
    simp only [advance, bind_eq_bind, bind_eq_some_iff, some.injEq] at took
    obtain ⟨saga, hit, rfl⟩ := took
    have rest : Valid { s with starting := s.starting.eraseIdx i } :=
      ⟨valid.mapped, fun saga mem => valid.starting saga (mem_of_mem_eraseIdx mem),
        valid.compensating, valid.observed⟩
    have known := valid.starting saga (mem_of_getElem? hit)
    obtain ⟨valid', clean⟩ := sendFirst_effect rest saga known
    refine ⟨valid', clean.trans (and_congr Iff.rfl ?_)⟩
    simp [Forward, hit, State.steps]
  | takeCommand i | reply i nano =>
    simp only [advance, bind_eq_bind, bind_eq_some_iff, some.injEq] at took
    obtain ⟨cmd, -, rfl⟩ := took
    apply Effect.silent
    · exact ⟨valid.mapped, valid.starting, valid.compensating, valid.observed⟩
    · rfl
    · rfl
    · trivial
  | takeEvent i =>
    simp only [advance, bind_eq_bind, bind_eq_some_iff, some.injEq] at took
    obtain ⟨e, hit, rfl⟩ := took
    have rest : Valid { s with eventBus := s.eventBus.eraseIdx i } :=
      ⟨valid.mapped, valid.starting, valid.compensating, valid.observed⟩
    obtain ⟨valid', clean⟩ := handleEvent_effect rest e
    refine ⟨valid', clean.trans (and_congr Iff.rfl ?_)⟩
    simp [Forward, hit]
  | compensate i =>
    simp only [advance, bind_eq_bind, bind_eq_some_iff, some.injEq] at took
    obtain ⟨c, hit, rfl⟩ := took
    obtain ⟨valid', clean⟩ := compensate_effect valid i c hit
    refine ⟨valid', clean.trans (and_congr Iff.rfl ?_)⟩
    simp [Forward, hit]

omit valid

theorem reachable_valid {labels} (run : exec step init labels = some s) : Valid s :=
  exec_invariant Valid init_valid
    (fun _ label _ valid took => (step_effect valid label took).valid) run

/-- A failed saga stays failed exactly in the runs all of whose steps are forward ones. -/
theorem saga_never_resumes_iff (labels : List Label) (s : State)
    (run : exec step init labels = some s) : NeverResumes s ↔ Along step Forward init labels := by
  induction labels using reverseRecOn generalizing s with
  | nil =>
    rw [exec_nil, some.injEq] at run
    subst s
    exact iff_of_true (fun before _ _ split => by simp [init] at split) Along.nil
  | append_singleton labels label ih =>
    obtain ⟨last, before, stepped⟩ := exec_snoc_some.mp run
    rw [(step_effect (reachable_valid before) label stepped).clean, ih last before]
    constructor
    · rintro ⟨earlier, final⟩
      refine earlier.snoc fun state same => ?_
      obtain rfl : last = state := some.inj (before.symm.trans same)
      exact final
    · exact fun all => ⟨all.initial, all.last before⟩

/-- One saga with a step no service knows: it fails at once and has nothing to compensate. -/
def unknownStepLabels : List Label :=
  [.startSaga "order_saga_1" ["audit_order"], .sendFirst 0, .takeCommand 0, .reply 0 0,
    .takeEvent 0, .compensate 0, .compensate 0]

theorem saga_never_resumes_iff_unknown_step :
    NeverResumes ((exec step init unknownStepLabels).get (by decide)) ↔
      Along step Forward init unknownStepLabels :=
  saga_never_resumes_iff unknownStepLabels _ (some_get _).symm

/-- The source's own saga with a shipping failure. The refund that compensates the payment
succeeds, and its event is counted like that of a forward step. -/
def shippingFailureLabels : List Label :=
  [.startSaga "order_saga_1" ["reserve_inventory", "process_payment", "ship_order"],
    .sendFirst 0, .takeCommand 0, .reply 0 0, .takeEvent 0,
    .takeCommand 0, .reply 0 0, .takeEvent 0,
    .takeCommand 0, .reply 0 0, .takeEvent 0,
    .compensate 0, .compensate 0, .takeCommand 0, .reply 0 0, .takeEvent 0]

theorem saga_completes_after_failure :
    ∃ s, exec step init shippingFailureLabels = some s ∧ (s.heap 0).status = .completed ∧
      ¬ NeverResumes s := by
  refine exists_exec (fun s => (s.heap 0).status = .completed ∧ s.history.drop 3 =
    [.handledFailure 0, .setStatus 0 .compensating,
      .sentCommand 0 ⟨"order_saga_1", "refund_payment"⟩, .setStatus 0 .completed]) (by decide) ?_
  intro s _ ⟨status, tail⟩
  refine ⟨status, fun never => ?_⟩
  have resumed := never _ _ _ (tail ▸ (take_append_drop 3 s.history).symm)
  exact resumed.2 (by decide)

end AsyncPractice.SagaOrchestrator
