import AsyncPractice.GoMap
import AsyncPractice.Runs

/- executeStep and executeSaga of solution1_CompensatingSaga in challenge14_solution.go. Steps are
pointers `P`, of which a saga may list one more than once. What the Execute and Compensate
functions return is up to the environment. -/
namespace AsyncPractice.CompensatingSaga

section

structure SagaStep where
  name : String
  idempotent : Bool
  maxRetries : Int
  executionID : String

structure Saga (P : Type) where
  id : String
  steps : List P
  step : P → SagaStep

/-- The flags of the steps, the history of the manager and the logs of the saga; `executions`
counts the Execute calls that succeeded and `compensations` the Compensate calls. -/
structure State (P : Type) where
  executed : P → Bool
  compensated : P → Bool
  executionHistory : GoMap String Bool
  executionLog : List String
  compensationLog : List String
  executions : P → Nat
  compensations : P → Nat

def init (P : Type) : State P :=
  ⟨fun _ => false, fun _ => false, ∅, [], [], fun _ => 0, fun _ => 0⟩

/-- What happens during a call of executeSaga: the error of each attempt at the step in a place,
the error of the compensation of the step in a place, and the times that are logged. -/
structure Call where
  execute : Nat → Nat → Option String
  compensate : Nat → Option String
  startedAt : String
  completedAt : String

/-- The loop over the attempts that are left, which ends with the last error. -/
def retry (execute : Nat → Option String) (attempt : Nat) (lastErr : Option String) :
    Nat → Except (Option String) Unit
  | 0 => .error lastErr
  | left + 1 =>
    match execute attempt with
    | none => .ok ()
    | some err => retry execute (attempt + 1) (some err) left

variable {P : Type} [DecidableEq P]

def recordSuccess (saga : Saga P) (s : State P) (p : P) : State P :=
  { s with
    executed := Function.update s.executed p true
    executionHistory := if (saga.step p).idempotent
      then s.executionHistory.insert (saga.step p).executionID true else s.executionHistory
    executions := Function.update s.executions p (s.executions p + 1) }

def executeStep (saga : Saga P) (s : State P) (p : P) (execute : Nat → Option String) :
    State P × Except String Unit :=
  let step := saga.step p
  if step.idempotent ∧ step.executionID ∈ s.executionHistory then (s, .ok ())
  else
    match retry execute 0 none (step.maxRetries + 1).toNat with
    | .ok () => (recordSuccess saga s p, .ok ())
    | .error lastErr =>
      (s, .error ("step " ++ step.name ++ " failed after " ++ toString (step.maxRetries + 1) ++
        " attempts: " ++ lastErr.getD "<nil>"))

def compensateStep (saga : Saga P) (s : State P) (p : P) (outcome : Option String) : State P :=
  if s.executed p ∧ ¬ s.compensated p then
    let s := { s with compensations := Function.update s.compensations p (s.compensations p + 1) }
    match outcome with
    | some compErr =>
      { s with compensationLog := s.compensationLog ++
        ["Compensation failed for " ++ (saga.step p).name ++ ": " ++ compErr] }
    | none => { s with compensated := Function.update s.compensated p true }
  else s

/-- The compensation loop over the steps before the failed one, the last of them first. -/
def compensate (saga : Saga P) (call : Call) (s : State P) : List P → State P
  | [] => s
  | p :: earlier =>
    compensate saga call (compensateStep saga s p (call.compensate earlier.length)) earlier

/-- The loop over the steps; `done` are those before, the last of them first. -/
def executeFrom (saga : Saga P) (call : Call) (done : List P) (s : State P) :
    List P → State P × Except String Unit
  | [] => (s, .ok ())
  | p :: rest =>
    match executeStep saga s p (call.execute done.length) with
    | (s, .ok ()) => executeFrom saga call (p :: done) s rest
    | (s, .error err) => (compensate saga call s done, .error err)

def executeSaga (saga : Saga P) (s : State P) (call : Call) : State P × Except String Unit :=
  let s := { s with
    executionLog := s.executionLog ++ ["Saga " ++ saga.id ++ " started at " ++ call.startedAt] }
  match executeFrom saga call [] s saga.steps with
  | (s, .ok ()) =>
    ({ s with executionLog :=
        s.executionLog ++ ["Saga " ++ saga.id ++ " completed at " ++ call.completedAt] }, .ok ())
  | (s, .error err) => (s, .error err)

def step (saga : Saga P) (s : State P) (call : Call) : Option (State P) :=
  some (executeSaga saga s call).1

end

/- The flags and the history against the numbers of Execute and Compensate calls. -/
open List Function Runs

variable {P : Type} [DecidableEq P] {saga : Saga P} {s : State P} {call : Call}

/-- What holds between calls whose compensations all succeed. -/
structure Sound (saga : Saga P) (s : State P) : Prop where
  compensations : ∀ p, s.compensations p = (s.compensated p).toNat
  undone : ∀ p, s.compensated p = true → s.executed p = true
  executed : ∀ p, s.executed p = true ↔ 0 < s.executions p
  once : ∀ p, (saga.step p).idempotent = true → s.executions p ≤ 1
  recorded : ∀ p, (saga.step p).idempotent = true → s.executed p = true →
    (saga.step p).executionID ∈ s.executionHistory
  source : ∀ id ∈ s.executionHistory, ∃ p ∈ saga.steps, (saga.step p).idempotent = true ∧
    (saga.step p).executionID = id ∧ s.executed p = true
  single : ∀ p q, (saga.step p).idempotent = true → (saga.step q).idempotent = true →
    (saga.step p).executionID = (saga.step q).executionID → s.executed p = true →
    s.executed q = true → p = q

omit [DecidableEq P] in
theorem init_sound (saga) : Sound saga (init P) := by
  refine ⟨fun p => rfl, fun p undone => ?_, fun p => ?_, fun p _ => Nat.zero_le 1,
    fun p _ ran => ?_, fun id known => ?_, fun p q _ _ _ ran => ?_⟩
  · cases undone
  · simp [init]
  · cases ran
  · exact absurd known (Finmap.notMem_empty)
  · cases ran

section

inductive Executed (saga : Saga P) (s : State P) (p : P) : State P × Except String Unit → Prop
  | skipped (idempotent : (saga.step p).idempotent = true)
      (known : (saga.step p).executionID ∈ s.executionHistory) : Executed saga s p (s, .ok ())
  | succeeded (new : (saga.step p).idempotent = true →
        (saga.step p).executionID ∉ s.executionHistory) :
      Executed saga s p (recordSuccess saga s p, .ok ())
  | failed (err : String) : Executed saga s p (s, .error err)

theorem executed_executeStep (saga) (s : State P) (p) (execute : Nat → Option String) :
    Executed saga s p (executeStep saga s p execute) := by
  unfold executeStep
  dsimp only
  split
  next skip =>
    exact .skipped skip.1 skip.2
  next perform =>
    split
    · exact .succeeded fun idem known => perform ⟨idem, known⟩
    · exact .failed _

theorem mem_history_recordSuccess {id p} :
    id ∈ (recordSuccess saga s p).executionHistory ↔
      ((saga.step p).idempotent = true ∧ id = (saga.step p).executionID) ∨
        id ∈ s.executionHistory := by
  unfold recordSuccess
  split
  next idempotent =>
    rw [Finmap.mem_insert]
    exact or_congr_left (by simp [idempotent])
  next other =>
    simp [other]

theorem executed_recordSuccess {p q} :
    (recordSuccess saga s p).executed q = true ↔ q = p ∨ s.executed q = true := by
  unfold recordSuccess
  dsimp only
  by_cases same : q = p
  · rw [same, update_self]
    simp
  · simp [same]

theorem Sound.recordSuccess (inv : Sound saga s) {p} (listed : p ∈ saga.steps)
    (new : (saga.step p).idempotent = true → (saga.step p).executionID ∉ s.executionHistory) :
    Sound saga (recordSuccess saga s p) := by
  -- no step with this execution id was executed before
  have x : ∀ q, (saga.step p).idempotent = true → (saga.step q).idempotent = true →
      (saga.step q).executionID = (saga.step p).executionID → s.executed q ≠ true := by
    intro q idem idempotent' eq ran
    exact new idem (eq ▸ inv.recorded q idempotent' ran)
  refine ⟨inv.compensations, ?_, ?_, ?_, ?_, ?_, ?_⟩
  · intro q undone
    exact executed_recordSuccess.mpr (.inr (inv.undone q undone))
  · intro q
    rw [executed_recordSuccess]
    dsimp only [CompensatingSaga.recordSuccess]
    by_cases eq : q = p
    · rw [eq, update_self]
      simp
    · rw [update_of_ne eq, ← inv.executed q]
      simp [eq]
  · intro q idem
    dsimp only [CompensatingSaga.recordSuccess]
    by_cases eq : q = p
    · subst eq
      have never := x q idem idem rfl
      rw [Ne, inv.executed] at never
      rw [update_self]
      omega
    · rw [update_of_ne eq]
      exact inv.once q idem
  · intro q idem ran
    rw [mem_history_recordSuccess]
    rcases executed_recordSuccess.mp ran with rfl | before
    · exact .inl ⟨idem, rfl⟩
    · exact .inr (inv.recorded q idem before)
  · intro id known
    rcases mem_history_recordSuccess.mp known with ⟨idem, rfl⟩ | before
    · exact ⟨p, listed, idem, rfl, executed_recordSuccess.mpr (.inl rfl)⟩
    · obtain ⟨q, mem, idem, eq, ran⟩ := inv.source id before
      exact ⟨q, mem, idem, eq, executed_recordSuccess.mpr (.inr ran)⟩
  · intro q r idem idempotent' eq ran executed'
    rcases executed_recordSuccess.mp ran with rfl | before
    · rcases executed_recordSuccess.mp executed' with rfl | before'
      · rfl
      · exact absurd before' (x r idem idempotent' eq.symm)
    · rcases executed_recordSuccess.mp executed' with rfl | before'
      · exact absurd before (x q idempotent' idem eq)
      · exact inv.single q r idem idempotent' eq before before'

theorem Sound.compensateStep (inv : Sound saga s) (p) :
    Sound saga (compensateStep saga s p none) := by
  unfold CompensatingSaga.compensateStep
  split
  next due =>
    refine ⟨?_, ?_, inv.executed, inv.once, inv.recorded, inv.source, inv.single⟩
    · intro q
      dsimp only
      by_cases same : q = p
      · rw [same, update_self, update_self, inv.compensations p, Bool.eq_false_iff.mpr due.2]
        rfl
      · rw [update_of_ne same, update_of_ne same]
        exact inv.compensations q
    · intro q undone
      dsimp only at undone
      by_cases same : q = p
      · exact same ▸ due.1
      · rw [update_of_ne same] at undone
        exact inv.undone q undone
  · exact inv

variable (succeeds : ∀ j, call.compensate j = none) (inv : Sound saga s)
include succeeds inv

theorem Sound.compensate {done} : Sound saga (compensate saga call s done) := by
  induction done generalizing s with
  | nil => exact inv
  | cons p pre ih =>
    rw [CompensatingSaga.compensate, succeeds]
    exact ih (inv.compensateStep p)

theorem Sound.executeFrom {done rest} (listed : ∀ p ∈ rest, p ∈ saga.steps) :
    Sound saga (executeFrom saga call done s rest).1 := by
  induction rest generalizing s done with
  | nil => exact inv
  | cons p rest ih =>
    have later : ∀ q ∈ rest, q ∈ saga.steps :=
      fun q mem => listed q (mem_cons_of_mem p mem)
    unfold CompensatingSaga.executeFrom
    generalize ended : executeStep saga s p (call.execute done.length) = result
    have ran := ended ▸ executed_executeStep saga s p (call.execute done.length)
    cases ran with
    | skipped idem known => exact ih inv later
    | succeeded new => exact ih (inv.recordSuccess (listed p mem_cons_self) new) later
    | failed err => exact inv.compensate succeeds

theorem Sound.executeSaga : Sound saga (executeSaga saga s call).1 := by
  have logged : Sound saga { s with executionLog := s.executionLog ++
      ["Saga " ++ saga.id ++ " started at " ++ call.startedAt] } :=
    ⟨inv.compensations, inv.undone, inv.executed, inv.once, inv.recorded, inv.source, inv.single⟩
  have after : Sound saga (CompensatingSaga.executeFrom saga call [] _ saga.steps).1 :=
    logged.executeFrom succeeds fun p mem => mem
  unfold CompensatingSaga.executeSaga
  dsimp only
  split
  next t ended =>
    rw [ended] at after
    exact ⟨after.compensations, after.undone, after.executed, after.once, after.recorded,
      after.source, after.single⟩
  next t err ended =>
    rw [ended] at after
    exact after

end

/-- What a call that returns nil does: it compensates nothing, and performs every step of the list
that it does not skip. -/
structure Passed (saga : Saga P) (s next : State P) (steps : List P) : Prop where
  compensated : next.compensated = s.compensated
  compensations : next.compensations = s.compensations
  executions : ∀ p, s.executions p ≤ next.executions p
  history : ∀ id ∈ s.executionHistory, id ∈ next.executionHistory
  performed : ∀ p ∈ steps, ((saga.step p).idempotent = true ∧
    (saga.step p).executionID ∈ next.executionHistory) ∨ s.executions p < next.executions p

theorem executions_recordSuccess {p} (q) :
    (recordSuccess saga s p).executions q = s.executions q + if q = p then 1 else 0 := by
  unfold recordSuccess
  dsimp only
  by_cases same : q = p
  · rw [same, update_self, if_pos rfl]
  · rw [update_of_ne same, if_neg same]
    rfl

theorem passed_executeFrom {done rest t} (ended : executeFrom saga call done s rest = (t, .ok ())) :
    Passed saga s t rest := by
  induction rest generalizing s done with
  | nil =>
    obtain rfl := (Prod.mk.inj ended).1
    exact ⟨rfl, rfl, fun _ => Nat.le_refl _, fun _ known => known, fun p mem => by cases mem⟩
  | cons p rest ih =>
    unfold executeFrom at ended
    generalize result : executeStep saga s p (call.execute done.length) = outcome at ended
    have ran := result ▸ executed_executeStep saga s p (call.execute done.length)
    cases ran with
    | skipped idem known =>
      have ok := ih ended
      refine ⟨ok.compensated, ok.compensations, ok.executions, ok.history, ?_⟩
      intro q mem
      rcases mem_cons.mp mem with rfl | later
      · exact .inl ⟨idem, ok.history _ known⟩
      · exact ok.performed q later
    | succeeded new =>
      have ok := ih ended
      have more : ∀ q, s.executions q ≤ (recordSuccess saga s p).executions q := by
        intro q
        rw [executions_recordSuccess]
        exact Nat.le_add_right _ _
      refine ⟨ok.compensated, ok.compensations, fun q => (more q).trans (ok.executions q),
        fun id known => ok.history id (mem_history_recordSuccess.mpr (.inr known)), ?_⟩
      intro q mem
      rcases mem_cons.mp mem with rfl | later
      · have performed := ok.executions q
        rw [executions_recordSuccess, if_pos rfl] at performed
        exact .inr performed
      · exact (ok.performed q later).imp_right fun less =>
          Nat.lt_of_le_of_lt (more q) less
    | failed err => cases (Prod.mk.inj ended).2

theorem passed_executeSaga (ret : (executeSaga saga s call).2 = .ok ()) :
    Passed saga s (executeSaga saga s call).1 saga.steps := by
  unfold executeSaga at ret ⊢
  dsimp only at ret ⊢
  split at ret
  next t ended =>
    have ok := passed_executeFrom ended
    exact ⟨ok.compensated, ok.compensations, ok.executions, ok.history, ok.performed⟩
  · cases ret

/-- For every step more Execute calls have succeeded than there were Compensate calls. -/
def Done (saga : Saga P) (s : State P) : Prop :=
  ∀ p ∈ saga.steps, s.compensations p + 1 ≤ s.executions p

/-- No idempotent step has been compensated, and no two of them share their execution id. -/
def Repeatable (saga : Saga P) (s : State P) : Prop :=
  (∀ p ∈ saga.steps, (saga.step p).idempotent = true → s.compensated p = false) ∧
    ∀ p ∈ saga.steps, ∀ q ∈ saga.steps, (saga.step p).idempotent = true →
      (saga.step q).idempotent = true →
      (saga.step p).executionID = (saga.step q).executionID → p = q

instance decidableRepeatable (saga : Saga P) (s : State P) : Decidable (Repeatable saga s) :=
  inferInstanceAs (Decidable (_ ∧ _))

theorem done_of_repeatable (succeeds : ∀ j, call.compensate j = none) (inv : Sound saga s)
    (ret : (executeSaga saga s call).2 = .ok ()) (repeatable : Repeatable saga s) :
    Done saga (executeSaga saga s call).1 := by
  have ok := passed_executeSaga ret
  have after := inv.executeSaga succeeds
  intro p listed
  rw [ok.compensations, inv.compensations]
  rcases ok.performed p listed with ⟨idem, known⟩ | performed
  · obtain ⟨q, listed', idempotent', eq, ran⟩ := after.source _ known
    obtain rfl := repeatable.2 q listed' p listed idempotent' idem eq
    rw [repeatable.1 q listed idem]
    exact (after.executed q).mp ran
  · cases undone : s.compensated p with
    | false => exact Nat.lt_of_le_of_lt (Nat.zero_le _) performed
    | true =>
      have pre := (inv.executed p).mp (inv.undone p undone)
      exact Nat.lt_of_le_of_lt pre performed

theorem repeatable_of_done (succeeds : ∀ j, call.compensate j = none) (inv : Sound saga s)
    (ret : (executeSaga saga s call).2 = .ok ())
    (done : Done saga (executeSaga saga s call).1) : Repeatable saga s := by
  have ok := passed_executeSaga ret
  have after := inv.executeSaga succeeds
  have ran : ∀ p ∈ saga.steps, (executeSaga saga s call).1.executed p = true := by
    intro p listed
    exact (after.executed p).mpr (Nat.lt_of_lt_of_le (Nat.succ_pos _) (done p listed))
  constructor
  · intro p listed idem
    have balance := done p listed
    have once := after.once p idem
    rw [ok.compensations, inv.compensations] at balance
    cases undone : s.compensated p with
    | false => rfl
    | true =>
      rw [undone] at balance
      dsimp only [Bool.toNat_true] at balance
      omega
  · intro p listed q listed' idem idempotent' eq
    exact after.single p q idem idempotent' eq (ran p listed) (ran q listed')

/-- Whenever executeSaga returns nil every step is done and not undone, exactly when no call
returns nil after an idempotent step was compensated or where two of them share an id. -/
theorem saga_done_iff (saga : Saga P) {calls : List Call}
    (succeed : ∀ call ∈ calls, ∀ j, call.compensate j = none) :
    Along (step saga) (fun s call => (executeSaga saga s call).2 = .ok () →
        Done saga (executeSaga saga s call).1) (init P) calls ↔
      Along (step saga) (fun s call => (executeSaga saga s call).2 = .ok () →
        Repeatable saga s) (init P) calls := by
  have reached : ∀ {before call after s}, calls = before ++ call :: after →
      exec (step saga) (init P) before = some s → Sound saga s := by
    intro before call after s split run
    refine exec_guarded (Sound saga) (init_sound saga) ?_ run (along_of_forall
      fun call member => succeed call (by rw [split]; exact mem_append_left _ member))
    intro state call next sound succeeds stepped
    exact Option.some.inj stepped ▸ sound.executeSaga succeeds
  have succeeds : ∀ {before call after}, calls = before ++ call :: after →
      ∀ j, call.compensate j = none :=
    fun split => succeed _ (by rw [split]; exact mem_append_right _ mem_cons_self)
  constructor
  · intro done before call after split s run returned
    exact repeatable_of_done (succeeds split) (reached split run) returned
      (done before call after split s run returned)
  · intro repeatable before call after split s run returned
    exact done_of_repeatable (succeeds split) (reached split run) returned
      (repeatable before call after split s run returned)

def reserveAndShip : Saga Bool where
  id := "saga_1"
  steps := [false, true]
  step
    | false => ⟨"Reserve Inventory", true, 2, "saga_1_reserve"⟩
    | true => ⟨"Ship Order", false, 1, "saga_1_ship"⟩

def failingAt (place : Option Nat) : Call :=
  ⟨fun i _ => if place = some i then some "unavailable" else none, fun _ => none, "", ""⟩

theorem saga_done_iff_retried :
    Along (step reserveAndShip) (fun s call => (executeSaga reserveAndShip s call).2 = .ok () →
      Done reserveAndShip (executeSaga reserveAndShip s call).1) (init Bool)
      [failingAt (some 0), failingAt none] := by
  refine (saga_done_iff reserveAndShip ?_).mpr ?_
  · intro call member j
    simp only [mem_cons, not_mem_nil, or_false] at member
    rcases member with rfl | rfl <;> rfl
  · refine along_of_check (fun s _ => decide (Repeatable reserveAndShip s)) ?_ (by decide)
    exact fun s call repeatable _ => of_decide_eq_true repeatable

/-- The reservation is compensated when shipping fails, and skipped when the saga is executed
again. -/
theorem compensated_step_skipped :
    ∃ s, exec (step reserveAndShip) (init Bool) [failingAt (some 1)] = some s ∧
      (executeSaga reserveAndShip s (failingAt none)).2 = .ok () ∧
      (executeSaga reserveAndShip s (failingAt none)).1.executions false = 1 ∧
      (executeSaga reserveAndShip s (failingAt none)).1.compensations false = 1 :=
  ⟨_, rfl, rfl, by decide, by decide⟩

end AsyncPractice.CompensatingSaga
