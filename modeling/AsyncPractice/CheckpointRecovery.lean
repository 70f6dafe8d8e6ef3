import AsyncPractice.GoMap
import AsyncPractice.Runs

/- solution3_CheckpointRecovery of challenge16_solution.go: window sums over a stream of events,
with checkpoints to recover from. -/
namespace AsyncPractice.CheckpointRecovery

section

/-- The dynamic type of event.Data: an int, or another type that is not summed up. -/
inductive Data
  | int (value : Int64)
  | other
  deriving DecidableEq

def Data.value : Data → Int64
  | int value => value
  | other => 0

/-- An instant, in nanoseconds since the Unix epoch, and the zone it is printed in. -/
structure Timestamp (Z : Type) where
  nanos : Int
  zone : Z
  deriving DecidableEq

def Timestamp.truncate {Z : Type} (t : Timestamp Z) (d : Int) : Timestamp Z :=
  { t with nanos := t.nanos / d * d }

structure StreamEvent (Z : Type) where
  id : String
  offset : Int64
  data : Data
  timestamp : Timestamp Z
  deriving DecidableEq

/-- Without a time for the checkpoint the manager works on. -/
structure Checkpoint where
  offset : Int64
  processedIDs : GoMap String Bool
  windowStates : GoMap String Int64
  checkpointTime : Option Int

structure CheckpointManager where
  currentCheckpoint : Checkpoint
  checkpointHistory : List Checkpoint
  maxHistory : Nat
  processedCount : Int64

def newManager : CheckpointManager where
  currentCheckpoint := ⟨0, ∅, ∅, none⟩
  checkpointHistory := []
  maxHistory := 5
  processedCount := 0

variable {Z : Type}

-- `format` is what Format(time.RFC3339) prints.
variable (format : Timestamp Z → String)

def windowKey (event : StreamEvent Z) : String :=
  format (event.timestamp.truncate (5 * 1000000000))

/-- Also returns whether the event was not a duplicate. -/
def processEvent (manager : CheckpointManager) (event : StreamEvent Z) : CheckpointManager × Bool :=
  let checkpoint := manager.currentCheckpoint
  if (checkpoint.processedIDs.lookup event.id).getD false then (manager, false)
  else
    let key := windowKey format event
    let windowStates :=
      match event.data with
      | .int value =>
        checkpoint.windowStates.insert key ((checkpoint.windowStates.lookup key).getD 0 + value)
      | .other => checkpoint.windowStates
    ({ manager with
      currentCheckpoint := { checkpoint with
        windowStates
        processedIDs := checkpoint.processedIDs.insert event.id true
        offset := event.offset }
      processedCount := manager.processedCount + 1 }, true)

/-- The maps are copied, so that later events do not change the checkpoint. -/
def createCheckpoint (manager : CheckpointManager) (now : Int) : CheckpointManager × Checkpoint :=
  let checkpoint := { manager.currentCheckpoint with checkpointTime := some now }
  let history := manager.checkpointHistory ++ [checkpoint]
  ({ manager with
    checkpointHistory := if history.length > manager.maxHistory then history.tail else history },
    checkpoint)

def recoverFromCheckpoint (manager : CheckpointManager) (checkpoint : Checkpoint) :
    CheckpointManager :=
  { manager with currentCheckpoint := { checkpoint with checkpointTime := none } }

/-- With every checkpoint that was returned so far, also those no longer in the history. -/
structure State where
  manager : CheckpointManager
  returned : List Checkpoint

def newState : State := ⟨newManager, []⟩

inductive Op (Z : Type)
  | process (event : StreamEvent Z)
  | checkpoint (now : Int)
  | recover (index : Nat)

/-- Recovery takes one of the checkpoints returned before. -/
def step (format : Timestamp Z → String) (s : State) : Op Z → Option State
  | .process event => some { s with manager := (processEvent format s.manager event).1 }
  | .checkpoint now =>
    let (manager, checkpoint) := createCheckpoint s.manager now
    some ⟨manager, s.returned ++ [checkpoint]⟩
  | .recover index =>
    s.returned[index]?.map fun checkpoint =>
      { s with manager := recoverFromCheckpoint s.manager checkpoint }

def delivered (ops : List (Op Z)) : List (StreamEvent Z) :=
  ops.filterMap fun
    | .process event => some event
    | _ => none

def deliver (format : Timestamp Z → String) (manager : CheckpointManager)
    (events : List (StreamEvent Z)) : CheckpointManager :=
  events.foldl (fun manager event => (processEvent format manager event).1) manager

end

open List Runs

variable {Z : Type} (format : Timestamp Z → String)

/-- The sum over one window, before it is cut to 64 bits. -/
def windowSum (events : Finset (StreamEvent Z)) (window : String) : Int :=
  ∑ event ∈ events with windowKey format event = window, event.data.value.toInt

/-- The checkpoint is what the set of events amounts to, whatever the order and the number of
times they came. -/
structure Represents (events : Finset (StreamEvent Z)) (checkpoint : Checkpoint) : Prop where
  processed : ∀ id, checkpoint.processedIDs.lookup id =
    if ∃ event ∈ events, event.id = id then some true else none
  states : ∀ window, checkpoint.windowStates.lookup window =
    if ∃ event ∈ events, event.data ≠ .other ∧ windowKey format event = window then
      some (Int64.ofInt (windowSum format events window))
    else none

variable {format}

section

variable {es : Finset (StreamEvent Z)} {checkpoint : Checkpoint}

theorem windowSum_eq_zero {w} (none : ¬ ∃ e ∈ es, e.data ≠ .other ∧ windowKey format e = w) :
    windowSum format es w = 0 := by
  apply Finset.sum_eq_zero
  intro e mem
  obtain ⟨mem, eq⟩ := Finset.mem_filter.mp mem
  have other : e.data = .other := by
    by_contra int
    exact none ⟨e, mem, int, eq⟩
  rw [other]
  rfl

theorem represents_empty : Represents format ∅ newManager.currentCheckpoint := by
  constructor <;> intro k <;> simp [newManager]

variable (rep : Represents format es checkpoint)
include rep

theorem Represents.processed_iff (id) :
    (checkpoint.processedIDs.lookup id).getD false = true ↔ ∃ event ∈ es, event.id = id := by
  rw [rep.processed]
  split <;> simp_all

theorem Represents.state (w) :
    (checkpoint.windowStates.lookup w).getD 0 = Int64.ofInt (windowSum format es w) := by
  rw [rep.states]
  split
  · rfl
  next none =>
    rw [windowSum_eq_zero none]
    rfl

theorem Represents.windowStates_eq {other} (eq : Represents format es other) :
    checkpoint.windowStates = other.windowStates := by
  apply Finmap.ext_lookup
  intro w
  rw [rep.states, eq.states]

theorem Represents.mem_iff {e} (unique : ∀ x ∈ es, x.id = e.id → x = e) :
    e ∈ es ↔ (checkpoint.processedIDs.lookup e.id).getD false = true := by
  rw [rep.processed_iff]
  constructor
  · intro mem
    exact ⟨e, mem, rfl⟩
  · rintro ⟨x, mem, eq⟩
    exact unique x mem eq ▸ mem

end

variable [DecidableEq Z] {es : Finset (StreamEvent Z)} {checkpoint : Checkpoint} {e : StreamEvent Z}

theorem windowSum_insert (fresh : e ∉ es) (w) :
    windowSum format (insert e es) w = (if windowKey format e = w then e.data.value.toInt else 0) +
        windowSum format es w := by
  simp only [windowSum, Finset.sum_filter]
  exact Finset.sum_insert fresh

theorem windowSum_insert_ne (fresh : e ∉ es) {w} (ne : e.data = .other ∨ windowKey format e ≠ w) :
    windowSum format (insert e es) w = windowSum format es w := by
  rw [windowSum_insert fresh]
  rcases ne with other | ne
  · simp [other, Data.value]
  · rw [if_neg ne, zero_add]

theorem Represents.insert_states (rep : Represents format es checkpoint) (fresh : e ∉ es) {v}
    (int : e.data = .int v) (w) :
    (checkpoint.windowStates.insert (windowKey format e)
        ((checkpoint.windowStates.lookup (windowKey format e)).getD 0 + v)).lookup w =
      if ∃ other ∈ insert e es, other.data ≠ .other ∧ windowKey format other = w then
        some (Int64.ofInt (windowSum format (insert e es) w))
      else none := by
  rw [GoMap.lookup_insert_ite]
  by_cases same : w = windowKey format e
  · subst same
    rw [if_pos rfl, if_pos ⟨e, Finset.mem_insert_self _ _, by simp [int], rfl⟩,
      windowSum_insert fresh, if_pos rfl, Int64.ofInt_add, rep.state, int, Data.value,
      Int64.ofInt_toInt, Int64.add_comm]
  · rw [if_neg same, rep.states, windowSum_insert_ne fresh (.inr (Ne.symm same))]
    simp [Ne.symm same]

theorem Represents.processEvent {manager} (rep : Represents format es manager.currentCheckpoint)
    (unique : ∀ other ∈ es, other.id = e.id → other = e) :
    Represents format (insert e es) (processEvent format manager e).1.currentCheckpoint := by
  unfold CheckpointRecovery.processEvent
  dsimp only
  split
  next duplicate =>
    rwa [Finset.insert_eq_of_mem ((rep.mem_iff unique).mpr duplicate)]
  next new =>
    have fresh : e ∉ es := fun mem => new ((rep.mem_iff unique).mp mem)
    constructor
    · intro id
      dsimp only
      rw [GoMap.lookup_insert_ite, rep.processed]
      by_cases same : id = e.id
      · simp [same]
      · simp [same, Ne.symm same]
    · intro w
      dsimp only
      split
      next v int =>
        exact rep.insert_states fresh int w
      next other =>
        rw [rep.states, windowSum_insert_ne fresh (.inl other)]
        simp [other]

/-- A set of events out of the list that the checkpoint stands for. -/
def Counts (format : Timestamp Z → String) (events : List (StreamEvent Z))
    (checkpoint : Checkpoint) : Prop :=
  ∃ counted : Finset (StreamEvent Z), counted ⊆ events.toFinset ∧
    Represents format counted checkpoint

def UniqueIDs (events : List (StreamEvent Z)) : Prop :=
  ∀ event ∈ events, ∀ other ∈ events, event.id = other.id → event = other

variable {es more : List (StreamEvent Z)}

theorem Counts.mono (counts : Counts format es checkpoint) (within : es ⊆ more) :
    Counts format more checkpoint := by
  obtain ⟨cnt, subset, rep⟩ := counts
  refine ⟨cnt, fun e mem => ?_, rep⟩
  exact mem_toFinset.mpr (within (mem_toFinset.mp (subset mem)))

/-- With unique ids the set is known: the events of the list whose id was processed. -/
theorem Counts.represents (counts : Counts format es checkpoint) (unique : UniqueIDs es) :
    Represents format (es.toFinset.filter fun e =>
        (checkpoint.processedIDs.lookup e.id).getD false = true) checkpoint := by
  obtain ⟨cnt, subset, rep⟩ := counts
  have eq : cnt = es.toFinset.filter fun e =>
      (checkpoint.processedIDs.lookup e.id).getD false = true := by
    ext e
    rw [Finset.mem_filter]
    constructor
    · intro mem
      exact ⟨subset mem, (rep.processed_iff _).mpr ⟨e, mem, rfl⟩⟩
    · rintro ⟨mem, processed⟩
      apply (rep.mem_iff ?_).mpr processed
      intro other cnt eq
      exact unique other (mem_toFinset.mp (subset cnt)) e (mem_toFinset.mp mem) eq
  rwa [← eq]

section

omit [DecidableEq Z] in
theorem delivered_append (x y : List (Op Z)) : delivered (x ++ y) = delivered x ++ delivered y :=
  filterMap_append

/-- The current checkpoint and all those returned stand for events that were delivered. -/
theorem counts_all {ops s} (unique : UniqueIDs (delivered ops))
    (run : exec (step format) newState ops = some s) :
    Counts format (delivered ops) s.manager.currentCheckpoint ∧
      ∀ checkpoint ∈ s.returned, Counts format (delivered ops) checkpoint := by
  revert unique
  refine exec_history (fun ops s => UniqueIDs (delivered ops) →
    Counts format (delivered ops) s.manager.currentCheckpoint ∧
      ∀ checkpoint ∈ s.returned, Counts format (delivered ops) checkpoint) ?_ ?_ run
  · intro _
    exact ⟨⟨∅, Finset.empty_subset _, represents_empty⟩, by simp [newState]⟩
  · intro ops s op t _ held took unique
    have within : delivered ops ⊆ delivered (ops ++ [op]) := by
      rw [delivered_append]
      exact subset_append_left _ _
    obtain ⟨cur, ret⟩ := held fun e mem other member' =>
      unique e (within mem) other (within member')
    replace ret := fun checkpoint mem => (ret checkpoint mem).mono within
    cases op with
    | process e =>
      cases took
      refine ⟨?_, ret⟩
      obtain ⟨cnt, subset, rep⟩ := cur.mono within
      have mem : e ∈ delivered (ops ++ [.process e]) := by
        simp [delivered]
      refine ⟨insert e cnt, ?_, rep.processEvent ?_⟩
      · exact Finset.insert_subset (mem_toFinset.mpr mem) subset
      · intro other cnt
        exact unique other (mem_toFinset.mp (subset cnt)) e mem
    | checkpoint now =>
      cases took
      refine ⟨cur.mono within, fun checkpoint mem => ?_⟩
      rcases mem_append.mp mem with old | new
      · exact ret checkpoint old
      · obtain rfl := mem_singleton.mp new
        obtain ⟨cnt, subset, rep⟩ := cur.mono within
        exact ⟨cnt, subset, rep.processed, rep.states⟩
    | recover index =>
      obtain ⟨checkpoint, hit, rfl⟩ := Option.map_eq_some_iff.mp took
      refine ⟨?_, ret⟩
      obtain ⟨cnt, subset, rep⟩ := ret checkpoint (mem_of_getElem? hit)
      exact ⟨cnt, subset, rep.processed, rep.states⟩

theorem Represents.deliver {known} (unique : UniqueIDs known) {cnt}
    (lt : cnt ⊆ known.toFinset) {manager}
    (rep : Represents format cnt manager.currentCheckpoint) {es} (within : es ⊆ known) :
    Represents format (cnt ∪ es.toFinset) (deliver format manager es).currentCheckpoint := by
  induction es generalizing cnt manager with
  | nil => rwa [toFinset_nil, Finset.union_empty]
  | cons e es ih =>
    obtain ⟨mem, within⟩ := cons_subset.mp within
    have only : ∀ other ∈ cnt, other.id = e.id → other = e := fun other cnt =>
      unique other (mem_toFinset.mp (lt cnt)) e mem
    rw [toFinset_cons, Finset.union_insert, ← Finset.insert_union]
    exact ih (Finset.insert_subset (mem_toFinset.mpr mem) lt) (rep.processEvent only) within

end

/-- The event was processed during the run, and was no duplicate there. -/
def ProcessedIn (format : Timestamp Z → String) (start : State) (ops : List (Op Z))
    (event : StreamEvent Z) : Prop :=
  ∃ before after s, ops = before ++ .process event :: after ∧
    exec (step format) start before = some s ∧ (processEvent format s.manager event).2 = true

end AsyncPractice.CheckpointRecovery
