import AsyncPractice.Pool
import AsyncPractice.Runs

/- Concurrent calls of updateWatermark in solution2_LateDataHandling of challenge16_solution.go. A
call loads the watermark and stores its event time in two atomic operations, between which other
calls may store theirs. Instants are nanoseconds. -/
namespace AsyncPractice.WatermarkProcessor

open List Runs

/-- A call that has not loaded yet, has found the watermark before its event time, or is over. -/
inductive Call
  | called (eventTime : Int)
  | storing (eventTime : Int)
  | done (eventTime : Int)
  deriving DecidableEq

def Call.eventTime : Call → Int
  | .called eventTime => eventTime
  | .storing eventTime => eventTime
  | .done eventTime => eventTime

structure State where
  watermark : Int
  calls : List Call
  deriving DecidableEq

def start (initial : Int) (eventTimes : List Int) : State := ⟨initial, eventTimes.map .called⟩

def updateWatermark (s : State) (i : Nat) : Option State :=
  match s.calls[i]? with
  | some (.called eventTime) =>
    if s.watermark < eventTime then some { s with calls := s.calls.set i (.storing eventTime) }
    else some { s with calls := s.calls.set i (.done eventTime) }
  | some (.storing eventTime) =>
    some { watermark := eventTime, calls := s.calls.set i (.done eventTime) }
  | _ => none

/-- The step does not move the watermark back. -/
def Advances (s : State) (i : Nat) : Prop :=
  ∀ next, updateWatermark s i = some next → s.watermark ≤ next.watermark

def State.Finished (s : State) : Prop := ∀ call ∈ s.calls, call = .done call.eventTime

/-- When a call stores its event time, nobody has stored a later one since it loaded. -/
def Timely (s : State) (i : Nat) : Prop :=
  ∀ eventTime, s.calls[i]? = some (.storing eventTime) → s.watermark ≤ eventTime

instance (s : State) (i : Nat) : Decidable (Timely s i) :=
  decidable_of_iff
    (∀ call ∈ s.calls[i]?, call = .storing call.eventTime → s.watermark ≤ call.eventTime)
    ⟨fun held _ here => held _ here rfl,
      fun timely _ here own => timely _ (own ▸ here)⟩

variable {s next : State} {i : Nat} {initial : Int} {eventTimes : List Int}

inductive Moves (s : State) (i : Nat) : State → Prop
  | load (eventTime : Int) (here : s.calls[i]? = some (.called eventTime))
      (later : s.watermark < eventTime) :
      Moves s i { s with calls := s.calls.set i (.storing eventTime) }
  | skip (eventTime : Int) (here : s.calls[i]? = some (.called eventTime))
      (passed : eventTime ≤ s.watermark) :
      Moves s i { s with calls := s.calls.set i (.done eventTime) }
  | store (eventTime : Int) (here : s.calls[i]? = some (.storing eventTime)) :
      Moves s i { watermark := eventTime, calls := s.calls.set i (.done eventTime) }

theorem moves_of_step (took : updateWatermark s i = some next) : Moves s i next := by
  unfold updateWatermark at took
  split at took
  next eventTime here =>
    split at took
    next later =>
      cases took
      exact .load eventTime here later
    next passed =>
      cases took
      exact .skip eventTime here (Int.not_lt.mp passed)
  next eventTime here =>
    cases took
    exact .store eventTime here
  · cases took

theorem timely_of_advances (advances : Advances s i) : Timely s i := by
  intro eventTime here
  apply advances { watermark := eventTime, calls := s.calls.set i (.done eventTime) }
  rw [updateWatermark, here]

theorem advances_of_timely (timely : Timely s i) : Advances s i := by
  intro next took
  cases moves_of_step took with
  | load eventTime here later => exact Int.le_refl _
  | skip eventTime here ok => exact Int.le_refl _
  | store eventTime here => exact timely eventTime here

/-- The watermark is one of the times there are, and none of a finished call is later. -/
structure Reached (initial : Int) (eventTimes : List Int) (s : State) : Prop where
  times : s.calls.map Call.eventTime = eventTimes
  among : s.watermark = initial ∨ s.watermark ∈ eventTimes
  base : initial ≤ s.watermark
  passed : ∀ eventTime, .done eventTime ∈ s.calls → eventTime ≤ s.watermark

theorem start_reached (initial eventTimes) :
    Reached initial eventTimes (start initial eventTimes) := by
  refine ⟨?_, .inl rfl, Int.le_refl _, ?_⟩
  · rw [start, map_map]
    exact map_id' eventTimes
  · intro eventTime finished
    obtain ⟨_, -, x⟩ := mem_map.mp finished
    cases x

variable (reached : Reached initial eventTimes s)
include reached

theorem Reached.move {old} (here : s.calls[i]? = some old) (new)
    (eq : new.eventTime = old.eventTime) (watermark)
    (kept : watermark = s.watermark ∨ watermark = old.eventTime) (higher : s.watermark ≤ watermark)
    (covered : ∀ eventTime, new = .done eventTime → eventTime ≤ watermark) :
    Reached initial eventTimes ⟨watermark, s.calls.set i new⟩ := by
  have times : (s.calls.set i new).map Call.eventTime = eventTimes := by
    rw [Pool.map_moved here eq]
    exact reached.times
  refine ⟨times, ?_, Int.le_trans reached.base higher, ?_⟩
  · rcases kept with rfl | rfl
    · exact reached.among
    · right
      rw [← reached.times]
      exact mem_map_of_mem (mem_of_getElem? here)
  · intro eventTime finished
    rcases mem_or_eq_of_mem_set finished with before | own
    · exact Int.le_trans (reached.passed eventTime before) higher
    · exact covered eventTime own.symm

theorem Reached.step (timely : Timely s i) (took : updateWatermark s i = some next) :
    Reached initial eventTimes next := by
  cases moves_of_step took with
  | load eventTime here later =>
    exact reached.move here (.storing eventTime) rfl _ (.inl rfl) (Int.le_refl _) (by simp)
  | skip eventTime here ok =>
    refine reached.move here (.done eventTime) rfl _ (.inl rfl) (Int.le_refl _) ?_
    intro x own
    cases own
    exact ok
  | store eventTime here =>
    have behind := timely eventTime here
    refine reached.move here (.done eventTime) rfl eventTime (.inr rfl) behind ?_
    intro x own
    cases own
    exact Int.le_refl _

theorem Reached.latest (finished : s.Finished) :
    (initial :: eventTimes).max? = some s.watermark := by
  refine max?_eq_some_iff.mpr ⟨?_, ?_⟩
  · rcases reached.among with first | given
    · rw [first]
      exact mem_cons_self
    · exact mem_cons_of_mem _ given
  · intro eventTime mem
    rcases mem_cons.mp mem with rfl | given
    · exact reached.base
    · rw [← reached.times] at given
      obtain ⟨c, hit, rfl⟩ := mem_map.mp given
      have ended := finished c hit
      rw [ended] at hit
      exact reached.passed _ hit

omit reached

end AsyncPractice.WatermarkProcessor
