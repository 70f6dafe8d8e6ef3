import AsyncPractice.GoMap

/- appendEvent and getStream of solution1_EventStoreWithSnapshot in challenge13_solution.go, each
under the lock of the store. The printed lines are left out. -/
namespace AsyncPractice.EventStoreSnapshots

open List

variable {D : Type}

structure Event (D : Type) where
  id : String
  streamID : String
  type : String
  version : Nat
  data : D
  timestamp : Int
  metadata : List (String × String)

structure Snapshot (D : Type) where
  streamID : String
  version : Nat
  state : D
  timestamp : Int

structure EventStore (D : Type) where
  events : GoMap String (List (Event D))
  snapshots : GoMap String (Snapshot D)
  globalVersion : Nat
  snapshotInterval : Nat

def newStore (snapshotInterval : Nat) : EventStore D := ⟨∅, ∅, 0, snapshotInterval⟩

/-- The slice under a key without an entry is nil. -/
def EventStore.stream (store : EventStore D) (streamID : String) : List (Event D) :=
  (store.events.lookup streamID).getD []

/-- The arguments of appendEvent and the clock as it reads it, for the event and for a snapshot. -/
structure Call (D : Type) where
  streamID : String
  eventType : String
  data : D
  timestamp : Int
  snapshotTimestamp : Int

def appendEvent (store : EventStore D) (call : Call D) : EventStore D × Event D :=
  let streamVersion := (store.stream call.streamID).length
  let globalVersion := store.globalVersion + 1
  let event : Event D :=
    { id := "evt_" ++ toString globalVersion
      streamID := call.streamID
      type := call.eventType
      version := streamVersion + 1
      data := call.data
      timestamp := call.timestamp
      metadata := [("source", "api")] }
  let events := store.events.insert call.streamID (store.stream call.streamID ++ [event])
  let snapshots :=
    if (streamVersion + 1) % store.snapshotInterval = 0 then
      store.snapshots.insert call.streamID
        ⟨call.streamID, streamVersion + 1, call.data, call.snapshotTimestamp⟩
    else store.snapshots
  ({ store with events, snapshots, globalVersion }, event)

def getStream (store : EventStore D) (streamID : String) (fromVersion : Nat) :
    List (Event D) × Option (Snapshot D) :=
  let events := store.stream streamID
  match store.snapshots.lookup streamID with
  | some snapshot =>
    if fromVersion < snapshot.version then
      (events.filter fun e => snapshot.version < e.version, some snapshot)
    else (events.filter fun e => fromVersion < e.version, none)
  | none => (events.filter fun e => fromVersion < e.version, none)

def run (snapshotInterval : Nat) (calls : List (Call D)) : EventStore D :=
  calls.foldl (fun store call => (appendEvent store call).1) (newStore snapshotInterval)

def appended (calls : List (Call D)) (streamID : String) : List (Call D) :=
  calls.filter (·.streamID = streamID)

/-- The version of the snapshot after `n` events: the largest multiple of the interval. -/
def snapshotVersion (interval n : Nat) : Option Nat :=
  if n < interval then none else some (interval * (n / interval))

variable {interval : Nat}

theorem snapshotVersion_succ (pos : 1 ≤ interval) (n) :
    snapshotVersion interval (n + 1) =
      if (n + 1) % interval = 0 then some (n + 1) else snapshotVersion interval n := by
  unfold snapshotVersion
  by_cases whole : (n + 1) % interval = 0
  · have divides := Nat.dvd_of_mod_eq_zero whole
    have came := Nat.le_of_dvd (Nat.succ_pos n) divides
    rw [if_neg (by omega), if_pos whole, Nat.mul_div_cancel' divides]
  · have short : n + 1 ≠ interval := by
      rintro rfl
      exact whole (Nat.mod_self _)
    rw [if_neg whole, Nat.succ_div_of_not_dvd fun divides => whole (Nat.mod_eq_zero_of_dvd divides)]
    exact if_congr (by omega) rfl rfl

theorem stream_appendEvent (store) (c : Call D) (streamID) :
    (appendEvent store c).1.stream streamID = store.stream streamID ++
      if c.streamID = streamID then [(appendEvent store c).2] else [] := by
  unfold EventStore.stream appendEvent
  rw [GoMap.lookup_insert_ite]
  by_cases same : c.streamID = streamID
  · subst same
    simp [EventStore.stream]
  · simp [same, Ne.symm same]

theorem snapshots_appendEvent (store) (c : Call D) (streamID) :
    ((appendEvent store c).1.snapshots.lookup streamID).map (·.version) = if c.streamID = streamID ∧
        ((store.stream streamID).length + 1) % store.snapshotInterval = 0
      then some ((store.stream streamID).length + 1)
      else (store.snapshots.lookup streamID).map (·.version) := by
  unfold appendEvent
  by_cases same : c.streamID = streamID
  · subst same
    simp only [true_and]
    split
    · rw [Finmap.lookup_insert, Option.map_some]
    · rfl
  · simp only [same, false_and, if_false]
    split
    · rw [Finmap.lookup_insert_of_ne _ (Ne.symm same)]
    · rfl

/-- A stream and its snapshot after the calls for it. -/
structure Recorded (interval : Nat) (calls : List (Call D)) (store : EventStore D)
    (streamID : String) : Prop where
  interval_eq : store.snapshotInterval = interval
  contents : (store.stream streamID).map (fun e => (e.type, e.data)) =
    calls.map fun c => (c.eventType, c.data)
  versions : (store.stream streamID).map (·.version) = range' 1 calls.length
  snapshot : (store.snapshots.lookup streamID).map (·.version) =
    snapshotVersion interval calls.length

theorem Recorded.length {cs : List (Call D)} {store : EventStore D} {streamID : String}
    (rec : Recorded interval cs store streamID) :
    (store.stream streamID).length = cs.length := by
  simpa using congrArg List.length rec.contents

theorem run_recorded (pos : 1 ≤ interval) (cs : List (Call D)) (streamID) :
    Recorded interval (appended cs streamID) (run interval cs) streamID := by
  induction cs using List.reverseRecOn with
  | nil => exact ⟨rfl, rfl, rfl, (if_pos pos).symm⟩
  | append_singleton cs c ih =>
    have length := ih.length
    obtain ⟨fixed, contents, versions, snapshot⟩ := ih
    unfold run appended
    rw [foldl_concat, filter_append]
    change Recorded interval (appended cs streamID ++ _)
      (appendEvent (run interval cs) c).1 streamID
    by_cases same : c.streamID = streamID
    · rw [filter_cons_of_pos (by simpa using same), filter_nil]
      constructor
      · exact fixed
      · rw [stream_appendEvent, if_pos same, map_append, contents, map_append]
        rfl
      · rw [stream_appendEvent, if_pos same, map_append, versions, length_append, length_singleton,
          range'_concat]
        subst same
        simp [appendEvent, length, Nat.add_comm]
      · rw [snapshots_appendEvent, length_append, length_singleton, snapshotVersion_succ pos,
          length, fixed, snapshot]
        simp only [same, true_and]
    · rw [filter_cons_of_neg (by simpa using same), filter_nil, append_nil]
      constructor
      · exact fixed
      · rwa [stream_appendEvent, if_neg same, append_nil]
      · rwa [stream_appendEvent, if_neg same, append_nil]
      · rwa [snapshots_appendEvent, if_neg fun both => same both.1]

theorem filter_version {n x : Nat} {es : List (Event D)}
    (versions : es.map (·.version) = range' (x + 1) n) (version) :
    (es.filter fun e => version < e.version) = es.drop (version - x) := by
  induction es generalizing x n with
  | nil => simp
  | cons e es ih =>
    cases n with
    | zero => cases versions
    | succ n =>
      rw [map_cons, range'_succ, cons.injEq] at versions
      rw [filter_cons, ih versions.2, versions.1]
      by_cases above : version < x + 1
      · rw [if_pos (by simpa using above), show version - x = 0 by omega,
          show version - (x + 1) = 0 by omega, drop_zero, drop_zero]
      · rw [if_neg (by simpa using above),
          show version - x = version - (x + 1) + 1 by omega, drop_succ_cons]

/-- A stream's versions are one to `n`, its snapshot has the largest multiple of the interval, and
what getStream returns continues without a gap from the given version, or from a snapshot that is
above it. -/
theorem getStream_covers {interval : Nat} (positive : 1 ≤ interval) (calls : List (Call D))
    (streamID : String) (fromVersion : Nat) :
    let store := run interval calls
    let events := store.stream streamID
    let n := (appended calls streamID).length
    Recorded interval (appended calls streamID) store streamID ∧
    ∃ version, (getStream store streamID fromVersion).1 = events.drop version ∧
      (events.drop version).map (·.version) = range' (version + 1) (n - version) ∧
      match (getStream store streamID fromVersion).2 with
      | none => version = fromVersion
      | some snapshot => store.snapshots.lookup streamID = some snapshot ∧
          version = snapshot.version ∧ fromVersion < version := by
  intro store events n
  have recorded : Recorded interval (appended calls streamID) store streamID :=
    run_recorded positive calls streamID
  have above : ∀ version, (events.filter fun e => version < e.version) = events.drop version :=
    filter_version recorded.versions
  have rest : ∀ version,
      (events.drop version).map (·.version) = range' (version + 1) (n - version) := by
    intro version
    rw [map_drop, recorded.versions, drop_range', Nat.mul_one, Nat.add_comm]
  refine ⟨recorded, ?_⟩
  unfold getStream
  cases found : store.snapshots.lookup streamID with
  | none => exact ⟨fromVersion, above _, rest _, rfl⟩
  | some snapshot =>
    dsimp only
    split
    · rename_i later
      exact ⟨snapshot.version, above _, rest _, rfl, rfl, later⟩
    · exact ⟨fromVersion, above _, rest _, rfl⟩

theorem getStream_after_three :
    let calls := [⟨"a", "created", 1, 0, 0⟩, ⟨"b", "created", 7, 1, 1⟩, ⟨"a", "paid", 2, 2, 2⟩,
      ⟨"a", "shipped", 3, 3, 3⟩]
    (getStream (run 2 calls) "a" 1).1.map (·.data) = [3] ∧
      Recorded 2 (appended calls "a") (run 2 calls) "a" :=
  ⟨by decide, (getStream_covers (by decide) _ "a" 1).1⟩

end AsyncPractice.EventStoreSnapshots
