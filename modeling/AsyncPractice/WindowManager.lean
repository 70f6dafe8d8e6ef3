import AsyncPractice.WindowedTimeSeries

/- addEvent and closeAndEvictOldWindows of solution1_WindowManagement in challenge16_solution.go,
called one after another. A window is found by the text of its start, is closed one duration after
its end and deleted two durations after it. -/
namespace AsyncPractice.WindowManager

open Finmap GoMap List Runs WindowedTimeSeries

def windowDuration : Int := 5 * second

structure StreamEvent (L D : Type) where
  id : String
  data : D
  timestamp : Time L

structure Window (L D : Type) where
  start : Time L
  stop : Time L
  events : List (StreamEvent L D)
  closed : Bool
  eventCount : Int64

/-- `closedStarts` and `evicted` only observe: the starts of the windows that were closed, and the
keys of those that were deleted. -/
structure Manager (L D : Type) where
  windows : GoMap RFC3339 (Window L D)
  closedWindows : List RFC3339
  closedStarts : List Int
  evicted : List RFC3339

variable {L D : Type} (offset : L → Int → Int)

def newManager : Manager L D := ⟨∅, [], [], []⟩

/-- The start of the interval that an instant lies in. -/
def startOf (timestamp : Time L) : Int := (timestamp.truncate windowDuration).nanos

def getWindowKey (timestamp : Time L) : RFC3339 :=
  (timestamp.truncate windowDuration).format offset

def newWindow (timestamp : Time L) : Window L D :=
  let windowStart := timestamp.truncate windowDuration
  { start := windowStart
    stop := { windowStart with nanos := windowStart.nanos + windowDuration }
    events := []
    closed := false
    eventCount := 0 }

def getOrCreateWindow (m : Manager L D) (timestamp : Time L) : Manager L D × Window L D :=
  let key := getWindowKey offset timestamp
  match m.windows.lookup key with
  | some window => (m, window)
  | none =>
    let window := newWindow timestamp
    ({ m with windows := m.windows.insert key window }, window)

/-- An event may be refused because the window is closed or because it is full. -/
def Window.refuses (window : Window L D) : Bool :=
  window.closed || decide (window.events.length ≥ 1000)

def Window.append (window : Window L D) (event : StreamEvent L D) : Window L D :=
  { window with events := window.events ++ [event], eventCount := window.eventCount + 1 }

/-- The boolean is what addEvent returns. -/
def addEvent (m : Manager L D) (event : StreamEvent L D) : Manager L D × Bool :=
  let (m, window) := getOrCreateWindow offset m event.timestamp
  if window.refuses then (m, false)
  else
    let key := getWindowKey offset event.timestamp
    ({ m with windows := m.windows.insert key (window.append event) }, true)

def Window.expired (currentTime : Int) (window : Window L D) : Prop :=
  window.stop.nanos + windowDuration < currentTime

def Window.evictable (currentTime : Int) (window : Window L D) : Prop :=
  window.stop.nanos + windowDuration * 2 < currentTime

instance (currentTime : Int) (window : Window L D) : Decidable (window.expired currentTime) :=
  inferInstanceAs (Decidable (_ < _))

instance (currentTime : Int) (window : Window L D) : Decidable (window.evictable currentTime) :=
  inferInstanceAs (Decidable (_ < _))

def closeWindow (m : Manager L D) (key : RFC3339) (window : Window L D) : Manager L D :=
  { m with
    windows := m.windows.insert key { window with closed := true }
    closedWindows := m.closedWindows ++ [key]
    closedStarts := m.closedStarts ++ [window.start.nanos] }

/-- One pass of the loop over the windows, which also collects the keys to evict. -/
def visitWindow (currentTime : Int) (visited : Manager L D × List RFC3339) (key : RFC3339) :
    Manager L D × List RFC3339 :=
  let (m, keysToEvict) := visited
  match m.windows.lookup key with
  | none => visited
  | some window =>
    if window.expired currentTime then
      let m := if window.closed then m else closeWindow m key window
      (m, if window.evictable currentTime then keysToEvict ++ [key] else keysToEvict)
    else visited

def evictWindow (m : Manager L D) (key : RFC3339) : Manager L D :=
  { m with windows := m.windows.erase key, evicted := m.evicted ++ [key] }

def closeAndEvictOldWindows (m : Manager L D) (currentTime : Int) (order : List RFC3339) :
    Manager L D :=
  let (m, keysToEvict) := order.foldl (visitWindow currentTime) (m, [])
  keysToEvict.foldl evictWindow m

inductive Call (L D : Type)
  | addEvent (event : StreamEvent L D)
  | closeAndEvict (currentTime : Int) (order : List RFC3339)

def step (m : Manager L D) : Call L D → Option (Manager L D)
  | .addEvent event => some (addEvent offset m event).1
  | .closeAndEvict currentTime order =>
    if Ranges order m.windows then some (closeAndEvictOldWindows m currentTime order)
    else none

/-- An event is not accepted once a window of its interval has been closed. -/
def StaysClosed (m : Manager L D) : Call L D → Prop
  | .addEvent event =>
    startOf event.timestamp ∈ m.closedStarts → (addEvent offset m event).2 = false
  | .closeAndEvict _ _ => True

/-- The window under the key of the event has not been evicted. When the interval of the event has
been closed, under the text of some zone, the window under the text of the event's own zone has been
closed too, or is full. -/
def Meets (m : Manager L D) : Call L D → Prop
  | .addEvent event =>
    getWindowKey offset event.timestamp ∉ m.evicted ∧
      (startOf event.timestamp ∈ m.closedStarts →
        getWindowKey offset event.timestamp ∈ m.closedWindows ∨
          ∃ window, m.windows.lookup (getWindowKey offset event.timestamp) = some window ∧
            1000 ≤ window.events.length)
  | .closeAndEvict _ _ => True

instance (m : Manager L D) (call : Call L D) : Decidable (Meets offset m call) :=
  match call with
  | .addEvent event => inferInstanceAs (Decidable (_ ∧ (_ → _ ∨
      ∃ window ∈ m.windows.lookup (getWindowKey offset event.timestamp), _)))
  | .closeAndEvict _ _ => isTrue trivial

section

/-- A closed window is listed once and is there, closed, until it is evicted; nothing comes back
under an evicted key. -/
structure Lifecycle (m : Manager L D) : Prop where
  shut : ∀ key ∈ m.closedWindows, key ∈ m.evicted ∨
    ∃ window, m.windows.lookup key = some window ∧ window.closed = true
  gone : ∀ key ∈ m.evicted, key ∉ m.windows
  listed : ∀ key window, m.windows.lookup key = some window → window.closed = true →
    key ∈ m.closedWindows
  once : m.closedWindows.Nodup
  evicted : ∀ key ∈ m.evicted, key ∈ m.closedWindows
  keyed : ∀ key window, m.windows.lookup key = some window →
    ∃ timestamp, getWindowKey offset timestamp = key ∧ startOf timestamp = window.start.nanos
  started : ∀ key ∈ m.closedWindows,
    ∃ timestamp, getWindowKey offset timestamp = key ∧ startOf timestamp ∈ m.closedStarts

variable {offset} {m t : Manager L D} {key : RFC3339} {w : Window L D}

theorem newManager_lifecycle : Lifecycle offset (newManager : Manager L D) := by
  constructor <;> simp [newManager]

variable (lc : Lifecycle offset m)
include lc

theorem Lifecycle.fresh (hit : m.windows.lookup key = some w) (opened : w.closed = false) :
    key ∉ m.closedWindows := by
  intro mem
  rcases lc.shut key mem with evicted | ⟨x, found, closed⟩
  · exact lc.gone key evicted (mem_of_lookup_eq_some hit)
  · rw [hit, Option.some.injEq] at found
    subst found
    rw [opened] at closed
    cases closed

theorem Lifecycle.put (kept : key ∉ m.evicted) (flag : w.closed = true ↔ key ∈ m.closedWindows)
    (own : ∃ timestamp, getWindowKey offset timestamp = key ∧ startOf timestamp = w.start.nanos) :
    Lifecycle offset { m with windows := m.windows.insert key w } := by
  refine ⟨?_, ?_, ?_, lc.once, lc.evicted, ?_, lc.started⟩
  · intro x mem
    by_cases eq : x = key
    · subst eq
      exact .inr ⟨w, lookup_insert _, flag.mpr mem⟩
    · rcases lc.shut x mem with evicted | ⟨found, hit, closed⟩
      · exact .inl evicted
      · exact .inr ⟨found, by rw [lookup_insert_of_ne _ eq]; exact hit, closed⟩
  · intro x mem hit
    rcases mem_insert.mp hit with eq | pre
    · exact kept (eq ▸ mem)
    · exact lc.gone x mem pre
  · intro x found hit closed
    rcases lookup_insert_cases hit with ⟨rfl, rfl⟩ | ⟨-, pre⟩
    · exact flag.mp closed
    · exact lc.listed x found pre closed
  · intro x found hit
    rcases lookup_insert_cases hit with ⟨rfl, rfl⟩ | ⟨-, pre⟩
    · exact own
    · exact lc.keyed x found pre

theorem Lifecycle.flag (hit : m.windows.lookup key = some w) :
    w.closed = true ↔ key ∈ m.closedWindows := by
  refine ⟨lc.listed key w hit, fun mem => ?_⟩
  cases closed : w.closed with
  | true => rfl
  | false => exact absurd mem (lc.fresh hit closed)

theorem Lifecycle.kept (hit : m.windows.lookup key = some w) : key ∉ m.evicted :=
  fun mem => lc.gone key mem (mem_of_lookup_eq_some hit)

theorem Lifecycle.close (hit : m.windows.lookup key = some w) (opened : w.closed = false) :
    Lifecycle offset (closeWindow m key w) := by
  have fresh := lc.fresh hit opened
  obtain ⟨ts, named, start⟩ := lc.keyed key w hit
  refine ⟨?_, ?_, ?_, ?_, ?_, ?_, ?_⟩
  · intro x mem
    by_cases eq : x = key
    · subst eq
      exact .inr ⟨_, lookup_insert _, rfl⟩
    · have pre : x ∈ m.closedWindows := by
        rcases mem_append.mp mem with pre | last
        · exact pre
        · exact absurd (mem_singleton.mp last) eq
      rcases lc.shut x pre with evicted | ⟨found, there, closed⟩
      · exact .inl evicted
      · refine .inr ⟨found, ?_, closed⟩
        exact (lookup_insert_of_ne _ eq).trans there
  · intro x mem there
    rcases mem_insert.mp there with eq | pre
    · exact lc.kept hit (eq ▸ mem)
    · exact lc.gone x mem pre
  · intro x found there closed
    rcases lookup_insert_cases there with ⟨rfl, -⟩ | ⟨-, pre⟩
    · exact mem_append_right _ (mem_singleton_self _)
    · exact mem_append_left _ (lc.listed x found pre closed)
  · refine nodup_append.mpr ⟨lc.once, nodup_singleton key, ?_⟩
    intro x pre last mem
    rw [mem_singleton.mp mem]
    exact fun eq => fresh (eq ▸ pre)
  · intro x mem
    exact mem_append_left _ (lc.evicted x mem)
  · intro x found there
    rcases lookup_insert_cases there with ⟨rfl, rfl⟩ | ⟨-, pre⟩
    · exact ⟨ts, named, start⟩
    · exact lc.keyed x found pre
  · refine forall_mem_snoc (fun x pre => ?_)
      ⟨ts, named, mem_append_right _ (mem_singleton.mpr start)⟩
    obtain ⟨stamp, eq, closed⟩ := lc.started x pre
    exact ⟨stamp, eq, mem_append_left _ closed⟩

theorem Lifecycle.evict (closed : key ∈ m.closedWindows) :
    Lifecycle offset (evictWindow m key) := by
  refine ⟨?_, ?_, ?_, lc.once, ?_, ?_, lc.started⟩
  · intro x mem
    by_cases eq : x = key
    · exact .inl (mem_append_right _ (mem_singleton.mpr eq))
    · rcases lc.shut x mem with evicted | ⟨found, hit, shut⟩
      · exact .inl (mem_append_left _ evicted)
      · exact .inr ⟨found, by rw [evictWindow, lookup_erase_ne eq]; exact hit, shut⟩
  · intro x mem hit
    obtain ⟨ne, pre⟩ := mem_erase.mp hit
    rcases mem_append.mp mem with earlier | last
    · exact lc.gone x earlier pre
    · exact ne (mem_singleton.mp last)
  · intro x found hit
    exact lc.listed x found (lookup_erase_cases hit).2
  · exact forall_mem_snoc lc.evicted closed
  · intro x found hit
    exact lc.keyed x found (lookup_erase_cases hit).2

omit lc

/-- The keys collected for eviction are those of closed windows. -/
def Collects (offset : L → Int → Int) (visited : Manager L D × List RFC3339) : Prop :=
  Lifecycle offset visited.1 ∧ ∀ key ∈ visited.2, key ∈ visited.1.closedWindows

theorem visitWindow_collects {visited : Manager L D × List RFC3339}
    (collects : Collects offset visited) (currentTime key) :
    Collects offset (visitWindow currentTime visited key) := by
  obtain ⟨lc, closed⟩ := collects
  unfold visitWindow
  dsimp only
  split
  · exact ⟨lc, closed⟩
  next w hit =>
    split
    · have done : Collects offset
          (if w.closed then visited.1 else closeWindow visited.1 key w, visited.2) ∧
          key ∈ (if w.closed then visited.1 else closeWindow visited.1 key w).closedWindows := by
        split
        next shut =>
          exact ⟨⟨lc, closed⟩, lc.listed key w hit shut⟩
        next opened =>
          refine ⟨⟨lc.close hit (Bool.eq_false_iff.mpr opened), ?_⟩, ?_⟩
          · intro x mem
            exact mem_append_left _ (closed x mem)
          · exact mem_append_right _ (mem_singleton_self key)
      obtain ⟨⟨lc, closed⟩, own⟩ := done
      refine ⟨lc, ?_⟩
      dsimp only
      split
      · exact forall_mem_snoc closed own
      · exact closed
    · exact ⟨lc, closed⟩

theorem closeAndEvict_lifecycle (lc : Lifecycle offset m) (currentTime order) :
    Lifecycle offset (closeAndEvictOldWindows m currentTime order) := by
  have visited : Collects offset (order.foldl (visitWindow currentTime) (m, [])) := by
    refine foldlRecOn order _ ⟨lc, by simp⟩ ?_
    intro visited collects key mem
    exact visitWindow_collects collects currentTime key
  obtain ⟨lc, closed⟩ := visited
  unfold closeAndEvictOldWindows
  generalize order.foldl (visitWindow currentTime) (m, []) = visited at lc closed
  -- Deleting windows leaves the list of closed ones as it is.
  refine (foldlRecOn visited.2 evictWindow (motive := fun m =>
    Lifecycle offset m ∧ m.closedWindows = visited.1.closedWindows) ⟨lc, rfl⟩ ?_).1
  intro m ⟨lc, eq⟩ key mem
  exact ⟨lc.evict (by rw [eq]; exact closed key mem), eq⟩

end

section

variable {offset} {m t : Manager L D} {e : StreamEvent L D}

theorem addEvent_present {w} (hit : m.windows.lookup (getWindowKey offset e.timestamp) = some w) :
    addEvent offset m e = if w.refuses then (m, false) else
      ({ m with
          windows := m.windows.insert (getWindowKey offset e.timestamp) (w.append e) }, true) := by
  unfold addEvent getOrCreateWindow
  dsimp only
  rw [hit]

theorem addEvent_absent (absent : m.windows.lookup (getWindowKey offset e.timestamp) = none) :
    addEvent offset m e = ({ m with
          windows := m.windows.insert (getWindowKey offset e.timestamp)
            ((newWindow e.timestamp).append e) }, true) := by
  have accepts : (newWindow e.timestamp : Window L D).refuses = false := rfl
  unfold addEvent getOrCreateWindow
  dsimp only
  rw [absent]
  rw [accepts, if_neg Bool.false_ne_true, insert_insert]

theorem addEvent_refused : (addEvent offset m e).2 = false ↔
    ∃ w, m.windows.lookup (getWindowKey offset e.timestamp) = some w ∧ w.refuses = true := by
  cases present : m.windows.lookup (getWindowKey offset e.timestamp) with
  | none => simp [addEvent_absent present]
  | some w =>
    rw [addEvent_present present]
    cases refuses : w.refuses <;> simp [refuses]

theorem addEvent_lifecycle (lc : Lifecycle offset m)
    (kept : getWindowKey offset e.timestamp ∉ m.evicted) :
    Lifecycle offset (addEvent offset m e).1 := by
  cases present : m.windows.lookup (getWindowKey offset e.timestamp) with
  | none =>
    have fresh : getWindowKey offset e.timestamp ∉ m.closedWindows := by
      intro mem
      rcases lc.shut _ mem with evicted | ⟨w, hit, -⟩
      · exact kept evicted
      · rw [present] at hit
        cases hit
    rw [addEvent_absent present]
    exact lc.put kept (iff_of_false Bool.false_ne_true fresh) ⟨e.timestamp, rfl, rfl⟩
  | some w =>
    rw [addEvent_present present]
    split
    · exact lc
    · have flag := lc.flag present
      exact lc.put kept flag (lc.keyed _ w present)

variable {c : Call L D}

theorem step_lifecycle (lc : Lifecycle offset m) (meets : Meets offset m c)
    (took : step offset m c = some t) : Lifecycle offset t := by
  cases c with
  | addEvent e =>
    cases took
    exact addEvent_lifecycle lc meets.1
  | closeAndEvict currentTime order =>
    obtain ⟨-, rfl⟩ := guard_some.mp took
    exact closeAndEvict_lifecycle lc currentTime order

theorem staysClosed_of_meets (lc : Lifecycle offset m) (meets : Meets offset m c) :
    StaysClosed offset m c := by
  cases c with
  | closeAndEvict currentTime order => trivial
  | addEvent e =>
    intro closed
    obtain ⟨kept, met⟩ := meets
    rw [addEvent_refused]
    rcases met closed with listed | ⟨w, hit, full⟩
    · rcases lc.shut _ listed with evicted | ⟨w, hit, shut⟩
      · exact absurd evicted kept
      · exact ⟨w, hit, by rw [Window.refuses, shut]; rfl⟩
    · exact ⟨w, hit, by simp [Window.refuses, full]⟩

end

section

/-- The locations are away from UTC by whole minutes. -/
def WholeMinutes (offset : L → Int → Int) : Prop := ∀ loc seconds, 60 ∣ offset loc seconds

variable {offset} {m : Manager L D} {e : StreamEvent L D}

theorem zone_inj {east x : Int} (whole : 60 ∣ east) (whole' : 60 ∣ x)
    (eq : (if east = 0 then none else some (east.tdiv 60)) =
      if x = 0 then none else some (x.tdiv 60)) : east = x := by
  obtain ⟨minutes, rfl⟩ := whole
  obtain ⟨minutes', rfl⟩ := whole'
  rw [Int.mul_tdiv_cancel_left _ (by decide), Int.mul_tdiv_cancel_left _ (by decide)] at eq
  split at eq
  · split at eq
    · omega
    · cases eq
  · split at eq
    · cases eq
    · rw [Option.some.inj eq]

theorem startOf_eq (ts : Time L) :
    startOf ts = ts.nanos - ts.nanos % windowDuration := by
  rw [startOf, Time.truncate, if_neg (by decide)]

theorem startOf_seconds (ts : Time L) :
    startOf ts = second * (startOf ts / second) := by
  rw [startOf_eq]
  unfold windowDuration second
  omega

theorem startOf_of_key (whole : WholeMinutes offset) {first x : Time L}
    (eq : getWindowKey offset first = getWindowKey offset x) :
    startOf first = startOf x := by
  have zones := zone_inj (whole _ _) (whole _ _) (congrArg RFC3339.zone eq)
  have clocks : startOf first / second + offset (first.truncate windowDuration).loc
        (startOf first / second) =
      startOf x / second + offset (x.truncate windowDuration).loc
        (startOf x / second) := congrArg RFC3339.clock eq
  have east : offset (first.truncate windowDuration).loc (startOf first / second) =
      offset (x.truncate windowDuration).loc (startOf x / second) := zones
  rw [startOf_seconds first, startOf_seconds x]
  have seconds : startOf first / second = startOf x / second := by omega
  rw [seconds]

theorem meets_of_staysClosed {c} (whole : WholeMinutes offset) (lc : Lifecycle offset m)
    (stays : StaysClosed offset m c) : Meets offset m c := by
  cases c with
  | closeAndEvict currentTime order => trivial
  | addEvent e =>
    refine ⟨?_, ?_⟩
    · -- An event under an evicted key opens a new window of the interval that was closed.
      intro evicted
      obtain ⟨ts, eq, closed⟩ := lc.started _ (lc.evicted _ evicted)
      rw [startOf_of_key whole eq] at closed
      obtain ⟨w, hit, -⟩ := addEvent_refused.mp (stays closed)
      exact lc.kept hit evicted
    · intro closed
      obtain ⟨w, hit, refuses⟩ := addEvent_refused.mp (stays closed)
      rcases Bool.or_eq_true_iff.mp refuses with shut | full
      · exact .inl (lc.listed _ w hit shut)
      · exact .inr ⟨w, hit, of_decide_eq_true full⟩

end

section

variable {offset}

theorem run_lifecycle {cs : List (Call L D)} {t : Manager L D}
    (run : exec (step offset) newManager cs = some t)
    (meets : Along (step offset) (Meets offset) newManager cs) : Lifecycle offset t :=
  exec_guarded (Lifecycle offset) newManager_lifecycle
    (fun _ _ _ held met took => step_lifecycle held met took) run meets

theorem windows_stay_closed_iff {calls : List (Call L D)} {final : Manager L D}
    (run : exec (step offset) newManager calls = some final) :
    (Along (step offset) (Meets offset) newManager calls →
        Along (step offset) (StaysClosed offset) newManager calls ∧ final.closedWindows.Nodup) ∧
      (WholeMinutes offset →
        Along (step offset) (StaysClosed offset) newManager calls →
          Along (step offset) (Meets offset) newManager calls) := by
  refine ⟨fun meets => ⟨?_, (run_lifecycle run meets).once⟩, fun whole stays => ?_⟩
  · intro before call after split m reached
    refine staysClosed_of_meets (run_lifecycle reached ?_) (meets before call after split m reached)
    exact (split ▸ meets).initial
  · -- The lifecycle up to a call rests on the calls before it, so both grow together.
    clear run
    induction calls using reverseRecOn with
    | nil => exact Along.nil
    | append_singleton calls call ih =>
      have meets := ih stays.initial
      refine meets.snoc fun m reached => ?_
      exact meets_of_staysClosed whole (run_lifecycle reached meets) (stays.last reached)

end

def utc : Unit → Int → Int := fun _ _ => 0

def eventAt (seconds : Int) : StreamEvent Unit Nat := ⟨"1", 100, ⟨seconds * second, ()⟩⟩

/-- A window that is closed and not yet evicted refuses a late event. -/
theorem late_event_refused :
    let calls : List (Call Unit Nat) := [.addEvent (eventAt 1), .closeAndEvict (11 * second)
      [⟨0, none⟩], .addEvent (eventAt 2), .closeAndEvict (12 * second) [⟨0, none⟩]]
    ∃ final, exec (step utc) newManager calls = some final ∧
      Along (step utc) (StaysClosed utc) newManager calls ∧ final.closedWindows = [⟨0, none⟩] := by
  intro calls
  have meets : Along (step utc) (Meets utc) newManager calls :=
    along_of_decide (by decide)
  exact ⟨_, rfl, ((windows_stay_closed_iff rfl).1 meets).1, rfl⟩

/-- After its window has been evicted an interval is opened and closed once more. -/
theorem evicted_window_reopens :
    ∃ m final : Manager Unit Nat,
      exec (step utc) newManager [.addEvent (eventAt 1), .closeAndEvict (20 * second) [⟨0, none⟩]] =
        some m ∧
      startOf (eventAt 2).timestamp ∈ m.closedStarts ∧ (addEvent utc m (eventAt 2)).2 = true ∧
      exec (step utc) m [.addEvent (eventAt 2), .closeAndEvict (20 * second) [⟨0, none⟩]] =
        some final ∧
      final.closedWindows = [⟨0, none⟩, ⟨0, none⟩] := by
  refine ⟨_, _, rfl, ?_, ?_, rfl, ?_⟩
  · decide
  · decide
  · decide

end AsyncPractice.WindowManager
