import AsyncPractice.GoMap
import AsyncPractice.Runs

/- Insert and the passes of advanceWatermark of the WindowedTimeSeries in
solution22_timeseries_db.go. Instants and durations are nanoseconds. -/
namespace AsyncPractice.WindowedTimeSeries

def second : Int := 1000000000

/-- An instant, counted from the zero time.Time, and what else == compares in a time.Time, which
is where its location is. -/
structure Time (L : Type) where
  nanos : Int
  loc : L
  deriving DecidableEq

/-- Down to a multiple of the duration since the zero time. -/
def Time.truncate {L : Type} (t : Time L) (d : Int) : Time L :=
  if d ≤ 0 then t else { t with nanos := t.nanos - t.nanos % d }

/-- What a text of the format time.RFC3339 shows: the date and the time of day, as a number of
seconds, and the zone, in minutes unless it is Z. -/
structure RFC3339 where
  clock : Int
  zone : Option Int
  deriving DecidableEq

section

variable {L F : Type} [DecidableEq L]

structure DataPoint (L F : Type) where
  timestamp : Time L
  value : F
  tags : GoMap String String

structure Window (L F : Type) where
  start : Time L
  stop : Time L
  points : List (DataPoint L F)
  state : GoMap String F
  closed : Bool

/-- The only aggregator is the one for averages. -/
structure Store (L F : Type) where
  windows : GoMap RFC3339 (Window L F)
  watermark : Int
  lateData : GoMap (Time L) (DataPoint L F)

def newWindowedTimeSeries (now : Int) : Store L F := ⟨∅, now - 60 * second, ∅⟩

/-- The offset of a location at a time is in seconds east of UTC. Its odd seconds are not shown. -/
def Time.format (offset : L → Int → Int) (t : Time L) : RFC3339 :=
  let seconds := t.nanos / second
  let east := offset t.loc seconds
  ⟨seconds + east, if east = 0 then none else some (east.tdiv 60)⟩

def getWindow (offset : L → Int → Int) (timestamp : Time L) (windowSize : Int) : RFC3339 :=
  (timestamp.truncate windowSize).format offset

def newWindow (timestamp : Time L) (windowSize : Int) : Window L F :=
  let windowStart := timestamp.truncate windowSize
  { start := windowStart
    stop := { windowStart with nanos := windowStart.nanos + windowSize }
    points := []
    state := ∅
    closed := false }

def Window.add [Zero F] [One F] [Add F] (window : Window L F) (point : DataPoint L F) :
    Window L F :=
  let count := (window.state.lookup "count").getD 0
  let sum := (window.state.lookup "sum").getD 0
  { window with
    points := window.points ++ [point]
    state := (window.state.insert "count" (count + 1)).insert "sum" (sum + point.value) }

def insert [Zero F] [One F] [Add F] (offset : L → Int → Int) (wts : Store L F)
    (point : DataPoint L F) (windowSize : Int) : Store L F :=
  let windowKey := getWindow offset point.timestamp windowSize
  let window := (wts.windows.lookup windowKey).getD (newWindow point.timestamp windowSize)
  let wts := { wts with windows := wts.windows.insert windowKey window }
  if point.timestamp.nanos < wts.watermark then
    { wts with lateData := wts.lateData.insert point.timestamp point }
  else { wts with windows := wts.windows.insert windowKey (window.add point) }

def Window.closeBefore (watermark : Int) (window : Window L F) : Window L F :=
  if window.stop.nanos < watermark ∧ window.closed = false then { window with closed := true }
  else window

/-- One pass, which visits the windows and the late data in some order. -/
def advanceWatermark (wts : Store L F) (now : Int) (order : List RFC3339)
    (lateOrder : List (Time L)) : Store L F :=
  let watermark := now - 30 * second
  { windows := wts.windows.rangeUpdate (Window.closeBefore watermark) order
    watermark
    lateData := lateOrder.foldl (fun lateData timestamp =>
      if wts.watermark < timestamp.nanos ∧ timestamp.nanos < watermark
      then lateData.erase timestamp else lateData) wts.lateData }

end

/-- The store with the last reading of the clock and every point inserted so far. -/
structure State (L F : Type) where
  wts : Store L F
  clock : Int
  inserted : List (DataPoint L F)

inductive Event (L F : Type)
  | insert (point : DataPoint L F) (windowSize : Int)
  | advance (now : Int) (order : List RFC3339) (lateOrder : List (Time L))

section

variable {L F : Type} [DecidableEq L] [Zero F] [One F] [Add F] (offset : L → Int → Int)

def init (now : Int) : State L F := ⟨newWindowedTimeSeries now, now, []⟩

def step (s : State L F) : Event L F → Option (State L F)
  | .insert point windowSize =>
    some { s with
      wts := insert offset s.wts point windowSize
      inserted := s.inserted ++ [point] }
  | .advance now order lateOrder =>
    if GoMap.Ranges order s.wts.windows ∧ GoMap.Ranges lateOrder s.wts.lateData then
      some { s with wts := advanceWatermark s.wts now order lateOrder, clock := now }
    else none

/-- The clock does not go back. -/
def Steady (s : State L F) : Event L F → Prop
  | .insert _ _ => True
  | .advance now _ _ => s.clock ≤ now

instance decidableSteady (s : State L F) (event : Event L F) : Decidable (Steady s event) :=
  match event with
  | .insert _ _ => isTrue trivial
  | .advance now _ _ => inferInstanceAs (Decidable (s.clock ≤ now))

def steadyStep (s : State L F) (event : Event L F) : Option (State L F) :=
  if Steady s event then step offset s event else none

end

end AsyncPractice.WindowedTimeSeries
