import Mathlib.Algebra.Ring.Int.Defs
import AsyncPractice.WindowedTimeSeries
import AsyncPractice.SliceSort

/- Write, flush and Query of the CompressedTimeSeries in solution22_timeseries_db.go. A flush takes
the pending points in one step and then handles its series one by one, each in two lock sections. -/
namespace AsyncPractice.CompressedTimeSeries

section

open WindowedTimeSeries

structure CompressedBlock (L : Type) where
  startTime : Time L
  endTime : Time L
  numPoints : Nat
  compressedData : List UInt8
  encoding : String

/-- The name of a series is its key, and its metadata stay empty. The last write is an instant,
at first the zero time. -/
structure SeriesData (L F : Type) where
  points : List (DataPoint L F)
  compressed : List (CompressedBlock L)
  lastWrite : Int

structure Store (L F : Type) where
  series : GoMap String (SeriesData L F)
  pending : GoMap String (List (DataPoint L F))
  size : Int64
  maxSize : Int64

/-- What the code takes from the libraries: the order that sort.Slice leaves points in, and the
bytes of the formatted numbers. -/
structure Library (L F : Type) where
  sort : List (DataPoint L F) → List (DataPoint L F)
  floatToBytes : F → List UInt8
  int64ToBytes : Int64 → List UInt8

section

variable {L F : Type}

def before (a b : DataPoint L F) : Prop := a.timestamp.nanos < b.timestamp.nanos

instance : DecidableRel (before : DataPoint L F → DataPoint L F → Prop) :=
  fun a b => inferInstanceAs (Decidable (a.timestamp.nanos < b.timestamp.nanos))

def newCompressedTimeSeries : Store L F := ⟨∅, ∅, 0, 10000⟩

/-- From the zero time.Time to the start of 1970. -/
def unixNano (t : Time L) : Int64 := Int64.ofInt (t.nanos - 62135596800 * second)

/-- The loop of Compress, which keeps the last point it has met. -/
def deltas [Sub F] (lib : Library L F) : Option (DataPoint L F) → List (DataPoint L F) → List UInt8
  | _, [] => []
  | none, p :: points =>
    lib.floatToBytes p.value ++ lib.int64ToBytes (unixNano p.timestamp) ++
      deltas lib (some p) points
  | some prev, p :: points =>
    lib.floatToBytes (p.value - prev.value) ++
      lib.int64ToBytes (unixNano p.timestamp - unixNano prev.timestamp) ++
      deltas lib (some p) points

/-- Compress sorts the caller's slice in place. Returns the slice and the bytes. -/
def compress [Sub F] (lib : Library L F) (points : List (DataPoint L F)) :
    List (DataPoint L F) × List UInt8 :=
  if points.length = 0 then (points, [])
  else
    let points := lib.sort points
    (points, deltas lib none points)

/-- Returns also whether Write starts a flush, which then begins at some later time. -/
def write (ts : Store L F) (seriesName : String) (point : DataPoint L F) : Store L F × Bool :=
  let ts := { ts with
    pending := ts.pending.insert seriesName ((ts.pending.lookup seriesName).getD [] ++ [point])
    size := ts.size + 1 }
  (ts, ts.maxSize ≤ ts.size)

def takePending (ts : Store L F) : Store L F := { ts with pending := ∅, size := 0 }

def openSeries (ts : Store L F) (seriesName : String) : Store L F :=
  match ts.series.lookup seriesName with
  | some _ => ts
  | none => { ts with series := ts.series.insert seriesName ⟨[], [], 0⟩ }

/-- The section of a flush under the lock of a series. An index out of range panics. -/
def SeriesData.take [Sub F] (lib : Library L F) (series : SeriesData L F)
    (points : List (DataPoint L F)) (now : Int) : Option (SeriesData L F) :=
  let series := { series with points := series.points ++ points, lastWrite := now }
  if series.points.length > 1000 then
    let (front, compressed) := compress lib (series.points.take 1000)
    let points := front ++ series.points.drop 1000
    match points[0]?, points[999]? with
    | some first, some last =>
      some { series with
        compressed := series.compressed ++
          [⟨first.timestamp, last.timestamp, 1000, compressed, "delta"⟩]
        points := points.drop 1000 }
    | _, _ => none
  else some series

def CompressedBlock.overlaps (block : CompressedBlock L) (start stop : Time L) : Bool :=
  start.nanos < block.endTime.nanos && block.startTime.nanos < stop.nanos

def query [Zero F] (lib : Library L F) (ts : Store L F) (seriesName : String)
    (start stop : Time L) : Except String (List (DataPoint L F)) :=
  match ts.series.lookup seriesName with
  | none => .error ("series " ++ seriesName ++ " not found")
  | some series =>
    let blocks := (series.compressed.filter (·.overlaps start stop)).map fun block =>
      ⟨block.startTime, 0, ∅⟩
    let points := series.points.filter fun point =>
      start.nanos < point.timestamp.nanos && point.timestamp.nanos < stop.nanos
    .ok (lib.sort (blocks ++ points))

end

/-- Where a call of flush stands: the series left, and the one it has opened. -/
inductive Phase (L F : Type)
  | flushing (toFlush : GoMap String (List (DataPoint L F)))
  | handling (seriesName : String) (points : List (DataPoint L F))
      (toFlush : GoMap String (List (DataPoint L F)))
  | returned

/-- The store, the flushes that have begun and, for every block of a series, the points that were
compressed into it. -/
structure State (C L F : Type) where
  ts : Store L F
  flushes : GoMap C (Phase L F)
  sources : GoMap String (List (List (DataPoint L F)))

/-- A flush may begin at any time: the ticker begins them, and every Write that finds the buffer
full. -/
inductive Event (C L F : Type)
  | write (seriesName : String) (point : DataPoint L F)
  | take (c : C)
  | openSeries (c : C) (seriesName : String)
  | handle (c : C) (now : Int)
  | finish (c : C)

section

variable {C L F : Type} [DecidableEq C] [Sub F]

def init : State C L F := ⟨newCompressedTimeSeries, ∅, ∅⟩

/-- The points compressed when a series takes new ones: the first thousand. -/
def compressedNow (series : SeriesData L F) (points : List (DataPoint L F)) :
    List (List (DataPoint L F)) :=
  if (series.points ++ points).length > 1000 then [(series.points ++ points).take 1000] else []

def step (lib : Library L F) (s : State C L F) : Event C L F → Option (State C L F)
  | .write seriesName point => some { s with ts := (write s.ts seriesName point).1 }
  | .take c =>
    if c ∈ s.flushes then none
    else some { s with
      ts := takePending s.ts
      flushes := s.flushes.insert c (.flushing s.ts.pending) }
  | .openSeries c seriesName =>
    match s.flushes.lookup c with
    | some (.flushing toFlush) =>
      (toFlush.lookup seriesName).map fun points => { s with
        ts := openSeries s.ts seriesName
        flushes := s.flushes.insert c
          (.handling seriesName points (toFlush.erase seriesName)) }
    | _ => none
  | .handle c now =>
    match s.flushes.lookup c with
    | some (.handling seriesName points toFlush) =>
      match s.ts.series.lookup seriesName with
      | some series =>
        (series.take lib points now).map fun taken => { s with
          ts := { s.ts with series := s.ts.series.insert seriesName taken }
          flushes := s.flushes.insert c (.flushing toFlush)
          sources := s.sources.insert seriesName
            ((s.sources.lookup seriesName).getD [] ++ compressedNow series points) }
      | none => none
    | _ => none
  | .finish c =>
    match s.flushes.lookup c with
    | some (.flushing toFlush) =>
      if toFlush.len = 0 then some { s with flushes := s.flushes.insert c .returned } else none
    | _ => none

end

end

/- Where the written points of a series are, and what the blocks of the series say about the points
that were compressed into them. -/
open Option Finmap GoMap List Runs

open WindowedTimeSeries (DataPoint Time)

open SliceSort (Sorts)

section

variable {C L F : Type}

def Store.pendingPoints (ts : Store L F) (seriesName : String) : List (DataPoint L F) :=
  (ts.pending.lookup seriesName).getD []

def Store.pointsInRAM (ts : Store L F) (seriesName : String) : List (DataPoint L F) :=
  ((ts.series.lookup seriesName).map (·.points)).getD []

def Store.blocks (ts : Store L F) (seriesName : String) : List (CompressedBlock L) :=
  ((ts.series.lookup seriesName).map (·.compressed)).getD []

def State.blockSources (s : State C L F) (seriesName : String) : List (List (DataPoint L F)) :=
  (s.sources.lookup seriesName).getD []

def Phase.held (seriesName : String) : Phase L F → List (DataPoint L F)
  | .flushing toFlush => (toFlush.lookup seriesName).getD []
  | .handling opened points toFlush =>
    (if opened = seriesName then points else []) ++ (toFlush.lookup seriesName).getD []
  | .returned => []

def Event.writes (seriesName : String) : Event C L F → Option (DataPoint L F)
  | .write name point => if name = seriesName then some point else none
  | _ => none

def written (seriesName : String) (events : List (Event C L F)) : List (DataPoint L F) :=
  events.filterMap (Event.writes seriesName)

theorem written_snoc (name) (es : List (Event C L F)) (e) :
    written name (es ++ [e]) = written name es ++ (e.writes name).toList := by
  unfold written
  cases given : e.writes name <;> simp [given]

end

section

variable {L F : Type}

theorem nanos_le_of_sorted {sorted : List (DataPoint L F)}
    (ord : sorted.Pairwise (fun a b => ¬ before b a)) {i j : Nat} {a b : DataPoint L F}
    (x : sorted[i]? = some a) (y : sorted[j]? = some b) (le : i ≤ j) :
    a.timestamp.nanos ≤ b.timestamp.nanos := by
  rcases Nat.eq_or_lt_of_le le with rfl | lt
  · rw [x] at y
    rw [some.inj y]
  · obtain ⟨inside, rfl⟩ := List.getElem?_eq_some_iff.mp x
    obtain ⟨inside', rfl⟩ := List.getElem?_eq_some_iff.mp y
    exact not_lt.mp (pairwise_iff_getElem.mp ord i j inside inside' lt)

variable [Sub F] {lib : Library L F}

/-- The block has the bytes and the number of these points, and its times are the times of two of
them that no other point is outside of. -/
structure Describes (lib : Library L F) (block : CompressedBlock L)
    (points : List (DataPoint L F)) : Prop where
  bytes : block.compressedData = (compress lib points).2
  count : block.numPoints = points.length
  start : ∃ p ∈ points, p.timestamp = block.startTime
  minimal : ∀ p ∈ points, block.startTime.nanos ≤ p.timestamp.nanos
  stop : ∃ p ∈ points, p.timestamp = block.endTime
  maximal : ∀ p ∈ points, p.timestamp.nanos ≤ block.endTime.nanos

variable {ps : List (DataPoint L F)}

theorem Describes.overlaps {block} (describes : Describes lib block ps) {p} (mem : p ∈ ps)
    {start stop} (later : start.nanos < p.timestamp.nanos) (pre : p.timestamp.nanos < stop.nanos) :
    block.overlaps start stop = true := by
  have least := describes.minimal p mem
  have greatest := describes.maximal p mem
  unfold CompressedBlock.overlaps
  rw [Bool.and_eq_true, decide_eq_true_eq, decide_eq_true_eq]
  exact ⟨by omega, by omega⟩

theorem describes_of_sorts (sorts : Sorts before lib.sort) {n : Nat}
    (length : ps.length = n + 1) {x last : DataPoint L F}
    (head : (lib.sort ps)[0]? = some x) (tail : (lib.sort ps)[n]? = some last) (encoding) :
    Describes lib ⟨x.timestamp, last.timestamp, n + 1, (compress lib ps).2, encoding⟩
      ps := by
  have perm := sorts.perm ps
  have located : ∀ p ∈ ps, ∃ i, i ≤ n ∧ (lib.sort ps)[i]? = some p := by
    intro p mem
    obtain ⟨i, lt, here⟩ := getElem_of_mem (perm.mem_iff.mpr mem)
    rw [perm.length_eq, length] at lt
    exact ⟨i, by omega, List.getElem?_eq_some_iff.mpr ⟨_, here⟩⟩
  refine ⟨rfl, length.symm, ⟨x, perm.mem_iff.mp (mem_of_getElem? head), rfl⟩, ?_,
    ⟨last, perm.mem_iff.mp (mem_of_getElem? tail), rfl⟩, ?_⟩
  · intro p mem
    obtain ⟨i, -, here⟩ := located p mem
    exact nanos_le_of_sorted (sorts.ordered ps) head here (Nat.zero_le i)
  · intro p mem
    obtain ⟨i, le, here⟩ := located p mem
    exact nanos_le_of_sorted (sorts.ordered ps) here tail le

/-- Taking new points never panics. It compresses some points into blocks that describe them and
keeps the others. -/
theorem take_spec (sorts : Sorts before lib.sort) (series ps now) :
    ∃ taken blocks, series.take lib ps now = some taken ∧
      taken.compressed = series.compressed ++ blocks ∧
      List.Forall₂ (Describes lib) blocks (compressedNow series ps) ∧
      (compressedNow series ps).flatten ++ taken.points = series.points ++ ps := by
  unfold SeriesData.take compressedNow
  generalize series.points ++ ps = all
  by_cases long : all.length > 1000
  · have size : (all.take 1000).length = 999 + 1 := by
      rw [length_take]
      omega
    have sortedSize : (lib.sort (all.take 1000)).length = 1000 := by
      rw [(sorts.perm _).length_eq, size]
    have compressed : compress lib (all.take 1000) =
        (lib.sort (all.take 1000), deltas lib none (lib.sort (all.take 1000))) := by
      unfold compress
      rw [if_neg (by omega)]
    have atFront : ∀ i, i < 1000 → ∃ p, (lib.sort (all.take 1000))[i]? = some p ∧
        (lib.sort (all.take 1000) ++ all.drop 1000)[i]? = some p := by
      intro i lt
      rw [getElem?_append_left (by omega)]
      exact ⟨_, getElem?_eq_getElem (by omega), getElem?_eq_getElem (by omega)⟩
    obtain ⟨x, head, head'⟩ := atFront 0 (by omega)
    obtain ⟨last, tail, tail'⟩ := atFront 999 (by omega)
    have describes := describes_of_sorts sorts size head tail "delta"
    rw [compressed] at describes
    simp only [if_pos long, compressed, head', tail']
    refine ⟨_, [_], rfl, rfl, List.Forall₂.cons describes .nil, ?_⟩
    rw [drop_left' sortedSize, flatten_singleton, take_append_drop]
  · simp only [if_neg long]
    exact ⟨_, [], rfl, (append_nil _).symm, .nil, rfl⟩

end

section

variable {C L F : Type} [DecidableEq C] {s t : State C L F} {c : C}

def inFlight (flushes : GoMap C (Phase L F)) (seriesName : String) : Multiset (DataPoint L F) :=
  flushes.gather fun phase => (phase.held seriesName : Multiset (DataPoint L F))

variable {flushes : GoMap C (Phase L F)}

theorem inFlight_insert {phase} (stands : flushes.lookup c = some phase) (after name) :
    inFlight (flushes.insert c after) name + phase.held name =
      inFlight flushes name + after.held name := by
  have new := gather_insert
    (fun phase : Phase L F => (phase.held name : Multiset (DataPoint L F))) flushes c after
  rwa [stands] at new

variable {ps : List (DataPoint L F)} {toFlush : GoMap String (List (DataPoint L F))}

theorem inFlight_handled {opened}
    (stands : flushes.lookup c = some (.handling opened ps toFlush)) (name) :
    inFlight (flushes.insert c (.flushing toFlush)) name +
      (if opened = name then ps else [] : List (DataPoint L F)) = inFlight flushes name := by
  have moved := inFlight_insert stands (.flushing toFlush) name
  simp only [Phase.held] at moved
  rw [← Multiset.coe_add, ← add_assoc] at moved
  exact add_right_cancel moved

theorem inFlight_new (new : c ∉ flushes) (after name) :
    inFlight (flushes.insert c after) name = inFlight flushes name + after.held name := by
  have replaced := gather_insert
    (fun phase : Phase L F => (phase.held name : Multiset (DataPoint L F))) flushes c after
  rwa [lookup_eq_none.mpr new, Option.map_none, getD_none, add_zero] at replaced

theorem card_inFlight (flushes : GoMap C (Phase L F)) (name) :
    Multiset.card (inFlight flushes name) =
      total (fun phase => (phase.held name).length) flushes := by
  unfold inFlight gather total
  rw [Multiset.card_sum]
  apply Finset.sum_congr rfl
  intro c _
  cases flushes.lookup c <;> rfl

theorem held_handling (opened name) (hit : toFlush.lookup opened = some ps) :
    (Phase.handling opened ps (toFlush.erase opened)).held name =
      (Phase.flushing toFlush).held name := by
  unfold Phase.held
  dsimp only
  by_cases same : name = opened
  · subst same
    simp [hit]
  · simp [same, Ne.symm same]

theorem pendingPoints_write (ts) (name seriesName : String) (p : DataPoint L F) :
    (write ts name p).1.pendingPoints seriesName =
      ts.pendingPoints seriesName ++ (if name = seriesName then some p else none).toList := by
  unfold write Store.pendingPoints
  by_cases same : seriesName = name
  · subst same
    simp
  · simp [same, Ne.symm same]

theorem openSeries_same (ts : Store L F) (name seriesName) :
    (openSeries ts name).pendingPoints seriesName = ts.pendingPoints seriesName ∧
      (openSeries ts name).pointsInRAM seriesName = ts.pointsInRAM seriesName ∧
      (openSeries ts name).blocks seriesName = ts.blocks seriesName := by
  unfold openSeries Store.pendingPoints Store.pointsInRAM Store.blocks
  split
  · exact ⟨rfl, rfl, rfl⟩
  next absent =>
    by_cases same : seriesName = name
    · subst same
      simp [absent]
    · simp [same]

variable [Sub F] {lib : Library L F}

theorem step_openSeries {name} (took : step lib s (.openSeries c name) = some t) :
    ∃ toFlush ps, s.flushes.lookup c = some (.flushing toFlush) ∧ toFlush.lookup name = some ps ∧
      t = { s with
        ts := openSeries s.ts name
        flushes := s.flushes.insert c (.handling name ps (toFlush.erase name)) } := by
  simp only [step] at took
  split at took
  next toFlush stands =>
    obtain ⟨ps, hit, rfl⟩ := map_eq_some_iff.mp took
    exact ⟨toFlush, ps, stands, hit, rfl⟩
  · cases took

theorem step_handle {now} (took : step lib s (.handle c now) = some t) :
    ∃ name ps toFlush series taken, s.flushes.lookup c = some (.handling name ps toFlush) ∧
      s.ts.series.lookup name = some series ∧ series.take lib ps now = some taken ∧
      t = { s with
        ts := { s.ts with series := s.ts.series.insert name taken }
        flushes := s.flushes.insert c (.flushing toFlush)
        sources := s.sources.insert name
          ((s.sources.lookup name).getD [] ++ compressedNow series ps) } := by
  simp only [step] at took
  split at took
  next name ps toFlush stands =>
    split at took
    next series hit =>
      obtain ⟨taken, grown, rfl⟩ := map_eq_some_iff.mp took
      exact ⟨name, ps, toFlush, series, taken, stands, hit, grown, rfl⟩
    · cases took
  · cases took

theorem step_finish (took : step lib s (.finish c) = some t) :
    ∃ toFlush, s.flushes.lookup c = some (.flushing toFlush) ∧ toFlush.len = 0 ∧
      t = { s with flushes := s.flushes.insert c .returned } := by
  simp only [step] at took
  split at took
  next toFlush stands =>
    obtain ⟨empty, eq⟩ := ite_none_right_eq_some.mp took
    exact ⟨toFlush, stands, empty, (some.inj eq).symm⟩
  · cases took

end

section

variable {C L F : Type} [DecidableEq C] [Sub F] {lib : Library L F} {s t : State C L F}

/-- The points written to a series are in the buffer, with a flush, in memory or compressed, and
the blocks of the series describe the compressed ones. -/
structure Kept (lib : Library L F) (seriesName : String) (points : List (DataPoint L F))
    (s : State C L F) : Prop where
  conserved : (points : Multiset (DataPoint L F)) =
    s.ts.pendingPoints seriesName + inFlight s.flushes seriesName + s.ts.pointsInRAM seriesName +
      (s.blockSources seriesName).flatten
  described : List.Forall₂ (Describes lib) (s.ts.blocks seriesName) (s.blockSources seriesName)

variable {seriesName : String} {ps : List (DataPoint L F)}

theorem Kept.congr (kept : Kept lib seriesName ps s)
    (pending : t.ts.pendingPoints seriesName = s.ts.pendingPoints seriesName)
    (flights : inFlight t.flushes seriesName = inFlight s.flushes seriesName)
    (inRAM : t.ts.pointsInRAM seriesName = s.ts.pointsInRAM seriesName)
    (blocks : t.ts.blocks seriesName = s.ts.blocks seriesName)
    (sources : t.blockSources seriesName = s.blockSources seriesName) :
    Kept lib seriesName ps t := by
  refine ⟨?_, ?_⟩
  · rw [kept.conserved, pending, flights, inRAM, sources]
  · rw [blocks, sources]
    exact kept.described

variable {name : String}

theorem kept_write {point} (kept : Kept lib seriesName ps s) :
    Kept lib seriesName (ps ++ (if name = seriesName then some point else none).toList)
      { s with ts := (write s.ts name point).1 } := by
  refine ⟨?_, kept.described⟩
  rw [pendingPoints_write, ← Multiset.coe_add, ← Multiset.coe_add, kept.conserved]
  ac_rfl

variable {c : C} (kept : Kept lib seriesName ps s)
include kept

theorem kept_take (took : step lib s (.take c) = some t) : Kept lib seriesName ps t := by
  obtain ⟨new, eq⟩ := ite_none_left_eq_some.mp took
  cases eq
  refine ⟨?_, kept.described⟩
  rw [kept.conserved, inFlight_new new]
  simp only [Store.pendingPoints, State.blockSources, Store.pointsInRAM, takePending, Phase.held]
  ac_rfl

theorem kept_openSeries (took : step lib s (.openSeries c name) = some t) :
    Kept lib seriesName ps t := by
  obtain ⟨toFlush, taken, stands, hit, rfl⟩ := step_openSeries took
  obtain ⟨pending, inRAM, blocks⟩ := openSeries_same s.ts name seriesName
  refine kept.congr pending ?_ inRAM blocks rfl
  have moved := inFlight_insert stands (.handling name taken (toFlush.erase name)) seriesName
  rw [held_handling name seriesName hit] at moved
  exact add_right_cancel moved

theorem kept_finish (took : step lib s (.finish c) = some t) : Kept lib seriesName ps t := by
  obtain ⟨toFlush, stands, empty, rfl⟩ := step_finish took
  refine kept.congr rfl ?_ rfl rfl rfl
  have moved := inFlight_insert stands .returned seriesName
  simp only [Phase.held, lookup_of_len_zero empty, getD_none] at moved
  exact add_right_cancel moved

omit kept

theorem kept_handle (sorts : Sorts before lib.sort) {now} (kept : Kept lib seriesName ps s)
    (took : step lib s (.handle c now) = some t) : Kept lib seriesName ps t := by
  obtain ⟨name, added, toFlush, series, taken, stands, hit, grown, rfl⟩ := step_handle took
  have left := inFlight_handled stands seriesName
  by_cases same : name = seriesName
  · subst same
    rw [if_pos rfl] at left
    obtain ⟨taken', blocks, grown', compressed, describe, split⟩ := take_spec sorts series added now
    obtain rfl := some.inj (grown.symm.trans grown')
    obtain ⟨inv, described⟩ := kept
    simp only [Store.pointsInRAM, Store.blocks, State.blockSources, hit, Option.map_some,
      getD_some] at inv described
    have split := congrArg Multiset.ofList split
    rw [← Multiset.coe_add, ← Multiset.coe_add] at split
    constructor
    · simp only [Store.pointsInRAM, State.blockSources, lookup_insert, Option.map_some,
        getD_some, flatten_append, ← Multiset.coe_add]
      rw [inv, ← left, Store.pendingPoints]
      calc _ = (s.ts.pending.lookup name).getD [] +
            inFlight (s.flushes.insert c (.flushing toFlush)) name +
            (series.points + added : Multiset (DataPoint L F)) +
            ((s.sources.lookup name).getD []).flatten := by ac_rfl
        _ = _ := by
          rw [← split]
          ac_rfl
    · simp only [Store.blocks, State.blockSources, lookup_insert, Option.map_some,
        getD_some, compressed]
      exact rel_append described describe
  · have others : lookup seriesName (s.ts.series.insert name taken) =
        s.ts.series.lookup seriesName := lookup_insert_of_ne _ (Ne.symm same)
    refine kept.congr rfl ?_ ?_ ?_ ?_
    · rw [if_neg same, Multiset.coe_nil, add_zero] at left
      exact left
    · simp only [Store.pointsInRAM, others]
    · simp only [Store.blocks, others]
    · simp only [State.blockSources, lookup_insert_of_ne _ (Ne.symm same)]

theorem kept_step (sorts : Sorts before lib.sort) {e} (kept : Kept lib seriesName ps s)
    (took : step lib s e = some t) :
    Kept lib seriesName (ps ++ (e.writes seriesName).toList) t := by
  cases e with
  | write name p =>
    cases took
    exact kept_write kept
  | take c => simpa [Event.writes] using kept_take kept took
  | openSeries c name => simpa [Event.writes] using kept_openSeries kept took
  | handle c now => simpa [Event.writes] using kept_handle sorts kept took
  | finish c => simpa [Event.writes] using kept_finish kept took

theorem kept_run (sorts : Sorts before lib.sort) {es} (run : exec (step lib) init es = some s)
    (seriesName) : Kept lib seriesName (written seriesName es) s := by
  refine exec_history (fun es s => Kept lib seriesName (written seriesName es) s) ⟨rfl, .nil⟩ ?_ run
  intro es s e t _ kept took
  rw [written_snoc]
  exact kept_step sorts kept took

theorem numPoints_eq {blocks sources} (described : List.Forall₂ (Describes lib) blocks sources) :
    blocks.foldr (fun b n => b.numPoints + n) 0 = sources.flatten.length := by
  induction described with
  | nil => rfl
  | cons describes _ ih =>
    rw [foldr_cons, ih, describes.count, flatten_cons, length_append]

/-- A point written is counted once, wherever it is, and every block's times are those of the
first and the last of its points, so that Query finds it by any of them. -/
theorem points_counted (sorts : Sorts before lib.sort) {events : List (Event C L F)}
    (run : exec (step lib) init events = some s) (seriesName : String) :
    (written seriesName events).length =
        (s.ts.pendingPoints seriesName).length +
          GoMap.total (fun phase => (phase.held seriesName).length) s.flushes +
          (s.ts.pointsInRAM seriesName).length +
          (s.ts.blocks seriesName).foldr (fun block n => block.numPoints + n) 0 ∧
      List.Forall₂ (fun block points => Describes lib block points ∧
          ∀ p ∈ points, ∀ start stop : Time L, start.nanos < p.timestamp.nanos →
            p.timestamp.nanos < stop.nanos → block.overlaps start stop = true)
        (s.ts.blocks seriesName) (s.blockSources seriesName) := by
  obtain ⟨conserved, described⟩ := kept_run sorts run seriesName
  constructor
  · have counted := congrArg Multiset.card conserved
    simp only [Multiset.card_add, Multiset.coe_card] at counted
    rw [counted, numPoints_eq described, card_inFlight]
  · refine described.imp fun block points describes => ⟨describes, ?_⟩
    intro p member start stop later earlier
    exact describes.overlaps member later earlier

def sortOnly : Library Unit Int := ⟨SliceSort.sortSlice before, fun _ => [], fun _ => []⟩

def burst : List (DataPoint Unit Int) :=
  ⟨⟨9, ()⟩, 5, ∅⟩ :: List.replicate 1000 ⟨⟨7, ()⟩, 5, ∅⟩

def flushAll : List (Event Unit Unit Int) :=
  [.take (), .openSeries () "cpu", .handle () 60, .finish ()]

theorem points_counted_burst :
    ∃ s, exec (step sortOnly) init (burst.map (.write "cpu") ++ flushAll) = some s ∧
      (written "cpu" (burst.map (.write "cpu") ++ flushAll)).length =
        (s.ts.pendingPoints "cpu").length +
          GoMap.total (fun phase => (phase.held "cpu").length) s.flushes +
          (s.ts.pointsInRAM "cpu").length +
          (s.ts.blocks "cpu").foldr (fun block n => block.numPoints + n) 0 ∧
      (s.ts.blocks "cpu").map (fun block =>
        (block.startTime.nanos, block.endTime.nanos, block.numPoints)) = [(7, 9, 1000)] := by
  refine exists_exec (fun s => (s.ts.blocks "cpu").map (fun block =>
    (block.startTime.nanos, block.endTime.nanos, block.numPoints)) = [(7, 9, 1000)])
    (by decide +kernel) fun s run blocks => ⟨?_, blocks⟩
  exact (points_counted (SliceSort.sortSlice_sorts fun _ _ => Iff.rfl) run "cpu").1

end

section

variable {C L F : Type} [DecidableEq C] {s t : State C L F}

/-- A series that a flush handles is in the map: nothing deletes it. -/
def Opened (s : State C L F) : Prop :=
  ∀ c name points toFlush, s.flushes.lookup c = some (.handling name points toFlush) →
    name ∈ s.ts.series

theorem mem_openSeries (ts : Store L F) (name) : name ∈ (openSeries ts name).series := by
  unfold openSeries
  split
  next series hit =>
    exact mem_of_lookup_eq_some hit
  · exact mem_insert.mpr (.inl rfl)

variable {name : String}

theorem mem_openSeries_of_mem {ts : Store L F} (hit : name ∈ ts.series) (opened) :
    name ∈ (openSeries ts opened).series := by
  unfold openSeries
  split
  · exact hit
  · exact mem_insert.mpr (.inr hit)

variable [Sub F] {lib : Library L F}

theorem opened_step {e : Event C L F} (opened : Opened s) (took : step lib s e = some t) :
    Opened t := by
  intro c name ps toFlush stands
  cases e with
  | write _ _ =>
    cases took
    exact opened c name ps toFlush stands
  | take d =>
    obtain ⟨-, eq⟩ := ite_none_left_eq_some.mp took
    cases eq
    obtain ⟨-, impossible⟩ | ⟨-, pre⟩ := lookup_insert_cases stands
    · cases impossible
    · exact opened c name ps toFlush pre
  | openSeries d x =>
    obtain ⟨_, _, -, -, rfl⟩ := step_openSeries took
    obtain ⟨-, eq⟩ | ⟨-, pre⟩ := lookup_insert_cases stands
    · cases eq
      exact mem_openSeries s.ts name
    · exact mem_openSeries_of_mem (opened c name ps toFlush pre) x
  | handle d now =>
    obtain ⟨x, _, _, _, _, -, -, -, rfl⟩ := step_handle took
    obtain ⟨-, impossible⟩ | ⟨-, pre⟩ := lookup_insert_cases stands
    · cases impossible
    · exact mem_insert.mpr (.inr (opened c name ps toFlush pre))
  | finish d =>
    obtain ⟨_, -, -, rfl⟩ := step_finish took
    obtain ⟨-, impossible⟩ | ⟨-, pre⟩ := lookup_insert_cases stands
    · cases impossible
    · exact opened c name ps toFlush pre

/-- A flush gets through the section under the lock of a series. -/
theorem handle_enabled (sorts : Sorts before lib.sort) {es} (run : exec (step lib) init es = some s)
    {c ps toFlush} (stands : s.flushes.lookup c = some (.handling name ps toFlush)) (now) :
    ∃ t, step lib s (.handle c now) = some t := by
  have opened : Opened s := by
    refine exec_invariant Opened ?_ (fun _ _ _ => opened_step) run
    intro c name ps toFlush stands
    cases stands
  obtain ⟨series, hit⟩ := mem_iff.mp (opened c name ps toFlush stands)
  obtain ⟨taken, _, grown, -⟩ := take_spec sorts series ps now
  simp only [step, stands, hit, grown, Option.map_some]
  exact ⟨_, rfl⟩

theorem handle_enabled_opened :
    ∃ s, exec (step sortOnly) init
        [.write "cpu" ⟨⟨9, ()⟩, 5, ∅⟩, .take (), .openSeries () "cpu"] = some s ∧
      ∃ t, step sortOnly s (.handle () 60) = some t := by
  have run : exec (step sortOnly) init
    [.write "cpu" ⟨⟨9, ()⟩, 5, ∅⟩, .take (), .openSeries () "cpu"] = some _ := rfl
  exact ⟨_, run, handle_enabled (SliceSort.sortSlice_sorts fun _ _ => Iff.rfl) run rfl 60⟩

/-- Once no write of a series is pending or with a flush, a query that a point written lies within
returns the point, or the stand-in for a block whose times it lies between. -/
theorem query_misses_none [Zero F] (sorts : Sorts before lib.sort) {es}
    (run : exec (step lib) init es = some s) {p} (mem : p ∈ written name es)
    (settled : s.ts.pendingPoints name = [] ∧ inFlight s.flushes name = 0) {start stop}
    (late : start.nanos < p.timestamp.nanos) (early : p.timestamp.nanos < stop.nanos) :
    ∃ results, query lib s.ts name start stop = .ok results ∧ (p ∈ results ∨
      ∃ block ∈ s.ts.blocks name, ⟨block.startTime, 0, ∅⟩ ∈ results ∧
        block.startTime.nanos ≤ p.timestamp.nanos ∧ p.timestamp.nanos ≤ block.endTime.nanos) := by
  obtain ⟨conserved, described⟩ := kept_run sorts run name
  have there : p ∈ s.ts.pointsInRAM name ∨ p ∈ (s.blockSources name).flatten := by
    have mem : p ∈ (written name es : Multiset (DataPoint L F)) := mem
    rw [conserved, settled.1, settled.2] at mem
    simpa only [Multiset.coe_nil, zero_add, Multiset.mem_add, Multiset.mem_coe] using mem
  unfold query Store.blocks
  unfold Store.pointsInRAM at there
  unfold Store.blocks at described
  cases found : s.ts.series.lookup name with
  | none =>
    rw [found] at there described
    rw [forall₂_nil_left_iff.mp described] at there
    simp at there
  | some series =>
    rw [found] at there described
    refine ⟨_, rfl, ?_⟩
    simp only [(sorts.perm _).mem_iff]
    rcases there with kept | compressed
    · exact .inl (mem_append_right _ (mem_filter.mpr ⟨kept, by simp [late, early]⟩))
    · obtain ⟨source, listed, mem⟩ := mem_flatten.mp compressed
      obtain ⟨i, lt, rfl⟩ := mem_iff_getElem.mp listed
      have describes := described.get (described.length_eq ▸ lt) lt
      refine .inr ⟨_, getElem_mem _, mem_append_left _ (mem_map_of_mem (mem_filter.mpr
        ⟨getElem_mem _, describes.overlaps mem late early⟩)), ?_, ?_⟩
      · exact describes.minimal p mem
      · exact describes.maximal p mem

theorem query_misses_none_flushed :
    ∃ s, exec (step sortOnly) init (.write "cpu" ⟨⟨9, ()⟩, 5, ∅⟩ :: flushAll) = some s ∧
      ∃ results, query sortOnly s.ts "cpu" ⟨8, ()⟩ ⟨10, ()⟩ = .ok results := by
  have run : exec (step sortOnly) init (.write "cpu" ⟨⟨9, ()⟩, 5, ∅⟩ :: flushAll) = some _ := rfl
  have mem : ⟨⟨9, ()⟩, 5, ∅⟩ ∈ written "cpu" (.write "cpu" ⟨⟨9, ()⟩, 5, ∅⟩ :: flushAll) :=
    mem_cons_self ..
  obtain ⟨results, answer, -⟩ := query_misses_none (SliceSort.sortSlice_sorts fun _ _ => Iff.rfl)
    run mem ⟨rfl, rfl⟩ (show Time.nanos ⟨8, ()⟩ < 9 by decide)
    (show 9 < Time.nanos ⟨10, ()⟩ by decide)
  exact ⟨_, run, results, answer⟩

end

end AsyncPractice.CompressedTimeSeries
