import AsyncPractice.BucketIndex
import AsyncPractice.Runs
import AsyncPractice.SliceSort
import AsyncPractice.MachineInt
import AsyncPractice.NumberedName

/- DistributedTimeSeries of solution22_timeseries_db.go. Times are nanoseconds since the Unix
epoch; an index out of range panics, which is `none`. -/
namespace AsyncPractice.DistributedTimeSeries

section

variable {V : Type}

/-- A point with its value and tags, which nothing here looks at. -/
structure DataPoint (V : Type) where
  timestamp : Int
  value : V
  deriving DecidableEq

def second : Int := 1000000000

/-- The Unix time of the full hour: t.Truncate(time.Hour).Unix(). -/
def truncateHour (t : Int) : Int := t / (3600 * second) * 3600

def DataPoint.hour (point : DataPoint V) : Int := truncateHour point.timestamp

structure ShardSeries (V : Type) where
  points : List (DataPoint V)
  hourBuckets : GoMap Int (List Nat)
  retention : Int

structure TimeSeriesShard (V : Type) where
  data : GoMap String (ShardSeries V)

/-- With the maps of its router and the loads of its load balancer. -/
structure Store (V : Type) where
  shards : List (TimeSeriesShard V)
  numShards : Nat
  seriesMapping : GoMap String Nat
  shardLoads : List Int64

def newDistributedTimeSeries (numShards : Nat) : Store V where
  shards := List.replicate numShards ⟨∅⟩
  numShards := numShards
  seriesMapping := ∅
  shardLoads := List.replicate numShards 0

def minShard (shardLoads : List Int64) (numShards : Nat) : Nat :=
  (List.range' 1 (numShards - 1)).foldl
    (fun minShard i => if shardLoads.getD i 0 < shardLoads.getD minShard 0 then i else minShard) 0

def getShard (dts : Store V) (seriesName : String) : Option (Store V × Nat) :=
  match dts.seriesMapping.lookup seriesName with
  | some shardID => some (dts, shardID)
  | none =>
    if dts.shardLoads.length = 0 then none
    else
      let minShard := minShard dts.shardLoads dts.numShards
      some ({ dts with
        shardLoads := dts.shardLoads.modify minShard (· + 1)
        seriesMapping := dts.seriesMapping.insert seriesName minShard }, minShard)

def newShardSeries : ShardSeries V := ⟨[], ∅, 7 * 24 * 3600 * second⟩

def ShardSeries.append (series : ShardSeries V) (point : DataPoint V) : ShardSeries V :=
  { series with
    points := series.points ++ [point]
    hourBuckets := BucketIndex.add series.hourBuckets point.hour series.points.length }

/-- Drops the points at the front that are too old, when there are any, and numbers the others
anew. -/
def ShardSeries.applyRetention (series : ShardSeries V) (now : Int) : ShardSeries V :=
  let cutoff := now - series.retention
  if series.points.head?.any (fun point => point.timestamp < cutoff) then
    let points := series.points.dropWhile fun point => point.timestamp < cutoff
    { series with points, hourBuckets := BucketIndex.build DataPoint.hour points }
  else series

structure WriteCall (V : Type) where
  seriesName : String
  point : DataPoint V
  now : Int

def write (dts : Store V) (call : WriteCall V) : Option (Store V) :=
  (getShard dts call.seriesName).bind fun (dts, shardID) =>
    dts.shards[shardID]?.map fun shard =>
      let series := (shard.data.lookup call.seriesName).getD newShardSeries
      let series := (series.append call.point).applyRetention call.now
      { dts with shards := dts.shards.set shardID ⟨shard.data.insert call.seriesName series⟩ }

def hours (startHour endHour : Int) : List Int :=
  (List.range ((endHour - startHour) / 3600 + 1).toNat).map
    fun i : Nat => startHour + 3600 * (i : Int)

def between (start stop : Int) (point : DataPoint V) : Bool :=
  start < point.timestamp ∧ point.timestamp < stop

def queryShard (series : ShardSeries V) (start stop : Int) : List (DataPoint V) :=
  (hours (truncateHour start) (truncateHour stop + 3600)).flatMap fun hour =>
    ((series.hourBuckets.lookup hour).getD []).filterMap fun idx =>
      series.points[idx]?.filter (between start stop)

/-- `sort` is what sort.Slice does with the results. -/
def distributedQuery (sort : List (DataPoint V) → List (DataPoint V)) (dts : Store V)
    (seriesName : String) (start stop : Int) : Option (Store V × List (DataPoint V)) :=
  (getShard dts seriesName).bind fun (dts, shardID) =>
    dts.shards[shardID]?.map fun shard =>
      match shard.data.lookup seriesName with
      | none => (dts, sort [])
      | some series => (dts, sort (queryShard series start stop))

/-- Every point stored under the name, in whatever shard. -/
def storedPoints (dts : Store V) (seriesName : String) : List (DataPoint V) :=
  dts.shards.flatMap fun shard => ((shard.data.lookup seriesName).map (·.points)).getD []

end

section

open Option BucketIndex Finmap List Runs

variable {V : Type}

/-- The index of the series is that of its points. -/
structure ShardSeries.Sound (series : ShardSeries V) : Prop where
  indexed : Indexes DataPoint.hour series.points series.hourBuckets
  retention : series.retention = 7 * 24 * 3600 * second

/-- Every name is routed to a shard, and nothing is stored under it in another one. -/
structure Consistent (dts : Store V) : Prop where
  positive : 0 < dts.numShards
  shards : dts.shards.length = dts.numShards
  loads : dts.shardLoads.length = dts.numShards
  routed : ∀ name id, dts.seriesMapping.lookup name = some id → id < dts.numShards
  placed : ∀ id shard, dts.shards[id]? = some shard → ∀ name series,
    shard.data.lookup name = some series →
    dts.seriesMapping.lookup name = some id ∧ series.Sound

theorem newDistributedTimeSeries_consistent {n} (pos : 0 < n) :
    Consistent (newDistributedTimeSeries n : Store V) := by
  refine ⟨pos, length_replicate, length_replicate, ?_, ?_⟩
  · intro name id mapped
    simp [newDistributedTimeSeries] at mapped
  · intro id shard hit name series stored
    have empty := eq_of_mem_replicate (mem_of_getElem? hit)
    rw [empty, lookup_empty] at stored
    cases stored

variable {series : ShardSeries V}

theorem newShardSeries_sound : (newShardSeries : ShardSeries V).Sound :=
  ⟨indexes_nil, rfl⟩

theorem ShardSeries.Sound.append (inv : series.Sound) (p) : (series.append p).Sound :=
  ⟨inv.indexed.snoc p, inv.retention⟩

theorem ShardSeries.Sound.applyRetention (inv : series.Sound) (now) :
    (series.applyRetention now).Sound := by
  unfold ShardSeries.applyRetention
  dsimp only
  split
  · exact ⟨build_indexes _ _, inv.retention⟩
  · exact inv

theorem points_applyRetention (series : ShardSeries V) (now) :
    (series.applyRetention now).points =
      series.points.dropWhile fun p => p.timestamp < now - series.retention := by
  unfold ShardSeries.applyRetention
  dsimp only
  split
  · rfl
  next young =>
    cases points : series.points with
    | nil => rfl
    | cons first rest =>
      rw [points] at young
      rw [dropWhile_cons, if_neg (by simpa using young)]

theorem hour_mem_hours {start stop : Int} {p : DataPoint V} (lt : between start stop p = true) :
    p.hour ∈ hours (truncateHour start) (truncateHour stop + 3600) := by
  simp only [between, Bool.decide_and, Bool.and_eq_true, decide_eq_true_eq] at lt
  have early : start / (3600 * second) ≤ p.timestamp / (3600 * second) :=
    Int.ediv_le_ediv (by decide) (by omega)
  have late : p.timestamp / (3600 * second) ≤ stop / (3600 * second) :=
    Int.ediv_le_ediv (by decide) (by omega)
  unfold hours DataPoint.hour truncateHour
  refine mem_map.mpr ⟨(p.timestamp / (3600 * second) -
    start / (3600 * second)).toNat, mem_range.mpr ?_, ?_⟩
  · omega
  · omega

theorem hours_nodup (startHour endHour) : (hours startHour endHour).Nodup := by
  apply List.Nodup.map _ nodup_range
  intro i j eq
  dsimp only at eq
  omega

/-- The hour loop meets every point in the range exactly once. -/
theorem queryShard_perm (inv : series.Sound) (start stop) :
    (queryShard series start stop).Perm (series.points.filter (between start stop)) := by
  unfold queryShard
  simp only [inv.indexed.fetch (between start stop)]
  apply flatMap_filter_perm (hours_nodup _ _)
  intro p mem
  exact hour_mem_hours (mem_filter.mp mem).2

theorem minShard_lowest (shardLoads) {numShards} (pos : 0 < numShards) :
    minShard shardLoads numShards < numShards ∧ ∀ i < numShards,
      shardLoads.getD (minShard shardLoads numShards) 0 ≤ shardLoads.getD i 0 := by
  have indices : ∀ i, i ∈ 0 :: range' 1 (numShards - 1) ↔ i < numShards := by
    intro i
    rw [mem_cons, mem_range'_1]
    omega
  obtain ⟨hit, least⟩ :=
    MachineInt.foldl_lowest (shardLoads.getD · 0) (range' 1 (numShards - 1)) 0
  exact ⟨(indices _).mp hit, fun i lt => least i ((indices i).mpr lt)⟩

/-- What `getShard` leaves and returns. -/
structure Routed (dts : Store V) (name : String) (next : Store V) (id : Nat) : Prop where
  consistent : Consistent next
  shards : next.shards = dts.shards
  mapped : next.seriesMapping.lookup name = some id
  others : ∀ other, other ≠ name →
    next.seriesMapping.lookup other = dts.seriesMapping.lookup other

variable {dts : Store V}

theorem getShard_routed (consistent : Consistent dts) (name) :
    ∃ next id, getShard dts name = some (next, id) ∧ Routed dts name next id := by
  unfold getShard
  cases mapped : dts.seriesMapping.lookup name with
  | some id => exact ⟨dts, id, rfl, consistent, rfl, mapped, fun _ _ => rfl⟩
  | none =>
    obtain ⟨pos, shards, loads, routed, placed⟩ := consistent
    rw [if_neg (by omega)]
    refine ⟨_, _, rfl, ⟨pos, shards, ?_, ?_, ?_⟩, rfl, lookup_insert _,
      fun other ne => lookup_insert_of_ne _ ne⟩
    · rw [length_modify, loads]
    · intro other id found
      rcases GoMap.lookup_insert_cases found with ⟨-, rfl⟩ | ⟨-, found⟩
      · exact (minShard_lowest _ pos).1
      · exact routed other id found
    · intro id shard hit other series stored
      obtain ⟨here, inv⟩ := placed id shard hit other series stored
      have ne : other ≠ name := by
        rintro rfl
        rw [mapped] at here
        cases here
      exact ⟨by rw [lookup_insert_of_ne _ ne, here], inv⟩

variable {name : String}

theorem storedPoints_eq (inv : Consistent dts) {id}
    (mapped : dts.seriesMapping.lookup name = some id) {shard}
    (hit : dts.shards[id]? = some shard) :
    storedPoints dts name = ((shard.data.lookup name).map (·.points)).getD [] := by
  -- All the other shards contribute nothing to the list of all points.
  have elsewhere : ∀ j x, dts.shards[j]? = some x → j ≠ id →
      ((x.data.lookup name).map (·.points)).getD [] = [] := by
    intro j x found ne
    cases stored : x.data.lookup name with
    | none => rfl
    | some series =>
      have here := (inv.placed j x found name series stored).1
      rw [mapped, some.injEq] at here
      exact absurd here.symm ne
  obtain ⟨lt, read⟩ := List.getElem?_eq_some_iff.mp hit
  have split : dts.shards = dts.shards.take id ++ shard :: dts.shards.drop (id + 1) := by
    rw [← read, getElem_cons_drop, take_append_drop]
  have pre : (dts.shards.take id).flatMap
      (fun shard => ((shard.data.lookup name).map (·.points)).getD []) = [] := by
    rw [flatMap_eq_nil_iff]
    intro x mem
    obtain ⟨j, found⟩ := mem_iff_getElem?.mp mem
    rw [getElem?_take] at found
    split at found
    · exact elsewhere j x found (by omega)
    · cases found
  have after : (dts.shards.drop (id + 1)).flatMap
      (fun shard => ((shard.data.lookup name).map (·.points)).getD []) = [] := by
    rw [flatMap_eq_nil_iff]
    intro x mem
    obtain ⟨j, found⟩ := mem_iff_getElem?.mp mem
    rw [getElem?_drop] at found
    exact elsewhere (id + 1 + j) x found (by omega)
  rw [storedPoints, split, flatMap_append, flatMap_cons, pre, after, nil_append, append_nil]

theorem storedPoints_unmapped (inv : Consistent dts)
    (unmapped : dts.seriesMapping.lookup name = none) : storedPoints dts name = [] := by
  rw [storedPoints, flatMap_eq_nil_iff]
  intro shard mem
  obtain ⟨id, hit⟩ := mem_iff_getElem?.mp mem
  cases stored : shard.data.lookup name with
  | none => rfl
  | some series =>
    have here := (inv.placed id shard hit name series stored).1
    rw [unmapped] at here
    cases here

def retain (now : Int) (points : List (DataPoint V)) : List (DataPoint V) :=
  points.dropWhile fun point => point.timestamp < now - 7 * 24 * 3600 * second

variable {id : Nat} {shard : TimeSeriesShard V}

theorem Consistent.set_shard (consistent : Consistent dts)
    (mapped : dts.seriesMapping.lookup name = some id) (hit : dts.shards[id]? = some shard) {series}
    (inv : series.Sound) :
    Consistent { dts with shards := dts.shards.set id ⟨shard.data.insert name series⟩ } := by
  obtain ⟨pos, shards, loads, routed, placed⟩ := consistent
  refine ⟨pos, by rw [length_set, shards], loads, routed, ?_⟩
  intro j x found name' series' stored
  rw [getElem?_set] at found
  split at found
  next here =>
    subst here
    split at found <;> cases found
    rcases GoMap.lookup_insert_cases stored with ⟨rfl, rfl⟩ | ⟨-, stored⟩
    · exact ⟨mapped, inv⟩
    · exact placed id shard hit name' series' stored
  · exact placed j x found name' series' stored

theorem storedPoints_set_shard_ne {other} (hit : dts.shards[id]? = some shard) (ne : other ≠ name)
    (series : ShardSeries V) :
    storedPoints { dts with shards := dts.shards.set id ⟨shard.data.insert name series⟩ } other =
      storedPoints dts other := by
  simp only [storedPoints, flatMap_def, map_set, lookup_insert_of_ne _ ne]
  obtain ⟨lt, rfl⟩ := List.getElem?_eq_some_iff.mp hit
  congr 1
  apply ext_getElem?
  intro i
  rw [getElem?_set]
  split
  next eq =>
    subst eq
    simp [lt]
  · rfl

/-- Where a call goes: the routed store and the shard it reads there. -/
theorem getShard_shard (consistent : Consistent dts) (name) :
    ∃ t id shard, getShard dts name = some (t, id) ∧ t.shards[id]? = some shard ∧
      Routed dts name t id ∧
      storedPoints dts name = ((shard.data.lookup name).map (·.points)).getD [] := by
  obtain ⟨t, id, found, inv⟩ := getShard_routed consistent name
  have lt : id < t.shards.length := by
    rw [inv.consistent.shards]
    exact inv.consistent.routed name id inv.mapped
  have hit := getElem?_eq_getElem lt
  refine ⟨t, id, _, found, hit, inv, ?_⟩
  rw [← storedPoints_eq inv.consistent inv.mapped hit, storedPoints, storedPoints, inv.shards]

/-- A write goes through, and does to the points of its series what the retention says. -/
theorem write_spec (consistent : Consistent dts) (c : WriteCall V) :
    ∃ t, write dts c = some t ∧ Consistent t ∧
      ∀ name, storedPoints t name = if name = c.seriesName then
        retain c.now (storedPoints dts name ++ [c.point]) else storedPoints dts name := by
  obtain ⟨routed, id, shard, found, hit, route, stored⟩ :=
    getShard_shard consistent c.seriesName
  have base : ((shard.data.lookup c.seriesName).getD newShardSeries).Sound := by
    cases lookup : shard.data.lookup c.seriesName with
    | none => exact newShardSeries_sound
    | some series => exact (route.consistent.placed id shard hit _ series lookup).2
  have ps : ((shard.data.lookup c.seriesName).getD newShardSeries).points =
      storedPoints dts c.seriesName := by
    rw [stored]
    cases shard.data.lookup c.seriesName <;> rfl
  have inv := (base.append c.point).applyRetention c.now
  have t := route.consistent.set_shard route.mapped hit inv
  refine ⟨_, by simp only [write, found, Option.bind_some, hit]; rfl, t, ?_⟩
  intro name
  split
  next eq =>
    subst eq
    rw [storedPoints_eq t route.mapped (getElem?_set_self
        (List.getElem?_eq_some_iff.mp hit).1), lookup_insert, Option.map_some,
      getD_some, points_applyRetention, (base.append c.point).retention, retain,
      ShardSeries.append, ps]
  next ne =>
    rw [storedPoints_set_shard_ne hit ne, storedPoints, storedPoints, route.shards]

/-- What a full scan of all that was written would see: the reference for a series. -/
def scan (writes : List (WriteCall V)) (name : String) : List (DataPoint V) :=
  writes.foldl (fun points call => if name = call.seriesName then
    retain call.now (points ++ [call.point]) else points) []

variable {n : Nat}

theorem reached_consistent (pos : 0 < n) {ws : List (WriteCall V)} {s : Store V}
    (run : exec write (newDistributedTimeSeries n) ws = some s) :
    Consistent s ∧ ∀ name, storedPoints s name = scan ws name := by
  refine exec_history (fun ws s => Consistent s ∧ ∀ name, storedPoints s name = scan ws name)
    ⟨newDistributedTimeSeries_consistent pos, fun name => ?_⟩ ?_ run
  · apply storedPoints_unmapped (newDistributedTimeSeries_consistent pos)
    exact lookup_empty name
  · rintro ws s c t - ⟨inv, stored⟩ stepped
    obtain ⟨next', wrote, consistent', stored'⟩ := write_spec inv c
    obtain rfl : next' = t := some.inj (wrote.symm.trans stepped)
    refine ⟨consistent', fun name => ?_⟩
    rw [stored', stored, scan, scan, foldl_concat]

theorem writes_run (pos : 0 < n) (ws : List (WriteCall V)) :
    ∃ s, exec write (newDistributedTimeSeries n) ws = some s := by
  induction ws using reverseRecOn with
  | nil => exact ⟨_, rfl⟩
  | append_singleton ws c ih =>
    obtain ⟨s, run⟩ := ih
    obtain ⟨t, wrote, -⟩ := write_spec (reached_consistent pos run).1 c
    exact ⟨t, exec_snoc_some.mpr ⟨s, run, wrote⟩⟩

/-- After any writes a query returns the points stored for its series that lie strictly between
its bounds, each as often as stored and in the order of their timestamps; the points stored are
those that were written and not trimmed. -/
theorem query_eq_full_scan {sort : List (DataPoint V) → List (DataPoint V)}
    (sorts : SliceSort.Sorts (fun a b => a.timestamp < b.timestamp) sort) {numShards : Nat}
    (positive : 0 < numShards) (writes : List (WriteCall V)) :
    ∃ s, exec write (newDistributedTimeSeries numShards) writes = some s ∧
      (∀ name, storedPoints s name = scan writes name) ∧
      ∀ name start stop, ∃ next result,
        distributedQuery sort s name start stop = some (next, result) ∧
        result.Perm ((storedPoints s name).filter (between start stop)) ∧
        result.Pairwise fun a b => a.timestamp ≤ b.timestamp := by
  obtain ⟨s, run⟩ := writes_run positive writes
  have ⟨consistent, scanned⟩ := reached_consistent positive run
  refine ⟨s, run, scanned, fun name start stop => ?_⟩
  obtain ⟨next, id, shard, found, present, route, stored⟩ := getShard_shard consistent name
  have ordered : ∀ slice, (sort slice).Pairwise fun a b => a.timestamp ≤ b.timestamp :=
    fun slice => (sorts.ordered slice).imp fun {a b} => not_lt.mp
  simp only [distributedQuery, found, Option.bind_some, present, Option.map_some]
  cases lookup : shard.data.lookup name with
  | none =>
    refine ⟨next, sort [], rfl, ?_, ordered []⟩
    rw [stored, lookup]
    exact sorts.perm []
  | some series =>
    have sound := (route.consistent.placed id shard present name series lookup).2
    refine ⟨next, _, rfl, ?_, ordered _⟩
    rw [stored, lookup]
    exact (sorts.perm _).trans (queryShard_perm sound start stop)

/-- Two points in the wrong order, in one of two shards. -/
theorem query_eq_full_scan_reordered :
    ∃ s next result, exec write (newDistributedTimeSeries 2)
        [⟨"cpu", ⟨5, true⟩, 5⟩, ⟨"cpu", ⟨3, false⟩, 6⟩] = some s ∧
      distributedQuery (SliceSort.sortSlice fun a b => a.timestamp < b.timestamp) s "cpu" 0 9 =
        some (next, result) ∧
      result.Perm [⟨5, true⟩, ⟨3, false⟩] ∧
      result.Pairwise fun a b => a.timestamp ≤ b.timestamp := by
  obtain ⟨s, run, scanned, queried⟩ := query_eq_full_scan
    (SliceSort.sortSlice_sorts fun _ _ => Iff.rfl) (by decide : 0 < 2)
    [⟨"cpu", ⟨5, true⟩, 5⟩, ⟨"cpu", ⟨3, false⟩, 6⟩]
  obtain ⟨next, result, returned, perm, ordered⟩ := queried "cpu" 0 9
  refine ⟨s, next, result, run, returned, ?_, ordered⟩
  rw [scanned] at perm
  exact perm.trans (by decide)

/-- A write at this time takes the point for too old. -/
def DataPoint.expired (now : Int) (point : DataPoint V) : Bool :=
  point.timestamp < now - 7 * 24 * 3600 * second

/-- A write leaves the unexpired points of its series exactly when none of them stands before an
expired one: the trimming stops at the first that it keeps. -/
theorem write_drops_expired_iff {numShards : Nat} (positive : 0 < numShards)
    (writes : List (WriteCall V)) (call : WriteCall V) :
    ∃ s t, exec write (newDistributedTimeSeries numShards) writes = some s ∧
      write s call = some t ∧
      (storedPoints t call.seriesName =
          (storedPoints s call.seriesName ++ [call.point]).filter (!·.expired call.now) ↔
        (storedPoints s call.seriesName ++ [call.point]).Pairwise fun earlier later =>
          later.expired call.now = true → earlier.expired call.now = true) := by
  obtain ⟨s, run⟩ := writes_run positive writes
  obtain ⟨t, written, -, stored⟩ := write_spec (reached_consistent positive run).1 call
  refine ⟨s, t, run, written, ?_⟩
  rw [stored, if_pos rfl, ← SliceSort.dropWhile_eq_filter_iff]
  rfl

/-- The expired point is at the front. -/
theorem write_drops_expired_front :
    ∃ s t, exec write (newDistributedTimeSeries 2) [⟨"cpu", ⟨0, true⟩, 0⟩] = some s ∧
      write s ⟨"cpu", ⟨8 * 24 * 3600 * second, false⟩, 8 * 24 * 3600 * second⟩ = some t ∧
      storedPoints t "cpu" = [⟨8 * 24 * 3600 * second, false⟩] := by
  obtain ⟨s, t, run, written, exact_iff⟩ := write_drops_expired_iff (by decide : 0 < 2)
    [⟨"cpu", ⟨0, true⟩, 0⟩]
    ⟨"cpu", ⟨8 * 24 * 3600 * second, false⟩, 8 * 24 * 3600 * second⟩
  refine ⟨s, t, run, written, ?_⟩
  have held : storedPoints s "cpu" = [⟨0, true⟩] :=
    ((reached_consistent (by decide) run).2 "cpu").trans (by decide)
  rw [held] at exact_iff
  exact (exact_iff.mpr (by decide)).trans (by decide)

/-- A point that is eight days old when it is written stays behind a fresh one. -/
theorem expired_point_kept :
    ((exec write (newDistributedTimeSeries 1)
        [⟨"cpu", ⟨8 * 24 * 3600 * second, true⟩, 8 * 24 * 3600 * second⟩,
          ⟨"cpu", ⟨0, false⟩, 8 * 24 * 3600 * second⟩]).map fun s =>
      (storedPoints s "cpu").map fun point => (point, point.expired (8 * 24 * 3600 * second))) =
      some [(⟨8 * 24 * 3600 * second, true⟩, false), (⟨0, false⟩, true)] := by
  decide

end

/- How the series are spread over the shards, by calls of getShard one after another. -/
open Finmap List Runs

variable {V : Type} {dts : Store V} {name : String}

def route (dts : Store V) (seriesName : String) : Option (Store V) :=
  (getShard dts seriesName).map (·.1)

def mappedTo (dts : Store V) (i : Nat) : Nat :=
  (dts.seriesMapping.keys.filter fun name => dts.seriesMapping.lookup name = some i).card

theorem mappedTo_insert (fresh : dts.seriesMapping.lookup name = none) (loads : List Int64)
    (id i : Nat) :
    mappedTo { dts with shardLoads := loads, seriesMapping := dts.seriesMapping.insert name id } i =
      mappedTo dts i + if id = i then 1 else 0 := by
  have new : name ∉ dts.seriesMapping.keys := by
    rwa [Finmap.mem_keys, ← lookup_eq_none]
  have others : (dts.seriesMapping.keys.filter fun x =>
      (dts.seriesMapping.insert name id).lookup x = some i) =
      dts.seriesMapping.keys.filter fun x => dts.seriesMapping.lookup x = some i := by
    apply Finset.filter_congr
    intro x known
    rw [lookup_insert_of_ne _ (ne_of_mem_of_not_mem known new)]
  unfold mappedTo
  dsimp only
  rw [GoMap.keys_insert, Finset.filter_insert, others]
  simp only [lookup_insert, Option.some.injEq]
  split
  · exact Finset.card_insert_of_notMem fun there => new (Finset.mem_filter.mp there).1
  · rfl

/-- The loads count the series of the shards, which hold equally many up to one. -/
structure Balanced (dts : Store V) : Prop where
  positive : 0 < dts.numShards
  loads : dts.shardLoads.length = dts.numShards
  counted : ∀ i < dts.numShards, (dts.shardLoads.getD i 0).toInt = mappedTo dts i
  even : ∀ i < dts.numShards, ∀ j < dts.numShards, mappedTo dts i ≤ mappedTo dts j + 1

theorem new_balanced {n} (pos : 0 < n) :
    Balanced (newDistributedTimeSeries n : Store V) where
  positive := pos
  loads := length_replicate
  counted i inside := by
    have zero : (newDistributedTimeSeries n : Store V).shardLoads.getD i 0 = 0 := by
      change i < n at inside
      simp [newDistributedTimeSeries, inside]
    rw [zero]
    rfl
  even _ _ _ _ := Nat.zero_le _

theorem route_cases (inv : Balanced dts) (name) :
    (∃ id, dts.seriesMapping.lookup name = some id ∧ route dts name = some dts) ∨
      dts.seriesMapping.lookup name = none ∧ route dts name = some { dts with
          shardLoads := dts.shardLoads.modify (minShard dts.shardLoads dts.numShards) (· + 1)
          seriesMapping :=
            dts.seriesMapping.insert name (minShard dts.shardLoads dts.numShards) } := by
  unfold route getShard
  cases dts.seriesMapping.lookup name with
  | some id => exact .inl ⟨id, rfl, rfl⟩
  | none =>
    have shards : dts.shardLoads.length ≠ 0 := by
      rw [inv.loads]
      exact Nat.ne_of_gt inv.positive
    rw [if_neg shards]
    exact .inr ⟨rfl, rfl⟩

/-- The shard that is chosen has no more series than any other, so it can take one more. -/
theorem Balanced.assign (inv : Balanced dts) (fresh : dts.seriesMapping.lookup name = none)
    (room : dts.seriesMapping.keys.card < 2 ^ 63 - 1) :
    Balanced { dts with
      shardLoads := dts.shardLoads.modify (minShard dts.shardLoads dts.numShards) (· + 1)
      seriesMapping := dts.seriesMapping.insert name (minShard dts.shardLoads dts.numShards) } := by
  obtain ⟨pos, loads, cnt, even⟩ := inv
  obtain ⟨lt, lowest⟩ := minShard_lowest dts.shardLoads pos
  generalize minShard dts.shardLoads dts.numShards = chosen at lt lowest ⊢
  have least : ∀ i < dts.numShards, mappedTo dts chosen ≤ mappedTo dts i := by
    intro i hit
    have le := Int64.le_iff_toInt_le.mp (lowest i hit)
    rw [cnt chosen lt, cnt i hit] at le
    omega
  refine ⟨pos, by rw [length_modify, loads], ?_, ?_⟩
  · intro i hit
    have count := cnt i hit
    have most : mappedTo dts i ≤ dts.seriesMapping.keys.card := Finset.card_filter_le _ _
    rw [mappedTo_insert fresh]
    have bounds : i < dts.shardLoads.length := loads ▸ hit
    simp only [getD_eq_getElem?_getD, getElem?_modify, getElem?_eq_getElem bounds,
      Option.getD_some, Option.map_eq_map, Option.map_some] at count ⊢
    split
    · rw [MachineInt.toInt_add_one (by omega), count]
      omega
    · exact count
  · intro i first j second
    rw [mappedTo_insert fresh, mappedTo_insert fresh]
    have low := least j second
    have near := even i first j second
    split
    · subst i
      omega
    · omega

theorem lookup_route {t id x} (mapped : dts.seriesMapping.lookup name = some id)
    (called : route dts x = some t) : t.seriesMapping.lookup name = some id := by
  unfold route getShard at called
  cases found : dts.seriesMapping.lookup x with
  | some shardID =>
    rw [found] at called
    exact Option.some.inj called ▸ mapped
  | none =>
    rw [found] at called
    dsimp only at called
    split at called <;> cases called
    have ne : name ≠ x := by
      rintro rfl
      rw [mapped] at found
      cases found
    exact (lookup_insert_of_ne _ ne).trans mapped

theorem single_shard_load (n) :
    ∃ t : Store Unit,
      exec route (newDistributedTimeSeries 1) ((List.range n).map toString) = some t ∧
      t.numShards = 1 ∧ t.shardLoads = [.ofNat n] ∧
      t.seriesMapping.keys = ((List.range n).map toString).toFinset := by
  induction n with
  | zero => exact ⟨_, rfl, rfl, rfl, rfl⟩
  | succ n ih =>
    obtain ⟨t, run, shards, loads, keys⟩ := ih
    have fresh : t.seriesMapping.lookup (toString n) = none := by
      rw [lookup_eq_none, ← Finmap.mem_keys, keys, mem_toFinset, mem_map]
      rintro ⟨k, small, eq⟩
      rw [NumberedName.toString_injective eq] at small
      exact Nat.lt_irrefl n (mem_range.mp small)
    have called : route t (toString n) = some { t with
        shardLoads := [.ofNat n + 1]
        seriesMapping := t.seriesMapping.insert (toString n) 0 } := by
      simp only [route, getShard, fresh, loads, shards]
      rfl
    rw [range_succ, map_append]
    refine ⟨_, exec_snoc_some.mpr ⟨t, run, called⟩, shards, ?_, ?_⟩
    · rw [Int64.ofNat_add]
      rfl
    · rw [GoMap.keys_insert, keys, toFinset_append, Finset.union_comm, Finset.insert_eq]
      rfl

end AsyncPractice.DistributedTimeSeries
