import AsyncPractice.GoMap
import AsyncPractice.Runs
import AsyncPractice.SliceSort
import AsyncPractice.NumberedName

/- Put, Get, Scan, flushMemtable and compact of WideColumnStore in solution23_columnar_storage.go.
Put and every lock section of flushMemtable are steps. -/
namespace AsyncPractice.WideColumnStore

section

open SliceSort (sortSlice)

structure VersionedValue where
  value : List UInt8
  timestamp : Int64
  deleted : Bool

structure WideColumn where
  qualifier : String
  versions : List VersionedValue

structure BloomFilter where
  bits : List UInt8
  size : Int

/-- The index is never filled. -/
structure SSTable where
  id : Nat
  level : Nat
  startKey : String
  endKey : String
  size : Int64
  bloomFilter : Option BloomFilter

structure CompactionLevel where
  level : Nat
  sstables : List SSTable
  maxSize : Int64

structure Memtable where
  data : GoMap String (GoMap String WideColumn)
  size : Int64
  maxSize : Int64

/-- The column families are of no use to Put and Get. -/
structure Store where
  memtable : Memtable
  sstables : List SSTable
  levels : List CompactionLevel
  running : Bool

def newWideColumnStore : Store where
  memtable := ⟨∅, 0, 100 * 1024 * 1024⟩
  sstables := []
  levels := (List.range 5).map fun i => ⟨i, [], Int64.ofNat (10 * (i + 1)) * 1024 * 1024⟩
  running := false

def columnKey (cfName qualifier : String) : String := cfName ++ ":" ++ qualifier

structure PutCall where
  rowKey : String
  cfName : String
  qualifier : String
  value : List UInt8
  now : Int64

/-- A Put that leaves more than the maximal size starts flushMemtable on its own, which may also
begin at any other time here. -/
def put (wcs : Store) (call : PutCall) : Store :=
  let row := (wcs.memtable.data.lookup call.rowKey).getD ∅
  let key := columnKey call.cfName call.qualifier
  let col := (row.lookup key).getD ⟨call.qualifier, []⟩
  let col := { col with versions := col.versions ++ [⟨call.value, call.now, false⟩] }
  { wcs with memtable := { wcs.memtable with
    data := wcs.memtable.data.insert call.rowKey (row.insert key col)
    size := wcs.memtable.size + Int64.ofNat call.value.length } }

def BloomFilter.contains (bf : BloomFilter) (key : String) : Bool :=
  let hash := key.toList.foldl (fun hash c => (hash * 31 + c.toNat).tmod bf.size) (0 : Int)
  let byteIdx := hash.tdiv 8
  let bitIdx := hash.tmod 8
  if byteIdx < bf.bits.length then
    (bf.bits.getD byteIdx.toNat 0 &&& (1 <<< UInt8.ofNat bitIdx.toNat)) ≠ 0
  else false

def SSTable.read (sstable : SSTable) (rowKey : String) : Option (List UInt8) :=
  if sstable.bloomFilter.all (·.contains rowKey) ∧ sstable.startKey ≤ rowKey ∧
      rowKey ≤ sstable.endKey
  then some "from_sstable".toUTF8.toList else none

def get (wcs : Store) (rowKey cfName qualifier : String) : Except String (List UInt8) :=
  let col := (wcs.memtable.data.lookup rowKey).bind (·.lookup (columnKey cfName qualifier))
  match col.bind (·.versions.getLast?) with
  | some latest => if latest.deleted then .error "deleted" else .ok latest.value
  | none =>
    match wcs.sstables.reverse.findSome? (·.read rowKey) with
    | some value => .ok value
    | none => .error "not found"

/-- What an interface{} of a row of Scan holds. -/
inductive Field
  | key (rowKey : String)
  | value (bytes : List UInt8)
  deriving DecidableEq

def scanRow (key : String) (columns : GoMap String WideColumn) (order : List String) :
    GoMap String Field :=
  order.foldl (fun row colKey =>
    match (columns.lookup colKey).bind (·.versions.getLast?) with
    | some latest => if latest.deleted then row else row.insert colKey (.value latest.value)
    | none => row) ((∅ : GoMap String Field).insert "key" (.key key))

def Store.columns (wcs : Store) (rowKey : String) : GoMap String WideColumn :=
  (wcs.memtable.data.lookup rowKey).getD ∅

def scanRows (wcs : Store) (limit : Int) (columnOrder : String → List String) :
    List String → List (GoMap String Field) → List (GoMap String Field)
  | [], results => results
  | key :: keys, results =>
    if limit ≤ results.length then results
    else
      scanRows wcs limit columnOrder keys
        (results ++ [scanRow key (wcs.columns key) (columnOrder key)])

/-- The orders are those of the loops over the rows and over the columns of each. -/
def scan (wcs : Store) (order : List String) (columnOrder : String → List String)
    (startKey endKey : String) (limit : Int) : List (GoMap String Field) :=
  let keys := order.filter fun k => startKey ≤ k ∧ k ≤ endKey
  scanRows wcs limit columnOrder (sortSlice (· < ·) keys) []

/-- The levels that compact finds too large. It only logs them. -/
def compact (wcs : Store) : List Nat :=
  (wcs.levels.dropLast.filter fun level =>
    (level.sstables.map SSTable.size).foldl (· + ·) 0 > level.maxSize).map CompactionLevel.level

/-- Where a call of flushMemtable stands, with the table it makes. -/
inductive Phase
  | idle
  | creating
  | reading (sstable : SSTable)
  | adding (sstable : SSTable)
  | clearing (sstable : SSTable)
  | logging (sstable : SSTable)
  | returned

structure State (C : Type) where
  wcs : Store
  phase : C → Phase

inductive Event (C : Type)
  | put (call : PutCall)
  | compact
  | flush (c : C)
  | create (c : C)
  | read (c : C) (order : List String)
  | add (c : C)
  | clear (c : C)
  | finish (c : C)

def init (C : Type) : State C := ⟨newWideColumnStore, fun _ => .idle⟩

variable {C : Type} [DecidableEq C]

def State.become (s : State C) (c : C) (wcs : Store) (phase : Phase) : State C :=
  ⟨wcs, Function.update s.phase c phase⟩

/-- The first and the last of the keys, in the order of the loop that collects them. -/
def SSTable.withKeys (sstable : SSTable) (order : List String) : SSTable :=
  let keys := sortSlice (· < ·) order
  if keys.length > 0 then
    { sstable with startKey := keys.head?.getD "", endKey := keys.getLast?.getD "" }
  else sstable

def Store.addTable (wcs : Store) (sstable : SSTable) : Store :=
  { wcs with levels := wcs.levels.modify 0 fun level =>
    { level with sstables := level.sstables ++ [sstable] } }

def Store.clear (wcs : Store) : Store :=
  { wcs with memtable := { wcs.memtable with data := ∅, size := 0 } }

def step (s : State C) : Event C → Option (State C)
  | .put call => some { s with wcs := put s.wcs call }
  | .compact => some s
  | .flush c =>
    match s.phase c with
    | .idle =>
      some (if s.wcs.running then s.become c s.wcs .returned
        else s.become c { s.wcs with running := true } .creating)
    | _ => none
  | .create c =>
    match s.phase c with
    | .creating => some (s.become c s.wcs
        (.reading ⟨s.wcs.sstables.length, 0, "", "", s.wcs.memtable.size, none⟩))
    | _ => none
  | .read c order =>
    match s.phase c with
    | .reading sstable =>
      if GoMap.Ranges order s.wcs.memtable.data
      then some (s.become c s.wcs (.adding (sstable.withKeys order))) else none
    | _ => none
  | .add c =>
    match s.phase c with
    | .adding sstable => some (s.become c (s.wcs.addTable sstable) (.clearing sstable))
    | _ => none
  | .clear c =>
    match s.phase c with
    | .clearing sstable => some (s.become c s.wcs.clear (.logging sstable))
    | _ => none
  | .finish c =>
    match s.phase c with
    | .logging _ => some (s.become c { s.wcs with running := false } .returned)
    | _ => none

def Finished (s : State C) : Prop :=
  ∀ c, (s.phase c matches .idle) ∨ (s.phase c matches .returned)

end

/- What Get finds after flushes. The table that flushMemtable makes goes to a level of the
compactor, which Get does not read, so what is left is what was put since the last clear. -/
open Option List Runs

/-- Family and qualifier without a colon are the only ones with their column key. -/
theorem columnKey_injective {cf q cfName' qualifier'} (family : ':' ∉ cf.toList)
    (column : ':' ∉ q.toList) (eq : columnKey cfName' qualifier' = columnKey cf q) :
    cfName' = cf ∧ qualifier' = q := by
  have texts : cfName'.toList ++ ':' :: qualifier'.toList = cf.toList ++ ':' :: q.toList := by
    have lists := congrArg String.toList eq
    simpa [columnKey] using lists
  -- The key has one colon, so the other qualifier has none either.
  have colons := congrArg (count ':') texts
  rw [count_append, count_append, count_cons_self, count_cons_self,
    count_eq_zero_of_not_mem family, count_eq_zero_of_not_mem column] at colons
  have column' : ':' ∉ qualifier'.toList := count_eq_zero.mp (by omega)
  obtain ⟨families, columns⟩ := NumberedName.split_at_last column' column texts
  exact ⟨String.toList_inj.mp families, String.toList_inj.mp columns⟩

variable {C : Type}

def Event.stores (rowKey cfName qualifier : String) : Event C → Option (List UInt8)
  | .put call =>
    if call.rowKey = rowKey ∧ call.cfName = cfName ∧ call.qualifier = qualifier
    then some call.value else none
  | _ => none

def puts (rowKey cfName qualifier : String) (events : List (Event C)) : List (List UInt8) :=
  events.filterMap (Event.stores rowKey cfName qualifier)

/-- The values put into the cell since the memtable was last cleared. -/
def kept (rowKey cfName qualifier : String) (events : List (Event C)) : List (List UInt8) :=
  events.foldl (fun values event => match event with
    | .clear _ => []
    | event => values ++ (event.stores rowKey cfName qualifier).toList) []

variable {rowKey cf q : String}

theorem puts_append (x y : List (Event C)) :
    puts rowKey cf q (x ++ y) = puts rowKey cf q x ++ puts rowKey cf q y :=
  filterMap_append ..

theorem kept_clear (es) (c : C) : kept rowKey cf q (es ++ [.clear c]) = [] := by
  rw [kept, foldl_append]
  rfl

theorem kept_snoc (es : List (Event C)) {e} (other : ∀ c, e ≠ .clear c) :
    kept rowKey cf q (es ++ [e]) = kept rowKey cf q es ++ (e.stores rowKey cf q).toList := by
  rw [kept, foldl_append, ← kept]
  cases e with
  | clear c => exact absurd rfl (other c)
  | _ => rfl

theorem kept_after_clear (pre after) (c : C) :
    kept rowKey cf q (pre ++ .clear c :: after) = kept rowKey cf q after := by
  rw [kept, foldl_append]
  rfl

theorem kept_suffix (rowKey cf q : String) (es : List (Event C)) :
    kept rowKey cf q es <:+ puts rowKey cf q es := by
  induction es using reverseRecOn with
  | nil => exact suffix_refl _
  | append_singleton es e ih =>
    by_cases cleared : ∃ c, e = .clear c
    · obtain ⟨c, rfl⟩ := cleared
      rw [kept_clear]
      exact nil_suffix
    · rw [kept_snoc es fun c eq => cleared ⟨c, eq⟩]
      obtain ⟨front, split⟩ := ih
      refine ⟨front, ?_⟩
      rw [← append_assoc, split]
      cases stored : e.stores rowKey cf q <;> simp [puts, stored]

/-- A cell is only lost to a clear that comes after its last Put. -/
theorem exists_clear_of_lost (es : List (Event C)) (lost : kept rowKey cf q es = [])
    (wrote : puts rowKey cf q es ≠ []) :
    ∃ pre c after, es = pre ++ .clear c :: after ∧
      puts rowKey cf q pre ≠ [] ∧ puts rowKey cf q after = [] := by
  induction es using reverseRecOn with
  | nil => exact absurd rfl wrote
  | append_singleton es e ih =>
    rw [puts_append] at wrote
    by_cases cleared : ∃ c, e = .clear c
    · obtain ⟨c, rfl⟩ := cleared
      refine ⟨es, c, [], rfl, ?_, rfl⟩
      simpa [puts, Event.stores] using wrote
    · rw [kept_snoc es fun c eq => cleared ⟨c, eq⟩, append_eq_nil_iff, toList_eq_nil_iff] at lost
      have none : puts rowKey cf q [e] = [] := by
        simp [puts, lost.2]
      rw [none, append_nil] at wrote
      obtain ⟨pre, c, after, split, early, late⟩ := ih lost.1 wrote
      refine ⟨pre, c, after ++ [e], by rw [split]; simp, early, ?_⟩
      rw [puts_append, late, none]
      rfl

section

/-- The versions that the memtable has of a cell. -/
def versionsAt (wcs : Store) (rowKey key : String) : List VersionedValue :=
  (((wcs.memtable.data.lookup rowKey).bind (·.lookup key)).map WideColumn.versions).getD []

theorem versionsAt_put (wcs c rowKey k) :
    versionsAt (put wcs c) rowKey k = versionsAt wcs rowKey k ++
      if c.rowKey = rowKey ∧ columnKey c.cfName c.qualifier = k
      then [⟨c.value, c.now, false⟩] else [] := by
  unfold versionsAt put
  rw [GoMap.lookup_insert_ite]
  by_cases row : rowKey = c.rowKey
  · subst row
    by_cases cell : k = columnKey c.cfName c.qualifier
    · subst cell
      cases wcs.memtable.data.lookup c.rowKey with
      | none => simp
      | some row => cases found : row.lookup (columnKey c.cfName c.qualifier) <;> simp [found]
    · cases wcs.memtable.data.lookup c.rowKey with
      | none => simp [cell, Ne.symm cell]
      | some row => simp [cell, Ne.symm cell]
  · simp [row, Ne.symm row]

theorem get_eq (wcs rowKey cf q) :
    get wcs rowKey cf q = match (versionsAt wcs rowKey (columnKey cf q)).getLast? with
      | some latest => if latest.deleted then .error "deleted" else .ok latest.value
      | none => match wcs.sstables.reverse.findSome? (·.read rowKey) with
        | some value => .ok value
        | none => .error "not found" := by
  have read : ((wcs.memtable.data.lookup rowKey).bind (·.lookup (columnKey cf q))).bind
      (·.versions.getLast?) = (versionsAt wcs rowKey (columnKey cf q)).getLast? := by
    unfold versionsAt
    cases (wcs.memtable.data.lookup rowKey).bind (·.lookup (columnKey cf q)) <;> rfl
  unfold get
  dsimp only
  rw [read]

theorem get_put (wcs c rowKey cf q) :
    get (put wcs c) rowKey cf q =
      if c.rowKey = rowKey ∧ columnKey c.cfName c.qualifier = columnKey cf q then .ok c.value
      else get wcs rowKey cf q := by
  rw [get_eq, versionsAt_put]
  by_cases same : c.rowKey = rowKey ∧ columnKey c.cfName c.qualifier = columnKey cf q
  · simp [same]
  · rw [if_neg same, if_neg same, append_nil, get_eq]
    rfl

/-- What the memtable has of a cell is what was put there since the last clear. -/
structure Remembers (rowKey cfName qualifier : String) (events : List (Event C)) (s : State C) :
    Prop where
  values : (versionsAt s.wcs rowKey (columnKey cfName qualifier)).map VersionedValue.value =
    kept rowKey cfName qualifier events
  live : ∀ version ∈ versionsAt s.wcs rowKey (columnKey cfName qualifier),
    version.deleted = false
  sstables : s.wcs.sstables = []

variable [DecidableEq C] {es : List (Event C)} {s t : State C} {e : Event C}

/-- Only Put and the clearing section of flushMemtable change the memtable, and nothing adds to
the tables that Get reads. -/
theorem step_frame (took : step s e = some t) (notPut : ∀ call, e ≠ .put call)
    (notClear : ∀ c, e ≠ .clear c) :
    t.wcs.memtable.data = s.wcs.memtable.data ∧ t.wcs.sstables = s.wcs.sstables := by
  cases e with
  | put call => exact absurd rfl (notPut call)
  | clear c => exact absurd rfl (notClear c)
  | compact =>
    cases took
    exact ⟨rfl, rfl⟩
  | flush c =>
    rw [step] at took
    split at took <;> cases took
    split <;> exact ⟨rfl, rfl⟩
  | create c | add c | finish c =>
    rw [step] at took
    split at took <;> cases took
    exact ⟨rfl, rfl⟩
  | read c order =>
    rw [step] at took
    split at took
    · obtain ⟨-, rfl⟩ := guard_some.mp took
      exact ⟨rfl, rfl⟩
    · cases took

omit [DecidableEq C] in
theorem remembers_put (family : ':' ∉ cf.toList) (column : ':' ∉ q.toList)
    (inv : Remembers rowKey cf q es s) (call : PutCall) :
    Remembers rowKey cf q (es ++ [.put call]) { s with wcs := put s.wcs call } := by
  have cell : (call.rowKey = rowKey ∧ columnKey call.cfName call.qualifier = columnKey cf q) ↔
      call.rowKey = rowKey ∧ call.cfName = cf ∧ call.qualifier = q := by
    refine and_congr_right fun _ => ⟨columnKey_injective family column, ?_⟩
    rintro ⟨rfl, rfl⟩
    rfl
  refine ⟨?_, fun ver mem => ?_, inv.sstables⟩
  · rw [kept_snoc es fun c eq => by cases eq]
    rw [versionsAt_put, map_append, inv.values]
    simp only [cell, Event.stores]
    split <;> rfl
  · rw [versionsAt_put] at mem
    rcases mem_append.mp mem with old | new
    · exact inv.live ver old
    · split at new
      · rw [mem_singleton.mp new]
      · cases new

theorem remembers_step (family : ':' ∉ cf.toList) (column : ':' ∉ q.toList)
    (inv : Remembers rowKey cf q es s) (took : step s e = some t) :
    Remembers rowKey cf q (es ++ [e]) t := by
  by_cases puts : ∃ call, e = .put call
  · obtain ⟨call, rfl⟩ := puts
    cases took
    exact remembers_put family column inv call
  by_cases clears : ∃ c, e = .clear c
  · obtain ⟨c, rfl⟩ := clears
    rw [step] at took
    split at took <;> cases took
    refine ⟨?_, fun ver mem => ?_, inv.sstables⟩
    · rw [kept_clear]
      rfl
    · cases mem
  · have notPut : ∀ call, e ≠ .put call := fun call eq => puts ⟨call, eq⟩
    have notClear : ∀ c, e ≠ .clear c := fun c eq => clears ⟨c, eq⟩
    obtain ⟨data, sstables⟩ := step_frame took notPut notClear
    have versions : versionsAt t.wcs rowKey (columnKey cf q) =
        versionsAt s.wcs rowKey (columnKey cf q) := by
      rw [versionsAt, data, versionsAt]
    have stores : e.stores rowKey cf q = none := by
      cases e with
      | put call => exact absurd rfl (notPut call)
      | _ => rfl
    refine ⟨?_, versions ▸ inv.live, sstables.trans inv.sstables⟩
    rw [versions, inv.values, kept_snoc es notClear, stores, toList_none, append_nil]

theorem remembers_run (rowKey) (family : ':' ∉ cf.toList) (column : ':' ∉ q.toList)
    (run : exec step (init C) es = some s) : Remembers rowKey cf q es s := by
  refine exec_history (Remembers rowKey cf q) ?_
    (fun _ _ _ _ _ inv took => remembers_step family column inv took) run
  refine ⟨rfl, fun ver mem => ?_, rfl⟩
  cases mem

omit [DecidableEq C] in
theorem get_of_remembers (inv : Remembers rowKey cf q es s) :
    get s.wcs rowKey cf q = match (kept rowKey cf q es).getLast? with
      | some v => .ok v
      | none => .error "not found" := by
  rw [get_eq, inv.sstables, ← inv.values, getLast?_map]
  cases last : (versionsAt s.wcs rowKey (columnKey cf q)).getLast? with
  | none => rfl
  | some ver =>
    have live := inv.live ver (mem_of_getLast? last)
    simp [live]

end

section

variable [DecidableEq C]

/-- Get returns the last value put into each cell exactly when after every clear of the memtable
all cells put before are put again. -/
theorem flush_keeps_cells_iff {events : List (Event C)} {s : State C}
    (run : exec step (init C) events = some s) :
    (∀ rowKey cfName qualifier, ':' ∉ cfName.toList → ':' ∉ qualifier.toList →
        ∀ value, (puts rowKey cfName qualifier events).getLast? = some value →
          get s.wcs rowKey cfName qualifier = .ok value) ↔
      ∀ before c after, events = before ++ .clear c :: after →
        ∀ rowKey cfName qualifier, ':' ∉ cfName.toList → ':' ∉ qualifier.toList →
          puts rowKey cfName qualifier before ≠ [] →
            puts rowKey cfName qualifier after ≠ [] := by
  constructor
  · intro found before c after split rowKey cfName qualifier family column early late
    have remembers := remembers_run rowKey family column run
    have lost : kept rowKey cfName qualifier events = [] := by
      have suffix := kept_suffix rowKey cfName qualifier after
      rw [late, suffix_nil] at suffix
      rw [split, kept_after_clear, suffix]
    have written : puts rowKey cfName qualifier events ≠ [] := by
      rw [split, puts_append]
      exact append_ne_nil_of_left_ne_nil early _
    have value := getLast?_eq_some_getLast written
    have result := found rowKey cfName qualifier family column _ value
    rw [get_of_remembers remembers, lost] at result
    cases result
  · intro again rowKey cfName qualifier family column value last
    have remembers := remembers_run rowKey family column run
    have written : puts rowKey cfName qualifier events ≠ [] := by
      intro none
      rw [none] at last
      cases last
    have still : kept rowKey cfName qualifier events ≠ [] := by
      intro lost
      obtain ⟨before, c, after, split, early, late⟩ := exists_clear_of_lost events lost written
      exact again before c after split rowKey cfName qualifier family column early late
    obtain ⟨front, split⟩ := kept_suffix rowKey cfName qualifier events
    rw [← split, getLast?_append_of_ne_nil _ still] at last
    rw [get_of_remembers remembers, last]

def putOne (value : UInt8) : Event Unit := .put ⟨"row", "cf", "q", [value], 0⟩

def flushAll (order : List String) : List (Event Unit) :=
  [.flush (), .create (), .read () order, .add (), .clear (), .finish ()]

theorem flush_keeps_cells_again :
    ∃ s, exec step (init Unit) ([putOne 1, .compact] ++ flushAll ["row"] ++ [putOne 2]) = some s ∧
      Finished s ∧ get s.wcs "row" "cf" "q" = .ok [2] := by
  have run : ∃ s, exec step (init Unit) ([putOne 1, .compact] ++ flushAll ["row"] ++ [putOne 2]) =
      some s ∧ Finished s := ⟨_, rfl, fun _ => Or.inr rfl⟩
  obtain ⟨s, run, finished⟩ := run
  refine ⟨s, run, finished, (flush_keeps_cells_iff run).mpr ?_ "row" "cf" "q" (by decide)
    (by decide) [2] (by decide)⟩
  intro before c after split rowKey cfName qualifier _ _ early
  -- There is one cell, and the last event puts a value into it.
  obtain ⟨event, member, stored⟩ : ∃ event ∈ before,
      (event.stores rowKey cfName qualifier).isSome := by
    by_contra none
    refine early (filterMap_eq_nil_iff.mpr fun event member => ?_)
    simpa using fun some => none ⟨event, member, some⟩
  have cells : ∀ event ∈ [putOne 1, .compact] ++ flushAll ["row"] ++ [putOne 2],
      (event.stores rowKey cfName qualifier).isSome →
        "row" = rowKey ∧ "cf" = cfName ∧ "q" = qualifier := by
    simp +contextual [putOne, flushAll, Event.stores, isSome_iff_exists]
  obtain ⟨rfl, rfl, rfl⟩ := cells event (split ▸ mem_append_left _ member) stored
  obtain ⟨-, other, -⟩ | ⟨rest, -, rfl⟩ := snoc_cases split
  · cases other
  · rw [puts_append]
    exact append_ne_nil_of_right_ne_nil _ (by decide)

/-- A value put before a flush is gone after it. -/
theorem flushed_value_lost :
    ∃ s, exec step (init Unit) ([putOne 1] ++ flushAll ["row"]) = some s ∧ Finished s ∧
      get s.wcs "row" "cf" "q" = .error "not found" := by
  refine ⟨_, rfl, ?_, rfl⟩
  intro c
  exact Or.inr rfl

end

end AsyncPractice.WideColumnStore
