import AsyncPractice.GoMap
import AsyncPractice.Runs

/- CreateColumn, Insert and Query of the ColumnarStorage in solution23_columnar_storage.go. A row
is stored as one more value at the end of each column it names. -/
namespace AsyncPractice.ColumnarStorage

section

open List GoMap Runs

/-- A value of type interface{}. -/
inductive Value (A : Type)
  | nil
  | int (n : Int)
  | other (a : A)
  deriving DecidableEq

/-- The type assertion value.(int), which panics on other types. -/
def Value.asInt {A : Type} : Value A → Option Int
  | int n => some n
  | _ => none

abbrev Row (A : Type) := GoMap String (Value A)

structure Column (A : Type) where
  values : List (Value A)
  min : Value A
  max : Value A

/-- The rows are those of the log entries, and `trigger` is whether the compactor's channel is
full. -/
structure Storage (A : Type) where
  columns : GoMap String (Column A)
  wal : List (Row A)
  totalRows : Int64
  totalColumns : Int64
  trigger : Bool

variable {A : Type}

def newColumnarStorage : Storage A := ⟨∅, [], 0, 0, false⟩

def Storage.createColumn (cs : Storage A) (name : String) : Storage A :=
  { cs with
    columns := cs.columns.insert name ⟨[], .nil, .nil⟩
    totalColumns := cs.totalColumns + 1 }

/-- One of the two statistics: a value takes its place when it is better. -/
def updateStat (better : Int → Int → Bool) (stat value : Value A) : Option (Value A) :=
  if stat matches .nil then some value
  else do
    let new ← value.asInt
    let old ← stat.asInt
    return if better new old then value else stat

def updateColumnStats (col : Column A) (value : Value A) : Option (Column A) := do
  let min ← updateStat (fun new old => new < old) col.min value
  let max ← updateStat (fun new old => new > old) col.max value
  return { col with min, max }

def Storage.append (cs : Storage A) (colName : String) (value : Value A) : Option (Storage A) :=
  match cs.columns.lookup colName with
  | none => some cs
  | some col =>
    (updateColumnStats { col with values := col.values ++ [value] } value).map fun col =>
      { cs with columns := cs.columns.insert colName col }

def Storage.log (cs : Storage A) (row : Row A) : Storage A := { cs with wal := cs.wal ++ [row] }

def Storage.count (cs : Storage A) : Storage A := { cs with totalRows := cs.totalRows + 1 }

/-- The send is dropped when the channel is full. -/
def Storage.signal (cs : Storage A) : Storage A :=
  if cs.totalRows % 10000 = 0 then { cs with trigger := true } else cs

def Storage.appendRow (cs : Storage A) (row : Row A) (order : List String) : Option (Storage A) :=
  exec (fun cs colName => cs.append colName ((row.lookup colName).getD .nil)) cs order

structure InsertCall (A : Type) where
  row : Row A
  order : List String

def insert (cs : Storage A) (call : InsertCall A) : Option (Storage A) :=
  if Ranges call.order call.row then
    ((cs.log call.row).appendRow call.row call.order).map fun cs => cs.count.signal
  else none

/-- The values of the columns that were found, and the length of the last of them. -/
abbrev ColumnData (A : Type) := GoMap String (List (Value A)) × Nat

def Storage.readColumn (cs : Storage A) (data : ColumnData A) (colName : String) : ColumnData A :=
  match cs.columns.lookup colName with
  | some col => (data.1.insert colName col.values, col.values.length)
  | none => data

/-- The loop that fills a row meets the columns found in some order, and sets each once. -/
def buildRow (columns : List String) (columnData : GoMap String (List (Value A))) (i : Nat) :
    Row A :=
  ofKeys columns fun colName => (columnData.lookup colName).bind (·[i]?)

def Storage.query (cs : Storage A) (columns : List String) (predicate : Option (Row A → Bool)) :
    List (Row A) :=
  let (columnData, numRows) := columns.foldl cs.readColumn (∅, 0)
  ((List.range numRows).map (buildRow columns columnData)).filter fun row =>
    predicate.all (· row)

def Storage.valuesOf (cs : Storage A) (colName : String) : Option (List (Value A)) :=
  (cs.columns.lookup colName).map Column.values

variable (cs : Storage A) (columns : List String)

def Storage.numRows : Nat := ((columns.filterMap cs.valuesOf).getLast?.map List.length).getD 0

def Storage.rowAt (i : Nat) : Row A :=
  ofKeys columns fun colName => (cs.valuesOf colName).bind (·[i]?)

theorem lookup_columnData (colName) :
    (columns.foldl cs.readColumn (∅, 0)).1.lookup colName =
      if colName ∈ columns then cs.valuesOf colName else none := by
  induction columns using reverseRecOn with
  | nil => rfl
  | append_singleton columns last ih =>
    rw [foldl_concat, Storage.readColumn]
    by_cases same : colName = last
    · subst same
      cases found : cs.columns.lookup colName with
      | none => simp [ih, Storage.valuesOf, found]
      | some col => simp [Storage.valuesOf, found]
    · cases found : cs.columns.lookup last with
      | none => simp [ih, same]
      | some col => simp [ih, same]

theorem columnData_numRows : (columns.foldl cs.readColumn (∅, 0)).2 = cs.numRows columns := by
  induction columns using reverseRecOn with
  | nil => rfl
  | append_singleton columns last ih =>
    rw [foldl_concat, Storage.readColumn, Storage.numRows, filterMap_append]
    cases found : cs.columns.lookup last with
    | none => simp [ih, Storage.numRows, Storage.valuesOf, found]
    | some col => simp [Storage.valuesOf, found]

theorem query_all :
    cs.query columns none = (List.range (cs.numRows columns)).map (cs.rowAt columns) := by
  have rows : ∀ i, buildRow columns (columns.foldl cs.readColumn (∅, 0)).1 i =
      cs.rowAt columns i := by
    intro i
    apply ofKeys_congr
    intro colName asked
    rw [lookup_columnData, if_pos asked]
  unfold Storage.query
  simp [rows, columnData_numRows]

variable {cs t : Storage A} {v : Value A} {colName : String}

theorem updateColumnStats_values {col changed} (updated : updateColumnStats col v = some changed) :
    changed.values = col.values := by
  unfold updateColumnStats at updated
  simp only [Option.bind_eq_bind, Option.pure_def, Option.bind_eq_some_iff, Option.some.injEq]
    at updated
  obtain ⟨min, -, max, -, rfl⟩ := updated
  rfl

theorem append_valuesOf (app : cs.append colName v = some t) (other) :
    t.valuesOf other = (cs.valuesOf other).map fun vs =>
      if other = colName then vs ++ [v] else vs := by
  by_cases same : other = colName
  · subst same
    unfold Storage.append at app
    unfold Storage.valuesOf
    cases found : cs.columns.lookup other with
    | none =>
      rw [found] at app
      cases app
      rw [found]
      rfl
    | some col =>
      rw [found] at app
      obtain ⟨changed, updated, rfl⟩ := Option.map_eq_some_iff.mp app
      simp [updateColumnStats_values updated]
  · simp only [if_neg same, Option.map_id']
    unfold Storage.append at app
    split at app
    · rw [Option.some.inj app]
    · obtain ⟨changed, -, rfl⟩ := Option.map_eq_some_iff.mp app
      simp [Storage.valuesOf, same]

theorem append_frame (app : cs.append colName v = some t) :
    t.wal = cs.wal ∧ t.totalRows = cs.totalRows := by
  unfold Storage.append at app
  split at app
  · rw [Option.some.inj app]
    exact ⟨rfl, rfl⟩
  · obtain ⟨changed, -, rfl⟩ := Option.map_eq_some_iff.mp app
    exact ⟨rfl, rfl⟩

theorem appendRow_valuesOf {row order} (app : cs.appendRow row order = some t) (colName) :
    t.wal = cs.wal ∧ t.valuesOf colName = (cs.valuesOf colName).map fun vs =>
      vs ++ (order.filter (· = colName)).map fun name => (row.lookup name).getD .nil := by
  refine exec_history (fun order t => t.wal = cs.wal ∧
    t.valuesOf colName = (cs.valuesOf colName).map fun vs =>
      vs ++ (order.filter (· = colName)).map fun name => (row.lookup name).getD .nil)
    ?_ ?_ app
  · simp
  · rintro order mid name t - ⟨wal, vs⟩ took
    refine ⟨(append_frame took).1.trans wal, ?_⟩
    rw [append_valuesOf took, vs, Option.map_map]
    congr 1
    funext before
    by_cases same : colName = name
    · subst same
      simp
    · simp [same, Ne.symm same]

theorem signal_valuesOf (cs : Storage A) (colName) :
    cs.signal.valuesOf colName = cs.valuesOf colName := by
  unfold Storage.signal
  split <;> rfl

theorem insert_valuesOf {c} (put : insert cs c = some t) (colName : String) :
    t.wal = cs.wal ++ [c.row] ∧ t.valuesOf colName =
      (cs.valuesOf colName).map fun vs => vs ++ (c.row.lookup colName).toList := by
  obtain ⟨ranges, put⟩ := Option.ite_none_right_eq_some.mp put
  obtain ⟨filled, app, rfl⟩ := Option.map_eq_some_iff.mp put
  obtain ⟨wal, vs⟩ := appendRow_valuesOf app colName
  have logged : filled.count.signal.wal = filled.wal := by
    unfold Storage.signal
    split <;> rfl
  refine ⟨logged.trans wal, (signal_valuesOf filled.count colName).trans (vs.trans ?_)⟩
  rw [ filter_eq, ranges.1.count]
  by_cases named : colName ∈ c.order
  · obtain ⟨v, hit⟩ := Option.isSome_iff_exists.mp
      (Finmap.lookup_isSome.mpr (ranges.mem_iff.mp named))
    simp [named, hit, Storage.log, Storage.valuesOf]
  · have absent := Finmap.lookup_eq_none.mpr (fun mem => named (ranges.mem_iff.mpr mem))
    simp [named, absent, Storage.log, Storage.valuesOf]

/-- A statistic that has met ints only. -/
def Value.Numeric (stat : Value A) : Prop := stat = .nil ∨ ∃ n, stat = .int n

/-- The columns are among those named, and their statistics have met ints only. -/
def Storage.Numeric (names : List String) (cs : Storage A) : Prop :=
  ∀ colName col, cs.columns.lookup colName = some col →
    colName ∈ names ∧ col.min.Numeric ∧ col.max.Numeric

def IntsAt (names : List String) (row : Row A) : Prop :=
  ∀ colName ∈ names, ∀ value, row.lookup colName = some value → ∃ n, value = .int n

variable {ns : List String}

def Gives (names : List String) (row : Row A) : Prop :=
  ∀ colName ∈ names, ∃ n, row.lookup colName = some (.int n)

variable {row : Row A}

theorem Gives.mem (gives : Gives ns row) (column : colName ∈ ns) : colName ∈ row := by
  obtain ⟨n, hit⟩ := gives colName column
  exact Finmap.mem_of_lookup_eq_some hit

theorem Gives.intsAt (gives : Gives ns row) : IntsAt ns row := by
  intro colName column v hit
  obtain ⟨n, given⟩ := gives colName column
  exact ⟨n, Option.some.inj (hit.symm.trans given)⟩

theorem updateStat_int (better) {stat : Value A} (numeric : stat.Numeric) (n) :
    ∃ changed, updateStat better stat (.int n) = some changed ∧ changed.Numeric := by
  rcases numeric with rfl | ⟨old, rfl⟩
  · exact ⟨.int n, rfl, .inr ⟨n, rfl⟩⟩
  · refine ⟨if better n old then .int n else .int old, rfl, Or.inr ?_⟩
    split
    · exact ⟨n, rfl⟩
    · exact ⟨old, rfl⟩

/-- The type assertions of updateColumnStats hold where all values are ints. -/
theorem append_total (numeric : cs.Numeric ns) {v : Value A}
    (int : colName ∈ ns → ∃ n, v = .int n) :
    ∃ next, cs.append colName v = some next ∧ next.Numeric ns := by
  unfold Storage.append
  cases found : cs.columns.lookup colName with
  | none => exact ⟨cs, rfl, numeric⟩
  | some col =>
    obtain ⟨named, minNumeric, maxNumeric⟩ := numeric colName col found
    obtain ⟨n, rfl⟩ := int named
    obtain ⟨min, minUpdated, minNumeric⟩ := updateStat_int (fun new old => new < old) minNumeric n
    obtain ⟨max, maxUpdated, maxNumeric⟩ := updateStat_int (fun new old => new > old) maxNumeric n
    refine ⟨_, by simp [updateColumnStats, minUpdated, maxUpdated]; rfl, ?_⟩
    intro x stored hit
    rcases lookup_insert_cases hit with ⟨rfl, rfl⟩ | ⟨-, pre⟩
    · exact ⟨named, minNumeric, maxNumeric⟩
    · exact numeric x stored pre

theorem insert_total (numeric : cs.Numeric ns) {c} (ints : IntsAt ns c.row)
    (ranges : Ranges c.order c.row) : ∃ next, insert cs c = some next ∧ next.Numeric ns := by
  have enabled : ∀ mid : Storage A, ∀ colName ∈ c.order, mid.Numeric ns →
      ∃ next, mid.append colName ((c.row.lookup colName).getD .nil) = some next ∧
        next.Numeric ns := by
    intro mid colName named held
    obtain ⟨v, hit⟩ := Option.isSome_iff_exists.mp
      (Finmap.lookup_isSome.mpr (ranges.mem_iff.mp named))
    refine append_total held fun column => ?_
    rw [hit]
    exact ints colName column v hit
  have logged : (cs.log c.row).Numeric ns := numeric
  obtain ⟨filled, app, came⟩ := exec_total (Storage.Numeric ns) enabled logged
  refine ⟨filled.count.signal, ?_, ?_⟩
  · rw [insert, if_pos ranges, Storage.appendRow, app]
    rfl
  · unfold Storage.signal
    split <;> exact came

def created (names : List String) : Storage A :=
  names.foldl Storage.createColumn newColumnarStorage

/-- Each of the columns named holds the values that the rows of the log give it. -/
def Storage.Stored (names : List String) (cs : Storage A) : Prop :=
  ∀ colName, cs.valuesOf colName =
    if colName ∈ names then some (cs.wal.filterMap (·.lookup colName)) else none

theorem created_wal (ns) : (created ns : Storage A).wal = [] := by
  induction ns using reverseRecOn with
  | nil => rfl
  | append_singleton ns last ih =>
    rw [created, foldl_append]
    exact ih

theorem created_valuesOf (ns colName) :
    (created ns : Storage A).valuesOf colName = if colName ∈ ns then some [] else none := by
  induction ns using reverseRecOn with
  | nil => rfl
  | append_singleton ns last ih =>
    rw [created, foldl_append, ← created, foldl_cons, foldl_nil]
    unfold Storage.valuesOf at ih ⊢
    by_cases same : colName = last
    · subst same
      simp [Storage.createColumn]
    · simp [Storage.createColumn, same, ih]

theorem created_stored (ns) : (created ns : Storage A).Stored ns := by
  intro colName
  rw [created_valuesOf, created_wal]
  rfl

theorem created_numeric (ns) : (created ns : Storage A).Numeric ns := by
  induction ns using reverseRecOn with
  | nil =>
    intro colName col hit
    cases hit
  | append_singleton ns last ih =>
    rw [created, foldl_append, ← created, foldl_cons, foldl_nil]
    intro colName col hit
    rcases lookup_insert_cases hit with ⟨rfl, rfl⟩ | ⟨-, pre⟩
    · exact ⟨by simp, .inl rfl, .inl rfl⟩
    · exact ⟨mem_append_left _ (ih colName col pre).1, (ih colName col pre).2⟩

theorem insert_stored (stored : cs.Stored ns) {c} (put : insert cs c = some t) :
    t.Stored ns := by
  intro colName
  obtain ⟨wal, vs⟩ := insert_valuesOf put colName
  rw [vs, stored colName, wal, filterMap_append]
  split
  · cases found : c.row.lookup colName <;> simp [found]
  · rfl

end

/- Rows inserted one after another, against the rows that Query puts together again. The number
of a row is only its place in each column, and a row that does not name a column leaves no gap. -/
open Finmap GoMap List Runs

variable {α β γ : Type}

theorem length_filterMap_iff (f : α → Option β) (l : List α) :
    (l.filterMap f).length = l.length ↔ ∀ a ∈ l, (f a).isSome := by
  induction l with
  | nil => simp
  | cons a l ih =>
    have shorter := length_filterMap_le f l
    cases found : f a with
    | none => simp [found]; omega
    | some b => simp [found, ih]

/-- Leaving elements out keeps the others in their places exactly when only a tail is left out. -/
theorem getElem?_filterMap_iff (f : α → Option β) (l : List α) :
    (∀ i (bound : i < l.length), (l.filterMap f)[i]? = f l[i]) ↔
      l.Pairwise fun a b => (f b).isSome → (f a).isSome := by
  induction l with
  | nil => simp
  | cons a l ih =>
    rw [pairwise_cons, ← ih]
    cases found : f a with
    | none =>
      rw [filterMap_cons_none found]
      constructor
      · intro kept
        -- The first place is empty, so nothing of the rest is kept.
        have x := kept 0 (Nat.succ_pos _)
        rw [getElem_cons_zero, found, getElem?_eq_none_iff, Nat.le_zero,
          length_eq_zero_iff, filterMap_eq_nil_iff] at x
        refine ⟨fun b mem some => ?_, fun i bound => ?_⟩
        · rw [x b mem] at some
          cases some
        · rw [filterMap_eq_nil_iff.mpr x, x _ (getElem_mem bound)]
          rfl
      · rintro ⟨dropped, -⟩ i bound
        have none : ∀ b ∈ l, f b = none := by
          intro b mem
          have absent := dropped b mem
          simpa using absent
        rw [filterMap_eq_nil_iff.mpr none, getElem?_nil]
        cases i with
        | zero => exact found.symm
        | succ i => exact (none _ (getElem_mem _)).symm
    | some b =>
      rw [filterMap_cons_some found]
      constructor
      · intro kept
        exact ⟨fun _ _ _ => rfl, fun i bound => kept (i + 1) (Nat.succ_lt_succ bound)⟩
      · rintro ⟨-, kept⟩ i bound
        cases i with
        | zero => exact found.symm
        | succ i => exact kept i (Nat.lt_of_succ_lt_succ bound)

theorem map_range_eq_map_iff {n : Nat} {f : Nat → β} {g : α → β} {l : List α} :
    (List.range n).map f = l.map g ↔ n = l.length ∧ ∀ i (bound : i < l.length), f i = g l[i] := by
  constructor
  · intro eq
    have length : n = l.length := by simpa using congrArg length eq
    refine ⟨length, fun i bound => ?_⟩
    have e := congrArg (fun list => list[i]?) eq
    simpa [bound, length] using e
  · rintro ⟨rfl, eq⟩
    apply ext_getElem
    · simp
    · intro i bound _
      simpa using eq i (by simpa using bound)

/-- The part of a row that a list of columns asks for. -/
def restrict {A : Type} (columns : List String) (row : Row A) : Row A :=
  ofKeys columns row.lookup

variable {A : Type} {ns cols : List String} {cs : Storage A}

/-- The last column asked for is in every row, and each column asked for is in the rows up to
one of them and in none after it. -/
def Alignable (columns : List String) (rows : List (Row A)) : Prop :=
  (∃ last, columns.getLast? = some last ∧ ∀ row ∈ rows, last ∈ row) ∧
    ∀ colName ∈ columns, rows.Pairwise fun earlier later => colName ∈ later → colName ∈ earlier

theorem numRows_stored (stored : cs.Stored ns) (old : ∀ col ∈ cols, col ∈ ns) :
    cs.numRows cols =
      (cols.getLast?.map fun last => (cs.wal.filterMap (·.lookup last)).length).getD 0 := by
  have vs : cols.filterMap cs.valuesOf = cols.map fun col => cs.wal.filterMap (·.lookup col) := by
    rw [← filterMap_eq_map]
    apply filterMap_congr
    intro col asked
    rw [stored col, if_pos (old col asked)]
    rfl
  rw [Storage.numRows, vs, getLast?_map, Option.map_map]
  rfl

theorem rowAt_eq_restrict_iff {vs : String → List (Value A)}
    (held : ∀ col ∈ cols, cs.valuesOf col = some (vs col)) (i row) :
    cs.rowAt cols i = restrict cols row ↔ ∀ col ∈ cols, (vs col)[i]? = row.lookup col := by
  constructor
  · intro eq col asked
    have e := congrArg (fun row => row.lookup col) eq
    simpa [Storage.rowAt, restrict, lookup_ofKeys, asked, held] using e
  · intro eq
    apply ofKeys_congr
    intro col asked
    rw [held col asked]
    exact eq col asked

/-- Query over stored columns returns the rows of the log exactly when they can be aligned. -/
theorem query_stored_iff (stored : cs.Stored ns) (old : ∀ col ∈ cols, col ∈ ns) :
    cs.query cols none = cs.wal.map (restrict cols) ↔ cs.wal = [] ∨ Alignable cols cs.wal := by
  rw [query_all, map_range_eq_map_iff, numRows_stored stored old]
  have held : ∀ col ∈ cols, cs.valuesOf col = some (cs.wal.filterMap (·.lookup col)) := by
    intro col asked
    rw [stored col, if_pos (old col asked)]
  have rows : (∀ i (bound : i < cs.wal.length), cs.rowAt cols i = restrict cols cs.wal[i]) ↔
      ∀ col ∈ cols, cs.wal.Pairwise fun pre later =>
        col ∈ later → col ∈ pre := by
    simp only [rowAt_eq_restrict_iff held, ← lookup_isSome]
    constructor
    · intro eq col asked
      exact (getElem?_filterMap_iff _ _).mp fun i bound => eq i bound col asked
    · intro kept i bound col asked
      exact (getElem?_filterMap_iff _ _).mpr (kept col asked) i bound
  rw [rows, Alignable]
  cases last : cols.getLast? with
  | none =>
    have empty := getLast?_eq_none_iff.mp last
    subst empty
    simp [eq_comm (a := 0)]
  | some last =>
    simp only [Option.map_some, Option.getD_some, length_filterMap_iff, lookup_isSome,
      Option.some.injEq, exists_eq_left']
    constructor
    · exact Or.inr
    · rintro (empty | aligned)
      · simp [empty]
      · exact aligned

theorem query_existing (stored : cs.Stored ns) (cols) :
    cs.query cols none = cs.query (cols.filter (· ∈ ns)) none := by
  have no : ∀ col, col ∉ ns → cs.valuesOf col = none := by
    intro col absent
    rw [stored col, if_neg absent]
  have vs : cols.filterMap cs.valuesOf = (cols.filter (· ∈ ns)).filterMap cs.valuesOf := by
    rw [filterMap_filter]
    apply filterMap_congr
    intro col _
    by_cases column : col ∈ ns
    · simp [column]
    · simp [column, no]
  have rows : cs.rowAt cols = cs.rowAt (cols.filter (· ∈ ns)) := by
    funext i
    apply ext_lookup
    intro col
    rw [Storage.rowAt, Storage.rowAt, lookup_ofKeys, lookup_ofKeys]
    by_cases column : col ∈ ns
    · simp [column]
    · simp [column, no]
  rw [query_all, query_all, Storage.numRows, Storage.numRows, vs, rows]

/-- Rows that have all the columns come back as they are, as far as the columns asked for exist. -/
theorem query_dense (stored : cs.Stored ns) (gives : ∀ row ∈ cs.wal, Gives ns row) {asked}
    (mem : asked ∈ cols) (column : asked ∈ ns) :
    cs.query cols none = cs.wal.map (restrict (cols.filter (· ∈ ns))) := by
  have old : ∀ col ∈ cols.filter (· ∈ ns), col ∈ ns := by
    intro col visible
    simpa using of_mem_filter visible
  have visible : asked ∈ cols.filter (· ∈ ns) := mem_filter.mpr ⟨mem, by simpa⟩
  rw [query_existing stored]
  refine (query_stored_iff stored old).mpr (.inr ⟨?_, ?_⟩)
  · refine ⟨_, getLast?_eq_some_getLast (ne_nil_of_mem visible), fun row logged => ?_⟩
    exact (gives row logged).mem (old _ (getLast_mem _))
  · intro col shown
    apply pairwise_of_forall_mem_list
    intro pre logged _ _ _
    exact (gives pre logged).mem (old col shown)

theorem stored_run {calls : List (InsertCall A)} {cs : Storage A}
    (run : exec insert (created ns) calls = some cs) :
    cs.Stored ns ∧ cs.wal = calls.map InsertCall.row := by
  refine exec_history (fun calls cs => cs.Stored ns ∧ cs.wal = calls.map InsertCall.row)
    ⟨created_stored ns, created_wal ns⟩ ?_ run
  rintro calls pre c t - ⟨stored, wal⟩ put
  refine ⟨insert_stored stored put, ?_⟩
  rw [(insert_valuesOf put "").1, wal, map_append]
  rfl

theorem inserts_stored (ns) {calls : List (InsertCall A)}
    (ints : ∀ c ∈ calls, IntsAt ns c.row) (ranges : ∀ c ∈ calls, Ranges c.order c.row) :
    ∃ cs, exec insert (created ns) calls = some cs ∧ cs.Stored ns ∧
      cs.wal = calls.map InsertCall.row := by
  obtain ⟨cs, run, -⟩ := exec_total (Storage.Numeric ns)
    (fun _ c mem numeric => insert_total numeric (ints c mem) (ranges c mem))
    (created_numeric ns)
  exact ⟨cs, run, stored_run run⟩

/-- Of rows inserted one after another, Query returns each one's part exactly when nothing was
inserted or the rows can be aligned. -/
theorem sparse_rows_aligned_iff (names : List String) {calls : List (InsertCall A)}
    (ints : ∀ call ∈ calls, IntsAt names call.row)
    (ranges : ∀ call ∈ calls, GoMap.Ranges call.order call.row) {columns : List String}
    (existing : ∀ colName ∈ columns, colName ∈ names) :
    ∃ cs, exec insert (created names) calls = some cs ∧
      (cs.query columns none = calls.map (fun call => restrict columns call.row) ↔
        calls = [] ∨ Alignable columns (calls.map InsertCall.row)) := by
  obtain ⟨cs, run, stored, wal⟩ := inserts_stored names ints ranges
  refine ⟨cs, run, ?_⟩
  have aligned := query_stored_iff stored existing
  rw [wal, map_map, map_eq_nil_iff] at aligned
  exact aligned

def intRow (entries : List (String × Int)) : Row Empty :=
  entries.foldl (fun row entry => row.insert entry.1 (.int entry.2)) ∅

theorem intsAt_intRow (ns es) : IntsAt ns (intRow es) := by
  intro col _ v hit
  induction es using reverseRecOn with
  | nil => cases hit
  | append_singleton es last ih =>
    rw [intRow, foldl_append] at hit
    rcases lookup_insert_cases hit with ⟨-, rfl⟩ | ⟨-, pre⟩
    · exact ⟨last.2, rfl⟩
    · exact ih pre

theorem mem_intRow {es col} (mem : col ∈ intRow es) : col ∈ es.map Prod.fst := by
  induction es using reverseRecOn with
  | nil => exact absurd mem notMem_empty
  | append_singleton es last ih =>
    rw [intRow, foldl_append] at mem
    rw [map_append]
    rcases mem_insert.mp mem with rfl | before
    · simp
    · exact mem_append_left _ (ih before)

theorem sparse_rows_aligned_shrinking :
    ∃ cs, exec insert (created ["a", "b"])
        [⟨intRow [("a", 1), ("b", 2)], ["b", "a"]⟩, ⟨intRow [("a", 3)], ["a"]⟩] = some cs ∧
      cs.query ["b", "a"] none = [intRow [("a", 1), ("b", 2)], intRow [("a", 3)]] := by
  have ints : ∀ call ∈ [(⟨intRow [("a", 1), ("b", 2)], ["b", "a"]⟩ : InsertCall Empty),
      ⟨intRow [("a", 3)], ["a"]⟩], IntsAt ["a", "b"] call.row := by
    simp [intsAt_intRow]
  obtain ⟨cs, run, aligned⟩ := sparse_rows_aligned_iff ["a", "b"] ints (by decide)
    (by decide : ∀ colName ∈ ["b", "a"], colName ∈ ["a", "b"])
  refine ⟨cs, run, (aligned.mpr (Or.inr ⟨⟨"a", rfl, by decide⟩, ?_⟩)).trans (by decide)⟩
  decide

/-- Values of two rows come out as one row. -/
theorem sparse_rows_merged :
    ∃ cs, exec insert (created ["a", "b"])
        [⟨intRow [("a", 1)], ["a"]⟩, ⟨intRow [("b", 2)], ["b"]⟩] = some cs ∧
      cs.query ["a", "b"] none = [intRow [("a", 1), ("b", 2)]] :=
  ⟨_, rfl, by decide⟩

end AsyncPractice.ColumnarStorage
