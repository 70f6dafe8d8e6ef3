import AsyncPractice.ColumnarStorage
import AsyncPractice.MachineInt

/- The compactor of ColumnarStorage beside calls of CreateColumn and Insert that follow one another.
An Insert holds the read lock from its log entry on, and so does createRowGroup while it encodes. -/
namespace AsyncPractice.ColumnarStorage.Compaction

open List Runs

/-- Where compact stands: before createRowGroup has the lock, or at the columns it has left. -/
inductive Compactor
  | idle
  | starting (startRow : Int64)
  | encoding (startRow : Int64) (left : List String)

def Compactor.startRow : Compactor → Option Int64
  | idle => none
  | starting startRow | encoding startRow _ => some startRow

/-- Of the row groups only the number matters; `inserting` is the row of an Insert with the columns
its loop has left. -/
structure State (A : Type) where
  cs : Storage A
  rowGroups : Nat
  inserting : Option (Row A × List String)
  compactor : Compactor

inductive Event (A : Type)
  | createColumn (name : String)
  | insert (row : Row A) (order : List String)
  | append
  | count
  | compact
  | createRowGroup (order : List String)
  | encodeColumn
  | addRowGroup

variable {A : Type}

def init : State A := ⟨newColumnarStorage, 0, none, .idle⟩

/-- The values that are encoded; a slice out of range panics. -/
def encodeColumn (col : Column A) (start stop : Int64) : Option (List (Value A)) :=
  let stop := min stop.toInt col.values.length
  if 0 ≤ start.toInt ∧ start.toInt ≤ stop then
    some ((col.values.take stop.toNat).drop start.toInt.toNat)
  else none

def step (s : State A) : Event A → Option (State A)
  | .createColumn name =>
    match s.inserting, s.compactor with
    | none, .idle | none, .starting _ => some { s with cs := s.cs.createColumn name }
    | _, _ => none
  | .insert row order =>
    if s.inserting.isNone ∧ GoMap.Ranges order row then
      some { s with cs := s.cs.log row, inserting := some (row, order) }
    else none
  | .append =>
    match s.inserting with
    | some (row, colName :: order) =>
      (s.cs.append colName ((row.lookup colName).getD .nil)).map fun cs =>
        { s with cs, inserting := some (row, order) }
    | _ => none
  | .count =>
    match s.inserting with
    | some (_, []) => some { s with cs := s.cs.count.signal, inserting := none }
    | _ => none
  | .compact =>
    match s.cs.trigger, s.compactor with
    | true, .idle =>
      let startRow := Int64.ofNat s.rowGroups * 10000
      some { s with
        cs := { s.cs with trigger := false }
        compactor :=
          if 0 < s.cs.totalRows ∧ startRow < s.cs.totalRows then .starting startRow else .idle }
    | _, _ => none
  | .createRowGroup order =>
    match s.compactor with
    | .starting startRow =>
      if GoMap.Ranges order s.cs.columns then
        some { s with compactor := .encoding startRow order }
      else none
    | _ => none
  | .encodeColumn =>
    match s.compactor with
    | .encoding startRow (name :: left) =>
      ((s.cs.columns.lookup name).bind fun col =>
        encodeColumn col startRow (startRow + 10000)).map fun _ =>
          { s with compactor := .encoding startRow left }
    | _ => none
  | .addRowGroup =>
    match s.inserting, s.compactor with
    | none, .encoding _ [] => some { s with rowGroups := s.rowGroups + 1, compactor := .idle }
    | _, _ => none

/-- A call of encodeColumn is made with a start in the column. -/
def InRange (s : State A) : Event A → Prop
  | .encodeColumn => ∀ startRow name left col, s.compactor = .encoding startRow (name :: left) →
      s.cs.columns.lookup name = some col → startRow.toInt ≤ col.values.length
  | _ => True

/-- Columns are created before the first Insert, and every row has a value for each of them. -/
def Dense (s : State A) : Event A → Prop
  | .createColumn _ => s.cs.wal = []
  | .insert row _ => s.cs.columns.keys ⊆ row.keys
  | _ => True

/-- No column is shorter than the rows counted, nor than the start of the row group being made. A
column that the Insert under way has passed is longer by one. -/
structure Filled (s : State A) : Prop where
  fresh : s.cs.wal = [] → s.cs.totalRows = 0 ∧ s.inserting = none ∧ s.compactor = .idle
  rows : ∀ name values, s.cs.valuesOf name = some values →
    s.cs.totalRows.toInt + (if s.inserting.any (name ∉ ·.2) then 1 else 0) ≤ values.length
  start : ∀ startRow, s.compactor.startRow = some startRow → ∀ name values,
    s.cs.valuesOf name = some values → startRow.toInt ≤ values.length

theorem init_filled : Filled (init : State A) :=
  ⟨fun _ => ⟨rfl, rfl, rfl⟩, nofun, nofun⟩

theorem filled_step {s t : State A} {e : Event A} (filled : Filled s) (dense : Dense s e)
    (took : step s e = some t) : Filled t := by
  obtain ⟨fresh, rows, start⟩ := filled
  cases e with
  | createColumn name =>
    obtain ⟨none, idle, quiet⟩ := fresh dense
    simp only [step, idle, quiet, Option.some.injEq] at took
    subst took
    refine ⟨fun _ => ⟨none, rfl, rfl⟩, fun x vs _ => ?_, fun _ begun => by cases begun⟩
    simp [Storage.createColumn, none]
  | insert row order =>
    obtain ⟨⟨idle, ranges⟩, rfl⟩ := guard_some.mp took
    refine ⟨fun empty => absurd empty (by simp [Storage.log]), fun name vs hit => ?_, start⟩
    have named : name ∈ order := by
      obtain ⟨col, found, -⟩ := Option.map_eq_some_iff.mp hit
      have column := Finmap.mem_keys.mpr (Finmap.mem_of_lookup_eq_some found)
      exact ranges.mem_iff.mpr (Finmap.mem_keys.mp (dense column))
    have cnt := rows name vs hit
    simp only [Option.isNone_iff_eq_none.mp idle] at cnt
    simpa [named, Storage.log] using cnt
  | append =>
    simp only [step] at took
    split at took
    next row colName order inserting =>
      obtain ⟨cs, app, rfl⟩ := Option.map_eq_some_iff.mp took
      obtain ⟨wal, total⟩ := append_frame app
      simp [inserting, ← wal] at fresh
      refine ⟨fun empty => absurd empty fresh, fun name vs hit => ?_,
        fun startRow begun name vs hit => ?_⟩
      · obtain ⟨old, held, rfl⟩ := Option.map_eq_some_iff.mp
          ((append_valuesOf app name).symm.trans hit)
        have cnt := rows name old held
        dsimp only
        rw [inserting] at cnt
        rw [total]
        by_cases same : name = colName
        · simp [same] at cnt ⊢
          split <;> omega
        · simpa [same] using cnt
      · obtain ⟨old, held, rfl⟩ := Option.map_eq_some_iff.mp
          ((append_valuesOf app name).symm.trans hit)
        have bound := start startRow begun name old held
        split
        · rw [length_append, length_singleton]
          omega
        · exact bound
    · cases took
  | count =>
    simp only [step] at took
    split at took
    next inserting =>
      cases took
      have total : s.cs.count.signal.totalRows = s.cs.totalRows + 1 := by
        unfold Storage.signal
        split <;> rfl
      have wal : s.cs.count.signal.wal = s.cs.wal := by
        unfold Storage.signal
        split <;> rfl
      simp [inserting, ← wal] at fresh
      refine ⟨fun empty => absurd empty fresh, fun name vs hit => ?_,
        fun startRow begun name vs hit => ?_⟩
      · rw [signal_valuesOf] at hit
        have cnt : s.cs.totalRows.toInt + 1 ≤ vs.length := by
          simpa [inserting] using rows name vs hit
        have slow := MachineInt.toInt_add_one_le s.cs.totalRows
        show s.cs.count.signal.totalRows.toInt + 0 ≤ _
        rw [total]
        omega
      · rw [signal_valuesOf] at hit
        exact start startRow begun name vs hit
    · cases took
  | compact =>
    simp only [step] at took
    split at took
    · cases took
      refine ⟨fun empty => ?_, rows, fun startRow begun name vs hit => ?_⟩
      · obtain ⟨none, idle, -⟩ := fresh empty
        exact ⟨none, idle, by rw [none]; rfl⟩
      · dsimp only at begun
        split at begun
        next more =>
          cases begun
          have below := Int64.lt_iff_toInt_lt.mp more.2
          have cnt := rows name vs hit
          split at cnt <;> omega
        · cases begun
    · cases took
  | createRowGroup order =>
    simp only [step] at took
    split at took
    next startRow starting =>
      obtain ⟨-, rfl⟩ := guard_some.mp took
      rw [starting] at start
      simp [starting] at fresh
      exact ⟨fun empty => absurd empty fresh, rows, start⟩
    · cases took
  | encodeColumn =>
    simp only [step] at took
    split at took
    next startRow name left encoding =>
      obtain ⟨-, -, rfl⟩ := Option.map_eq_some_iff.mp took
      rw [encoding] at start
      simp [encoding] at fresh
      exact ⟨fun empty => absurd empty fresh, rows, start⟩
    · cases took
  | addRowGroup =>
    simp only [step] at took
    split at took
    next idle _ =>
      cases took
      exact ⟨fun empty => ⟨(fresh empty).1, idle, rfl⟩, rows, fun _ begun => by cases begun⟩
    · cases took

instance (s : State A) (e : Event A) : Decidable (Dense s e) :=
  match e with
  | .createColumn _ => inferInstanceAs (Decidable (_ = _))
  | .insert row _ => inferInstanceAs (Decidable (s.cs.columns.keys ⊆ row.keys))
  | .append | .count | .compact | .createRowGroup _ | .encodeColumn | .addRowGroup =>
    isTrue trivial

def emptyRows (n : Nat) : List (Event Empty) := (replicate n [.insert ∅ [], .count]).flatten

theorem exec_emptyRow {s : State Empty} (idle : s.inserting = none) :
    exec step s [.insert ∅ [], .count] = some { s with cs := (s.cs.log ∅).count.signal } := by
  have ranges : GoMap.Ranges [] (∅ : Row Empty) := by decide
  simp [exec, step, idle, ranges]

theorem exec_emptyRows {s : State Empty} (idle : s.inserting = none) (n) :
    ∃ wal trigger, exec step s (emptyRows n) = some { s with cs := { s.cs with
        wal, trigger, totalRows := s.cs.totalRows + .ofNat n } } ∧
      (0 < n → (s.cs.totalRows + .ofNat n) % 10000 = 0 → trigger = true) := by
  induction n with
  | zero => exact ⟨s.cs.wal, s.cs.trigger, by simp [emptyRows], by simp⟩
  | succ n ih =>
    obtain ⟨wal, trigger, run, -⟩ := ih
    have total : s.cs.totalRows + .ofNat (n + 1) = s.cs.totalRows + .ofNat n + 1 := by
      rw [Int64.ofNat_add, Int64.add_assoc]
      rfl
    refine ⟨wal ++ [∅], if (s.cs.totalRows + .ofNat n + 1) % 10000 = 0 then true else trigger,
      ?_, fun _ whole => if_pos (total ▸ whole)⟩
    rw [emptyRows, replicate_succ', flatten_append, total, flatten_singleton]
    refine exec_append_some.mpr ⟨_, run, ?_⟩
    rw [exec_emptyRow (by exact idle)]
    by_cases whole : (s.cs.totalRows + .ofNat n + 1) % 10000 = 0 <;>
      simp [Storage.signal, Storage.count, Storage.log, whole]

def emptyColumn (wal : List (Row Empty)) (totalRows : Int64) : Storage Empty :=
  { newColumnarStorage.createColumn "a" with wal, totalRows }

theorem exec_round (wal : List (Row Empty)) (total : Int64) (groups : Nat)
    (whole : (total + 10000) % 10000 = 0)
    (due : 0 < total + 10000 ∧ Int64.ofNat groups * 10000 < total + 10000) :
    ∃ later, exec step ⟨emptyColumn wal total, groups, none, .idle⟩
        (emptyRows 10000 ++ [.compact, .createRowGroup ["a"]]) =
      some ⟨emptyColumn later (total + 10000), groups, none,
        .encoding (Int64.ofNat groups * 10000) ["a"]⟩ := by
  obtain ⟨later, trigger, run, full⟩ :=
    exec_emptyRows (s := ⟨emptyColumn wal total, groups, none, .idle⟩) rfl 10000
  obtain rfl := full (by decide) whole
  have ranges : GoMap.Ranges ["a"] (newColumnarStorage.createColumn "a" : Storage Empty).columns :=
    by decide
  refine ⟨later, exec_append_some.mpr ⟨_, run, ?_⟩⟩
  simp [exec, step, emptyColumn, due, ranges]
  rfl

end AsyncPractice.ColumnarStorage.Compaction
