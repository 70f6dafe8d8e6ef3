import Mathlib.Order.Interval.Finset.Nat
import AsyncPractice.ErasureCoder

namespace AsyncPractice.ErasureCoder

section

open Option List

/-- Whatever `parityChunks` chunks are lost, different data of `n` bytes still differ in one of
the chunks that are left. -/
def ToleratesLosses (ec : ErasureCoder) (n : Nat) : Prop :=
  ∀ first second : Bytes, first.length = n → second.length = n → first ≠ second →
    ∀ lost : Finset Nat, lost.card ≤ ec.parityChunks →
      ∃ i < ec.dataChunks + ec.parityChunks, i ∉ lost ∧
        (ec.encode first)[i]? ≠ (ec.encode second)[i]?

/-- The exclusive or down one column of the chunks. -/
def columnXor (column : Nat → UInt8) (count : Nat) : UInt8 :=
  (List.range count).foldl (fun byte i => byte ^^^ column i) 0

theorem columnXor_succ (column count) :
    columnXor column (count + 1) = columnXor column count ^^^ column count := by
  simp [columnXor, range_succ]

variable {first second : Nat → UInt8} {count : Nat}

theorem columnXor_congr (eq : ∀ i < count, first i = second i) :
    columnXor first count = columnXor second count := by
  induction count with
  | zero => rfl
  | succ count ih =>
    rw [columnXor_succ, columnXor_succ, ih fun i below => eq i (by omega),
      eq count (Nat.lt_succ_self count)]

variable {i k : Nat}

theorem columnXor_ne (lt : i < count) (differs : first i ≠ second i)
    (eq : ∀ j < count, j ≠ i → first j = second j) :
    columnXor first count ≠ columnXor second count := by
  induction count with
  | zero => omega
  | succ count ih =>
    rw [columnXor_succ, columnXor_succ]
    by_cases last : i = count
    · subst last
      rw [columnXor_congr fun j below => eq j (by omega) (Nat.ne_of_lt below)]
      intro equal
      exact differs (UInt8.xor_right_inj _ |>.mp equal)
    · rw [eq count (Nat.lt_succ_self count) (Ne.symm last)]
      intro equal
      exact ih (by omega) (fun j below => eq j (by omega)) (UInt8.xor_left_inj _ |>.mp equal)

theorem columnXor_pair {column} (two : 2 ≤ count) (equal : column 0 = column 1)
    (rest : ∀ i, 2 ≤ i → column i = 0) : columnXor column count = 0 := by
  induction count, two using Nat.le_induction with
  | base =>
    rw [columnXor_succ, columnXor_succ, equal]
    simp [columnXor]
  | succ count two ih =>
    rw [columnXor_succ, ih, rest count two]
    rfl

theorem getD_xorInto (parity chunk) (lt : k < parity.length) :
    (xorInto parity chunk).getD k 0 = parity.getD k 0 ^^^ chunk.getD k 0 := by
  fun_induction xorInto generalizing k with
  | case1 p parity c chunk ih =>
    cases k with
    | zero => rfl
    | succ k => simpa using ih (by simpa using lt)
  | case2 parity => simp
  | case3 => simp at lt

variable (ec : ErasureCoder) (data : Bytes)

/-- The parity chunk `encode` computes from the data. -/
def parityOf : Bytes :=
  parityChunk (ec.chunkSize data) ((List.range ec.dataChunks).map (ec.dataChunk data))

theorem length_parityOf : (ec.parityOf data).length = ec.chunkSize data := by
  rw [parityOf, parityChunk, length_foldl_xorInto, length_replicate]

theorem getD_parityOf (lt : k < ec.chunkSize data) :
    (ec.parityOf data).getD k 0 =
      columnXor (fun i => (ec.dataChunk data i).getD k 0) ec.dataChunks := by
  have columns : ∀ count, (((range count).map (ec.dataChunk data)).foldl xorInto
        (replicate (ec.chunkSize data) 0)).getD k 0 =
      columnXor (fun i => (ec.dataChunk data i).getD k 0) count := by
    intro count
    induction count with
    | zero => simp [columnXor, getD_eq_getElem?_getD, lt]
    | succ count ih =>
      rw [range_succ, map_append, foldl_append, map_singleton,
        foldl_cons, foldl_nil, getD_xorInto, ih, columnXor_succ]
      rw [length_foldl_xorInto, length_replicate]
      exact lt
  exact columns ec.dataChunks

theorem survivor_of_two {ec : ErasureCoder} {first second : Bytes} {j : Nat}
    (insideI : i < ec.dataChunks) (insideJ : j < ec.dataChunks) (ne : j ≠ i)
    (differsI : ec.dataChunk first i ≠ ec.dataChunk second i)
    (differsJ : ec.dataChunk first j ≠ ec.dataChunk second j) {lost : Finset Nat}
    (few : lost.card ≤ 1) :
    ∃ k < ec.dataChunks + ec.parityChunks, k ∉ lost ∧
      (ec.encode first)[k]? ≠ (ec.encode second)[k]? := by
  have shows : ∀ k < ec.dataChunks, ec.dataChunk first k ≠ ec.dataChunk second k →
      (ec.encode first)[k]? ≠ (ec.encode second)[k]? := by
    intro k lt differs
    rw [getElem?_encode_data ec first lt, getElem?_encode_data ec second lt]
    exact fun equal => differs (some.inj equal)
  by_cases kept : i ∈ lost
  · refine ⟨j, by omega, ?_, shows j insideJ differsJ⟩
    exact fun gone => ne (Finset.card_le_one.mp few j gone i kept)
  · exact ⟨i, by omega, kept, shows i insideI differsI⟩

section

variable {ec : ErasureCoder} {x y : Bytes} (eq : x.length = y.length)
include eq

theorem chunkSize_congr : ec.chunkSize x = ec.chunkSize y := by
  unfold chunkSize
  rw [eq]

theorem exists_dataChunk_ne (pos : 0 < ec.dataChunks) (ne : x ≠ y) :
    ∃ i < ec.dataChunks, ec.dataChunk x i ≠ ec.dataChunk y i := by
  by_contra none
  push Not at none
  apply ne
  have chunks : (range ec.dataChunks).flatMap (ec.dataChunk x) =
      (range ec.dataChunks).flatMap (ec.dataChunk y) :=
    flatMap_congr fun i lt => none i (mem_range.mp lt)
  rw [flatMap_dataChunk ec x pos, flatMap_dataChunk ec y pos] at chunks
  exact (append_inj chunks eq).1

/-- A loss that leaves the parity intact is repaired when one data chunk differs alone. -/
theorem parityOf_ne (lt : i < ec.dataChunks) (differs : ec.dataChunk x i ≠ ec.dataChunk y i)
    (alone : ∀ j < ec.dataChunks, j ≠ i → ec.dataChunk x j = ec.dataChunk y j) :
    ec.parityOf x ≠ ec.parityOf y := by
  have size : ec.chunkSize x = ec.chunkSize y := chunkSize_congr eq
  intro equal
  apply differs
  apply eq_of_getD
  · rw [length_dataChunk, length_dataChunk, size]
  · intro k below
    rw [length_dataChunk] at below
    by_contra byte
    have columns := congrArg (fun parity : Bytes => parity.getD k 0) equal
    rw [getD_parityOf ec x below, getD_parityOf ec y (size ▸ below)] at columns
    refine columnXor_ne lt byte ?_ columns
    intro j below other
    rw [alone j below other]

/-- With one data chunk different, it and all the parity chunks differ: one more than can be
lost. -/
theorem survivor_of_alone (lt : i < ec.dataChunks) (differs : ec.dataChunk x i ≠ ec.dataChunk y i)
    (alone : ∀ j < ec.dataChunks, j ≠ i → ec.dataChunk x j = ec.dataChunk y j) {lost : Finset Nat}
    (few : lost.card ≤ ec.parityChunks) :
    ∃ j < ec.dataChunks + ec.parityChunks, j ∉ lost ∧ (ec.encode x)[j]? ≠ (ec.encode y)[j]? := by
  let changed := insert i (Finset.Ico ec.dataChunks (ec.dataChunks + ec.parityChunks))
  have more : lost.card < changed.card := by
    rw [Finset.card_insert_of_notMem (by simp; omega), Nat.card_Ico]
    omega
  obtain ⟨j, mem, kept⟩ := Finset.exists_mem_notMem_of_card_lt_card more
  rcases Finset.mem_insert.mp mem with rfl | parity
  · refine ⟨j, by omega, kept, ?_⟩
    rw [getElem?_encode_data ec x lt, getElem?_encode_data ec y lt]
    exact fun equal => differs (some.inj equal)
  · obtain ⟨beyond, below⟩ := Finset.mem_Ico.mp parity
    refine ⟨j, below, kept, ?_⟩
    rw [getElem?_encode_parity ec x beyond below, getElem?_encode_parity ec y beyond below]
    exact fun equal => parityOf_ne eq lt differs alone (some.inj equal)

end

variable {ec : ErasureCoder} {n : Nat} {data : Bytes}

theorem tolerates_of_single (pos : 0 < ec.dataChunks)
    (single : ∀ first second : Bytes, first.length = n → second.length = n →
      ∀ i < ec.dataChunks, i ≠ 0 → ec.dataChunk first i = ec.dataChunk second i) :
    ec.ToleratesLosses n := by
  intro first second left right ne lost few
  have eq := left.trans right.symm
  obtain ⟨i, lt, differs⟩ := exists_dataChunk_ne eq pos ne
  have front : i = 0 := by
    by_contra other
    exact differs (single first second left right i lt other)
  subst front
  exact survivor_of_alone eq lt differs (single first second left right) few

theorem tolerates_of_parity_le_one (pos : 0 < ec.dataChunks) (low : ec.parityChunks ≤ 1) :
    ec.ToleratesLosses n := by
  intro first second left right different lost few
  have eq := left.trans right.symm
  obtain ⟨i, lt, differs⟩ := exists_dataChunk_ne eq pos different
  by_cases alone : ∀ j < ec.dataChunks, j ≠ i → ec.dataChunk first j = ec.dataChunk second j
  · exact survivor_of_alone eq lt differs alone few
  · push Not at alone
    obtain ⟨j, insideJ, ne, differsJ⟩ := alone
    exact survivor_of_two lt insideJ ne differs differsJ (few.trans low)

theorem dataChunk_eq_zeros
    (zero : ∀ k < ec.chunkSize data, data.getD (i * ec.chunkSize data + k) 0 = 0) :
    ec.dataChunk data i = List.replicate (ec.chunkSize data) 0 := by
  apply eq_of_getD
  · rw [length_dataChunk, length_replicate]
  · intro k lt
    rw [length_dataChunk] at lt
    rw [getD_dataChunk ec data lt, zero k lt]
    simp [getD_eq_getElem?_getD, lt]

theorem dataChunk_of_length_le_one (short : data.length ≤ 1) (later : i ≠ 0) :
    ec.dataChunk data i = List.replicate (ec.chunkSize data) 0 := by
  apply dataChunk_eq_zeros
  intro k lt
  have one : 1 * 1 ≤ i * ec.chunkSize data := Nat.mul_le_mul (by omega) (by omega)
  rw [getD_eq_getElem?_getD, getElem?_eq_none (by omega)]
  rfl

theorem tolerates_of_length_le_one (pos : 0 < ec.dataChunks) (short : n ≤ 1) :
    ec.ToleratesLosses n := by
  apply tolerates_of_single pos
  intro first second left right i _ later
  rw [dataChunk_of_length_le_one (by omega) later, dataChunk_of_length_le_one (by omega) later,
    chunkSize_congr (left.trans right.symm)]

/-- Ones at the start of the first two chunks and zeros elsewhere. -/
def paired (n size : Nat) : Bytes :=
  (List.range n).map fun j => if j = 0 ∨ j = size then 1 else 0

theorem getD_paired {size} (lt : size < n) (j) :
    (paired n size).getD j 0 = if j = 0 ∨ j = size then 1 else 0 := by
  by_cases below : j < n
  · simp [paired, getD_eq_getElem?_getD, below]
  · have beyond : (paired n size).length ≤ j := by simp [paired]; omega
    rw [if_neg (by omega), getD_eq_getElem?_getD, getElem?_eq_none beyond]
    rfl

theorem chunkSize_lt (two : 2 ≤ ec.dataChunks) (long : 2 ≤ data.length) :
    ec.chunkSize data < data.length := by
  have half : data.length / ec.dataChunks ≤ data.length / 2 := Nat.div_le_div_left two (by decide)
  unfold chunkSize
  split
  next rest =>
    by_cases exactly : data.length = 2
    · have wide : data.length < ec.dataChunks := by
        by_contra narrow
        obtain same : ec.dataChunks = 2 := by omega
        rw [same, exactly] at rest
        simp at rest
      rw [Nat.div_eq_of_lt wide]
      omega
    · omega
  · omega

theorem parityOf_pair (two : 2 ≤ ec.dataChunks) (twins : ec.dataChunk data 0 = ec.dataChunk data 1)
    (rest : ∀ i, 2 ≤ i → ec.dataChunk data i = List.replicate (ec.chunkSize data) 0) :
    ec.parityOf data = List.replicate (ec.chunkSize data) 0 := by
  apply eq_of_getD
  · rw [length_parityOf, length_replicate]
  · intro k lt
    rw [length_parityOf] at lt
    have zero : (replicate (ec.chunkSize data) (0 : UInt8)).getD k 0 = 0 := by
      simp [getD_eq_getElem?_getD, lt]
    rw [getD_parityOf ec data lt, zero]
    apply columnXor_pair two
    · rw [twins]
    · intro i late
      rw [rest i late, zero]

section

variable {size : Nat} (sized : ec.chunkSize (paired n size) = size) (lt : size < n)
include sized lt

theorem dataChunk_paired_late {i} (late : 2 ≤ i) :
    ec.dataChunk (paired n size) i = List.replicate (ec.chunkSize (paired n size)) 0 := by
  apply dataChunk_eq_zeros
  intro k below
  have far : 2 * size ≤ i * size := Nat.mul_le_mul_right size late
  rw [sized] at below ⊢
  rw [getD_paired lt, if_neg (by omega)]

theorem dataChunk_paired_twins :
    ec.dataChunk (paired n size) 0 = ec.dataChunk (paired n size) 1 := by
  apply eq_of_getD
  · rw [length_dataChunk, length_dataChunk]
  · intro k below
    rw [length_dataChunk] at below
    rw [getD_dataChunk ec _ below, getD_dataChunk ec _ below, sized, getD_paired lt, getD_paired lt]
    congr 1
    simp only [eq_iff_iff]
    omega

end

/-- With two data chunks lost, the parity chunks are all the same exclusive or and do not tell
a pair of changes from none. -/
theorem not_tolerates (two : 2 ≤ ec.dataChunks) (parity : 2 ≤ ec.parityChunks) (long : 2 ≤ n) :
    ¬ ec.ToleratesLosses n := by
  intro tolerates
  let zeros : Bytes := replicate n 0
  let size := ec.chunkSize zeros
  have left : zeros.length = n := length_replicate
  have right : (paired n size).length = n := by simp [paired]
  have sized : ec.chunkSize (paired n size) = size := chunkSize_congr (right.trans left.symm)
  have lt := chunkSize_lt two (left.symm ▸ long)
  rw [left] at lt
  have byte : ∀ j, zeros.getD j 0 = 0 := by
    intro j
    simp [zeros, getD_eq_getElem?_getD, getElem?_replicate]
    split <;> rfl
  have chunk : ∀ i, ec.dataChunk zeros i = replicate size 0 :=
    fun i => dataChunk_eq_zeros fun k _ => byte _
  have ne : zeros ≠ paired n size := by
    intro equal
    have one := getD_paired lt 0
    rw [← equal, byte 0] at one
    simp at one
  obtain ⟨i, below, kept, differs⟩ := tolerates zeros (paired n size) left right ne {0, 1}
    (by rw [Finset.card_pair (by decide)]; exact parity)
  apply differs
  by_cases stored : i < ec.dataChunks
  · have late : 2 ≤ i := by
      simp only [Finset.mem_insert, Finset.mem_singleton, not_or] at kept
      omega
    rw [getElem?_encode_data ec _ stored, getElem?_encode_data ec _ stored, chunk,
      dataChunk_paired_late sized lt late, sized]
  · rw [getElem?_encode_parity ec _ (by omega) below, getElem?_encode_parity ec _ (by omega) below,
      ← parityOf, ← parityOf, parityOf_pair two (by rw [chunk, chunk]) fun i _ => chunk i,
      parityOf_pair two (dataChunk_paired_twins sized lt)
        fun i late => dataChunk_paired_late sized lt late, sized]

/-- The coder survives the loss of `parityChunks` chunks exactly when it has one data chunk, at
most one parity chunk, or nothing to lose. -/
theorem tolerates_losses_iff (ec : ErasureCoder) (n : Nat) (positive : 1 ≤ ec.dataChunks) :
    ec.ToleratesLosses n ↔ ec.dataChunks = 1 ∨ ec.parityChunks ≤ 1 ∨ n ≤ 1 := by
  constructor
  · intro tolerates
    by_contra condition
    push Not at condition
    obtain ⟨several, parity, long⟩ := condition
    exact not_tolerates (by omega) (by omega) (by omega) tolerates
  · rintro (single | parity | short)
    · apply tolerates_of_single positive
      intro first second _ _ i inside later
      omega
    · exact tolerates_of_parity_le_one positive parity
    · exact tolerates_of_length_le_one positive short

theorem tolerates_losses_iff_raid : ErasureCoder.ToleratesLosses ⟨4, 1⟩ 10 :=
  (tolerates_losses_iff ⟨4, 1⟩ 10 (by decide)).mpr (Or.inr (Or.inl (by decide)))

/-- The coder of the storage with its first two chunks lost. -/
theorem two_lost_chunks_undetermined :
    ([0, 0] : Bytes) ≠ [1, 1] ∧
      (ErasureCoder.encode ⟨4, 2⟩ [0, 0]).drop 2 = (ErasureCoder.encode ⟨4, 2⟩ [1, 1]).drop 2 ∧
      ¬ ErasureCoder.ToleratesLosses ⟨4, 2⟩ 2 :=
  ⟨by decide, by decide, not_tolerates (by decide) (by decide) (by decide)⟩

end

/- A lost data chunk from one parity chunk and the other data chunks. -/
open List

def bytewiseXor (first second : Bytes) : Bytes := List.zipWith (· ^^^ ·) first second

theorem foldl_xor (start) (bytes : List UInt8) :
    bytes.foldl (· ^^^ ·) start = start ^^^ bytes.foldl (· ^^^ ·) 0 := by
  induction bytes generalizing start with
  | nil => simp
  | cons byte bytes ih =>
    rw [foldl_cons, foldl_cons, ih (start ^^^ byte), ih (0 ^^^ byte),
      UInt8.zero_xor, UInt8.xor_assoc]

theorem foldl_xor_eraseIdx {bytes : List UInt8} {i : Nat} (lt : i < bytes.length) :
    (bytes.eraseIdx i).foldl (· ^^^ ·) (bytes.foldl (· ^^^ ·) 0) = bytes[i] := by
  have whole : bytes.foldl (· ^^^ ·) 0 = (bytes.take i).foldl (· ^^^ ·) 0 ^^^ bytes[i] ^^^
        (bytes.drop (i + 1)).foldl (· ^^^ ·) 0 := by
    have split : bytes = bytes.take i ++ bytes[i] :: bytes.drop (i + 1) := by simp
    calc bytes.foldl (· ^^^ ·) 0
        = (bytes.take i ++ bytes[i] :: bytes.drop (i + 1)).foldl (· ^^^ ·) 0 := by rw [← split]
      _ = _ := by rw [foldl_append, foldl_cons, foldl_xor]
  rw [eraseIdx_eq_take_drop_succ, foldl_append, foldl_xor _ (bytes.drop (i + 1)),
    foldl_xor _ (bytes.take i), whole]
  generalize (bytes.take i).foldl (· ^^^ ·) 0 = before
  generalize (bytes.drop (i + 1)).foldl (· ^^^ ·) 0 = after
  calc before ^^^ bytes[i] ^^^ after ^^^ before ^^^ after
      = (before ^^^ before) ^^^ (after ^^^ after) ^^^ bytes[i] := by ac_rfl
    _ = bytes[i] := by simp

variable {chunks : List Bytes} {start : Bytes}

theorem length_foldl_bytewiseXor (sized : ∀ chunk ∈ chunks, chunk.length = start.length) :
    (chunks.foldl bytewiseXor start).length = start.length := by
  induction chunks generalizing start with
  | nil => rfl
  | cons chunk chunks ih =>
    have eq : (bytewiseXor start chunk).length = start.length := by
      rw [bytewiseXor, length_zipWith, sized chunk mem_cons_self, Nat.min_self]
    rw [foldl_cons, ih, eq]
    intro other mem
    rw [eq]
    exact sized other (mem_cons_of_mem _ mem)

theorem getD_foldl_bytewiseXor {k} (sized : ∀ chunk ∈ chunks, chunk.length = start.length)
    (lt : k < start.length) :
    (chunks.foldl bytewiseXor start).getD k 0 =
      (chunks.map (·.getD k 0)).foldl (· ^^^ ·) (start.getD k 0) := by
  induction chunks generalizing start with
  | nil => rfl
  | cons chunk chunks ih =>
    have size := sized chunk mem_cons_self
    have eq : (bytewiseXor start chunk).length = start.length := by
      rw [bytewiseXor, length_zipWith, size, Nat.min_self]
    have byte : (bytewiseXor start chunk).getD k 0 = start.getD k 0 ^^^ chunk.getD k 0 := by
      have insideChunk : k < chunk.length := by omega
      simp [bytewiseXor, getD_eq_getElem?_getD, lt, insideChunk]
    rw [foldl_cons, ih _ (by omega), byte, map_cons, foldl_cons]
    intro other mem
    rw [eq]
    exact sized other (mem_cons_of_mem _ mem)

variable (ec : ErasureCoder) (data : Bytes)

theorem chunkSize_eq_ceil (pos : 0 < ec.dataChunks) :
    ec.chunkSize data = (data.length + ec.dataChunks - 1) / ec.dataChunks := by
  have division := Nat.div_add_mod data.length ec.dataChunks
  have small := Nat.mod_lt data.length pos
  symm
  unfold chunkSize
  split
  · rw [Nat.div_eq_iff pos, Nat.add_mul, Nat.one_mul, Nat.mul_comm (data.length / ec.dataChunks)]
    omega
  · rw [Nat.div_eq_iff pos, Nat.mul_comm (data.length / ec.dataChunks)]
    omega

theorem take_encode :
    (ec.encode data).take ec.dataChunks = (List.range ec.dataChunks).map (ec.dataChunk data) := by
  exact take_left' (by simp)

theorem length_of_mem_encode {chunk} (mem : chunk ∈ ec.encode data) :
    chunk.length = ec.chunkSize data := by
  obtain ⟨i, lt, rfl⟩ := getElem_of_mem mem
  have size := ec.length_getD_encode data (by simpa using lt)
  rwa [getD_eq_getElem?_getD, getElem?_eq_getElem lt] at size

theorem columnXor_eq (column count) :
    columnXor column count = ((List.range count).map column).foldl (· ^^^ ·) 0 := by
  rw [columnXor, foldl_map]

/-- A data chunk is the sum of the parity and the other data chunks. -/
theorem foldl_eraseIdx_parityOf {i : Nat} (lt : i < ec.dataChunks) :
    (((List.range ec.dataChunks).map (ec.dataChunk data)).eraseIdx i).foldl bytewiseXor
      (ec.parityOf data) = ec.dataChunk data i := by
  have sized : ∀ chunk ∈ ((range ec.dataChunks).map (ec.dataChunk data)).eraseIdx i,
      chunk.length = (ec.parityOf data).length := by
    intro chunk mem
    obtain ⟨j, -, rfl⟩ := mem_map.mp (mem_of_mem_eraseIdx mem)
    rw [length_dataChunk, length_parityOf]
  have length := length_foldl_bytewiseXor sized
  apply eq_of_getD
  · rw [length, length_parityOf, length_dataChunk]
  · intro k below
    rw [length] at below
    rw [getD_foldl_bytewiseXor sized below, eraseIdx_map,
      getD_parityOf ec data (length_parityOf ec data ▸ below), columnXor_eq]
    have within : i < ((range ec.dataChunks).map
        fun j => (ec.dataChunk data j).getD k 0).length := by simpa using lt
    have column := foldl_xor_eraseIdx within
    rw [eraseIdx_map, getElem_map, getElem_range] at column
    rw [map_map]
    exact column

/-- The layout of an encoding, and the recovery of one data chunk from any parity chunk and the
other data chunks. -/
theorem encode_layout (ec : ErasureCoder) (data : Bytes) (positive : 1 ≤ ec.dataChunks) :
    (ec.encode data).length = ec.dataChunks + ec.parityChunks ∧
      (∀ chunk ∈ ec.encode data,
        chunk.length = (data.length + ec.dataChunks - 1) / ec.dataChunks) ∧
      (∃ count, ((ec.encode data).take ec.dataChunks).flatten = data ++ List.replicate count 0) ∧
      ∀ i < ec.dataChunks, ∀ j < ec.parityChunks, ∃ chunk parity,
        (ec.encode data)[i]? = some chunk ∧ (ec.encode data)[ec.dataChunks + j]? = some parity ∧
          chunk = (((ec.encode data).take ec.dataChunks).eraseIdx i).foldl bytewiseXor parity := by
  refine ⟨encode_length ec data, ?_, ?_, ?_⟩
  · intro chunk member
    rw [length_of_mem_encode ec data member, chunkSize_eq_ceil ec data positive]
  · refine ⟨ec.dataChunks * ec.chunkSize data - data.length, ?_⟩
    rw [take_encode, ← flatMap_def]
    exact flatMap_dataChunk ec data positive
  · intro i insideData j insideParity
    refine ⟨ec.dataChunk data i, ec.parityOf data, getElem?_encode_data ec data insideData,
      getElem?_encode_parity ec data (by omega) (by omega), ?_⟩
    rw [take_encode, foldl_eraseIdx_parityOf ec data insideData]

/-- Ten bytes in four chunks of three, the last of which begins after the ninth byte. -/
theorem encode_layout_uneven :
    (∃ chunk parity, (ErasureCoder.encode ⟨4, 2⟩ [1, 2, 3, 4, 5, 6, 7, 8, 9, 10])[3]? = some chunk ∧
      (ErasureCoder.encode ⟨4, 2⟩ [1, 2, 3, 4, 5, 6, 7, 8, 9, 10])[4 + 1]? = some parity ∧
      chunk = (((ErasureCoder.encode ⟨4, 2⟩ [1, 2, 3, 4, 5, 6, 7, 8, 9, 10]).take 4).eraseIdx
        3).foldl bytewiseXor parity) ∧
      (ErasureCoder.encode ⟨4, 2⟩ [1, 2, 3, 4, 5, 6, 7, 8, 9, 10])[3]? = some [10, 0, 0] :=
  ⟨(encode_layout ⟨4, 2⟩ [1, 2, 3, 4, 5, 6, 7, 8, 9, 10] (by decide)).2.2.2 3 (by decide) 1
    (by decide), by decide⟩

end AsyncPractice.ErasureCoder
