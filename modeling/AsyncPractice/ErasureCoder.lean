import Mathlib.Data.Finset.Card
import AsyncPractice.Checksum

/- The erasure coder of solution24_object_storage.go. A data string is cut into `dataChunks`
chunks of one size, the last ones padded with zeros, followed by `parityChunks` copies of their
exclusive or. -/
namespace AsyncPractice

open List

namespace ErasureCoder

/-- Go's builtin: overwrites the front of `dst` with as much of `src` as fits. -/
def copy (dst src : Bytes) : Bytes := src.take dst.length ++ dst.drop src.length

/-- The inner loop over `k`: both lengths bound it. -/
def xorInto : Bytes → Bytes → Bytes
  | p :: parity, c :: chunk => (p ^^^ c) :: xorInto parity chunk
  | parity, [] => parity
  | [], _ => []

end ErasureCoder

structure ErasureCoder where
  dataChunks : Nat
  parityChunks : Nat

namespace ErasureCoder

def chunkSize (ec : ErasureCoder) (data : Bytes) : Nat :=
  if data.length % ec.dataChunks ≠ 0 then data.length / ec.dataChunks + 1
  else data.length / ec.dataChunks

def dataChunk (ec : ErasureCoder) (data : Bytes) (i : Nat) : Bytes :=
  let start := i * ec.chunkSize data
  let stop := if start + ec.chunkSize data > data.length then data.length
    else start + ec.chunkSize data
  let chunk := List.replicate (ec.chunkSize data) 0
  if start < data.length then copy chunk ((data.take stop).drop start) else chunk

def parityChunk (size : Nat) (chunks : List Bytes) : Bytes :=
  chunks.foldl xorInto (List.replicate size 0)

def encode (ec : ErasureCoder) (data : Bytes) : List Bytes :=
  let chunks := (List.range ec.dataChunks).map (ec.dataChunk data)
  chunks ++ List.replicate ec.parityChunks (parityChunk (ec.chunkSize data) chunks)

/-- Chunks that could not be read are nil and left out. -/
def decode (chunks : List (Option Bytes)) (dataChunks : Nat) : Bytes :=
  (List.range dataChunks).flatMap fun i => (chunks[i]?.join).getD []

theorem eq_of_getD {x y : Bytes} (eq : x.length = y.length)
    (bytes : ∀ k < x.length, x.getD k 0 = y.getD k 0) : x = y := by
  apply ext_getElem eq
  intro k left right
  have byte := bytes k left
  simpa [getD_eq_getElem?_getD, left, right] using byte

theorem getD_append_zeros (data : Bytes) (count k) :
    (data ++ List.replicate count 0).getD k 0 = data.getD k 0 := by
  simp only [getD_eq_getElem?_getD]
  by_cases inside : k < data.length
  · rw [getElem?_append_left inside]
  · rw [getElem?_append_right (Nat.le_of_not_lt inside), getElem?_replicate,
      getElem?_eq_none (Nat.le_of_not_lt inside)]
    split <;> rfl

theorem length_xorInto (parity chunk : Bytes) : (xorInto parity chunk).length = parity.length := by
  fun_induction xorInto with
  | case1 p parity c chunk ih => simp [ih]
  | case2 => rfl
  | case3 => rfl

theorem length_foldl_xorInto (chunks : List Bytes) (parity) :
    (chunks.foldl xorInto parity).length = parity.length := by
  induction chunks generalizing parity with
  | nil => rfl
  | cons chunk chunks ih => rw [foldl_cons, ih, length_xorInto]

variable (ec : ErasureCoder) (data : Bytes) {i : Nat}

@[simp] theorem encode_length : (ec.encode data).length = ec.dataChunks + ec.parityChunks := by
  simp [encode]

theorem getElem?_encode_data (lt : i < ec.dataChunks) :
    (ec.encode data)[i]? = some (ec.dataChunk data i) := by
  rw [encode, getElem?_append_left (by simpa using lt)]
  simp [lt]

theorem getElem?_encode_parity (beyond : ec.dataChunks ≤ i)
    (lt : i < ec.dataChunks + ec.parityChunks) :
    (ec.encode data)[i]? = some (parityChunk (ec.chunkSize data)
      ((List.range ec.dataChunks).map (ec.dataChunk data))) := by
  have p : i - ec.dataChunks < ec.parityChunks := by omega
  simp [encode, getElem?_append_right, beyond, p]

theorem length_le_chunks (pos : 0 < ec.dataChunks) :
    data.length ≤ ec.dataChunks * ec.chunkSize data := by
  have division := Nat.div_add_mod data.length ec.dataChunks
  have small := Nat.mod_lt data.length pos
  unfold chunkSize
  split
  · rw [Nat.mul_add, Nat.mul_one]
    omega
  · omega

theorem chunks_eq_length_iff :
    ec.dataChunks * ec.chunkSize data = data.length ↔ ec.dataChunks ∣ data.length := by
  constructor
  · intro exact
    exact ⟨_, exact.symm⟩
  · intro divides
    unfold chunkSize
    rw [if_neg (by simp [Nat.mod_eq_zero_of_dvd divides])]
    exact Nat.mul_div_cancel' divides

/-- The bytes of chunk `i` that come from the data. -/
def slice (i : Nat) : Bytes := (data.drop (i * ec.chunkSize data)).take (ec.chunkSize data)

theorem dataChunk_eq (i : Nat) :
    ec.dataChunk data i =
      ec.slice data i ++ List.replicate (ec.chunkSize data - (ec.slice data i).length) 0 := by
  unfold dataChunk
  dsimp only
  split
  · have cut : (data.take (if i * ec.chunkSize data + ec.chunkSize data > data.length
        then data.length else i * ec.chunkSize data + ec.chunkSize data)).drop
          (i * ec.chunkSize data) = ec.slice data i := by
      rw [slice, drop_take]
      split
      · rw [take_of_length_le (by simp), take_of_length_le (by simp; omega)]
      · rw [Nat.add_sub_cancel_left]
    have fits : (ec.slice data i).length ≤ ec.chunkSize data := length_take_le _ _
    rw [cut, copy, length_replicate, take_of_length_le fits, drop_replicate]
  next beyond =>
    have empty : ec.slice data i = [] := by
      rw [slice, drop_eq_nil_of_le (Nat.le_of_not_lt beyond), take_nil]
    simp [empty]

@[simp] theorem length_dataChunk (i : Nat) : (ec.dataChunk data i).length = ec.chunkSize data := by
  have fits : (ec.slice data i).length ≤ ec.chunkSize data := length_take_le _ _
  rw [dataChunk_eq, length_append, length_replicate]
  omega

theorem length_getD_encode (lt : i < ec.dataChunks + ec.parityChunks) :
    ((ec.encode data).getD i []).length = ec.chunkSize data := by
  by_cases first : i < ec.dataChunks
  · simp [getElem?_encode_data ec data first]
  · simp [getElem?_encode_parity ec data (Nat.le_of_not_lt first) lt, parityChunk,
      length_foldl_xorInto]

theorem getD_dataChunk {k} (lt : k < ec.chunkSize data) :
    (ec.dataChunk data i).getD k 0 = data.getD (i * ec.chunkSize data + k) 0 := by
  rw [dataChunk_eq, getD_append_zeros, slice]
  simp only [getD_eq_getElem?_getD]
  rw [getElem?_take_of_lt lt, getElem?_drop]

variable (pos : 0 < ec.dataChunks)

include ec data pos

theorem flatMap_dataChunk :
    (List.range ec.dataChunks).flatMap (ec.dataChunk data) =
      data ++ List.replicate (ec.dataChunks * ec.chunkSize data - data.length) 0 := by
  have room := ec.length_le_chunks data pos
  have total : ∀ count, ((range count).flatMap (ec.dataChunk data)).length =
      count * ec.chunkSize data := by
    intro count
    simp [length_flatMap]
  have bytes : ∀ count j, j < count * ec.chunkSize data →
      ((range count).flatMap (ec.dataChunk data)).getD j 0 = data.getD j 0 := by
    intro count
    induction count with
    | zero => intro j below; omega
    | succ count ih =>
      intro j below
      rw [Nat.succ_mul] at below
      rw [range_succ, flatMap_append, getD_eq_getElem?_getD]
      by_cases early : j < count * ec.chunkSize data
      · rw [getElem?_append_left (by rw [total]; exact early), ← getD_eq_getElem?_getD]
        exact ih j early
      · rw [getElem?_append_right (by rw [total]; omega), total,
          ← getD_eq_getElem?_getD, flatMap_singleton,
          getD_dataChunk ec data (by omega)]
        congr 1
        omega
  apply eq_of_getD
  · rw [total, length_append, length_replicate]
    omega
  · intro j below
    rw [total] at below
    rw [bytes _ j below, getD_append_zeros]

/-- Reading back every chunk gives the data and its padding. -/
theorem decode_encode :
    decode ((ec.encode data).map some) ec.dataChunks =
      data ++ List.replicate (ec.dataChunks * ec.chunkSize data - data.length) 0 := by
  rw [← flatMap_dataChunk ec data pos]
  apply flatMap_congr
  intro i lt
  rw [getElem?_map, getElem?_encode_data ec data (mem_range.mp lt)]
  rfl

/-- The round trip loses nothing exactly when the length is a multiple of `dataChunks`. -/
theorem decode_encode_eq_iff :
    decode ((ec.encode data).map some) ec.dataChunks = data ↔ ec.dataChunks ∣ data.length := by
  have room := ec.length_le_chunks data pos
  rw [decode_encode ec data pos, ← ec.chunks_eq_length_iff data]
  constructor
  · intro eq
    have lengths := congrArg length eq
    rw [length_append, length_replicate] at lengths
    omega
  · intro exact
    rw [exact]
    simp

end ErasureCoder

end AsyncPractice
