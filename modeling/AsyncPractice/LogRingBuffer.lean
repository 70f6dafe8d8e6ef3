import AsyncPractice.MachineInt
import AsyncPractice.Runs
import Mathlib.Data.List.Nodup

/- RingBuffer of distributed_logging_example.go, with calls that run one after another. Write takes
the next position whether it has room or not, so a refused entry leaves a position that Read still
comes to. -/
namespace AsyncPractice.LogRingBuffer

open Option List MachineInt Runs

variable {E : Type}

structure RingBuffer (E : Type) where
  buffer : List E
  size : Int64
  writePos : Int64
  readPos : Int64

/-- The slots start as the zero entry. -/
def newRingBuffer (zero : E) (size : Int64) : RingBuffer E :=
  ⟨List.replicate size.toNatClampNeg zero, size, 0, 0⟩

/-- The index of a position in the slice; out of range it panics, which is `none`. -/
def RingBuffer.index (rb : RingBuffer E) (pos : Int64) : Option Nat :=
  let i := pos % rb.size
  if 0 ≤ i ∧ i.toNatClampNeg < rb.buffer.length then some i.toNatClampNeg else none

/-- The boolean is what Write returns. -/
def write (rb : RingBuffer E) (entry : E) : Option (RingBuffer E × Bool) :=
  let rb := { rb with writePos := rb.writePos + 1 }
  let writePos := rb.writePos - 1
  if writePos - rb.readPos ≥ rb.size then some (rb, false)
  else (rb.index writePos).map fun i => ({ rb with buffer := rb.buffer.set i entry }, true)

/-- No entry stands for the zero entry with false. -/
def read (rb : RingBuffer E) : Option (RingBuffer E × Option E) :=
  let readPos := rb.readPos
  if readPos ≥ rb.writePos then some (rb, none)
  else
    let rb := { rb with readPos := rb.readPos + 1 }
    (rb.index readPos).bind fun i => rb.buffer[i]?.map fun entry => (rb, some entry)

/-- The buffer with the Write calls so far, each with what it returned, and the entries that Read
has returned. -/
structure State (E : Type) where
  rb : RingBuffer E
  writes : List (E × Bool)
  returned : List E

inductive Op (E : Type)
  | write (entry : E)
  | read

def start (zero : E) (size : Int64) : State E := ⟨newRingBuffer zero size, [], []⟩

def step (s : State E) : Op E → Option (State E)
  | .write entry => (write s.rb entry).map fun (rb, accepted) =>
    { s with rb, writes := s.writes ++ [(entry, accepted)] }
  | .read => (read s.rb).map fun (rb, entry) =>
    { s with rb, returned := s.returned ++ entry.toList }

/-- The entries whose Write returned true. -/
def State.accepted (s : State E) : List E := (s.writes.filter (·.2)).map (·.1)

/-- What a queue is for: entries come out in the order they went in. -/
def State.Fifo (s : State E) : Prop := s.returned <+: s.accepted

instance [DecidableEq E] (s : State E) : Decidable s.Fifo :=
  inferInstanceAs (Decidable (_ <+: _))

/-- As many Write calls from the first on as entries were returned have all been accepted. -/
def State.Unbroken (s : State E) : Prop := ∀ call ∈ s.writes.take s.returned.length, call.2 = true

instance (s : State E) : Decidable s.Unbroken :=
  inferInstanceAs (Decidable (∀ call ∈ s.writes.take s.returned.length, call.2 = true))

/-- The positions of the buffer against the calls. A position from the next read on holds the entry
of its call, unless that call was refused; then it still holds the entry of the round before. -/
structure Tracks (n : Nat) (s : State E) : Prop where
  positive : 0 < n
  size : s.rb.size.toInt = n
  slots : s.rb.buffer.length = n
  writePos : s.rb.writePos.toInt = s.writes.length
  readPos : s.rb.readPos.toInt = s.returned.length
  behind : s.returned.length ≤ s.writes.length
  stored : ∀ k entry, s.returned.length ≤ k → s.writes[k]? = some (entry, true) →
    s.rb.buffer[k % n]? = some entry
  given : ∀ k entry, k < s.returned.length → s.writes[k]? = some (entry, true) →
    s.returned[k]? = some entry
  stale : ∀ k entry, s.writes[k]? = some (entry, false) →
    (∀ call ∈ s.writes.take k, call.2 = true) →
    ∃ j old, j + n = k ∧ s.writes[j]? = some (old, true) ∧
      if k < s.returned.length then s.returned[k]? = some old else s.rb.buffer[k % n]? = some old

variable {size : Int64}

theorem start_tracks (zero : E) (pos : 1 ≤ size) : Tracks size.toNatClampNeg (start zero size) := by
  have bound : (1 : Int) ≤ size.toInt := Int64.le_iff_toInt_le.mp pos
  have clamped := size.toNat_toInt
  refine ⟨by omega, ?_, length_replicate, rfl, rfl, Nat.le_refl _, ?_, ?_, ?_⟩
  · show size.toInt = size.toNatClampNeg
    omega
  all_goals simp [start]

section

variable {n k : Nat} {s t : State E} {e : E}

theorem Tracks.index (inv : Tracks n s) {pos : Int64} (eq : pos.toInt = k) :
    s.rb.index pos = some (k % n) := by
  obtain ⟨low, slot⟩ := mod_position eq inv.size
  unfold RingBuffer.index
  dsimp only
  rw [slot, inv.slots, if_pos ⟨low, Nat.mod_lt k inv.positive⟩]

theorem Tracks.distance (inv : Tracks n s) :
    s.rb.writePos - s.rb.readPos ≥ s.rb.size ↔ s.returned.length + n ≤ s.writes.length := by
  have wrote := inv.writePos
  have read := inv.readPos
  rw [ge_iff_le, Int64.le_iff_toInt_le, inv.size, toInt_sub_of_nonneg (by omega) (by omega)]
  omega

theorem Tracks.write_eq (inv : Tracks n s) (e) :
    write s.rb e = if s.returned.length + n ≤ s.writes.length then
        some ({ s.rb with writePos := s.rb.writePos + 1 }, false)
      else some ({ s.rb with
        writePos := s.rb.writePos + 1
        buffer := s.rb.buffer.set (s.writes.length % n) e }, true) := by
  unfold write
  dsimp only
  rw [Int64.add_sub_cancel]
  by_cases full : s.returned.length + n ≤ s.writes.length
  · rw [if_pos (inv.distance.mpr full), if_pos full]
  · rw [if_neg fun far => full (inv.distance.mp far), if_neg full]
    have hit := inv.index inv.writePos
    unfold RingBuffer.index at hit ⊢
    rw [hit]
    rfl

theorem Tracks.read_eq (inv : Tracks n s) :
    read s.rb = if s.writes.length ≤ s.returned.length then some (s.rb, none)
      else s.rb.buffer[s.returned.length % n]?.map fun e =>
        ({ s.rb with readPos := s.rb.readPos + 1 }, some e) := by
  have order : s.rb.readPos ≥ s.rb.writePos ↔ s.writes.length ≤ s.returned.length := by
    rw [ge_iff_le, Int64.le_iff_toInt_le, inv.writePos, inv.readPos, Int.ofNat_le]
  unfold read
  by_cases empty : s.writes.length ≤ s.returned.length
  · rw [if_pos (order.mpr empty), if_pos empty]
  · rw [if_neg fun ok => empty (order.mp ok), if_neg empty]
    have hit := inv.index inv.readPos
    unfold RingBuffer.index at hit ⊢
    dsimp only at hit ⊢
    rw [hit]
    rfl

variable {α : Type} {cs : List α} {found : α}

theorem snoc_cases {c} (hit : (cs ++ [c])[k]? = some found) :
    (k < cs.length ∧ cs[k]? = some found) ∨ (k = cs.length ∧ found = c) := by
  rw [getElem?_append] at hit
  split at hit
  next lt =>
    exact .inl ⟨lt, hit⟩
  · rw [getElem?_singleton] at hit
    split at hit
    · exact .inr ⟨by omega, (some.inj hit).symm⟩
    · cases hit

theorem snoc_present (hit : cs[k]? = some found) (c) : (cs ++ [c])[k]? = some found := by
  rw [getElem?_append_left (List.getElem?_eq_some_iff.mp hit).1]
  exact hit

variable (inv : Tracks n s)
include inv

/-- A refused call changes no slot. Its own slot is the one of the oldest entry still to be
read. -/
theorem Tracks.refuse (few : s.writes.length + 1 < 2 ^ 63)
    (full : s.returned.length + n ≤ s.writes.length) (e : E) :
    Tracks n { s with
      rb := { s.rb with writePos := s.rb.writePos + 1 }
      writes := s.writes ++ [(e, false)] } := by
  have cnt := inv.writePos
  have behind := inv.behind
  refine ⟨inv.positive, inv.size, inv.slots, ?_, inv.readPos, ?_, ?_, ?_, ?_⟩
  · rw [length_append, length_singleton]
    rw [toInt_add_one (by omega), cnt]
    rfl
  · rw [length_append]
    exact Nat.le_add_right_of_le behind
  · intro k found later hit
    rcases snoc_cases hit with ⟨-, pre⟩ | ⟨-, refused⟩
    · exact inv.stored k found later pre
    · cases refused
  · intro k found earlier hit
    rcases snoc_cases hit with ⟨-, pre⟩ | ⟨-, refused⟩
    · exact inv.given k found earlier pre
    · cases refused
  · intro k found hit acc
    rcases snoc_cases hit with ⟨lt, pre⟩ | ⟨rfl, -⟩
    · rw [take_append_of_le_length lt.le] at acc
      obtain ⟨j, old, ne, c, kept⟩ := inv.stale k found pre acc
      exact ⟨j, old, ne, snoc_present c _, kept⟩
    · rw [take_left] at acc
      have lt : s.writes.length - n < s.writes.length := by
        have pos := inv.positive
        omega
      obtain ⟨⟨old, ok⟩, c⟩ : ∃ c, s.writes[s.writes.length - n]? = some c :=
        ⟨_, getElem?_eq_getElem lt⟩
      obtain rfl : ok = true := acc _ (mem_of_getElem? c)
      refine ⟨s.writes.length - n, old, by omega, snoc_present c _, ?_⟩
      rw [if_neg (Nat.not_lt.mpr behind)]
      have slot := inv.stored _ old (by omega) c
      rwa [← Nat.mod_eq_sub_mod (by omega)] at slot

/-- An accepted entry goes to a slot that no position still to be read uses. -/
theorem Tracks.accept (few : s.writes.length + 1 < 2 ^ 63)
    (room : s.writes.length < s.returned.length + n) (e : E) :
    Tracks n { s with
      rb := { s.rb with
        writePos := s.rb.writePos + 1
        buffer := s.rb.buffer.set (s.writes.length % n) e }
      writes := s.writes ++ [(e, true)] } := by
  have cnt := inv.writePos
  have behind := inv.behind
  have within : s.writes.length % n < s.rb.buffer.length := by
    rw [inv.slots]
    exact Nat.mod_lt _ inv.positive
  have others : ∀ k, s.returned.length ≤ k → k < s.writes.length →
      (s.rb.buffer.set (s.writes.length % n) e)[k % n]? = s.rb.buffer[k % n]? := by
    intro k later lt
    exact getElem?_set_ne (slot_ne lt (by omega)).symm
  refine ⟨inv.positive, inv.size, ?_, ?_, inv.readPos, ?_, ?_, ?_, ?_⟩
  · rw [length_set]
    exact inv.slots
  · rw [length_append, length_singleton]
    rw [toInt_add_one (by omega), cnt]
    rfl
  · rw [length_append]
    exact Nat.le_add_right_of_le behind
  · intro k found later hit
    rcases snoc_cases hit with ⟨lt, pre⟩ | ⟨rfl, own⟩
    · rw [others k later lt]
      exact inv.stored k found later pre
    · obtain rfl : found = e := congrArg Prod.fst own
      exact getElem?_set_self within
  · intro k found earlier hit
    rcases snoc_cases hit with ⟨-, pre⟩ | ⟨rfl, -⟩
    · exact inv.given k found earlier pre
    · exact absurd earlier (Nat.not_lt.mpr behind)
  · intro k found hit acc
    rcases snoc_cases hit with ⟨lt, pre⟩ | ⟨-, own⟩
    · rw [take_append_of_le_length lt.le] at acc
      obtain ⟨j, old, ne, c, kept⟩ := inv.stale k found pre acc
      refine ⟨j, old, ne, snoc_present c _, ?_⟩
      by_cases read : k < s.returned.length
      · rw [if_pos read] at kept ⊢
        exact kept
      · rw [others k (by omega) lt]
        exact kept
    · cases own

theorem Tracks.take (few : s.writes.length < 2 ^ 63) (unread : s.returned.length < s.writes.length)
    (slot : s.rb.buffer[s.returned.length % n]? = some e) :
    Tracks n { s with
      rb := { s.rb with readPos := s.rb.readPos + 1 }
      returned := s.returned ++ [e] } := by
  have cnt := inv.readPos
  have shown : (s.returned ++ [e])[s.returned.length]? = some e := by simp
  refine ⟨inv.positive, inv.size, inv.slots, inv.writePos, ?_, ?_, ?_, ?_, ?_⟩
  · rw [length_append, length_singleton]
    rw [toInt_add_one (by omega), cnt]
    rfl
  · rw [length_append, length_singleton]
    exact unread
  · intro k found later hit
    rw [length_append, length_singleton] at later
    exact inv.stored k found (by omega) hit
  · intro k found pre hit
    rw [length_append, length_singleton] at pre
    by_cases own : k = s.returned.length
    · subst own
      rw [← slot, inv.stored _ found (Nat.le_refl _) hit] at shown
      exact shown
    · exact snoc_present (inv.given k found (by omega) hit) e
  · intro k found hit acc
    obtain ⟨j, old, ne, c, kept⟩ := inv.stale k found hit acc
    refine ⟨j, old, ne, c, ?_⟩
    rw [length_append, length_singleton]
    by_cases read : k < s.returned.length
    · rw [if_pos read] at kept
      rw [if_pos (by omega)]
      exact snoc_present kept e
    · rw [if_neg read] at kept
      by_cases own : k = s.returned.length
      · subst own
        rw [if_pos (by omega), shown, ← slot, kept]
      · rw [if_neg (by omega)]
        exact kept

theorem Tracks.step {op} (took : step s op = some t) (few : t.writes.length < 2 ^ 63) :
    Tracks n t := by
  cases op with
  | write e =>
    simp only [LogRingBuffer.step, map_eq_some_iff] at took
    obtain ⟨⟨rb, acc⟩, written, rfl⟩ := took
    simp only [length_append, length_singleton] at few
    rw [inv.write_eq] at written
    split at written
    next full =>
      cases written
      exact inv.refuse few full e
    next room =>
      cases written
      exact inv.accept few (by omega) e
  | read =>
    simp only [LogRingBuffer.step, map_eq_some_iff] at took
    obtain ⟨⟨rb, e⟩, taken, rfl⟩ := took
    rw [inv.read_eq] at taken
    split at taken
    · cases taken
      simpa using inv
    next left =>
      obtain ⟨e, slot, eq⟩ := map_eq_some_iff.mp taken
      cases eq
      exact inv.take few (by omega) slot

end

variable {ops : List (Op E)} {final : State E}

theorem writes_grow {s t : State E} {op : Op E} (took : step s op = some t) :
    s.writes.length ≤ t.writes.length := by
  cases op with
  | write e =>
    obtain ⟨wrote, -, rfl⟩ := map_eq_some_iff.mp took
    simp
  | read =>
    obtain ⟨taken, -, rfl⟩ := map_eq_some_iff.mp took
    exact Nat.le_refl _

theorem run_tracks {zero : E} (pos : 1 ≤ size) (run : exec step (start zero size) ops = some final)
    (few : final.writes.length < 2 ^ 63) : Tracks size.toNatClampNeg final := by
  refine exec_history (fun _ s => s.writes.length < 2 ^ 63 → Tracks size.toNatClampNeg s)
    (fun _ => start_tracks zero pos) ?_ run few
  intro _ s op t _ held took few
  exact (held (Nat.lt_of_le_of_lt (writes_grow took) few)).step took few

variable {n : Nat} {s : State E}

theorem Tracks.fifo (inv : Tracks n s) (unbroken : s.Unbroken) : s.Fifo := by
  have behind := inv.behind
  have es : s.returned = (s.writes.take s.returned.length).map (·.1) := by
    apply ext_getElem?
    intro k
    by_cases earlier : k < s.returned.length
    · have lt : k < s.writes.length := by omega
      obtain ⟨⟨e, ok⟩, call⟩ : ∃ call, s.writes[k]? = some call :=
        ⟨_, getElem?_eq_getElem lt⟩
      have among : (s.writes.take s.returned.length)[k]? = some (e, ok) := by
        rw [getElem?_take_of_lt earlier, call]
      obtain rfl : ok = true := unbroken _ (mem_of_getElem? among)
      rw [inv.given k e earlier call, getElem?_map, among]
      rfl
    · rw [getElem?_eq_none (by omega), getElem?_eq_none]
      rw [length_map, length_take]
      omega
  have all : (s.writes.take s.returned.length).filter (·.2) = s.writes.take s.returned.length :=
    filter_eq_self.mpr unbroken
  unfold State.Fifo State.accepted
  rw [es, ← all]
  exact ((List.take_prefix _ _).filter _).map _

/-- The first refused call that Read comes to makes it return an entry once more. -/
theorem Tracks.unbroken (inv : Tracks n s) (distinct : (s.writes.map (·.1)).Nodup)
    (fifo : s.Fifo) : s.Unbroken := by
  have pos := inv.positive
  have single : s.returned.Nodup := by
    refine (fifo.sublist.nodup ?_)
    exact (filter_sublist.map _).nodup distinct
  suffices all : ∀ k, k ≤ s.returned.length → ∀ c ∈ s.writes.take k, c.2 = true from
    all _ (Nat.le_refl _)
  intro k
  induction k with
  | zero => simp
  | succ k ih =>
    intro within c mem
    have acc := ih (by omega)
    rw [take_add_one] at mem
    rcases mem_append.mp mem with before | last
    · exact acc c before
    · obtain ⟨e, ok⟩ := c
      have called : s.writes[k]? = some (e, ok) := mem_toList.mp last
      cases ok with
      | true => rfl
      | false =>
        obtain ⟨j, old, ne, c, again⟩ := inv.stale k e called acc
        rw [if_pos (by omega)] at again
        have once := inv.given j old (by omega) c
        exact absurd (once.trans again.symm)
          (nodup_iff_getElem?_ne_getElem?.mp single j k (by omega) (by omega))

/-- The buffer is a queue as long as no more entries were returned than there are Write calls before
the first refused one, and no longer when all entries differ. -/
theorem fifo_iff_unbroken {zero : E} {size : Int64} {ops : List (Op E)} {final : State E}
    (positive : 1 ≤ size) (run : exec step (start zero size) ops = some final)
    (few : final.writes.length < 2 ^ 63) :
    (final.Unbroken → final.Fifo) ∧
      ((final.writes.map (·.1)).Nodup → final.Fifo → final.Unbroken) := by
  have tracks := run_tracks positive run few
  exact ⟨tracks.fifo, tracks.unbroken⟩

theorem two_slots_in_turn :
    let final : State Nat :=
      ⟨⟨[1, 2], 2, 3, 2⟩, [(1, true), (2, true), (3, false)], [1, 2]⟩
    exec step (start 0 2) [.write 1, .write 2, .write 3, .read, .read] = some final ∧
      final.Unbroken ∧ final.Fifo := by
  intro final
  have run : exec step (start 0 2) [.write 1, .write 2, .write 3, .read, .read] = some final := rfl
  exact ⟨run, by decide, (fifo_iff_unbroken (by decide) run (by decide)).1 (by decide)⟩

/-- A refused entry makes the first one come out twice. -/
theorem refused_entry_repeats_first :
    let final : State Nat := ⟨⟨[1], 1, 2, 2⟩, [(1, true), (2, false)], [1, 1]⟩
    exec step (start 0 1) [.write 1, .write 2, .read, .read] = some final ∧
      final.accepted = [1] ∧ ¬final.Fifo :=
  ⟨rfl, rfl, by decide⟩

end AsyncPractice.LogRingBuffer
