import Mathlib.Data.List.Basic

/- Slices of Go: views into arrays, which several slices may share. An append writes into the array
of its slice as long as there is room, and copies everything to a new array when there is none. -/
namespace AsyncPractice.GoSlice

open List

/-- `cap` counts from the offset on, as `len` does. -/
structure Slice where
  array : Nat
  offset : Nat
  len : Nat
  cap : Nat

/-- The slots of all arrays; those numbered below `next` have been allocated. -/
structure Memory (α : Type) where
  next : Nat
  slot : Nat → Nat → α

variable {α : Type}

def Memory.blank [Inhabited α] : Memory α := ⟨0, fun _ _ => default⟩

def Memory.contents (m : Memory α) (s : Slice) : List α :=
  (List.range s.len).map fun i => m.slot s.array (s.offset + i)

def Memory.store (m : Memory α) (array place : Nat) (values : List α) : Memory α :=
  { m with slot := fun a i =>
      if a = array ∧ place ≤ i then (values[i - place]?).getD (m.slot a i) else m.slot a i }

/-- A new array of its own for some values, with spare room after them. -/
def Memory.allocate (m : Memory α) (values : List α) (spare : Nat) : Memory α × Slice :=
  ({ m.store m.next 0 values with next := m.next + 1 },
    ⟨m.next, 0, values.length, values.length + spare⟩)

/-- The spare room of an array that has to be replaced is for the runtime to choose. -/
def Memory.append (m : Memory α) (s : Slice) (values : List α) (spare : Nat) : Memory α × Slice :=
  if s.len + values.length ≤ s.cap then
    (m.store s.array (s.offset + s.len) values, { s with len := s.len + values.length })
  else m.allocate (m.contents s ++ values) spare

def Slice.take (s : Slice) (n : Nat) : Slice := { s with len := n }

def Slice.drop (s : Slice) (n : Nat) : Slice := ⟨s.array, s.offset + n, s.len - n, s.cap - n⟩

def Slice.stop (s : Slice) : Nat := s.offset + s.len

variable (m : Memory α) (s : Slice)

@[simp] theorem length_contents : (m.contents s).length = s.len := by
  simp [Memory.contents]

theorem contents_take {n} (within : n ≤ s.len) : m.contents (s.take n) = (m.contents s).take n := by
  apply ext_getElem
  · simp [Slice.take, within]
  · intro i left right
    simp [Memory.contents, Slice.take]

theorem contents_drop (n) : m.contents (s.drop n) = (m.contents s).drop n := by
  apply ext_getElem
  · simp [Slice.drop]
  · intro i left right
    simp [Memory.contents, Slice.drop, Nat.add_assoc]

theorem contents_cut {n} (within : n ≤ s.len) :
    m.contents (s.take n) ++ m.contents (s.drop n) = m.contents s := by
  rw [contents_take m s within, contents_drop, take_append_drop]

theorem contents_take_one : m.contents (s.take 1) = [m.slot s.array s.offset] := by
  simp [Memory.contents, Slice.take]

variable {m : Memory α} {vs : List α} {array p : Nat}

theorem slot_store_outside {a i} (outside : a ≠ array ∨ i < p) :
    (m.store array p vs).slot a i = m.slot a i := by
  unfold Memory.store
  dsimp only
  rw [if_neg]
  rintro ⟨eq, after⟩
  rcases outside with apart | before
  · exact apart eq
  · omega

theorem slot_store_inside {i} (lt : i < vs.length) :
    (m.store array p vs).slot array (p + i) = vs[i] := by
  simp [Memory.store, lt]

theorem contents_store_outside {t} (outside : t.array ≠ array ∨ t.stop ≤ p) :
    (m.store array p vs).contents t = m.contents t := by
  apply map_congr_left
  intro i mem
  have below := mem_range.mp mem
  apply slot_store_outside
  rcases outside with apart | before
  · exact .inl apart
  · right
    unfold Slice.stop at before
    omega

variable {s t : Slice} {spare : Nat}

/-- An append to `s` does not write into `t`. -/
structure Memory.Clear (m : Memory α) (s t : Slice) : Prop where
  allocated : t.array < m.next
  before : t.array = s.array → t.stop ≤ s.stop

theorem contents_allocate (m : Memory α) (vs) (spare : Nat) :
    (m.allocate vs spare).1.contents (m.allocate vs spare).2 = vs := by
  apply ext_getElem
  · simp [Memory.allocate]
  · intro i left right
    simp [Memory.allocate, Memory.contents, Memory.store, right]

theorem contents_allocate_other (new : t.array < m.next) :
    (m.allocate vs spare).1.contents t = m.contents t := by
  exact contents_store_outside (.inl (Nat.ne_of_lt new))

theorem contents_append (m : Memory α) (s) (vs : List α) (spare) :
    (m.append s vs spare).1.contents (m.append s vs spare).2 = m.contents s ++ vs := by
  unfold Memory.append
  split
  · have old : (m.store s.array (s.offset + s.len) vs).contents s = m.contents s :=
      contents_store_outside (.inr (Nat.le_refl _))
    rw [← old]
    apply ext_getElem
    · simp
    · intro i left right
      by_cases inside : i < s.len
      · rw [getElem_append_left (by simpa using inside)]
        simp [Memory.contents]
      · have p : i - s.len < vs.length := by
          simp at right
          omega
        have new : (m.store s.array (s.offset + s.len) vs).slot s.array
            (s.offset + s.len + (i - s.len)) = vs[i - s.len] := slot_store_inside p
        rw [getElem_append_right (by simpa using inside)]
        simp only [length_contents]
        rw [← new]
        simp only [Memory.contents, getElem_map, getElem_range]
        congr 1
        omega
  · exact contents_allocate m _ spare

theorem contents_append_other (clear : m.Clear s t) :
    (m.append s vs spare).1.contents t = m.contents t := by
  unfold Memory.append
  split
  · apply contents_store_outside
    by_cases shared : t.array = s.array
    · exact .inr (clear.before shared)
    · exact .inl shared
  · exact contents_allocate_other clear.allocated

theorem next_le_append (m : Memory α) (s) (vs : List α) (spare) :
    m.next ≤ (m.append s vs spare).1.next := by
  unfold Memory.append
  split
  · exact Nat.le_refl _
  · exact Nat.le_succ _

theorem append_cases (m : Memory α) (s) (vs : List α) (spare) :
    ((m.append s vs spare).2.array = s.array ∧ (m.append s vs spare).2.offset = s.offset ∧
        (m.append s vs spare).1.next = m.next) ∨
      ((m.append s vs spare).2.array = m.next ∧ (m.append s vs spare).1.next = m.next + 1) := by
  unfold Memory.append
  split
  · exact .inl ⟨rfl, rfl, rfl⟩
  · exact .inr ⟨rfl, rfl⟩

theorem len_append (m : Memory α) (s) (vs : List α) (spare) :
    (m.append s vs spare).2.len = s.len + vs.length := by
  have eq := congrArg length (contents_append m s vs spare)
  simpa using eq

/-- What an append to `s` does not reach, an append to the longer slice does not reach either. -/
theorem Memory.Clear.append (clear : m.Clear s t) (vs : List α) (spare) :
    (m.append s vs spare).1.Clear (m.append s vs spare).2 t := by
  refine ⟨Nat.lt_of_lt_of_le clear.allocated (next_le_append m s vs spare), ?_⟩
  intro shared
  rcases append_cases m s vs spare with ⟨array, off, -⟩ | ⟨array, -⟩
  · have pre := clear.before (shared.trans array)
    unfold Slice.stop at pre ⊢
    rw [off, len_append]
    omega
  · have new := clear.allocated
    rw [shared, array] at new
    exact absurd new (Nat.lt_irrefl _)

theorem allocated_append (new : s.array < m.next) (vs : List α) (spare) :
    (m.append s vs spare).2.array < (m.append s vs spare).1.next := by
  rcases append_cases m s vs spare with ⟨array, -, next⟩ | ⟨array, next⟩
  · rw [array, next]
    exact new
  · rw [array, next]
    exact Nat.lt_succ_self _

variable {n k : Memory α}

/-- Between the two memories nothing has happened that appends to `s` and to what comes of it could
not do. -/
structure Memory.Frame (m n : Memory α) (s : Slice) : Prop where
  next : m.next ≤ n.next
  contents : ∀ t, m.Clear s t → n.contents t = m.contents t

theorem Memory.Frame.refl (m : Memory α) (s) : m.Frame m s :=
    ⟨Nat.le_refl _, fun _ _ => rfl⟩

theorem Memory.Frame.trans (x : m.Frame n s) (y : n.Frame k s) : m.Frame k s := by
  refine ⟨Nat.le_trans x.next y.next, fun t clear => ?_⟩
  have still : n.Clear s t := ⟨Nat.lt_of_lt_of_le clear.allocated x.next, clear.before⟩
  rw [y.contents t still, x.contents t clear]

/-- Appends to a slice that was itself appended to `s`. -/
theorem Memory.Frame.of_append {vs spare}
    (frame : (m.append s vs spare).1.Frame n (m.append s vs spare).2) : m.Frame n s := by
  refine ⟨Nat.le_trans (next_le_append m s vs spare) frame.next, fun t clear => ?_⟩
  rw [frame.contents t (clear.append vs spare), contents_append_other clear]

theorem Memory.Frame.self (frame : m.Frame n s) (new : s.array < m.next) :
    n.contents s = m.contents s :=
  frame.contents s ⟨new, fun _ => Nat.le_refl _⟩

end AsyncPractice.GoSlice
