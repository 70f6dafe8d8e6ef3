import Mathlib.Data.List.Pairwise
import Mathlib.Data.List.Rotate
import Mathlib.Order.Lattice

/- Points on a ring and the first of them met from a place onwards, round the end if need be. -/
namespace AsyncPractice.RingSuccessor

open List

variable {α : Type} [LinearOrder α]

/-- `point` is the first of the points at or after `place`, or the least of all when there is
none. -/
structure Successor (points : α → Prop) (place point : α) : Prop where
  member : points point
  least : ∀ other, points other → (place ≤ other → place ≤ point) ∧
    ((place ≤ other ↔ place ≤ point) → point ≤ other)

theorem Successor.unique {ps : α → Prop} {p x y : α} (left : Successor ps p x)
    (right : Successor ps p y) : x = y := by
  have sides : p ≤ y ↔ p ≤ x :=
    ⟨(left.least y right.member).1, (right.least x left.member).1⟩
  apply le_antisymm
  · exact (left.least y right.member).2 sides
  · exact (right.least x left.member).2 sides.symm

/-- New points do not change a successor except by becoming it. -/
theorem Successor.restrict {old new : α → Prop} {p point : α}
    (succ : Successor new p point) (included : ∀ other, old other → new other)
    (kept : old point) : Successor old p point :=
  ⟨kept, fun other hit => succ.least other (included other hit)⟩

section

variable {keys : List α} (sorted : keys.Pairwise (· < ·)) {p : α}
include sorted

theorem getElem_le_getElem {i j} (below : i ≤ j) (lt : j < keys.length) : keys[i] ≤ keys[j] := by
  rcases Nat.lt_or_eq_of_le below with less | rfl
  · exact le_of_lt (pairwise_iff_getElem.mp sorted i j (by omega) lt less)
  · exact le_refl _

/-- A position of a sorted list with smaller keys before it and none after it. -/
theorem successor_getElem {i} (lt : i < keys.length)
    (pre : ∀ j (bound : j < keys.length), j < i → keys[j] < p) (at_ : p ≤ keys[i]) :
    Successor (· ∈ keys) p keys[i] := by
  refine ⟨getElem_mem lt, ?_⟩
  intro x mem
  obtain ⟨j, bound, rfl⟩ := getElem_of_mem mem
  refine ⟨fun _ => at_, fun sides => ?_⟩
  have late : i ≤ j := by
    by_contra early
    exact absurd (sides.mpr at_) (not_le_of_gt (pre j bound (by omega)))
  exact getElem_le_getElem sorted late bound

theorem successor_first (ne : 0 < keys.length) (pre : ∀ key ∈ keys, key < p) :
    Successor (· ∈ keys) p keys[0] := by
  refine ⟨getElem_mem ne, ?_⟩
  intro x mem
  obtain ⟨j, bound, rfl⟩ := getElem_of_mem mem
  refine ⟨fun late => absurd late (not_le_of_gt (pre _ mem)), fun _ => ?_⟩
  exact getElem_le_getElem sorted (Nat.zero_le j) bound

end

/-- The points as they are met from `place` onwards and round the end. -/
def clockwise (place : α) (keys : List α) : List α :=
  keys.filter (place ≤ ·) ++ keys.filter (· < place)

theorem clockwise_append {p : α} {low high : List α} (below : ∀ k ∈ low, k < p)
    (above : ∀ k ∈ high, p ≤ k) : clockwise p (low ++ high) = high ++ low := by
  have lowLate : low.filter (p ≤ ·) = [] := by
    rw [filter_eq_nil_iff]
    intro k mem
    simpa using below k mem
  have highLate : high.filter (p ≤ ·) = high := by
    rw [filter_eq_self]
    intro k mem
    simpa using above k mem
  have lowEarly : low.filter (· < p) = low := by
    rw [filter_eq_self]
    intro k mem
    simpa using below k mem
  have highEarly : high.filter (· < p) = [] := by
    rw [filter_eq_nil_iff]
    intro k mem
    simpa using above k mem
  rw [clockwise, filter_append, filter_append, lowLate, highLate, lowEarly, highEarly,
    nil_append, append_nil]

/-- A sorted list turned to the successor of a place is met from that place on. -/
theorem rotate_eq_clockwise {keys : List α} (sorted : keys.Pairwise (· < ·)) {p : α} {i : Nat}
    (lt : i < keys.length) (succ : Successor (· ∈ keys) p keys[i]) :
    keys.rotate i = clockwise p keys := by
  by_cases late : p ≤ keys[i]
  · have low : ∀ k ∈ keys.take i, k < p := by
      intro k mem
      obtain ⟨j, bound, rfl⟩ := getElem_of_mem mem
      rw [length_take] at bound
      rw [getElem_take]
      by_contra came
      have order := (succ.least keys[j] (getElem_mem _)).2 ⟨fun _ => late, fun _ => not_lt.mp came⟩
      have less := pairwise_iff_getElem.mp sorted j i (by omega) lt (by omega)
      exact absurd order (not_le_of_gt less)
    have high : ∀ k ∈ keys.drop i, p ≤ k := by
      intro k mem
      obtain ⟨j, bound, rfl⟩ := getElem_of_mem mem
      rw [length_drop] at bound
      rw [getElem_drop]
      exact le_trans late (getElem_le_getElem sorted (by omega) (by omega))
    rw [rotate_eq_drop_append_take (Nat.le_of_lt lt), ← clockwise_append low high, take_append_drop]
  · have low : ∀ k ∈ keys, k < p := by
      intro k mem
      by_contra came
      exact late ((succ.least k mem).1 (not_lt.mp came))
    -- The least key of a sorted list is its first one.
    have x : i = 0 := by
      by_contra later
      have pos : 0 < keys.length := by omega
      have order := (succ.least keys[0] (getElem_mem pos)).2
        ⟨fun came => absurd (low _ (getElem_mem pos)) (not_lt_of_ge came),
          fun came => absurd came late⟩
      have less := pairwise_iff_getElem.mp sorted 0 i pos lt (by omega)
      exact absurd order (not_le_of_gt less)
    have whole : clockwise p (keys ++ []) = [] ++ keys := clockwise_append low (by simp)
    rw [append_nil, nil_append] at whole
    rw [x, rotate_zero, whole]

end AsyncPractice.RingSuccessor
