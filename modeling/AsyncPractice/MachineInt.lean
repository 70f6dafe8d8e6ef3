import Mathlib.Tactic.NormNum

/- Sums of signed 64-bit integers, which wrap around, remainders of them as indices of a ring, a
loop for the lowest of them, and the order of unsigned ones. -/
namespace AsyncPractice.MachineInt

open List

theorem bmod_eq_self {k} (low : - 2 ^ 63 ≤ k) (high : k < 2 ^ 63) : k.bmod (2 ^ 64) = k := by
  apply Int.bmod_eq_of_le <;> norm_num at * <;> omega

theorem toInt_add_one {n : Int64} (below : n.toInt < 2 ^ 63 - 1) : (n + 1).toInt = n.toInt + 1 := by
  have low := n.le_toInt
  rw [Int64.toInt_add, show (1 : Int64).toInt = 1 from rfl, bmod_eq_self] <;> omega

/-- The difference of two numbers that are not negative does not wrap around. -/
theorem toInt_sub_of_nonneg {a b : Int64} (left : 0 ≤ a.toInt) (right : 0 ≤ b.toInt) :
    (a - b).toInt = a.toInt - b.toInt := by
  have x := a.toInt_lt
  have y := b.toInt_lt
  rw [Int64.toInt_sub, bmod_eq_self] <;> omega

theorem add_one_max {n : Int64} (top : n.toInt = 2 ^ 63 - 1) : (n + 1).toInt = - 2 ^ 63 := by
  rw [Int64.toInt_add, top]
  rfl

theorem toInt_add_one_le (n : Int64) : (n + 1).toInt ≤ n.toInt + 1 := by
  by_cases below : n.toInt < 2 ^ 63 - 1
  · rw [toInt_add_one below]
  · have high := n.toInt_lt
    rw [add_one_max (by omega)]
    omega

theorem toInt_add_neg_one {n : Int64} (above : - 2 ^ 63 < n.toInt) :
    (n + -1).toInt = n.toInt - 1 := by
  have high := n.toInt_lt
  rw [Int64.toInt_add, show (-1 : Int64).toInt = -1 from rfl, bmod_eq_self] <;> omega

theorem toInt_add_ofNat (n : Int64) (size : Nat) :
    ∃ turns : Int, n.toInt + size = (n + .ofNat size).toInt + 2 ^ 64 * turns := by
  have divides := Int.dvd_self_sub_bmod (x := n.toInt + size) (m := 2 ^ 64)
  obtain ⟨turns, whole⟩ := divides
  refine ⟨turns, ?_⟩
  norm_num at *
  omega

theorem mod_position {pos size : Int64} {k n : Nat} (position : pos.toInt = k)
    (slots : size.toInt = n) : 0 ≤ pos % size ∧ (pos % size).toNatClampNeg = k % n := by
  have rest : (pos % size).toInt = (k % n : Nat) := by
    rw [Int64.toInt_mod, position, slots, Int.tmod_eq_emod_of_nonneg (Int.natCast_nonneg k)]
    exact (Int.natCast_mod k n).symm
  constructor
  · rw [Int64.le_iff_toInt_le, rest]
    exact Int.natCast_nonneg _
  · rw [← Int64.toNat_toInt, rest, Int.toNat_natCast]

/-- Positions less than a round apart have slots of their own. -/
theorem slot_ne {j k n : Nat} (pre : j < k) (near : k < j + n) : j % n ≠ k % n := by
  intro eq
  have whole := Nat.sub_mod_eq_zero_of_mod_eq eq.symm
  rw [Nat.mod_eq_of_lt (by omega)] at whole
  omega

/-- A loop that keeps the first entry of lowest value. -/
theorem foldl_lowest {α : Type} (v : α → Int64) (es : List α) (x : α) :
    let lowest := es.foldl (fun lowest a => if v a < v lowest then a else lowest) x
    lowest ∈ x :: es ∧ ∀ a ∈ x :: es, v lowest ≤ v a := by
  induction es generalizing x with
  | nil => simp
  | cons a es ih =>
    dsimp only
    rw [foldl_cons]
    by_cases lower : v a < v x
    · rw [if_pos lower]
      obtain ⟨hit, least⟩ := ih a
      have first_le := Int64.le_trans (least a mem_cons_self) (Int64.le_of_lt lower)
      exact ⟨mem_cons_of_mem _ hit, forall_mem_cons.mpr ⟨first_le, least⟩⟩
    · rw [if_neg lower]
      obtain ⟨hit, least⟩ := ih x
      obtain ⟨first_le, rest⟩ := forall_mem_cons.mp least
      have a_le := Int64.le_trans first_le (Int64.not_lt.mp lower)
      refine ⟨?_, forall_mem_cons.mpr ⟨first_le, forall_mem_cons.mpr ⟨a_le, rest⟩⟩⟩
      exact cons_subset_cons x (subset_cons_self a es) hit

instance linearOrderUInt32 : LinearOrder UInt32 where
  le_refl := UInt32.le_refl
  le_trans _ _ _ := UInt32.le_trans
  le_antisymm _ _ := UInt32.le_antisymm
  le_total := UInt32.le_total
  lt_iff_le_not_ge a b := by
    rw [UInt32.lt_iff_toNat_lt, UInt32.le_iff_toNat_le, UInt32.le_iff_toNat_le]
    omega
  toDecidableLE := inferInstance

end AsyncPractice.MachineInt
