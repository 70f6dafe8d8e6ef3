import Mathlib.Data.Fintype.Card

/- Quorums over a fixed group of members: majorities, and how much quorums of one size share. -/
namespace AsyncPractice.Quorum

/-- The least number of members that is more than half of a group of `size`. -/
def majority (size : Nat) : Nat := size / 2 + 1

/-- Two majorities of one group have a member in common. -/
theorem majorities_meet {size} (x y : Finset (Fin size)) (many : majority size ≤ x.card)
    (most : majority size ≤ y.card) : ∃ mem, mem ∈ x ∧ mem ∈ y := by
  have total : (Finset.univ : Finset (Fin size)).card < x.card + y.card := by
    rw [Finset.card_univ, Fintype.card_fin]
    unfold majority at many most
    omega
  obtain ⟨mem, shared⟩ := Finset.inter_nonempty_of_card_lt_card_add_card
    (Finset.subset_univ x) (Finset.subset_univ y) total
  exact ⟨mem, Finset.mem_inter.mp shared⟩

section

variable {α : Type} [DecidableEq α] {members : Finset α}

theorem card_add_card_le_inter {first second} (left : first ⊆ members) (right : second ⊆ members) :
    first.card + second.card ≤ members.card + (first ∩ second).card := by
  have lt := Finset.card_le_card (Finset.union_subset left right)
  have cnt := Finset.card_union_add_card_inter first second
  omega

/-- Quorums of one size need not share more than that. -/
theorem exists_quorums_inter {quorum} (fits : quorum ≤ members.card) :
    ∃ x ⊆ members, ∃ second ⊆ members, x.card = quorum ∧ second.card = quorum ∧
      (x ∩ second).card = 2 * quorum - members.card := by
  obtain ⟨x, left, size⟩ := Finset.exists_subset_card_eq fits
  obtain ⟨shared, within, common⟩ :=
    Finset.exists_subset_card_eq (show 2 * quorum - members.card ≤ x.card by omega)
  have outside := Finset.card_sdiff_of_subset left
  obtain ⟨rest, ne, fill⟩ := Finset.exists_subset_card_eq
    (show quorum - (2 * quorum - members.card) ≤ (members \ x).card by omega)
  have separate : Disjoint x rest := Finset.disjoint_of_subset_right ne Finset.disjoint_sdiff
  refine ⟨x, left, shared ∪ rest, ?_, size, ?_, ?_⟩
  · exact Finset.union_subset (within.trans left) (ne.trans Finset.sdiff_subset)
  · rw [Finset.card_union_of_disjoint (Finset.disjoint_of_subset_left within separate)]
    omega
  · rw [Finset.inter_union_distrib_left, Finset.disjoint_iff_inter_eq_empty.mp separate,
      Finset.union_empty, Finset.inter_eq_right.mpr within, common]

end

end AsyncPractice.Quorum
