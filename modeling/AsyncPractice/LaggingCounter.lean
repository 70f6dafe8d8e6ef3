import Mathlib.Data.Finset.Card

/- A counter that each of many processes increments some time after it has added to what is
counted. -/
namespace AsyncPractice.LaggingCounter

open Function

variable {C P : Type}

/-- The counter is behind the size by the processes that, by their phase, have yet to count. -/
def Lags (waits : P → Prop) (phase : C → P) (count : Int64) (size : Nat) : Prop :=
  ∃ waiting : Finset C, (∀ c, c ∈ waiting ↔ waits (phase c)) ∧
    count + Int64.ofNat waiting.card = Int64.ofNat size

variable {waits : P → Prop} {phase : C → P} {count : Int64} {size : Nat}

theorem lags_zero (nobody : ∀ c, ¬ waits (phase c)) : Lags waits phase 0 0 := by
  refine ⟨∅, fun c => ?_, rfl⟩
  exact iff_of_false (Finset.notMem_empty c) (nobody c)

theorem Lags.settled (lags : Lags waits phase count size) (nobody : ∀ c, ¬ waits (phase c)) :
    count = Int64.ofNat size := by
  obtain ⟨wait, mem, sum⟩ := lags
  obtain rfl : wait = ∅ :=
    Finset.eq_empty_of_forall_notMem fun c lt => nobody c ((mem c).mp lt)
  rw [← sum, Finset.card_empty]
  exact (Int64.add_zero count).symm

variable [DecidableEq C] {c : C} {old t : P} (was : phase c = old)
include was

variable (lags : Lags waits phase count size)
include lags

theorem Lags.keep (eq : waits t ↔ waits old) : Lags waits (update phase c t) count size := by
  obtain ⟨wait, mem, sum⟩ := lags
  refine ⟨wait, fun x => ?_, sum⟩
  by_cases own : x = c
  · rw [own, update_self, eq, ← was]
    exact mem c
  · rw [update_of_ne own]
    exact mem x

theorem Lags.join (pre : ¬ waits old) (after : waits t) :
    Lags waits (update phase c t) count (size + 1) := by
  obtain ⟨wait, mem, sum⟩ := lags
  have outside : c ∉ wait := fun lt => pre (was ▸ (mem c).mp lt)
  refine ⟨insert c wait, fun x => ?_, ?_⟩
  · rw [Finset.mem_insert]
    by_cases own : x = c
    · rw [own, update_self]
      exact iff_of_true (.inl rfl) after
    · rw [update_of_ne own, ← mem x]
      exact or_iff_right own
  · rw [Finset.card_insert_of_notMem outside, Int64.ofNat_add, Int64.ofNat_add, ← sum,
      Int64.add_assoc]

theorem Lags.leave (pre : waits old) (after : ¬ waits t) :
    Lags waits (update phase c t) (count + 1) size := by
  obtain ⟨wait, mem, sum⟩ := lags
  have lt : c ∈ wait := (mem c).mpr (was ▸ pre)
  refine ⟨wait.erase c, fun x => ?_, ?_⟩
  · rw [Finset.mem_erase]
    by_cases own : x = c
    · rw [own, update_self]
      exact iff_of_false (fun both => both.1 rfl) after
    · rw [update_of_ne own, ← mem x]
      exact and_iff_right own
  · rw [← sum, ← Finset.card_erase_add_one lt, Int64.ofNat_add, Int64.add_assoc, Int64.add_comm 1]
    rfl

end AsyncPractice.LaggingCounter
