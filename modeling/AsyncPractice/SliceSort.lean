import Mathlib.Data.List.Sort

/- Sorting a slice by a strict comparison, as Go's sort.Slice does. The library function does
not say which of its sorted outcomes it returns; `eq_sortSlice` is what makes the choice
irrelevant when different elements always compare. And cutting off the front of a slice, which is
filtering as far as the slice is sorted by the test. -/
namespace AsyncPractice.SliceSort

variable {α κ : Type}

def sortSlice (less : α → α → Prop) [DecidableRel less] (slice : List α) : List α :=
  slice.insertionSort (fun a b => ¬ less b a)

theorem sortSlice_perm (less : α → α → Prop) [DecidableRel less] (slice) :
    (sortSlice less slice).Perm slice :=
  List.perm_insertionSort _ slice

/-- A function that returns some sorted rearrangement of every slice, as any sort.Slice does. -/
structure Sorts (less : α → α → Prop) (sort : List α → List α) : Prop where
  perm : ∀ slice, (sort slice).Perm slice
  ordered : ∀ slice, (sort slice).Pairwise (fun a b => ¬ less b a)

section

variable [LinearOrder κ] {less : α → α → Prop} [DecidableRel less] {k : α → κ}

theorem sortSlice_sorted (compares : ∀ a b, less a b ↔ k a < k b) (slice) :
    (sortSlice less slice).Pairwise (fun a b => k a ≤ k b) := by
  have meaning : ∀ a b, ¬ less b a ↔ k a ≤ k b := by
    intro a b
    rw [compares, not_lt]
  have total : Std.Total (fun a b => ¬ less b a) := by
    constructor
    intro a b
    rw [meaning, meaning]
    exact le_total (k a) (k b)
  have trans : IsTrans α (fun a b => ¬ less b a) := by
    constructor
    intro a b c
    rw [meaning, meaning, meaning]
    exact le_trans
  exact (List.pairwise_insertionSort _ slice).imp fun {a b} => (meaning a b).mp

theorem sortSlice_sorts (compares : ∀ a b, less a b ↔ k a < k b) : Sorts less (sortSlice less) := by
  refine ⟨sortSlice_perm less, fun slice => ?_⟩
  apply (sortSlice_sorted compares slice).imp
  intro a b ord
  rw [compares]
  exact not_lt.mpr ord

variable {slice : List α} (distinct : ∀ a ∈ slice, ∀ b ∈ slice, k a = k b → a = b)
include distinct

theorem sortSlice_strict (compares : ∀ a b, less a b ↔ k a < k b) (nodup : slice.Nodup) :
    (sortSlice less slice).Pairwise (fun a b => k a < k b) := by
  have perm := sortSlice_perm less slice
  have both := List.Pairwise.and_mem.mp
    ((sortSlice_sorted compares slice).and (perm.nodup_iff.mpr nodup))
  apply both.imp
  rintro a b ⟨left, right, ord, ne⟩
  exact lt_of_le_of_ne ord fun eq =>
    ne (distinct a (perm.mem_iff.mp left) b (perm.mem_iff.mp right) eq)

/-- Any sorted rearrangement of the slice is the one `sortSlice` returns. -/
theorem eq_sortSlice (compares : ∀ a b, less a b ↔ k a < k b) {sorted} (perm : sorted.Perm slice)
    (ord : sorted.Pairwise (fun a b => k a ≤ k b)) : sorted = sortSlice less slice := by
  refine List.Perm.eq_of_pairwise ?_ ord (sortSlice_sorted compares slice)
    (perm.trans (sortSlice_perm less slice).symm)
  intro a b left right below above
  exact distinct a (perm.mem_iff.mp left) b ((sortSlice_perm less slice).mem_iff.mp right)
    (le_antisymm below above)

end

theorem dropWhile_eq_filter_iff {test : α → Bool} {slice : List α} :
    slice.dropWhile test = slice.filter (fun a => !test a) ↔
      slice.Pairwise fun a b => test b = true → test a = true := by
  induction slice with
  | nil => simp
  | cons x rest ih =>
    rw [List.pairwise_cons]
    cases cut : test x with
    | true =>
      rw [List.dropWhile_cons_of_pos cut, List.filter_cons_of_neg (by simp [cut]), ih]
      simp
    | false =>
      -- Here the cut stops, so nothing behind may pass the test.
      rw [List.dropWhile_cons_of_neg (by simp [cut]), List.filter_cons_of_pos (by simp [cut]),
        List.cons.injEq, eq_comm (a := rest), List.filter_eq_self]
      simp only [Bool.not_eq_true', true_and, Bool.false_eq_true, imp_false, Bool.not_eq_true]
      refine ⟨fun none => ⟨none, List.pairwise_of_forall_mem_list ?_⟩, And.left⟩
      intro a _ b mem pass
      rw [none b mem] at pass
      cases pass

end AsyncPractice.SliceSort
