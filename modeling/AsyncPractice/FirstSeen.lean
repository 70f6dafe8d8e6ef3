import Mathlib.Data.Finset.Basic
import Mathlib.Data.List.Pairwise

/- A loop over a list that keeps the first element with each key, and skips elements without a
key. The keys met so far are in a set. -/
namespace AsyncPractice.FirstSeen

open List

variable {α β κ : Type} [DecidableEq κ]

def keep (key : α → Option κ) (state : List α × Finset κ) (a : α) : List α × Finset κ :=
  match key a with
  | none => state
  | some k => if k ∈ state.2 then state else (state.1 ++ [a], insert k state.2)

/-- What the loop adds to its results when it starts with some keys seen. -/
def firsts (key : α → Option κ) : Finset κ → List α → List α
  | _, [] => []
  | seen, a :: rest =>
    match key a with
    | none => firsts key seen rest
    | some k => if k ∈ seen then firsts key seen rest else a :: firsts key (insert k seen) rest

theorem foldl_keep (key : α → Option κ) (kept seen l) :
    (l.foldl (keep key) (kept, seen)).1 = kept ++ firsts key seen l := by
  induction l generalizing kept seen with
  | nil => simp [firsts]
  | cons a rest ih =>
    rw [foldl_cons, keep, firsts]
    cases key a with
    | none => exact ih kept seen
    | some k =>
      by_cases old : k ∈ seen
      · simp [old, ih]
      · simp [old, ih]

theorem firsts_map (key : β → Option κ) (f : α → β) (seen l) :
    firsts key seen (l.map f) = (firsts (fun a => key (f a)) seen l).map f := by
  induction l generalizing seen with
  | nil => rfl
  | cons a rest ih =>
    rw [map_cons, firsts, firsts]
    cases key (f a) with
    | none => exact ih seen
    | some k =>
      by_cases old : k ∈ seen
      · simp [old, ih]
      · simp [old, ih]

variable {key : α → Option κ} {seen : Finset κ} {l : List α} {a : α}

theorem mem_firsts (kept : a ∈ firsts key seen l) : a ∈ l ∧ ∃ k, key a = some k ∧ k ∉ seen := by
  induction l generalizing seen with
  | nil => cases kept
  | cons b rest ih =>
    rw [firsts] at kept
    cases hit : key b with
    | none =>
      rw [hit] at kept
      obtain ⟨mem, new⟩ := ih kept
      exact ⟨mem_cons_of_mem _ mem, new⟩
    | some k =>
      rw [hit] at kept
      dsimp only at kept
      split at kept
      · obtain ⟨mem, new⟩ := ih kept
        exact ⟨mem_cons_of_mem _ mem, new⟩
      next unseen =>
        rcases mem_cons.mp kept with rfl | later
        · exact ⟨mem_cons_self, k, hit, unseen⟩
        · obtain ⟨mem, j, e, new⟩ := ih later
          exact ⟨mem_cons_of_mem _ mem, j, e, fun old => new (Finset.mem_insert_of_mem old)⟩

theorem exists_firsts {k} (mem : a ∈ l) (hit : key a = some k) (new : k ∉ seen) :
    ∃ b ∈ firsts key seen l, key b = some k := by
  induction l generalizing seen with
  | nil => cases mem
  | cons b rest ih =>
    rw [firsts]
    cases e : key b with
    | none =>
      rcases mem_cons.mp mem with rfl | later
      · rw [e] at hit
        cases hit
      · exact ih later new
    | some j =>
      dsimp only
      by_cases eq : j = k
      · subst eq
        rw [if_neg new]
        exact ⟨b, mem_cons_self, e⟩
      · have later : a ∈ rest := by
          rcases mem_cons.mp mem with rfl | later
          · exact absurd (Option.some.inj (e.symm.trans hit)) eq
          · exact later
        split
        · exact ih later new
        · have still : k ∉ insert j seen := by
            rw [Finset.mem_insert, not_or]
            exact ⟨Ne.symm eq, new⟩
          obtain ⟨c, kept, shown⟩ := ih later still
          exact ⟨c, mem_cons_of_mem _ kept, shown⟩

theorem firsts_pairwise (key : α → Option κ) (seen l) :
    (firsts key seen l).Pairwise fun a b => key a ≠ key b := by
  induction l generalizing seen with
  | nil => exact List.Pairwise.nil
  | cons a rest ih =>
    rw [firsts]
    cases found : key a with
    | none => exact ih seen
    | some k =>
      dsimp only
      split
      · exact ih seen
      · refine pairwise_cons.mpr ⟨fun b kept eq => ?_, ih _⟩
        obtain ⟨-, j, e, new⟩ := mem_firsts kept
        rw [found, e] at eq
        exact new (Option.some.inj eq ▸ Finset.mem_insert_self _ _)

/-- With more keys seen, no other elements are kept. -/
theorem firsts_mono {more} (subset : seen ⊆ more) (kept : a ∈ firsts key more l) :
    a ∈ firsts key seen l := by
  induction l generalizing seen more with
  | nil => cases kept
  | cons b rest ih =>
    rw [firsts] at kept ⊢
    cases found : key b with
    | none =>
      rw [found] at kept
      exact ih subset kept
    | some k =>
      rw [found] at kept
      dsimp only at kept ⊢
      by_cases old : k ∈ more
      · rw [if_pos old] at kept
        split
        · exact ih subset kept
        · exact mem_cons_of_mem _ (ih (Finset.insert_subset old subset) kept)
      · rw [if_neg old] at kept
        rw [if_neg fun early => old (subset early)]
        rcases mem_cons.mp kept with rfl | later
        · exact mem_cons_self
        · exact mem_cons_of_mem _ (ih (Finset.insert_subset_insert k subset) later)

theorem firsts_append (key : α → Option κ) (seen x y) :
    ∃ more, seen ⊆ more ∧ firsts key seen (x ++ y) = firsts key seen x ++ firsts key more y := by
  induction x generalizing seen with
  | nil => exact ⟨seen, Finset.Subset.refl _, rfl⟩
  | cons a rest ih =>
    rw [cons_append, firsts, firsts]
    cases key a with
    | none => exact ih seen
    | some k =>
      dsimp only
      split
      · exact ih seen
      · obtain ⟨more, subset, eq⟩ := ih (insert k seen)
        refine ⟨more, (Finset.subset_insert k seen).trans subset, ?_⟩
        rw [eq, cons_append]

/-- What is kept of several lists in a row is kept of one of them alone. -/
theorem mem_firsts_flatMap {lists : List β} {list : β → List α}
    (kept : a ∈ firsts key seen (lists.flatMap list)) :
    ∃ b ∈ lists, a ∈ firsts key seen (list b) := by
  induction lists generalizing seen with
  | nil => cases kept
  | cons b rest ih =>
    obtain ⟨more, subset, split⟩ := firsts_append key seen (list b) (rest.flatMap list)
    rw [flatMap_cons, split] at kept
    rcases mem_append.mp kept with x | later
    · exact ⟨b, mem_cons_self, x⟩
    · obtain ⟨c, mem, alone⟩ := ih later
      exact ⟨c, mem_cons_of_mem _ mem, firsts_mono subset alone⟩

end AsyncPractice.FirstSeen
