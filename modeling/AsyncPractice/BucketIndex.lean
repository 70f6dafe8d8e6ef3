import AsyncPractice.GoMap

/- An index from keys to the positions of the items that have them, kept in a Go map of slices.
Looking items up through it is the same as filtering the list of all items. -/
namespace AsyncPractice.BucketIndex

open List

variable {α κ : Type} [DecidableEq κ]

def add (buckets : GoMap κ (List Nat)) (k : κ) (idx : Nat) : GoMap κ (List Nat) :=
  buckets.insert k ((buckets.lookup k).getD [] ++ [idx])

def build (key : α → κ) (items : List α) : GoMap κ (List Nat) :=
  items.zipIdx.foldl (fun buckets item => add buckets (key item.1) item.2) ∅

/-- Every bucket lists the positions of its items in ascending order. -/
def Indexes (key : α → κ) (items : List α) (buckets : GoMap κ (List Nat)) : Prop :=
  ∀ k, (buckets.lookup k).getD [] =
    (items.zipIdx.filter fun item => decide (key item.1 = k)).map (·.2)

variable {key : α → κ} {items : List α} {buckets : GoMap κ (List Nat)}

theorem indexes_nil : Indexes key ([] : List α) ∅ := by
  intro k
  rfl

theorem Indexes.snoc (indexes : Indexes key items buckets) (item) :
    Indexes key (items ++ [item]) (add buckets (key item) items.length) := by
  intro k
  rw [add, GoMap.lookup_insert_ite, zipIdx_append, filter_append, map_append, ← indexes k]
  by_cases here : k = key item
  · subst here
    simp
  · have other : key item ≠ k := Ne.symm here
    simp [here, other]

theorem build_indexes (key : α → κ) (items) : Indexes key items (build key items) := by
  induction items using List.reverseRecOn with
  | nil => exact indexes_nil
  | append_singleton items item ih =>
    have last : build key (items ++ [item]) = add (build key items) (key item) items.length := by
      simp [build, zipIdx_append, foldl_append]
    rw [last]
    exact ih.snoc item

theorem Indexes.fetch (indexes : Indexes key items buckets) (wanted : α → Bool) (k) :
    ((buckets.lookup k).getD []).filterMap (fun idx => items[idx]?.filter wanted) =
      (items.filter wanted).filter fun item => decide (key item = k) := by
  have read : ∀ p ∈ items.zipIdx.filter fun item => decide (key item.1 = k),
      items[p.2]?.filter wanted = Option.guard wanted p.1 := by
    intro p mem
    rw [mk_mem_zipIdx_iff_getElem?.mp (mem_of_mem_filter mem)]
    rfl
  have front : (items.zipIdx.filter fun item => decide (key item.1 = k)).map (·.1) =
      items.filter fun item => decide (key item = k) := by
    conv_rhs => rw [← zipIdx_map_fst 0 items, filter_map]
    rfl
  rw [indexes k, filterMap_map]
  calc _ = (items.zipIdx.filter fun item => decide (key item.1 = k)).filterMap
          (Option.guard wanted ∘ (·.1)) := filterMap_congr read
    _ = (items.filter fun item => decide (key item = k)).filter wanted := by
        rw [← filterMap_map, front, filterMap_eq_filter]
    _ = _ := filter_comm _ _ _

/-- Going through different keys that cover the items meets every item once. -/
theorem flatMap_filter_perm {keys : List κ} (nodup : keys.Nodup)
    (covered : ∀ item ∈ items, key item ∈ keys) :
    (keys.flatMap fun k => items.filter fun item => decide (key item = k)).Perm items := by
  induction keys generalizing items with
  | nil =>
    cases items with
    | nil => exact List.Perm.nil
    | cons item items => exact absurd (covered item mem_cons_self) (by simp)
  | cons k keys ih =>
    obtain ⟨fresh, nodup⟩ := nodup_cons.mp nodup
    have others : (keys.flatMap fun k' => items.filter fun item => decide (key item = k')) =
        keys.flatMap fun k' => (items.filter fun item => !decide (key item = k)).filter
          fun item => decide (key item = k') := by
      apply flatMap_congr
      intro k' mem
      rw [filter_filter]
      apply filter_congr
      intro item _
      by_cases here : key item = k'
      · have ne : k' ≠ k := fun eq => fresh (eq ▸ mem)
        simp [here, ne]
      · simp [here]
    rw [flatMap_cons, others]
    refine (List.Perm.append_left _ (ih nodup ?_)).trans (filter_append_perm _ items)
    intro item mem
    obtain ⟨lt, different⟩ := mem_filter.mp mem
    rcases mem_cons.mp (covered item lt) with eq | rest
    · simp [eq] at different
    · exact rest

end AsyncPractice.BucketIndex
