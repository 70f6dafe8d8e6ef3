import Mathlib.Data.List.Basic

/- A list of processes of which one moves at a time, and may start new ones. The module knows
nothing about any particular system. -/
namespace AsyncPractice.Pool

open List

variable {α : Type} {pool started : List α} {i : Nat} {old new other : α}

theorem mem_moved (here : pool[i]? = some old) : new ∈ pool.set i new :=
  mem_set (List.getElem?_eq_some_iff.mp here).1 _

theorem mem_of_ne (here : pool[i]? = some old) (mem : other ∈ pool) (ne : other ≠ old) :
    other ∈ pool.set i new := by
  obtain ⟨j, hit⟩ := mem_iff_getElem?.mp mem
  have different : i ≠ j := by
    rintro rfl
    rw [here, Option.some.injEq] at hit
    exact ne hit.symm
  apply mem_of_getElem? (i := j)
  rw [getElem?_set_ne different]
  exact hit

theorem mem_cases (mem : other ∈ pool.set i new ++ started) :
    other ∈ pool ∨ other = new ∨ other ∈ started := by
  rcases mem_append.mp mem with kept | begun
  · exact (mem_or_eq_of_mem_set kept).imp_right Or.inl
  · exact .inr (.inr begun)

variable (here : pool[i]? = some old) {β : Type}

include here

/-- What a move does not change about the one that moves, it does not change about the pool. -/
theorem map_moved {f : α → β} (eq : f new = f old) : (pool.set i new).map f = pool.map f := by
  obtain ⟨lt, hit⟩ := List.getElem?_eq_some_iff.mp here
  rw [map_set, eq, ← hit, ← getElem_map f (h := by rwa [length_map])]
  exact set_getElem_self _

/-- What some process answers for, one still does after the move, unless the one that moved did
and nobody took over. -/
theorem exists_moved {answers : α → Prop} (pre : ∃ p ∈ pool, answers p)
    (replaced : answers old → answers new ∨ ∃ p ∈ started, answers p) :
    ∃ p ∈ pool.set i new ++ started, answers p := by
  obtain ⟨p, mem, held⟩ := pre
  by_cases moved : answers old
  · rcases replaced moved with still | ⟨taken, begun, held⟩
    · exact ⟨new, mem_append_left _ (mem_moved here), still⟩
    · exact ⟨taken, mem_append_right _ begun, held⟩
  · refine ⟨p, mem_append_left _ (mem_of_ne here mem ?_), held⟩
    rintro rfl
    exact moved held

/-- What the processes carry: the one that moves lays down the old and takes up the new. -/
theorem flatMap_moved (new) {f g : α → List β}
    (others : ∀ j p, j ≠ i → pool[j]? = some p → g p = f p) :
    (g new ++ pool.flatMap f).Perm (f old ++ (pool.set i new).flatMap g) := by
  induction pool generalizing i with
  | nil => cases here
  | cons x rest ih =>
    cases i with
    | zero =>
      cases here
      have eq : rest.flatMap g = rest.flatMap f := by
        apply flatMap_congr
        intro p mem
        obtain ⟨j, hit⟩ := mem_iff_getElem?.mp mem
        exact others (j + 1) p (Nat.succ_ne_zero j) hit
      rw [flatMap_cons, set_cons_zero, flatMap_cons, eq]
      exact perm_append_comm_assoc _ _ _
    | succ i =>
      have moved := ih here fun j p ne hit =>
        others (j + 1) p (fun eq => ne (Nat.succ.inj eq)) hit
      rw [flatMap_cons, set_cons_succ, flatMap_cons, others 0 x (Nat.succ_ne_zero i).symm rfl]
      refine (perm_append_comm_assoc _ _ _).trans ((moved.append_left _).trans ?_)
      exact perm_append_comm_assoc _ _ _

theorem filterMap_moved (new) (carries : α → Option β) :
    ((carries new).toList ++ pool.filterMap carries).Perm
      ((carries old).toList ++ (pool.set i new).filterMap carries) := by
  rw [filterMap_eq_flatMap_toList, filterMap_eq_flatMap_toList]
  exact flatMap_moved here new (f := fun p => (carries p).toList) fun _ _ _ _ => rfl

theorem countP_moved (new started) (test : α → Bool) :
    (pool.set i new ++ started).countP test + (if test old then 1 else 0) =
      pool.countP test + (if test new then 1 else 0) + started.countP test := by
  obtain ⟨lt, hit⟩ := List.getElem?_eq_some_iff.mp here
  have cnt := countP_set (p := test) (a := new) lt
  rw [hit] at cnt
  have one : (if test old then 1 else 0) ≤ pool.countP test := by
    split
    next ok =>
      exact countP_pos_iff.mpr ⟨old, mem_of_getElem? here, ok⟩
    · exact Nat.zero_le _
  rw [countP_append, cnt]
  omega

end AsyncPractice.Pool
