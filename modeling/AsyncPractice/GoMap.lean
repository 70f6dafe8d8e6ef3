import Mathlib.Algebra.BigOperators.Group.Finset.Basic
import Mathlib.Data.Finmap

/- Finite maps with the operations of a Go map: lookup, assignment, delete, len, and loops
over the keys in an order the program does not control. -/
namespace AsyncPractice

open Option Finmap

abbrev GoMap (K V : Type) := Finmap (fun _ : K => V)

namespace GoMap

variable {K V : Type} [DecidableEq K]

def len (m : GoMap K V) : Nat := m.keys.card

/-- The list names every key of the map once: an order a range loop may take. -/
def Ranges (order : List K) (m : GoMap K V) : Prop :=
  order.Nodup ∧ order.toFinset = m.keys

instance (order : List K) (m : GoMap K V) : Decidable (Ranges order m) :=
  inferInstanceAs (Decidable (_ ∧ _))

variable {order : List K} {m : GoMap K V} {k : K}

theorem Ranges.mem_iff (ranges : Ranges order m) : k ∈ order ↔ k ∈ m := by
  rw [← List.mem_toFinset, ranges.2, mem_keys]

theorem exists_ranges (m : GoMap K V) : ∃ order, Ranges order m :=
  ⟨m.keys.toList, m.keys.nodup_toList, m.keys.toList_toFinset⟩

theorem lookup_insert_ite (m : GoMap K V) (k j) (v : V) :
    (m.insert k v).lookup j = if j = k then some v else m.lookup j := by
  by_cases same : j = k
  · subst same
    rw [lookup_insert, if_pos rfl]
  · rw [lookup_insert_of_ne _ same, if_neg same]

theorem lookup_erase_ite (m : GoMap K V) (k j) :
    (m.erase k).lookup j = if j = k then none else m.lookup j := by
  by_cases same : j = k
  · subst same
    rw [lookup_erase, if_pos rfl]
  · rw [lookup_erase_ne same, if_neg same]

variable {j : K} {v w : V}

theorem lookup_insert_cases (hit : (m.insert k v).lookup j = some w) :
    (j = k ∧ w = v) ∨ (j ≠ k ∧ m.lookup j = some w) := by
  rw [lookup_insert_ite] at hit
  split at hit
  next eq =>
    exact .inl ⟨eq, (some.inj hit).symm⟩
  next ne =>
    exact .inr ⟨ne, hit⟩

theorem lookup_erase_cases (hit : (m.erase k).lookup j = some w) : j ≠ k ∧ m.lookup j = some w := by
  rw [lookup_erase_ite] at hit
  split at hit
  · cases hit
  next ne =>
    exact ⟨ne, hit⟩

variable {found : V}

/-- What an assignment to a present key leaves of another entry, or of the same one. -/
theorem lookup_insert_present {old} (stored : m.lookup k = some old) (hit : m.lookup j = some found)
    (v : V) :
    ∃ after, (m.insert k v).lookup j = some after ∧
      (after = found ∨ (found = old ∧ after = v)) := by
  rw [lookup_insert_ite]
  split
  next eq =>
    rw [eq, stored] at hit
    exact ⟨v, rfl, .inr ⟨(some.inj hit).symm, rfl⟩⟩
  · exact ⟨found, hit, .inl rfl⟩

theorem lookup_insert_new (new : k ∉ m) (hit : m.lookup j = some found) (v) :
    (m.insert k v).lookup j = some found := by
  rw [lookup_insert_of_ne]
  · exact hit
  · exact ne_of_mem_of_not_mem (mem_of_lookup_eq_some hit) new

theorem len_erase (hit : m.lookup k = some v) : len (m.erase k) + 1 = len m := by
  unfold len
  rw [keys_erase]
  exact Finset.card_erase_add_one (mem_keys.mpr (mem_of_lookup_eq_some hit))

theorem keys_insert (m : GoMap K V) (k) (v : V) : (m.insert k v).keys = insert k m.keys := by
  ext j
  rw [Finset.mem_insert, mem_keys, mem_keys, mem_insert]

theorem len_insert_new (new : k ∉ m) : len (m.insert k v) = len m + 1 := by
  unfold len
  rw [keys_insert, Finset.card_insert_of_notMem fun mem => new (mem_keys.mp mem)]

theorem len_insert_old (old : k ∈ m) : len (m.insert k v) = len m := by
  unfold len
  rw [keys_insert, Finset.insert_eq_of_mem (mem_keys.mpr old)]

theorem lookup_of_len_zero (empty : len m = 0) (k) : m.lookup k = none := by
  rw [lookup_eq_none, ← mem_keys, Finset.card_eq_zero.mp empty]
  exact Finset.notMem_empty k

/-- A loop that deletes some of the keys it visits. -/
theorem lookup_foldl_erase_ite (order : List K) (drop : K → Prop) [DecidablePred drop]
    (m : GoMap K V) (k) :
    (order.foldl (fun m j => if drop j then m.erase j else m) m).lookup k =
      if k ∈ order ∧ drop k then none else m.lookup k := by
  induction order generalizing m with
  | nil => simp
  | cons j order ih =>
    rw [List.foldl_cons, ih]
    by_cases deleted : drop j
    · rw [if_pos deleted, lookup_erase_ite]
      by_cases same : k = j
      · subst same
        simp [deleted]
      · simp [same]
    · rw [if_neg deleted]
      by_cases same : k = j
      · subst same
        simp [deleted]
      · simp [same]

/-- Such a loop only ever takes entries away. -/
theorem lookup_foldl_erase (order : List K) (drop : K → Prop) [DecidablePred drop] (m : GoMap K V)
    (hit : (order.foldl (fun m j => if drop j then m.erase j else m) m).lookup k = some v) :
    m.lookup k = some v := by
  rw [lookup_foldl_erase_ite] at hit
  split at hit
  · cases hit
  · exact hit

/-- Replaces the value of a key, when there is one. -/
def modify (f : V → V) (k : K) (m : GoMap K V) : GoMap K V :=
  match m.lookup k with
  | some v => m.insert k (f v)
  | none => m

theorem lookup_modify (f : V → V) (k j : K) (m) :
    (modify f k m).lookup j = if j = k then (m.lookup j).map f else m.lookup j := by
  unfold modify
  split
  next v hit =>
    rw [lookup_insert_ite]
    by_cases eq : j = k
    · rw [if_pos eq, if_pos eq, eq, hit]
      rfl
    · rw [if_neg eq, if_neg eq]
  next absent =>
    split
    next eq =>
      rw [eq, absent]
      rfl
    · rfl

/-- A loop that replaces the values of the keys it visits, each in its own way. -/
theorem lookup_foldl_modify (f : K → V → V) (nodup : order.Nodup) (m) (k : K) :
    (order.foldl (fun m j => modify (f j) j m) m).lookup k =
      if k ∈ order then (m.lookup k).map (f k) else m.lookup k := by
  induction order generalizing m with
  | nil => simp
  | cons j order ih =>
    obtain ⟨fresh, nodup⟩ := List.nodup_cons.mp nodup
    rw [List.foldl_cons, ih nodup, lookup_modify]
    by_cases same : k = j
    · subst same
      simp [fresh]
    · simp [same]

/-- A loop that assigns to the keys it visits, each time with what is there. -/
theorem lookup_foldl_insert (f : K → Option V → V) (nodup : order.Nodup) (m : GoMap K V) (k) :
    (order.foldl (fun m j => m.insert j (f j (m.lookup j))) m).lookup k =
      if k ∈ order then some (f k (m.lookup k)) else m.lookup k := by
  induction order generalizing m with
  | nil => simp
  | cons j order ih =>
    obtain ⟨fresh, nodup⟩ := List.nodup_cons.mp nodup
    rw [List.foldl_cons, ih nodup, lookup_insert_ite]
    by_cases same : k = j
    · subst same
      simp [fresh]
    · simp [same]

/-- A loop that replaces the value of every key it visits. -/
def rangeUpdate (f : V → V) (order : List K) (m : GoMap K V) : GoMap K V :=
  order.foldl (fun m k => modify f k m) m

theorem lookup_rangeUpdate (f : V → V) (nodup : order.Nodup) (m k) :
    (rangeUpdate f order m).lookup k = if k ∈ order then (m.lookup k).map f else m.lookup k :=
  lookup_foldl_modify (fun _ => f) nodup m k

theorem Ranges.lookup_rangeUpdate (ranges : Ranges order m) (f : V → V) (k) :
    (rangeUpdate f order m).lookup k = (m.lookup k).map f := by
  rw [GoMap.lookup_rangeUpdate f ranges.1]
  split
  · rfl
  next outside =>
    rw [lookup_eq_none.mpr fun mem => outside (ranges.mem_iff.mpr mem)]
    rfl

section

variable {M : Type} [AddCommMonoid M]

/-- The sum of something over all values. -/
def gather (f : V → M) (m : GoMap K V) : M := ∑ k ∈ m.keys, ((m.lookup k).map f).getD 0

theorem gather_eq (f : V → M) (m) (k : K) :
    gather f m = ((m.lookup k).map f).getD 0 +
      ∑ j ∈ m.keys.erase k, ((m.lookup j).map f).getD 0 := by
  by_cases present : k ∈ m.keys
  · exact (Finset.add_sum_erase m.keys _ present).symm
  · rw [Finset.erase_eq_of_notMem present, lookup_eq_none.mpr fun mem => present (mem_keys.mpr mem)]
    exact (zero_add _).symm

theorem gather_insert (f : V → M) (m : GoMap K V) (k) (v : V) :
    gather f (m.insert k v) + ((m.lookup k).map f).getD 0 = gather f m + f v := by
  have others : ∑ j ∈ m.keys.erase k, (((m.insert k v).lookup j).map f).getD 0 =
      ∑ j ∈ m.keys.erase k, ((m.lookup j).map f).getD 0 := by
    apply Finset.sum_congr rfl
    intro j mem
    rw [lookup_insert_of_ne _ (Finset.ne_of_mem_erase mem)]
  rw [gather_eq f (m.insert k v) k, gather_eq f m k, keys_insert,
    Finset.erase_insert_eq_erase, others, lookup_insert, Option.map_some, getD_some]
  ac_rfl

theorem gather_congr {W : Type} {f : V → M} {g : W → M} {n : GoMap K W}
    (eq : ∀ k, (m.lookup k).map f = (n.lookup k).map g) : gather f m = gather g n := by
  have keys : m.keys = n.keys := by
    ext k
    have both := congrArg Option.isSome (eq k)
    rw [isSome_map, isSome_map] at both
    rw [mem_keys, mem_keys, ← lookup_isSome, ← lookup_isSome, both]
  unfold gather
  rw [keys]
  exact Finset.sum_congr rfl fun k _ => by rw [eq k]

end

/-- A new map, filled by a loop over the keys that skips those without a value. -/
def ofKeys (order : List K) (value : K → Option V) : GoMap K V :=
  order.foldl (fun m k => match value k with
    | some v => m.insert k v
    | none => m) ∅

theorem lookup_ofKeys (order) (value : K → Option V) (k) :
    (ofKeys order value).lookup k = if k ∈ order then value k else none := by
  induction order using List.reverseRecOn with
  | nil => rfl
  | append_singleton order j ih =>
    rw [ofKeys, List.foldl_concat, ← ofKeys]
    by_cases same : k = j
    · subst same
      cases entry : value k with
      | none => simp [ih, entry]
      | some v => simp
    · cases entry : value j with
      | none => simp [ih, same]
      | some v => simp [ih, same]

theorem ofKeys_congr {value x : K → Option V} (eq : ∀ k ∈ order, value k = x k) :
    ofKeys order value = ofKeys order x := by
  apply ext_lookup
  intro k
  rw [lookup_ofKeys, lookup_ofKeys]
  split
  · exact eq k (by assumption)
  · rfl

/-- The sum of a number over all values, as a loop over the map adds it up. -/
def total (f : V → Nat) (m : GoMap K V) : Nat :=
  ∑ k ∈ m.keys, ((m.lookup k).map f).getD 0

theorem total_insert (f : V → Nat) (m) (k : K) (v) :
    total f (m.insert k v) + ((m.lookup k).map f).getD 0 = total f m + f v :=
  gather_insert f m k v

theorem total_erase (f : V → Nat) (hit : m.lookup k = some v) :
    total f (m.erase k) + f v = total f m := by
  have again : (m.erase k).insert k v = m := by
    apply ext_lookup
    intro j
    rw [lookup_insert_ite, lookup_erase_ite]
    split
    next eq =>
      rw [eq, hit]
    · rfl
  have cnt := total_insert f (m.erase k) k v
  rw [again, lookup_erase] at cnt
  exact cnt.symm

theorem le_total (f : V → Nat) (m) (k : K) : ((m.lookup k).map f).getD 0 ≤ total f m :=
  le_of_le_of_eq (Nat.le_add_right _ _) (gather_eq f m k).symm

end GoMap

end AsyncPractice
