import Mathlib.Data.Set.Card

/- Walks in a directed graph by their length, and the places at a given distance. -/
namespace AsyncPractice.Walks

variable {α : Type} {r : α → α → Prop} {a b c : α} {n k : Nat}

/-- A walk of `n` steps from `a`. -/
inductive Walk (r : α → α → Prop) (a : α) : Nat → α → Prop
  | stay : Walk r a 0 a
  | go {n : Nat} {b c : α} (walk : Walk r a n b) (next : r b c) : Walk r a (n + 1) c

theorem walk_zero_iff : Walk r a 0 b ↔ b = a := by
  constructor
  · intro walk
    cases walk
    rfl
  · rintro rfl
    exact .stay

theorem walk_succ_iff : Walk r a (n + 1) c ↔ ∃ b, Walk r a n b ∧ r b c := by
  constructor
  · intro walk
    cases walk with
    | go walk t => exact ⟨_, walk, t⟩
  · rintro ⟨b, walk, t⟩
    exact .go walk t

/-- The length of a shortest walk. -/
structure Distance (r : α → α → Prop) (a b : α) (n : Nat) : Prop where
  walk : Walk r a n b
  shortest : ∀ k, Walk r a k b → n ≤ k

theorem Distance.unique (x : Distance r a b n) (y : Distance r a b k) : n = k :=
  Nat.le_antisymm (x.shortest k y.walk) (y.shortest n x.walk)

theorem distance_zero_iff : Distance r a b 0 ↔ b = a := by
  constructor
  · intro distance
    exact walk_zero_iff.mp distance.walk
  · intro eq
    exact ⟨walk_zero_iff.mpr eq, fun k _ => Nat.zero_le k⟩

theorem Distance.previous (distance : Distance r a c (n + 1)) : ∃ b, Distance r a b n ∧ r b c := by
  obtain ⟨b, walk, t⟩ := walk_succ_iff.mp distance.walk
  refine ⟨b, ⟨walk, fun k shorter => ?_⟩, t⟩
  have least := distance.shortest (k + 1) (.go shorter t)
  omega

def level (r : α → α → Prop) (a : α) (n : Nat) : Set α := {b | Distance r a b n}

/-- Beyond an empty level there is nothing. -/
theorem level_eq_empty (empty : level r a n = ∅) (later : n ≤ k) : level r a k = ∅ := by
  induction k, later using Nat.le_induction with
  | base => exact empty
  | succ k later ih =>
    rw [Set.eq_empty_iff_forall_notMem] at ih ⊢
    intro c distance
    obtain ⟨b, pre, -⟩ := Distance.previous distance
    exact ih b pre

variable {places : Set α} {l : List α}

theorem length_le_encard (nodup : l.Nodup) (lt : ∀ b ∈ l, b ∈ places) :
    (l.length : ENat) ≤ places.encard := by
  classical
  rw [← List.toFinset_card_of_nodup nodup, ← Set.encard_coe_eq_coe_finsetCard]
  apply Set.encard_le_encard
  intro b mem
  exact lt b (by simpa using mem)

theorem encard_le_length (covers : ∀ b ∈ places, b ∈ l) : places.encard ≤ l.length := by
  classical
  calc places.encard
      ≤ ((l.toFinset : Finset α) : Set α).encard :=
        Set.encard_le_encard fun b mem => by simpa using covers b mem
    _ = l.toFinset.card := Set.encard_coe_eq_coe_finsetCard _
    _ ≤ l.length := by exact_mod_cast l.toFinset_card_le

end AsyncPractice.Walks
