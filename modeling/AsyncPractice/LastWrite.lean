import AsyncPractice.GoMap

/- What the events of a history have last written to a place that each of them overwrites or leaves
alone. -/
namespace AsyncPractice.LastWrite

open List

variable {σ ε W : Type} (writes : ε → Option W)

def last (history : List ε) : Option W := (history.filterMap writes).getLast?

@[simp] theorem last_nil : last writes [] = none := rfl

theorem last_snoc (history e) :
    last writes (history ++ [e]) = (writes e).or (last writes history) := by
  unfold last
  cases written : writes e with
  | none => simp [written]
  | some v => simp [written]

variable {hist : List ε} {apply : σ → ε → σ}

theorem last_isSome_of_perm {other} (eq : hist.Perm other) :
    (last writes hist).isSome = (last writes other).isSome := by
  have shorter := (eq.filterMap writes).length_eq
  unfold last
  rw [Bool.eq_iff_iff, getLast?_isSome, getLast?_isSome, ← length_pos_iff,
    ← length_pos_iff, shorter]

/-- A place that every event overwrites or leaves alone holds what was written last. -/
theorem foldl_last (p : σ → W)
    (overwrites : ∀ state e, p (apply state e) = (writes e).getD (p state))
    (start hist) :
    p (hist.foldl apply start) = (last writes hist).getD (p start) := by
  induction hist using reverseRecOn with
  | nil => rfl
  | append_singleton hist e ih =>
    rw [foldl_concat, overwrites, ih, last_snoc]
    cases writes e <;> rfl

theorem foldl_last_or (p : σ → Option W)
    (overwrites : ∀ state e, p (apply state e) = (writes e).or (p state)) (start hist) :
    p (hist.foldl apply start) = (last writes hist).or (p start) := by
  induction hist using reverseRecOn with
  | nil => rfl
  | append_singleton hist e ih =>
    rw [foldl_concat, overwrites, ih, last_snoc, Option.or_assoc]

variable {writes} in
theorem exists_of_last {v} (hit : last writes hist = some v) :
    ∃ event ∈ hist, writes event = some v :=
  mem_filterMap.mp (mem_of_getLast? hit)

section

variable {K : Type} [DecidableEq K]

/-- The writes to one key of a map. -/
def under (key : K) (write : K × W) : Option W := if write.1 = key then some write.2 else none

theorem last_under_snoc (k) (hist : List (K × W)) (written) (v : W) :
    last (under k) (hist ++ [(written, v)]) =
      if written = k then some v else last (under k) hist := by
  rw [last_snoc, under]
  split <;> rfl

/-- A map with a record of the writes to it, each with whether it was right. What the last write to
a key has decided still holds, unless the key is open. -/
structure Decides {V : Type} (entries : GoMap K V) (record : List (K × Bool)) (isOpen : K → Prop)
    (right : K → V → Prop) [∀ key value, Decidable (right key value)] : Prop where
  absent : ∀ key, entries.lookup key = none → last (under key) record = none
  present : ∀ key value, entries.lookup key = some value →
    isOpen key ∨ last (under key) record = some (decide (right key value))

section

variable {V : Type} {es : GoMap K V} {record : List (K × Bool)} {isOpen isOpen' : K → Prop}
  {right : K → V → Prop} [∀ key value, Decidable (right key value)]

theorem decides_empty : Decides (∅ : GoMap K V) [] isOpen right := by
  constructor <;> simp

variable (decides : Decides es record isOpen right)
include decides

/-- Nothing is written; what is right about an entry changes only if its key is then open. -/
theorem Decides.keep (right' : K → V → Prop) [∀ k v, Decidable (right' k v)]
    (eq : ∀ k v, es.lookup k = some v → isOpen' k ∨ (¬isOpen k ∧ (right' k v ↔ right k v))) :
    Decides es record isOpen' right' := by
  refine ⟨decides.absent, fun k v hit => ?_⟩
  rcases eq k v hit with opened | ⟨closed, equal⟩
  · exact .inl opened
  · rcases decides.present k v hit with opened | decided
    · exact absurd opened closed
    · right
      rw [decided, decide_eq_decide.mpr equal]

theorem Decides.write (right' : K → V → Prop) [∀ k v, Decidable (right' k v)] (k) (v : V)
    (others : ∀ x, x ≠ k → isOpen x → isOpen' x)
    (eq : ∀ x found, x ≠ k → (right' x found ↔ right x found)) :
    Decides (es.insert k v) (record ++ [(k, decide (right' k v))]) isOpen'
      right' := by
  refine ⟨?_, ?_⟩
  · intro x absent
    rw [GoMap.lookup_insert_ite] at absent
    split at absent
    · cases absent
    next ne =>
      rw [last_under_snoc, if_neg (Ne.symm ne)]
      exact decides.absent x absent
  · intro x found hit
    rw [last_under_snoc]
    rcases GoMap.lookup_insert_cases hit with ⟨rfl, rfl⟩ | ⟨ne, pre⟩
    · right
      rw [if_pos rfl]
    · rw [if_neg (Ne.symm ne), decide_eq_decide.mpr (eq x found ne)]
      exact (decides.present x found pre).imp_left (others x ne)

/-- With no key open, the entries are right, up to exempt ones, exactly if the last writes were. -/
theorem Decides.right_iff (inv : ∀ k, ¬isOpen k) (exempt : V → Prop) :
    (∀ k v, es.lookup k = some v → ¬exempt v → right k v) ↔
      ∀ k v, es.lookup k = some v → last (under k) record = some false → exempt v := by
  have decided : ∀ k v, es.lookup k = some v →
      last (under k) record = some (decide (right k v)) := by
    intro k v hit
    exact (decides.present k v hit).resolve_left (inv k)
  constructor
  · intro correct k v hit stale
    rw [decided k v hit, Option.some.injEq, decide_eq_false_iff_not] at stale
    by_contra subject
    exact stale (correct k v hit subject)
  · intro excused k v hit subject
    by_contra wrong
    refine subject (excused k v hit ?_)
    rw [decided k v hit, decide_eq_false wrong]

end

end

end AsyncPractice.LastWrite
