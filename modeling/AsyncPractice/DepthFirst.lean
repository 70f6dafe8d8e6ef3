import Mathlib.Data.Finset.Card
import Mathlib.Data.List.Chain

/- Recursive searches that report whether they have found something and change a state on the way:
the recursion from its body, and the loop over the places to go on from. -/
namespace AsyncPractice.DepthFirst

variable {α β σ : Type}

/-- The body of a recursive function called again and again, down to a depth at which it has no
result. -/
def unroll (body : (α → σ → Option (Bool × σ)) → α → σ → Option (Bool × σ)) :
    Nat → α → σ → Option (Bool × σ)
  | 0 => fun _ _ => none
  | depth + 1 => body (unroll body depth)

/-- The second function has every result of the first. -/
def Extends (first second : α → σ → Option (Bool × σ)) : Prop :=
  ∀ a s result, first a s = some result → second a s = some result

/-- A body that only uses what its recursive calls return. -/
def Monotone (body : (α → σ → Option (Bool × σ)) → α → σ → Option (Bool × σ)) : Prop :=
  ∀ first second, Extends first second → Extends (body first) (body second)

/-- A result does not depend on how deep the recursion may go. -/
theorem unroll_extends {body : (α → σ → Option (Bool × σ)) → α → σ → Option (Bool × σ)}
    (monotone : Monotone body) {depth deeper : Nat} (le : depth ≤ deeper) :
    Extends (unroll body depth) (unroll body deeper) := by
  induction depth generalizing deeper with
  | zero =>
    intro a s res ret
    cases ret
  | succ depth ih =>
    obtain ⟨rest, rfl⟩ := Nat.exists_eq_add_of_le' (Nat.lt_of_lt_of_le (Nat.succ_pos depth) le)
    exact monotone _ _ (ih (by omega))

/-- A loop that stops at the first element that reports success. -/
def findFrom (f : α → σ → Option (Bool × σ)) : List α → σ → Option (Bool × σ)
  | [], s => some (false, s)
  | a :: rest, s => (f a s).bind fun (found, s) =>
    if found then some (true, s) else findFrom f rest s

variable {s : σ}

theorem findFrom_extends {first second} (extends_ : Extends first second) (l : List α) {result}
    (ret : findFrom first l s = some result) : findFrom second l s = some result := by
  induction l generalizing s with
  | nil => exact ret
  | cons a rest ih =>
    obtain ⟨⟨hit, after⟩, called, continued⟩ := Option.bind_eq_some_iff.mp ret
    rw [findFrom, extends_ a s _ called, Option.bind_some]
    cases hit with
    | true => exact continued
    | false => exact ih continued

/-- The call returns, with what the predicates say of a success and of a failure. -/
def Returns (success failure : σ → Prop) (called : Option (Bool × σ)) : Prop :=
  ∃ found t, called = some (found, t) ∧
    match found with
    | true => success t
    | false => failure t

variable {success : σ → Prop}

theorem Returns.mono {success' failure failure' called} (returns : Returns success failure called)
    (succeeded : ∀ t, success t → success' t) (failed : ∀ t, failure t → failure' t) :
    Returns success' failure' called := by
  obtain ⟨hit, t, eq, out⟩ := returns
  refine ⟨hit, t, eq, ?_⟩
  cases hit with
  | true => exact succeeded t out
  | false => exact failed t out

/-- The rule for the loop. A failed turn keeps the invariant, leaves the state further on and its
element dealt with; what is dealt with stays so. -/
theorem findFrom_returns {f l} (inv : σ → Prop) (grows : σ → σ → Prop) (dealt : α → σ → Prop)
    (refl : ∀ s, grows s s) (trans : ∀ s t u, grows s t → grows t u → grows s u)
    (stays : ∀ a s t, dealt a s → grows s t → dealt a t)
    (turn : ∀ a ∈ l, ∀ s, inv s → Returns success (fun t => inv t ∧ grows s t ∧ dealt a t) (f a s))
    (start : inv s) :
    Returns success (fun t => inv t ∧ grows s t ∧ ∀ a ∈ l, dealt a t) (findFrom f l s) := by
  induction l generalizing s with
  | nil => exact ⟨false, s, rfl, start, refl s, by simp⟩
  | cons a rest ih =>
    obtain ⟨hit, t, called, out⟩ := turn a List.mem_cons_self s start
    rw [findFrom, called, Option.bind_some]
    cases hit with
    | true => exact ⟨true, t, rfl, out⟩
    | false =>
      obtain ⟨kept, further, done⟩ := out
      have looped := ih (fun b mem => turn b (List.mem_cons_of_mem _ mem)) kept
      refine looped.mono (fun _ hit => hit) fun u ⟨holds, onwards, others⟩ => ?_
      exact ⟨holds, trans s t u further onwards,
        List.forall_mem_cons.mpr ⟨stays a t u done onwards, others⟩⟩

/-- How many of the places there are have not been visited. -/
def unvisited (places : Finset α) (visited : α → Prop) [DecidablePred visited] : Nat :=
  (places.filter fun a => ¬ visited a).card

variable {places : Finset α} {after pre : α → Prop}

theorem unvisited_le [DecidablePred pre] [DecidablePred after] (grows : ∀ a, pre a → after a) :
    unvisited places after ≤ unvisited places pre := by
  apply Finset.card_le_card
  intro a mem
  obtain ⟨p, unseen⟩ := Finset.mem_filter.mp mem
  exact Finset.mem_filter.mpr ⟨p, fun seen => unseen (grows a seen)⟩

theorem unvisited_lt [DecidablePred pre] [DecidablePred after] (grows : ∀ a, pre a → after a) {a}
    (p : a ∈ places) (new : ¬ pre a) (now : after a) :
    unvisited places after < unvisited places pre := by
  apply Finset.card_lt_card
  refine ⟨?_, ?_⟩
  · intro b mem
    obtain ⟨there, unseen⟩ := Finset.mem_filter.mp mem
    exact Finset.mem_filter.mpr ⟨there, fun seen => unseen (grows b seen)⟩
  · intro subset
    have still := subset (Finset.mem_filter.mpr ⟨p, new⟩)
    exact (Finset.mem_filter.mp still).2 now

theorem unvisited_le_card (places) (visited : α → Prop) [DecidablePred visited] :
    unvisited places visited ≤ places.card :=
  Finset.card_le_card (Finset.filter_subset _ _)

section

open Relation (ReflTransGen TransGen)

variable {r : α → α → Prop} {a b : α}

/-- No infinite path begins at the place. -/
def Ends (r : α → α → Prop) (a : α) : Prop := Acc (Function.swap r) a

theorem Ends.reach (ends : Ends r a) (path : ReflTransGen r a b) : Ends r b := by
  induction path with
  | refl => exact ends
  | tail _ t ih => exact ih.inv t

theorem Ends.not_cycle (ends : Ends r a) : ¬ TransGen r a a := by
  induction ends with
  | intro a _ ih =>
    intro cycle
    obtain ⟨b, x, rest⟩ := TransGen.head'_iff.mp cycle
    exact ih b x (TransGen.tail' rest x)

theorem reach_of_isChain {l : List α} (chain : l.IsChain r) (x : l.head? = some a) (mem : b ∈ l) :
    ReflTransGen r a b := by
  refine chain.induction (ReflTransGen r a) l (fun _ _ t path => path.tail t) ?_ b mem
  intro ne
  rw [List.head?_eq_some_head ne, Option.some.injEq] at x
  rw [x]

end

end AsyncPractice.DepthFirst
