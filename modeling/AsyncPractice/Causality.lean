import Mathlib.Logic.Relation
import AsyncPractice.Runs

/- Causal order of messages in a history of sends and deliveries. The order is read off
the history alone; clocks and timestamps do not occur in it. -/
namespace AsyncPractice.Causality

open List

variable {P M : Type}

inductive Event (P M : Type)
  | send (process : P) (message : M)
  | deliver (process : P) (message : M)

/-- The process has sent the message itself or has had it delivered. -/
def Knows (process : P) (history : List (Event P M)) (message : M) : Prop :=
  .send process message ∈ history ∨ .deliver process message ∈ history

/-- The sender of `second` knew `first` when it sent `second`. -/
def Direct (history : List (Event P M)) (first second : M) : Prop :=
  ∃ before process after, history = before ++ .send process second :: after ∧
    Knows process before first

def HappensBefore (history : List (Event P M)) : M → M → Prop :=
  Relation.TransGen (Direct history)

/-- Every occurrence of `second` in the list has `first` somewhere before it. -/
def Precedes (list : List M) (first second : M) : Prop :=
  ∀ before after, list = before ++ second :: after → first ∈ before

theorem knows_snoc_send {p sender : P} {hist : List (Event P M)} {msg sent : M} :
    Knows p (hist ++ [.send sender sent]) msg ↔ Knows p hist msg ∨ p = sender ∧ msg = sent := by
  simp only [Knows, mem_append, mem_singleton, Event.send.injEq, reduceCtorEq, or_false]
  tauto

theorem knows_snoc_deliver {p receiver : P} {hist : List (Event P M)} {msg delivered : M} :
    Knows p (hist ++ [.deliver receiver delivered]) msg ↔
      Knows p hist msg ∨ p = receiver ∧ msg = delivered := by
  simp only [Knows, mem_append, mem_singleton, Event.deliver.injEq, reduceCtorEq, or_false]
  tauto

/-- A further event adds causal edges only if it is a send, and then only into the message
sent. -/
theorem direct_snoc {hist : List (Event P M)} {e : Event P M} {x y : M}
    (direct : Direct (hist ++ [e]) x y) :
    Direct hist x y ∨ ∃ p, e = .send p y ∧ Knows p hist x := by
  obtain ⟨pre, p, after, split, known⟩ := direct
  obtain ⟨rfl, rfl, -⟩ | ⟨rest, shorter, -⟩ := Runs.snoc_cases split
  · exact .inr ⟨p, rfl, known⟩
  · exact .inl ⟨pre, p, rest, shorter, known⟩

/-- A transitive relation that holds along every causal edge holds along happens-before. -/
theorem happensBefore_of_direct {hist : List (Event P M)} {r : M → M → Prop}
    (e : ∀ x y, Direct hist x y → r x y) (trans : ∀ x y third, r x y → r y third → r x third)
    {x y : M} (causal : HappensBefore hist x y) : r x y := by
  induction causal with
  | single direct => exact e _ _ direct
  | tail _ direct ih => exact trans _ _ _ ih (e _ _ direct)

theorem Precedes.snoc {list : List M} {x y last : M} (ord : Precedes list x y)
    (late : last = y → x ∈ list) : Precedes (list ++ [last]) x y := by
  intro pre after split
  obtain ⟨rfl, rfl, -⟩ | ⟨rest, shorter, -⟩ := Runs.snoc_cases split
  · exact late rfl
  · exact ord pre rest shorter

theorem precedes_of_pairwise {list : List M} {r : M → M → Prop} (sorted : list.Pairwise r)
    (asymm : ∀ a b, r a b → ¬ r b a) {x y : M} (mem : x ∈ list) (related : r x y) :
    Precedes list x y := by
  intro pre after split
  rw [split, pairwise_append] at sorted
  rw [split, mem_append, mem_cons] at mem
  rcases mem with inside | same | inside
  · exact inside
  · subst same
    exact absurd related (asymm _ _ related)
  · have opposite := (pairwise_cons.mp sorted.2.1).1 x inside
    exact absurd opposite (asymm _ _ related)

end AsyncPractice.Causality
