import AsyncPractice.Runs

/- A place whose every write is stamped with a new reading of a growing counter: the stamp tells
whether the place was written since. The module knows nothing about any particular system. -/
namespace AsyncPractice.Stamps

open Runs

variable {σ ε W : Type}

/-- What a step may do to the place: leave it, empty it, or write a value stamped above the counter
as it was. -/
structure Writes (count : σ → Nat) (stamp : W → Nat) (place : σ → Option W) (state next : σ) :
    Prop where
  grows : count state ≤ count next
  place : place next = place state ∨ place next = none ∨
    ∃ value, place next = some value ∧ count state < stamp value

variable {step : σ → ε → Option σ} {count : σ → Nat} {stamp : W → Nat} {p : σ → Option W}
  {start t : σ} {es : List ε} {v : W}

/-- The place has held the value all along, or what it holds is stamped later. -/
theorem unchanged_or_later (run : exec step start es = some t)
    (ws : Along step (fun s e => ∀ next, step s e = some next →
      Writes count stamp p s next) start es) (held : p start = some v) :
    count start ≤ count t ∧ (Throughout step (fun s => p s = some v) start es ∨
        ∀ found, p t = some found → count start < stamp found) := by
  induction es using List.reverseRecOn generalizing t with
  | nil =>
    rw [exec_nil, Option.some.injEq] at run
    exact ⟨Nat.le_of_eq (congrArg count run), .inl (Throughout.nil held)⟩
  | append_singleton es e ih =>
    obtain ⟨last, pre, took⟩ := exec_snoc_some.mp run
    obtain ⟨grown, earlier⟩ := ih pre ws.initial
    have wrote := ws.last pre t took
    refine ⟨Nat.le_trans grown wrote.grows, ?_⟩
    rcases wrote.place with same | emptied | ⟨new, stored, later⟩
    · rcases earlier with unchanged | later
      · refine .inl (unchanged.snoc run ?_)
        rw [same]
        exact unchanged.last pre
      · exact .inr fun found hit => later found (same ▸ hit)
    · refine .inr fun found hit => ?_
      rw [emptied] at hit
      cases hit
    · refine .inr fun found hit => ?_
      rw [stored, Option.some.injEq] at hit
      exact hit ▸ Nat.lt_of_le_of_lt grown later

/-- A place with the same stamp as before was not written, nor emptied, in between. -/
theorem unchanged_of_stamp (run : exec step start es = some t)
    (ws : Along step (fun s e => ∀ next, step s e = some next →
      Writes count stamp p s next) start es) (held : p start = some v)
    (old : stamp v ≤ count start) {found} (hit : p t = some found)
    (eq : stamp found = stamp v) : Throughout step (fun s => p s = some v) start es := by
  rcases (unchanged_or_later run ws held).2 with unchanged | later
  · exact unchanged
  · have newer := later found hit
    omega

end AsyncPractice.Stamps
