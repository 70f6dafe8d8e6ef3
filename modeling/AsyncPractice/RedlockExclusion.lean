import AsyncPractice.Redlock

namespace AsyncPractice.Redlock

open Option List
open Runs (exec exec_invariant exists_exec)
open Quorum (majorities_meet)

variable {N : Nat} {Id : Type} {readAt validity : Int} {phase : Phase}

theorem init_owns (w) : Owns w (init N Id) (fun _ => ∅) :=
  ⟨fun _ => trivial, fun _ => rfl, fun _ _ mem => by simp at mem,
    fun _ _ _ _ _ mem => by simp at mem⟩

theorem acquired_counts {ns : Finset (Fin N)}
    (success : phase.acquired = some (readAt, validity)) (counts : phase.Counts ns) :
    quorum N ≤ ns.card := by
  cases phase <;> first | exact counts | cases success

variable {w : Workload Id} {s : State N Id}

theorem EndedBy.invalid {id t u} (ended : EndedBy w s id t) (later : t ≤ u)
    (success : (s.phase id).acquired = some (readAt, validity)) (pre : u < readAt + validity)
    (unreleased : ∀ startedAt, (s.phase id).releaseStart = some startedAt → u < startedAt) :
    False := by
  rcases ended with ⟨until', expiry, past⟩ | ⟨startedAt, release, past⟩
  · have margin : until' = readAt + validity + drift := by
      revert success expiry
      cases s.phase id <;> simp [Phase.acquired, Phase.expiry] <;> omega
    simp only [drift, millisecond] at margin
    omega
  · have := unreleased startedAt release
    omega

theorem acquired_readTime {now} (success : phase.acquired = some (readAt, validity)) :
    phase.readTime now = readAt := by
  revert success
  cases phase <;> simp [Phase.acquired, Phase.readTime] <;> omega

variable [DecidableEq Id] {owned : Id → Finset (Fin N)} (owns : Owns w s owned) (id : Id)
include owns id

theorem lockStep_owns (pause retry) (startTime : Int) (n : Fin N) (lockedNodes)
    (phase : s.phase id = .locking retry startTime n lockedNodes) :
    ∃ owned', Owns w (lockStep (w.call id) s id pause retry startTime n lockedNodes) owned' := by
  cases granted : (lockSingleNode (s.nodes n) (w.call id).resource (w.call id).value
      (w.call id).ttl s.now (s.now + pause)).2 with
  | true =>
    exact ⟨_, owns.grant (lockStep_granted id n pause retry startTime lockedNodes phase granted)⟩
  | false =>
    have cnt := owns.counts id
    have began := owns.timely id
    rw [phase] at cnt began
    have eq : (s.advance pause).setNode n (s.nodes n) = s.advance pause := by
      simp [State.setNode, State.advance]
    unfold lockStep
    dsimp only
    rw [lockSingleNode_refused granted, eq, granted]
    refine ⟨owned, (owns.advance pause).enter id _ ?_ ?_ ?_ ?_ ?_⟩
    · have later := timely_mono began (now_le_advance s pause)
      exact later
    · exact ⟨cnt.1, fun m mem => Nat.lt_succ_of_lt (cnt.2 m mem)⟩
    · simp [phase, Phase.expiry]
    · simp [phase, Phase.releaseStart]
    · simp [phase, Phase.readTime]

/-- A validity is the rest of the ttl after the drift, so the locks outlast it. -/
theorem decideStep_owns (retry startTime index lockedNodes)
    (phase : s.phase id = .locking retry startTime index lockedNodes) :
    ∃ owned', Owns w (decideStep (w.call id) s id retry startTime lockedNodes) owned' := by
  have cnt := owns.counts id
  rw [phase] at cnt
  unfold decideStep
  dsimp only
  split
  next enough =>
    refine ⟨owned, owns.enter id _ trivial ?_ ?_ ?_ ?_⟩
    · exact enough.1.trans_eq cnt.1.symm
    · simp only [phase, Phase.expiry]
      congr 1
      omega
    · simp [phase, Phase.releaseStart]
    · simp [phase, Phase.readTime]
  · exact ⟨_, owns.drop id _ trivial rfl⟩

variable {t : State N Id}

theorem acquireRedlock_owns (pause) (took : acquireRedlock (w.call id) s id pause = some t) :
    ∃ owned', Owns w t owned' := by
  have cnt := owns.counts id
  unfold acquireRedlock at took
  split at took
  · rw [some.injEq] at took
    subst t
    exact ⟨_, owns.drop id _ (le_refl _) ⟨rfl, by simp⟩⟩
  next retry startTime index lockedNodes phase =>
    split at took <;> rw [some.injEq] at took <;> subst t
    next lt =>
      exact lockStep_owns owns id pause retry startTime ⟨index, lt⟩ lockedNodes phase
    · exact decideStep_owns owns id retry startTime index lockedNodes phase
  next retry index phase =>
    rw [phase] at cnt
    split at took <;> rw [some.injEq] at took <;> subst t
    · exact ⟨_, (owns.unlock id _ (.inl cnt)).drop id _ trivial rfl⟩
    · exact ⟨_, owns.drop id _ trivial rfl⟩
  · split at took
    · split at took <;> rw [some.injEq] at took <;> subst t
      · exact ⟨_, owns.drop id _ (le_refl _) ⟨rfl, by simp⟩⟩
      · exact ⟨_, owns.drop id _ trivial rfl⟩
    · cases took
  · cases took

theorem releaseRedlock_owns (took : releaseRedlock (w.call id) s id = some t) :
    ∃ owned', Owns w t owned' := by
  have cnt := owns.counts id
  have began := owns.timely id
  unfold releaseRedlock at took
  split at took
  next readAt validity phase =>
    rw [some.injEq] at took
    subst t
    rw [phase] at cnt
    refine ⟨owned, owns.enter id _ (le_refl _) cnt ?_ ?_ ?_⟩ <;>
      simp [phase, Phase.expiry, Phase.releaseStart, Phase.readTime]
  next readAt validity startedAt index phase =>
    rw [phase] at cnt began
    split at took <;> rw [some.injEq] at took <;> subst t
    next lt =>
      have unlocked := owns.unlock id ⟨index, lt⟩ (.inr ⟨startedAt, by rw [phase]; rfl, began⟩)
      refine ⟨owned, unlocked.enter id _ began cnt ?_ ?_ ?_⟩ <;>
        simp [phase, Phase.expiry, Phase.releaseStart, Phase.readTime]
    · refine ⟨owned, owns.enter id _ began cnt ?_ ?_ ?_⟩ <;>
        simp [phase, Phase.expiry, Phase.releaseStart, Phase.readTime]
  · cases took

omit owns id

theorem step_owns (s) (e : Event Id) (t : State N Id) (owns : ∃ owned, Owns w s owned)
    (took : step w s e = some t) : ∃ owned, Owns w t owned := by
  obtain ⟨owned, owns⟩ := owns
  cases e with
  | tick elapsed =>
    simp only [step, some.injEq] at took
    exact ⟨owned, took ▸ owns.advance elapsed⟩
  | acquire id pause => exact acquireRedlock_owns owns id pause took
  | release id => exact releaseRedlock_owns owns id took

theorem reachable_owns {es} (run : exec (step w) (init N Id) es = some s) :
    ∃ owned, Owns w s owned :=
  exec_invariant (fun s => ∃ owned, Owns w s owned) ⟨_, init_owns w⟩ step_owns run

def testCalls : Workload Bool where
  call id := ⟨"distributed_resource", if id then "client_1" else "client_0", 500 * millisecond⟩
  distinct := by
    intro a b same
    cases a <;> cases b <;> simp_all

def contendedState : State 5 Bool :=
  (exec (step testCalls) (init 5 Bool) (List.replicate 7 (.acquire false 0) ++
    [.tick 5] ++ List.replicate 7 (.acquire true 2))).get (by decide)

end AsyncPractice.Redlock
