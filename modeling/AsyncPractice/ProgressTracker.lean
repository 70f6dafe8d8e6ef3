import Mathlib.Tactic.Linarith
import Mathlib.Tactic.Ring
import AsyncPractice.GoMap
import AsyncPractice.MachineInt
import AsyncPractice.Runs

/- CompleteLesson and SubmitChallengeSolution of the ProgressTracker in progress.go: the experience
points they give, the levels these are turned into, and the achievements that give more. -/
namespace AsyncPractice.Tracker

open Option Finmap Function Runs

structure UserProfile where
  level : Int64
  xp : Int64
  deriving DecidableEq

structure LessonProgress where
  completed : Bool
  score : Int64

inductive Status
  | notStarted
  | inProgress
  | completed
  deriving DecidableEq

structure Solution where
  code : String
  score : Int64
  passed : Bool

structure ChallengeProgress where
  status : Status
  bestScore : Int64
  solutions : List Solution

structure Achievement where
  id : String
  name : String
  description : String
  icon : String
  xpReward : Int64

structure ProgressTracker where
  userProfile : UserProfile
  lessons : GoMap String LessonProgress
  challenges : GoMap String ChallengeProgress
  achievements : List Achievement

def lessonIDs : List String :=
  ["01_goroutine", "02_race", "03_channel", "04_select", "05_context", "06_timeout",
    "07_nonblocking", "08_worker", "09_fanin", "10_pipeline", "11_semaphore", "12_circuit",
    "13_pubsub", "14_bounded", "15_retry", "16_batch"]

def challengeIDs : List String := ["deadlock", "race", "leak", "ratelimit"]

/-- With no file to load from. -/
def newProgressTracker : ProgressTracker where
  userProfile := ⟨1, 0⟩
  lessons := GoMap.ofKeys lessonIDs fun _ => some ⟨false, 0⟩
  challenges := GoMap.ofKeys challengeIDs fun _ => some ⟨.notStarted, 0, []⟩
  achievements := []

/-- The level loop. After 2^64 turns both numbers are what they were, so a loop that has not ended
by then does not end, which is `none`. -/
def checkLevelUp : Nat → UserProfile → Option UserProfile
  | 0, _ => none
  | turns + 1, profile =>
    let requiredXP := profile.level * 100
    if requiredXP ≤ profile.xp then
      checkLevelUp turns ⟨profile.level + 1, profile.xp - requiredXP⟩
    else some profile

def checkAndUnlockAchievement (pt : ProgressTracker) (id name description icon : String)
    (xp : Int64) : ProgressTracker :=
  if pt.achievements.any (·.id = id) then pt
  else { pt with
    achievements := pt.achievements ++ [⟨id, name, description, icon, xp⟩]
    userProfile := { pt.userProfile with xp := pt.userProfile.xp + xp } }

def completedLessons (pt : ProgressTracker) : Nat :=
  GoMap.total (fun lesson => if lesson.completed then 1 else 0) pt.lessons

def completedChallenges (pt : ProgressTracker) : Nat :=
  GoMap.total (fun challenge => if challenge.status = .completed then 1 else 0) pt.challenges

def checkAchievements (pt : ProgressTracker) : ProgressTracker :=
  let pt := checkAndUnlockAchievement pt "beginner" "初心者" "最初のレッスンを完了" "🌱" 50
  let pt := if 5 ≤ completedLessons pt then
    checkAndUnlockAchievement pt "explorer" "探究者" "5つのレッスンを完了" "🔍" 100 else pt
  let pt := if completedLessons pt = GoMap.len pt.lessons then
    checkAndUnlockAchievement pt "master" "マスター" "すべてのレッスンを完了" "👨‍🎓" 500 else pt
  let pt := if 0 < completedChallenges pt then
    checkAndUnlockAchievement pt "challenger" "チャレンジャー" "最初のチャレンジをクリア" "💪" 100
    else pt
  if completedChallenges pt = GoMap.len pt.challenges then
    checkAndUnlockAchievement pt "conqueror" "征服者" "すべてのチャレンジをクリア" "👑" 1000 else pt

/-- What both calls do with the points they give. -/
def gain (pt : ProgressTracker) (xpGained : Int64) : Option ProgressTracker :=
  (checkLevelUp (2 ^ 64) { pt.userProfile with xp := pt.userProfile.xp + xpGained }).map
    fun userProfile => checkAchievements { pt with userProfile }

def completeLesson (pt : ProgressTracker) (lessonID : String) (score : Int64) :
    Option ProgressTracker :=
  match pt.lessons.lookup lessonID with
  | none => some pt
  | some lesson =>
    if lesson.completed then some pt
    else gain { pt with lessons := pt.lessons.insert lessonID ⟨true, score⟩ } (score * 10)

def submitChallengeSolution (pt : ProgressTracker) (challengeID code : String) (score : Int64)
    (passed : Bool) : Option ProgressTracker :=
  match pt.challenges.lookup challengeID with
  | none => some pt
  | some challenge =>
    let solutions := challenge.solutions ++ [⟨code, score, passed⟩]
    if passed ∧ challenge.status ≠ .completed then
      gain { pt with challenges := pt.challenges.insert challengeID ⟨.completed, score, solutions⟩ }
        (score * 20)
    else
      let bestScore := if challenge.bestScore < score then score else challenge.bestScore
      some { pt with
        challenges := pt.challenges.insert challengeID { challenge with bestScore, solutions } }

inductive Call
  | completeLesson (lessonID : String) (score : Int64)
  | submitChallengeSolution (challengeID code : String) (score : Int64) (passed : Bool)

def Call.score : Call → Int64
  | .completeLesson _ score | .submitChallengeSolution _ _ score _ => score

def invoke (pt : ProgressTracker) : Call → Option ProgressTracker
  | .completeLesson lessonID score => completeLesson pt lessonID score
  | .submitChallengeSolution challengeID code score passed =>
    submitChallengeSolution pt challengeID code score passed

def Call.award (pt : ProgressTracker) : Call → Option Int
  | .completeLesson lessonID score => (pt.lessons.lookup lessonID).bind fun lesson =>
    if lesson.completed then none else some (score.toInt * 10)
  | .submitChallengeSolution challengeID _ score passed =>
    (pt.challenges.lookup challengeID).bind fun challenge =>
      if passed ∧ challenge.status ≠ .completed then some (score.toInt * 20) else none

def Call.submits (challengeID : String) : Call → Option Int
  | .submitChallengeSolution id _ score _ => if id = challengeID then some score.toInt else none
  | .completeLesson .. => none

def rewards (achievements : List Achievement) : Int :=
  (achievements.map (·.xpReward.toInt)).sum

/-- The tracker with what was given in all, what the achievements gave that the last giving call
unlocked, and the scores submitted for each challenge. -/
structure State where
  pt : ProgressTracker
  awarded : Int
  bonus : Int
  submitted : String → List Int

def init : State := ⟨newProgressTracker, 0, 0, fun _ => []⟩

def step (s : State) (call : Call) : Option State :=
  (invoke s.pt call).map fun pt =>
    let submitted := fun id => s.submitted id ++ (call.submits id).toList
    match call.award s.pt with
    | none => { s with pt, submitted }
    | some xp =>
      let bonus := rewards (pt.achievements.drop s.pt.achievements.length)
      ⟨pt, s.awarded + xp + bonus, bonus, submitted⟩

/-- The points that were needed for the level, and those left. -/
def UserProfile.worth (profile : UserProfile) : Int :=
  profile.xp.toInt + 50 * profile.level.toInt * (profile.level.toInt - 1)

theorem level_lt {p : UserProfile} (room : p.worth ≤ 2 ^ 81) (rich : 0 ≤ p.xp.toInt) :
    p.level.toInt < 2 ^ 40 := by
  by_contra high
  unfold UserProfile.worth at room
  nlinarith

/-- The loop turns points into levels, as far as they go. -/
theorem checkLevelUp_spec {turns : Nat} {p : UserProfile} (low : 1 ≤ p.level.toInt)
    (high : p.level.toInt < 2 ^ 40) (room : p.worth ≤ 2 ^ 81) (enough : p.xp.toInt < turns)
    (pos : 0 < turns) :
    ∃ q, checkLevelUp turns p = some q ∧ p.level.toInt ≤ q.level.toInt ∧ q.worth = p.worth ∧
      q.xp.toInt < 100 * q.level.toInt ∧ (q = p ∨ 0 ≤ q.xp.toInt) := by
  induction turns generalizing p with
  | zero => omega
  | succ turns ih =>
    have required : (p.level * 100).toInt = p.level.toInt * 100 := by
      rw [Int64.toInt_mul, show (100 : Int64).toInt = 100 from rfl, MachineInt.bmod_eq_self] <;>
        omega
    unfold checkLevelUp
    dsimp only
    split
    next rich =>
      rw [Int64.le_iff_toInt_le, required] at rich
      have left : (p.xp - p.level * 100).toInt = p.xp.toInt - p.level.toInt * 100 := by
        rw [MachineInt.toInt_sub_of_nonneg (by omega) (by omega), required]
      have level : (p.level + 1).toInt = p.level.toInt + 1 :=
        MachineInt.toInt_add_one (by omega)
      have eq : UserProfile.worth ⟨p.level + 1, p.xp - p.level * 100⟩ = p.worth := by
        simp only [UserProfile.worth, left, level]
        ring
      obtain ⟨q, ran, above, worth, inv, rest⟩ := ih (p := ⟨p.level + 1, p.xp - p.level * 100⟩)
        (by dsimp only; omega) (level_lt (eq ▸ room) (by dsimp only; omega)) (eq ▸ room)
        (by dsimp only; omega) (by omega)
      dsimp only at above
      refine ⟨q, ran, by omega, worth.trans eq, inv, Or.inr ?_⟩
      rcases rest with rfl | rest
      · dsimp only
        omega
      · exact rest
    next poor =>
      rw [Int64.le_iff_toInt_le, required] at poor
      exact ⟨p, rfl, le_refl _, rfl, by omega, .inl rfl⟩

theorem level_growth {p q : UserProfile} (worth : q.worth = p.worth) (rest : q = p ∨ 0 ≤ q.xp.toInt)
    (low : 1 ≤ p.level.toInt) (above : p.level.toInt ≤ q.level.toInt) :
    q.level.toInt ≤ p.level.toInt + 2 ^ 32 := by
  rcases rest with rfl | rest
  · omega
  · by_contra high
    have bound := p.xp.toInt_lt
    unfold UserProfile.worth at worth
    nlinarith

/-- Achievements are added, and their rewards. -/
def Unlocks (pt next : ProgressTracker) : Prop :=
  ∃ new, 0 ≤ rewards new ∧ next = { pt with
    achievements := pt.achievements ++ new
    userProfile := { pt.userProfile with xp := pt.userProfile.xp + .ofInt (rewards new) } }

theorem Unlocks.refl (pt) : Unlocks pt pt :=
  ⟨[], le_refl _, by simp [rewards]⟩

theorem Unlocks.trans {a b c : ProgressTracker} (x : Unlocks a b) (y : Unlocks b c) :
    Unlocks a c := by
  obtain ⟨new, pos, rfl⟩ := x
  obtain ⟨more, pos', rfl⟩ := y
  have sum : rewards (new ++ more) = rewards new + rewards more := by simp [rewards]
  refine ⟨new ++ more, by omega, ?_⟩
  simp only [sum, Int64.ofInt_add, List.append_assoc, Int64.add_assoc]

theorem unlocks_checkAndUnlock (pt id name description icon) {xp : Int64} (pos : 0 ≤ xp.toInt) :
    Unlocks pt (checkAndUnlockAchievement pt id name description icon xp) := by
  unfold checkAndUnlockAchievement
  split
  · exact .refl pt
  · exact ⟨[⟨id, name, description, icon, xp⟩], by simpa [rewards] using pos, by simp [rewards]⟩

theorem Unlocks.of_ite {p : Prop} [Decidable p] {pt next : ProgressTracker}
    (unlocks : Unlocks pt next) : Unlocks pt (if p then next else pt) := by
  split
  · exact unlocks
  · exact .refl pt

theorem unlocks_checkAchievements (pt) : Unlocks pt (checkAchievements pt) := by
  refine .trans ?_ (.of_ite (unlocks_checkAndUnlock _ _ _ _ _ (by decide)))
  refine .trans ?_ (.of_ite (unlocks_checkAndUnlock _ _ _ _ _ (by decide)))
  refine .trans ?_ (.of_ite (unlocks_checkAndUnlock _ _ _ _ _ (by decide)))
  refine .trans ?_ (.of_ite (unlocks_checkAndUnlock _ _ _ _ _ (by decide)))
  exact unlocks_checkAndUnlock _ _ _ _ _ (by decide)

def remaining (pt : ProgressTracker) : Nat :=
  GoMap.total (fun lesson => if lesson.completed then 0 else 1) pt.lessons +
    GoMap.total (fun challenge => if challenge.status = .completed then 0 else 1) pt.challenges

/-- A call gives no points, or those of a lesson or challenge that it marks as completed. -/
theorem invoke_cases (pt call) :
    (call.award pt = none ∧ ∃ challenges, invoke pt call = some { pt with challenges } ∧
        remaining { pt with challenges } = remaining pt) ∨
      ∃ lessons challenges factor, 0 ≤ factor.toInt ∧
        call.award pt = some (call.score.toInt * factor.toInt) ∧
        invoke pt call = gain { pt with lessons, challenges } (call.score * factor) ∧
        remaining { pt with lessons, challenges } + 1 = remaining pt := by
  cases call with
  | completeLesson lessonID score =>
    simp only [invoke, completeLesson, Call.award, Call.score]
    cases found : pt.lessons.lookup lessonID with
    | none => exact .inl ⟨rfl, pt.challenges, rfl, rfl⟩
    | some lesson =>
      cases done : lesson.completed with
      | true => exact .inl ⟨by simp [done], pt.challenges, by simp [done], rfl⟩
      | false =>
        refine .inr ⟨_, pt.challenges, 10, by decide, by simp [done], by simp [done]; rfl, ?_⟩
        have cnt := GoMap.total_insert (fun lesson => if lesson.completed then 0 else 1)
          pt.lessons lessonID ⟨true, score⟩
        simp only [found, Option.map_some, Option.getD_some, done, if_true, Bool.false_eq_true,
          if_false] at cnt
        simp only [remaining]
        omega
  | submitChallengeSolution challengeID code score ok =>
    simp only [invoke, submitChallengeSolution, Call.award, Call.score]
    cases found : pt.challenges.lookup challengeID with
    | none => exact .inl ⟨rfl, pt.challenges, rfl, rfl⟩
    | some challenge =>
      have cnt := GoMap.total_insert
        (fun challenge : ChallengeProgress => if challenge.status = .completed then 0 else 1)
        pt.challenges challengeID
      simp only [found, Option.map_some, Option.getD_some] at cnt
      simp only [Option.bind_some]
      split
      next x =>
        refine .inr ⟨pt.lessons, _, 20, by decide, rfl, rfl, ?_⟩
        have more := cnt ⟨.completed, score, challenge.solutions ++ [⟨code, score, ok⟩]⟩
        simp only [x.2, if_true, if_false] at more
        simp only [remaining]
        omega
      · refine .inl ⟨rfl, _, rfl, ?_⟩
        simp only [remaining, Nat.add_left_cancel_iff]
        exact Nat.add_right_cancel (cnt _)

/-- What holds after every run. As long as everything awarded fits into 63 bits, nothing of it is
lost; only what the last achievements gave may not have been turned into levels. -/
structure Settled (s : State) : Prop where
  low : 1 ≤ s.pt.userProfile.level.toInt
  high : s.pt.userProfile.level.toInt + 2 ^ 32 * remaining s.pt ≤ 1 + 2 ^ 32 * 20
  bonus : 0 ≤ s.bonus
  conserved : s.awarded < 2 ^ 63 → s.pt.userProfile.worth = s.awarded ∧
    0 ≤ s.pt.userProfile.xp.toInt ∧
    s.pt.userProfile.xp.toInt < 100 * s.pt.userProfile.level.toInt + s.bonus

theorem init_settled : Settled init := by
  have all : remaining init.pt = 20 := by decide
  refine ⟨by decide, ?_, le_refl _, fun _ => by decide⟩
  rw [all]
  decide

theorem xp_le_worth {p : UserProfile} (low : 1 ≤ p.level.toInt) : p.xp.toInt ≤ p.worth := by
  unfold UserProfile.worth
  nlinarith

theorem gain_spec (pt) (low : 1 ≤ pt.userProfile.level.toInt)
    (high : pt.userProfile.level.toInt < 2 ^ 37) (xp) :
    ∃ (q : UserProfile) (new : _), gain pt xp = some { pt with
        achievements := pt.achievements ++ new
        userProfile := { q with xp := q.xp + .ofInt (rewards new) } } ∧ 0 ≤ rewards new ∧
      pt.userProfile.level.toInt ≤ q.level.toInt ∧
      q.level.toInt ≤ pt.userProfile.level.toInt + 2 ^ 32 ∧
      q.worth = UserProfile.worth ⟨pt.userProfile.level, pt.userProfile.xp + xp⟩ ∧
      q.xp.toInt < 100 * q.level.toInt ∧
      (q = ⟨pt.userProfile.level, pt.userProfile.xp + xp⟩ ∨ 0 ≤ q.xp.toInt) := by
  have bound := (pt.userProfile.xp + xp).toInt_lt
  have room : UserProfile.worth ⟨pt.userProfile.level, pt.userProfile.xp + xp⟩ ≤ 2 ^ 81 := by
    unfold UserProfile.worth
    dsimp only
    nlinarith
  obtain ⟨q, looped, above, worth, below, rest⟩ := checkLevelUp_spec
    (p := ⟨pt.userProfile.level, pt.userProfile.xp + xp⟩) low (by dsimp only; omega) room
    (bound.trans (by norm_num : (2 : Int) ^ 63 < (2 ^ 64 : Nat))) (by norm_num)
  obtain ⟨new, gift, unlocked⟩ := unlocks_checkAchievements { pt with userProfile := q }
  have growth := level_growth worth rest low above
  refine ⟨q, new, ?_, gift, above, growth, worth, below, rest⟩
  rw [gain, looped, Option.map_some, unlocked]

theorem toInt_xp_add {p : UserProfile} {gift : Int} (low : 1 ≤ p.level.toInt)
    (rich : 0 ≤ p.xp.toInt) (pos : 0 ≤ gift) (small : p.worth + gift < 2 ^ 63) :
    (p.xp + .ofInt gift).toInt = p.xp.toInt + gift := by
  have bound := xp_le_worth low
  rw [show p.xp + .ofInt gift = .ofInt (p.xp.toInt + gift) by simp [Int64.ofInt_add],
    Int64.toInt_ofInt]
  exact MachineInt.bmod_eq_self (by omega) (by omega)

theorem step_settled {s : State} {call : Call} (inv : Settled s)
    (score : 0 ≤ call.score.toInt) : ∃ t, step s call = some t ∧ Settled t := by
  obtain ⟨low, high, bonus, conserved⟩ := inv
  rcases invoke_cases s.pt call with ⟨none, challenges, ran, eq⟩ |
    ⟨lessons, challenges, factor, pos, award, ran, fewer⟩
  · refine ⟨_, by rw [step, ran, none]; rfl, ?_⟩
    exact ⟨low, by rw [eq]; exact high, bonus, conserved⟩
  · have reward : 0 ≤ call.score.toInt * factor.toInt := mul_nonneg score pos
    obtain ⟨q, new, gained, gift, above, growth, worth, below, rest⟩ :=
      gain_spec { s.pt with lessons, challenges } low (by dsimp only; omega) (call.score * factor)
    refine ⟨_, by rw [step, ran, gained, award]; rfl, ?_⟩
    dsimp only at above growth worth rest
    simp only [List.drop_left]
    refine ⟨?_, ?_, gift, ?_⟩
    · dsimp only
      omega
    · simp only [remaining] at fewer high ⊢
      omega
    · intro small
      dsimp only at small ⊢
      obtain ⟨whole, rich, -⟩ := conserved (by omega)
      have given := toInt_xp_add low rich reward (by omega)
      rw [Int64.ofInt_mul, Int64.ofInt_toInt, Int64.ofInt_toInt] at given
      have total : q.worth = s.awarded + call.score.toInt * factor.toInt := by
        rw [worth, ← whole]
        simp only [UserProfile.worth, given]
        ring
      have left : 0 ≤ q.xp.toInt := by
        rcases rest with rfl | rest
        · dsimp only
          omega
        · exact rest
      have last := toInt_xp_add (by omega) left gift (by omega)
      simp only [UserProfile.worth, last] at total ⊢
      omega

/-- Every best score is the highest of the scores submitted. -/
def BestScores (s : State) : Prop :=
  ∀ id challenge, s.pt.challenges.lookup id = some challenge →
    challenge.bestScore.toInt = (s.submitted id).foldl max 0

/-- A solution that completes its challenge has no lower score than those submitted before. -/
def CompletesBest (s : State) : Call → Prop
  | .submitChallengeSolution id _ score passed => ∀ challenge,
      s.pt.challenges.lookup id = some challenge → challenge.status ≠ .completed →
        passed = true → ∀ earlier ∈ s.submitted id, earlier ≤ score.toInt
  | .completeLesson .. => True

theorem challenges_gain {pt next : ProgressTracker} {xp : Int64} (gained : gain pt xp = some next) :
    next.challenges = pt.challenges := by
  obtain ⟨q, -, rfl⟩ := map_eq_some_iff.mp gained
  obtain ⟨new, -, unlocked⟩ := unlocks_checkAchievements { pt with userProfile := q }
  rw [unlocked]

theorem foldl_max_le_iff {scores : List Int} {score : Int} (pos : 0 ≤ score) :
    scores.foldl max 0 ≤ score ↔ ∀ earlier ∈ scores, earlier ≤ score := by
  induction scores using List.reverseRecOn with
  | nil => simp [pos]
  | append_singleton scores last ih => simp [ih, or_imp, forall_and]

theorem lookup_submit {pt next : ProgressTracker} {id code : String} {score : Int64} {ok : Bool}
    {challenge : ChallengeProgress} (hit : pt.challenges.lookup id = some challenge)
    (ran : submitChallengeSolution pt id code score ok = some next) :
    ∃ after, next.challenges = pt.challenges.insert id after ∧ after.bestScore =
      if ok ∧ challenge.status ≠ .completed ∨ challenge.bestScore < score then score
      else challenge.bestScore := by
  simp only [submitChallengeSolution, hit] at ran
  split at ran
  next x =>
    exact ⟨_, challenges_gain ran, by rw [if_pos (.inl x)]⟩
  next other =>
    cases ran
    exact ⟨_, rfl, by simp only [other, false_or]⟩

theorem invoke_of_step {s t : State} {call : Call} (took : step s call = some t) :
    invoke s.pt call = some t.pt ∧
      t.submitted = fun id => s.submitted id ++ (call.submits id).toList := by
  obtain ⟨pt, ran, rfl⟩ := map_eq_some_iff.mp took
  dsimp only
  split <;> exact ⟨ran, rfl⟩

theorem best_step_iff {s t : State} {call : Call} (best : BestScores s) (pos : 0 ≤ call.score.toInt)
    (took : step s call = some t) : BestScores t ↔ CompletesBest s call := by
  obtain ⟨ran, submitted⟩ := invoke_of_step took
  cases call with
  | completeLesson lessonID score =>
    have eq : t.pt.challenges = s.pt.challenges := by
      simp only [invoke, completeLesson] at ran
      split at ran
      · rw [some.inj ran]
      · split at ran
        · rw [some.inj ran]
        · have left := challenges_gain ran
          exact left
    refine iff_of_true (fun id challenge hit => ?_) trivial
    rw [eq] at hit
    simpa [submitted, Call.submits] using best id challenge hit
  | submitChallengeSolution id code score ok =>
    replace pos : 0 ≤ score.toInt := pos
    -- The other challenges and their scores are as before.
    have others : ∀ other challenge, other ≠ id → s.pt.challenges.lookup other = some challenge →
        challenge.bestScore.toInt = (t.submitted other).foldl max 0 := by
      intro other challenge ne hit
      simpa [submitted, Call.submits, ne.symm] using best other challenge hit
    cases found : s.pt.challenges.lookup id with
    | none =>
      have eq : s.pt = t.pt := by simpa [invoke, submitChallengeSolution, found] using ran
      refine iff_of_true (fun other challenge hit => ?_) (fun challenge hit => ?_)
      · rw [← eq] at hit
        exact others other challenge (by rintro rfl; simp [found] at hit) hit
      · simp [found] at hit
    | some challenge =>
      obtain ⟨after, put, bestScore⟩ := lookup_submit found ran
      have own : (t.submitted id).foldl max 0 = max ((s.submitted id).foldl max 0) score.toInt := by
        simp [submitted, Call.submits]
      have only : BestScores t ↔
          after.bestScore.toInt = max ((s.submitted id).foldl max 0) score.toInt := by
        rw [← own]
        refine ⟨fun all => all id after (by rw [put, lookup_insert]), ?_⟩
        intro right other challenge hit
        rw [put] at hit
        rcases GoMap.lookup_insert_cases hit with ⟨rfl, rfl⟩ | ⟨ne, hit⟩
        · exact right
        · exact others other challenge ne hit
      rw [only, bestScore]
      by_cases x : ok ∧ challenge.status ≠ .completed
      · rw [if_pos (.inl x), right_eq_sup, foldl_max_le_iff pos]
        refine ⟨fun all _ _ _ _ => all, fun all => all challenge found x.2 x.1⟩
      · refine iff_of_true ?_ ?_
        · rw [← best id challenge found]
          simp only [x, false_or, Int64.lt_iff_toInt_lt]
          split <;> omega
        · intro other hit pending done
          rw [found, some.injEq] at hit
          exact absurd ⟨done, hit ▸ pending⟩ x

/-- The best score of every challenge is all along the highest score submitted for it exactly when
no solution completes its challenge with a lower score than one before it. -/
theorem best_scores_iff {calls : List Call} (scores : ∀ call ∈ calls, 0 ≤ call.score.toInt) :
    (∃ s, exec step init calls = some s) ∧
      (Throughout step BestScores init calls ↔ Along step CompletesBest init calls) := by
  obtain ⟨s, run, -⟩ := exec_total Settled
    (fun s call mem settled => step_settled settled (scores call mem)) init_settled
  refine ⟨⟨s, run⟩, ?_⟩
  have fresh : BestScores init := by
    intro id challenge hit
    rw [init, newProgressTracker, GoMap.lookup_ofKeys] at hit
    split at hit <;> cases hit
    rfl
  exact throughout_iff_along_of_lawful_run BestScores fresh (fun _ best => best)
    (fun call => 0 ≤ call.score.toInt)
    (fun s call t best pos fine took => (best_step_iff best pos took).mpr fine)
    (fun s call t best pos took fine => (best_step_iff best pos took).mp fine) scores run

/-- The challenge is completed with a higher score than before. -/
theorem best_scores_rising :
    Throughout step BestScores init
      [.submitChallengeSolution "race" "" 60 false, .submitChallengeSolution "race" "" 90 true,
        .submitChallengeSolution "race" "" 70 true] := by
  refine (best_scores_iff (by decide)).2.mpr (along_of_check (fun s call => match call with
    | .submitChallengeSolution id _ score _ => (s.submitted id).all (· ≤ score.toInt) ||
      (s.pt.challenges.lookup id).any (·.status = .completed)
    | .completeLesson .. => true) ?_ (by decide))
  rintro s (_ | ⟨id, code, score, passed⟩) fine
  · trivial
  · intro challenge hit pending done
    simpa [hit, pending] using fine

theorem best_score_lowered :
    ((exec step init [.submitChallengeSolution "race" "" 90 false,
        .submitChallengeSolution "race" "" 60 true]).map fun s =>
      ((s.pt.challenges.lookup "race").map (·.bestScore.toInt), s.submitted "race")) =
      some (some 60, [90, 60]) := by
  decide

end AsyncPractice.Tracker
