import Mathlib.Data.List.Basic
import Mathlib.Data.List.Induction

/- SlidingWindowLimiter of solution04_rate_limiter.go, with the lock of Allow held by one call at a
time. Times are nanoseconds. -/
namespace AsyncPractice.SlidingWindowLimiter

open List

structure Limiter where
  requests : List Int
  rate : Nat
  window : Int

def newSlidingWindowLimiter (rate : Nat) (window : Int) : Limiter := ⟨[], rate, window⟩

def allow (swl : Limiter) (now : Int) : Limiter × Bool :=
  let windowStart := now - swl.window
  let validRequests := swl.requests.filter fun req => windowStart < req
  if validRequests.length < swl.rate then
    ({ swl with requests := validRequests ++ [now] }, true)
  else ({ swl with requests := validRequests }, false)

/-- With the times of all calls that were granted. -/
structure State where
  swl : Limiter
  granted : List Int

def call (s : State) (now : Int) : State :=
  let (swl, ok) := allow s.swl now
  ⟨swl, if ok then s.granted ++ [now] else s.granted⟩

def start (rate : Nat) (window : Int) : State := ⟨newSlidingWindowLimiter rate window, []⟩

/-- The number of calls granted in the half-open interval of the window's length up to `t`. -/
def grantsIn (granted : List Int) (window t : Int) : Nat :=
  granted.countP fun g => t - window < g ∧ g ≤ t

/-- The pruned list against all that was granted: a later call finds the same in both. -/
structure Sound (rate : Nat) (window : Int) (times : List Int) (s : State) : Prop where
  settings : s.swl.rate = rate ∧ s.swl.window = window
  past : ∀ g ∈ s.granted, g ∈ times
  kept : ∀ now, (∀ t ∈ times, t ≤ now) →
    (s.swl.requests.filter fun req => now - window < req) =
      s.granted.filter fun req => now - window < req
  bounded : ∀ t, grantsIn s.granted window t ≤ rate

section

variable {rate : Nat} {w now : Int} {times : List Int} {s : State}

theorem filter_valid {t} (later : now ≤ t) (requests : List Int) :
    ((requests.filter fun req => now - w < req).filter fun req => t - w < req) =
      requests.filter fun req => t - w < req := by
  rw [filter_filter]
  apply filter_congr
  intro req _
  have implied : t - w < req → now - w < req := by omega
  simpa using implied

variable (inv : Sound rate w times s) (latest : ∀ t ∈ times, t ≤ now)
include inv latest

theorem Sound.length_valid :
    (s.granted.filter fun req => now - w < req).length = grantsIn s.granted w now := by
  rw [← countP_eq_length_filter]
  apply countP_congr
  intro g granted
  have pre := latest g (inv.past g granted)
  simp [pre]

omit latest in
theorem Sound.grant (free : (s.granted.filter fun req => now - w < req).length < rate) (t) :
    grantsIn (s.granted ++ [now]) w t ≤ rate := by
  unfold grantsIn
  rw [countP_append, countP_singleton]
  split
  · -- the call ends no later than the window, which then counts nothing that the call does not
    rename_i lt
    have fewer : s.granted.countP (fun g => t - w < g ∧ g ≤ t) ≤
        (s.granted.filter fun req => now - w < req).length := by
      rw [← countP_eq_length_filter]
      apply countP_mono_left
      intro g _ cnt
      simp only [decide_eq_true_eq] at lt cnt ⊢
      omega
    omega
  · exact inv.bounded t

theorem Sound.allow_eq : allow s.swl now = if grantsIn s.granted w now < rate then
      ({ s.swl with requests := (s.granted.filter fun req => now - w < req) ++ [now] }, true)
    else ({ s.swl with requests := s.granted.filter fun req => now - w < req }, false) := by
  simp only [allow, inv.settings, inv.kept now latest, inv.length_valid latest]

theorem Sound.call : Sound rate w (times ++ [now]) (call s now) := by
  have older : ∀ next, (∀ t ∈ times ++ [now], t ≤ next) → now ≤ next :=
    fun next all => all now (by simp)
  unfold SlidingWindowLimiter.call
  rw [inv.allow_eq latest]
  by_cases free : grantsIn s.granted w now < rate
  · rw [if_pos free]
    rw [← inv.length_valid latest] at free
    refine ⟨inv.settings, ?_, fun next all => ?_, inv.grant free⟩
    · intro g granted
      rcases mem_append.mp granted with old | new
      · exact mem_append_left _ (inv.past g old)
      · exact mem_append_right _ new
    · dsimp only
      rw [if_pos rfl, filter_append, filter_append, filter_valid (older next all)]
  · rw [if_neg free]
    exact ⟨inv.settings, fun g granted => mem_append_left _ (inv.past g granted),
      fun next all => filter_valid (older next all) _, inv.bounded⟩

end

theorem sound_run (rate w) {times} (ord : times.Pairwise (· ≤ ·)) :
    Sound rate w times (times.foldl call (start rate w)) := by
  induction times using List.reverseRecOn with
  | nil =>
    exact ⟨⟨rfl, rfl⟩, fun _ granted => granted, fun _ _ => rfl, fun _ => Nat.zero_le _⟩
  | append_singleton times now ih =>
    obtain ⟨pre, -, latest⟩ := pairwise_append.mp ord
    rw [foldl_concat]
    exact (ih pre).call fun t earlier => latest t earlier now (mem_singleton.mpr rfl)

/-- Whatever the times of the calls, no window of the given length has more than `rate` grants, and
a call is refused only at the end of a window that has them all. -/
theorem windows_bounded (rate : Nat) (window : Int) {times : List Int}
    (ordered : times.Pairwise (· ≤ ·)) :
    (∀ t, grantsIn (times.foldl call (start rate window)).granted window t ≤ rate) ∧
    ∀ before now after, times = before ++ now :: after →
      (allow (before.foldl call (start rate window)).swl now).2 = false →
      grantsIn (before.foldl call (start rate window)).granted window now = rate := by
  refine ⟨(sound_run rate window ordered).bounded, ?_⟩
  rintro before now after rfl refused
  obtain ⟨first, -, latest⟩ := pairwise_append.mp ordered
  have sound := sound_run rate window first
  rw [sound.allow_eq fun t earlier => latest t earlier now mem_cons_self] at refused
  split at refused
  · cases refused
  · have most := sound.bounded now
    omega

theorem two_of_three_granted :
    let times := [0, 4, 9, 10, 14]
    (times.foldl call (start 2 10)).granted = [0, 4, 10, 14] ∧
      ∀ t, grantsIn (times.foldl call (start 2 10)).granted 10 t ≤ 2 :=
  ⟨by decide, (windows_bounded 2 10 (by decide)).1⟩

end AsyncPractice.SlidingWindowLimiter
