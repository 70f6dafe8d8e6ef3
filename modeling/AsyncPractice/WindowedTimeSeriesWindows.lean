import AsyncPractice.WindowedTimeSeries

/- The windows against the points they hold. A window is found again by the text of its start. -/
namespace AsyncPractice.WindowedTimeSeries

section

open Option List Runs

variable {L F : Type}

/-- The window is open to instants from its start on and before its end. -/
def Window.Covers (window : Window L F) (t : Int) : Prop :=
  window.start.nanos ≤ t ∧ t < window.stop.nanos

instance decidableCovers (window : Window L F) (t : Int) : Decidable (window.Covers t) :=
  inferInstanceAs (Decidable (_ ∧ _))

/-- Every window holds only points of its own time. -/
def OwnPoints (s : State L F) : Prop :=
  ∀ key window, s.wts.windows.lookup key = some window →
    ∀ point ∈ window.points, window.Covers point.timestamp.nanos

variable {d : Int}

theorem truncate_le (t : Time L) (pos : 0 < d) :
    (t.truncate d).nanos ≤ t.nanos ∧ t.nanos < (t.truncate d).nanos + d := by
  have low := Int.emod_nonneg t.nanos pos.ne'
  have high := Int.emod_lt_of_pos t.nanos pos
  rw [Time.truncate, if_neg (by omega)]
  dsimp only
  omega

theorem newWindow_covers (t : Time L) (pos : 0 < d) :
    (newWindow t d : Window L F).Covers t.nanos := truncate_le t pos

theorem closeBefore_points (watermark) (w : Window L F) :
    (w.closeBefore watermark).points = w.points := by
  unfold Window.closeBefore
  split <;> rfl

theorem closeBefore_covers (watermark) (w : Window L F) :
    (w.closeBefore watermark).Covers = w.Covers := by
  unfold Window.closeBefore
  split <;> rfl

section

variable [DecidableEq L] [Zero F] [One F] [Add F] {off : L → Int → Int}

def found (offset : L → Int → Int) (wts : Store L F) (point : DataPoint L F) (windowSize : Int) :
    Window L F :=
  (wts.windows.lookup (getWindow offset point.timestamp windowSize)).getD
    (newWindow point.timestamp windowSize)

variable (wts : Store L F) (point : DataPoint L F) (windowSize : Int)
include wts point windowSize

theorem windows_insert :
    (insert off wts point windowSize).windows =
      wts.windows.insert (getWindow off point.timestamp windowSize)
        (if point.timestamp.nanos < wts.watermark then found off wts point windowSize
          else (found off wts point windowSize).add point) := by
  unfold insert found
  dsimp only
  split
  · rfl
  · exact Finmap.insert_insert ..

theorem lookup_windows_insert (k) :
    (insert off wts point windowSize).windows.lookup k =
      if k = getWindow off point.timestamp windowSize then
        some (if point.timestamp.nanos < wts.watermark then found off wts point windowSize
          else (found off wts point windowSize).add point)
      else wts.windows.lookup k := by
  rw [windows_insert]
  exact GoMap.lookup_insert_ite ..

theorem watermark_insert : (insert off wts point windowSize).watermark = wts.watermark := by
  unfold insert
  dsimp only
  split <;> rfl

omit wts point windowSize

/-- An Insert that is not late meets a window of its time, if it meets one. -/
def Fits (offset : L → Int → Int) (s : State L F) : Event L F → Prop
  | .insert point windowSize => s.wts.watermark ≤ point.timestamp.nanos →
      ∀ window, s.wts.windows.lookup (getWindow offset point.timestamp windowSize) = some window →
        window.Covers point.timestamp.nanos
  | .advance _ _ _ => True

def Event.Positive : Event L F → Prop
  | .insert _ windowSize => 0 < windowSize
  | .advance _ _ _ => True

variable {s t : State L F} {e : Event L F}

omit [DecidableEq L] [Zero F] [One F] [Add F] in
theorem found_covers {point windowSize} (pos : 0 < windowSize)
    (fits : Fits off s (.insert point windowSize))
    (timely : s.wts.watermark ≤ point.timestamp.nanos) :
    (found off s.wts point windowSize).Covers point.timestamp.nanos := by
  unfold found
  cases present : s.wts.windows.lookup (getWindow off point.timestamp windowSize) with
  | none => exact newWindow_covers point.timestamp pos
  | some w => exact fits timely w present

omit [DecidableEq L] [Zero F] [One F] [Add F] in
theorem found_own (own : OwnPoints s) {point other windowSize}
    (mem : other ∈ (found off s.wts point windowSize).points) :
    (found off s.wts point windowSize).Covers other.timestamp.nanos := by
  unfold found at mem ⊢
  cases present : s.wts.windows.lookup (getWindow off point.timestamp windowSize) with
  | none =>
    rw [present] at mem
    cases mem
  | some w =>
    rw [present] at mem
    exact own _ w present other mem

theorem ownPoints_step (own : OwnPoints s) (pos : e.Positive) (fits : Fits off s e)
    (took : step off s e = some t) : OwnPoints t := by
  cases e with
  | insert point windowSize =>
    cases took
    intro k w hit x mem
    rw [lookup_windows_insert] at hit
    split at hit
    · cases hit
      split at mem
      next late =>
        rw [if_pos late]
        exact found_own own mem
      next timely =>
        rw [if_neg timely]
        rcases mem_append.mp mem with before | new
        · exact found_own own before
        · rw [mem_singleton.mp new]
          exact found_covers pos fits (Int.not_lt.mp timely)
    · exact own k w hit x mem
  | advance now order lateOrder =>
    obtain ⟨⟨ranges, -⟩, rfl⟩ := guard_some.mp took
    intro k w hit x mem
    replace hit := (ranges.lookup_rangeUpdate _ k).symm.trans hit
    obtain ⟨before, stored, rfl⟩ := map_eq_some_iff.mp hit
    rw [closeBefore_points] at mem
    rw [closeBefore_covers]
    exact own k before stored x mem

theorem fits_of_ownPoints (own : ∀ t, step off s e = some t → OwnPoints t) :
    Fits off s e := by
  cases e with
  | insert point windowSize =>
    intro timely w hit
    have added := own _ rfl (getWindow off point.timestamp windowSize) (w.add point)
    rw [lookup_windows_insert, if_pos rfl, if_neg (Int.not_lt.mpr timely), found, hit] at added
    exact added rfl point (mem_append_right _ (mem_singleton_self _))
  | advance now order lateOrder => trivial

end

section

/-- The window that an Insert opens if it is the first with its key. -/
def Event.opens (offset : L → Int → Int) (key : RFC3339) : Event L F → Option (Window L F)
  | .insert point windowSize =>
    if getWindow offset point.timestamp windowSize = key
    then some (newWindow point.timestamp windowSize) else none
  | .advance _ _ _ => none

/-- The window that the first Insert with the key opens. -/
def opened (offset : L → Int → Int) (events : List (Event L F)) (key : RFC3339) :
    Option (Window L F) :=
  events.findSome? (Event.opens offset key)

variable [DecidableEq L] [Zero F] [One F] [Add F] {off : L → Int → Int}

omit [DecidableEq L] [Zero F] [One F] [Add F] in
theorem opened_snoc (es) (e : Event L F) (k) :
    opened off (es ++ [e]) k = (opened off es k).or (e.opens off k) := by
  rw [opened, findSome?_append, findSome?_singleton]
  rfl

variable {s : State L F}

theorem lookup_covers_step {t e} (took : step off s e = some t) (k) :
    (t.wts.windows.lookup k).map Window.Covers =
      ((s.wts.windows.lookup k).or (e.opens off k)).map Window.Covers := by
  cases e with
  | insert p windowSize =>
    cases took
    dsimp only [Event.opens]
    rw [lookup_windows_insert]
    by_cases same : k = getWindow off p.timestamp windowSize
    · have covers : (if p.timestamp.nanos < s.wts.watermark then found off s.wts p windowSize
          else (found off s.wts p windowSize).add p).Covers =
            (found off s.wts p windowSize).Covers := by
        split <;> rfl
      rw [if_pos same, if_pos same.symm, Option.map_some, covers, found, same]
      cases s.wts.windows.lookup (getWindow off p.timestamp windowSize) <;> rfl
    · rw [if_neg same, if_neg (Ne.symm same), or_none]
  | advance now order lateOrder =>
    obtain ⟨⟨ranges, -⟩, rfl⟩ := guard_some.mp took
    have lookup := ranges.lookup_rangeUpdate (Window.closeBefore (now - 30 * second)) k
    refine (congrArg (Option.map Window.Covers) lookup).trans ?_
    rw [Option.map_map, Event.opens, or_none]
    exact congrArg (fun f => (s.wts.windows.lookup k).map f)
      (funext fun w => closeBefore_covers _ w)

variable {now : Int} {es : List (Event L F)}

/-- Windows never move. -/
theorem covers_opened (run : exec (step off) (init now) es = some s) (k : RFC3339) :
    (s.wts.windows.lookup k).map Window.Covers = (opened off es k).map Window.Covers := by
  refine exec_history (fun es s => (s.wts.windows.lookup k).map Window.Covers =
    (opened off es k).map Window.Covers) rfl ?_ run
  intro es state e t _ same took
  rw [lookup_covers_step took, opened_snoc, map_or, map_or, same]

/-- The window that an Insert meets is the one that the first Insert with its key has opened. -/
theorem fits_iff_opened (run : exec (step off) (init now) es = some s) (p : DataPoint L F)
    (windowSize : Int) :
    Fits off s (.insert p windowSize) ↔ (s.wts.watermark ≤ p.timestamp.nanos →
      ∀ w, opened off es (getWindow off p.timestamp windowSize) =
        some w → w.Covers p.timestamp.nanos) := by
  have covers := covers_opened run (getWindow off p.timestamp windowSize)
  constructor
  · intro fits timely w first
    rw [first] at covers
    obtain ⟨met, hit, same⟩ := map_eq_some_iff.mp covers
    rw [← same]
    exact fits timely met hit
  · intro first timely met hit
    rw [hit] at covers
    obtain ⟨w, opens, same⟩ := map_eq_some_iff.mp covers.symm
    rw [← same]
    exact first timely w opens

end

section

variable [DecidableEq L] [Zero F] [One F] [Add F] {off : L → Int → Int} {seconds : Int}

omit [DecidableEq L] in
/-- In zones of whole minutes the text of a whole second shows which one it is. -/
theorem nanos_of_format {t u : Time L} (whole : second ∣ t.nanos) (whole' : second ∣ u.nanos)
    (minutes : 60 ∣ off t.loc (t.nanos / second))
    (minutes' : 60 ∣ off u.loc (u.nanos / second)) (same : t.format off = u.format off) :
    t.nanos = u.nanos := by
  obtain ⟨clock, zone⟩ := RFC3339.mk.inj same
  have east : off t.loc (t.nanos / second) = off u.loc (u.nanos / second) := by
    obtain ⟨m, shown⟩ := minutes
    obtain ⟨m', shown'⟩ := minutes'
    split at zone <;> split at zone <;> simp_all
  have count : t.nanos / second = u.nanos / second := by omega
  rw [← Int.ediv_mul_cancel whole, ← Int.ediv_mul_cancel whole', count]

/-- The Insert uses windows of so many seconds, and where its window starts the zone is a whole
number of minutes. -/
def Event.Regular (offset : L → Int → Int) (seconds : Int) : Event L F → Prop
  | .insert point windowSize => windowSize = seconds * second ∧
      60 ∣ offset point.timestamp.loc ((point.timestamp.truncate windowSize).nanos / second)
  | .advance _ _ _ => True

omit [DecidableEq L] in
theorem truncate_loc (t : Time L) (d) : (t.truncate d).loc = t.loc := by
  unfold Time.truncate
  split <;> rfl

omit [DecidableEq L] in
theorem truncate_whole (pos : 0 < seconds) (t : Time L) :
    second ∣ (t.truncate (seconds * second)).nanos := by
  have size : 0 < seconds * second := Int.mul_pos pos (by decide)
  rw [Time.truncate, if_neg (Int.not_le.mpr size)]
  exact (Dvd.intro_left seconds rfl).trans Int.dvd_self_sub_emod

variable {es : List (Event L F)}

omit [DecidableEq L] [Zero F] [One F] [Add F] in
/-- With one size of whole seconds, the first Insert with a key opens the window of the others. -/
theorem covers_of_regular (pos : 0 < seconds) (regular : ∀ e ∈ es, e.Regular off seconds)
    {p : DataPoint L F} {windowSize : Int}
    (own : (Event.insert p windowSize).Regular off seconds) {w : Window L F}
    (first : opened off es (getWindow off p.timestamp windowSize) = some w) :
    w.Covers p.timestamp.nanos := by
  obtain ⟨e, mem, opens⟩ := exists_of_findSome?_eq_some first
  cases e with
  | insert x otherSize =>
    obtain ⟨rfl, minutes⟩ := regular _ mem
    obtain ⟨rfl, minutes'⟩ := own
    obtain ⟨same, rfl⟩ := guard_some.mp opens
    rw [← truncate_loc _ (seconds * second)] at minutes minutes'
    have start := nanos_of_format (truncate_whole pos _) (truncate_whole pos _) minutes
      minutes' same
    have size : 0 < seconds * second := Int.mul_pos pos (by decide)
    have covers := truncate_le p.timestamp size
    rw [← start] at covers
    exact covers
  | advance now order lateOrder => cases opens

/-- With one size of whole seconds, no Insert meets a window of another time. -/
theorem fits_of_regular (pos : 0 < seconds) {now : Int}
    (regular : ∀ e ∈ es, e.Regular off seconds) :
    Along (step off) (Fits off) (init now) es := by
  intro before e after split s run
  cases e with
  | insert p windowSize =>
    refine (fits_iff_opened run p windowSize).mpr fun _ w first => ?_
    refine covers_of_regular pos ?_ ?_ first
    · exact fun e mem => regular e (split ▸ mem_append_left _ mem)
    · exact regular _ (split ▸ mem_append_right _ mem_cons_self)
  | advance now order lateOrder => trivial

end

section

variable [DecidableEq L] [Zero F] [One F] [Add F]

/-- Every window holds only points of its own time exactly when every Insert that is not late
falls into the window that the first Insert with its key has opened. -/
theorem windows_own_points_iff (offset : L → Int → Int) (now : Int) {events : List (Event L F)}
    (positive : ∀ event ∈ events, event.Positive) :
    Throughout (step offset) OwnPoints (init now) events ↔
      ∀ before point windowSize after, events = before ++ .insert point windowSize :: after →
        ∀ s, exec (step offset) (init now) before = some s →
          s.wts.watermark ≤ point.timestamp.nanos →
          ∀ window, opened offset before (getWindow offset point.timestamp windowSize) =
              some window → window.Covers point.timestamp.nanos := by
  have none : OwnPoints (init now : State L F) := by
    intro key window present
    cases present
  rw [throughout_iff_along OwnPoints none (fun _ own => own) Event.Positive
    (fun _ _ _ own positive fits stepped => ownPoints_step own positive fits stepped)
    (fun _ _ _ _ good => fits_of_ownPoints good) positive]
  constructor
  · intro fits before point windowSize after split s run
    exact (fits_iff_opened run point windowSize).mp (fits before _ after split s run)
  · intro fits before event after split s run
    cases event with
    | insert point windowSize =>
      exact (fits_iff_opened run point windowSize).mpr
        (fits before point windowSize after split s run)
    | advance now order lateOrder => trivial

def utc (_ : Unit) (_ : Int) : Int := 0

/-- Values that are whole numbers. -/
structure Whole where
  number : Int

instance : Zero Whole := ⟨⟨0⟩⟩

instance : One Whole := ⟨⟨1⟩⟩

instance : Add Whole := ⟨fun a b => ⟨a.number + b.number⟩⟩

def reading (nanos : Int) : DataPoint Unit Whole := ⟨⟨nanos, ()⟩, 1, ∅⟩

def minuteReadings : List (Event Unit Whole) :=
  [0, 70, 30].map fun seconds => .insert (reading (seconds * second)) (60 * second)

theorem windows_own_points_minutes :
    (∀ event ∈ minuteReadings, event.Positive) ∧
      Throughout (step utc) OwnPoints (init 0) minuteReadings := by
  have positive : ∀ event ∈ minuteReadings, event.Positive := by
    simp [minuteReadings, Event.Positive, second]
  have regular : ∀ event ∈ minuteReadings, event.Regular utc 60 := by
    simp [minuteReadings, Event.Regular, utc]
  refine ⟨positive, (windows_own_points_iff utc 0 positive).mpr ?_⟩
  intro before point windowSize after split s _ _ window first
  refine covers_of_regular (by decide : (0 : Int) < 60) ?_ ?_ first
  · exact fun event member => regular event (split ▸ mem_append_left _ member)
  · exact regular _ (split ▸ mem_append_right _ mem_cons_self)

/-- An hour starts with the minute it starts in, and a tenth of a second with its second. -/
theorem foreign_points_stored :
    (∃ s window, exec (step utc) (init 0) [.insert (reading 0) (60 * second),
        .insert (reading (90 * second)) (3600 * second)] = some s ∧
      s.wts.windows.lookup ⟨0, none⟩ = some window ∧ ∃ point ∈ window.points,
        ¬ window.Covers point.timestamp.nanos) ∧
    ∃ s window, exec (step utc) (init 0) [.insert (reading 0) 100000000,
        .insert (reading 100000000) 100000000] = some s ∧
      s.wts.windows.lookup ⟨0, none⟩ = some window ∧ ∃ point ∈ window.points,
        ¬ window.Covers point.timestamp.nanos := by
  refine ⟨⟨_, _, rfl, rfl, reading (90 * second), ?_, by decide⟩,
    ⟨_, _, rfl, rfl, reading 100000000, ?_, by decide⟩⟩
  · exact mem_cons_of_mem _ mem_cons_self
  · exact mem_cons_of_mem _ mem_cons_self

end

section

variable [DecidableEq L] [Zero F] [One F] [Add F] {off : L → Int → Int} {seconds : Int}

/-- Closed windows end before the watermark, which stays behind the clock. -/
structure Behind (s : State L F) : Prop where
  closed : ∀ key window, s.wts.windows.lookup key = some window → window.closed = true →
    window.stop.nanos < s.wts.watermark
  watermark : s.wts.watermark ≤ s.clock - 30 * second

variable {window : Window L F}

omit [DecidableEq L] [Zero F] [One F] [Add F] in
theorem closeBefore_of_closed {watermark} (closed : window.closed = true) :
    window.closeBefore watermark = window := by
  rw [Window.closeBefore, if_neg]
  exact fun both => Bool.noConfusion (closed.symm.trans both.2)

variable {s : State L F} {k : RFC3339}

/-- An Insert leaves a closed window as it is: the window ends before the watermark, so a point
for it is late. -/
theorem lookup_insert_closed (behind : Behind s) {p windowSize}
    (fits : Fits off s (.insert p windowSize)) (hit : s.wts.windows.lookup k = some window)
    (closed : window.closed = true) :
    (insert off s.wts p windowSize).windows.lookup k = some window := by
  rw [lookup_windows_insert]
  split
  next same =>
    have late : p.timestamp.nanos < s.wts.watermark := by
      by_contra timely
      have covers := fits (Int.not_lt.mp timely) window (same ▸ hit)
      have ended := behind.closed k window hit closed
      have before := covers.2
      omega
    rw [if_pos late, found, ← same, hit, getD_some]
  · exact hit

omit [DecidableEq L] [Zero F] [One F] [Add F] in
theorem behind_init (now) : Behind (init now : State L F) := by
  refine ⟨fun k window hit => ?_, ?_⟩
  · cases hit
  · exact Int.sub_le_sub_left (by decide) now

variable {next : State L F} {event : Event L F}

theorem behind_step (behind : Behind s) (steady : Steady s event)
    (took : step off s event = some next) : Behind next := by
  cases event with
  | insert p windowSize =>
    cases took
    refine ⟨fun k window hit closed => ?_, ?_⟩
    · rw [watermark_insert]
      rw [lookup_windows_insert] at hit
      split at hit
      · cases hit
        have met : (found off s.wts p windowSize).closed = true := by
          split at closed <;> exact closed
        have ended := behind.closed (getWindow off p.timestamp windowSize)
          (found off s.wts p windowSize)
        unfold found at met ended ⊢
        cases hit : s.wts.windows.lookup (getWindow off p.timestamp windowSize) with
        | none =>
          rw [hit] at met
          cases met
        | some window =>
          rw [hit] at met ended
          split <;> exact ended rfl met
      · exact behind.closed k window hit closed
    · rw [watermark_insert]
      exact behind.watermark
  | advance now order lateOrder =>
    obtain ⟨⟨ranges, -⟩, rfl⟩ := guard_some.mp took
    refine ⟨fun k window hit closed => ?_, le_refl _⟩
    replace hit := (ranges.lookup_rangeUpdate _ k).symm.trans hit
    obtain ⟨before, stored, rfl⟩ := map_eq_some_iff.mp hit
    have adv : s.wts.watermark ≤ now - 30 * second :=
      behind.watermark.trans (Int.sub_le_sub_right steady _)
    unfold Window.closeBefore at closed ⊢
    split at closed
    next ended =>
      rw [if_pos ended]
      exact ended.1
    next still =>
      rw [if_neg still]
      exact (behind.closed k before stored closed).trans_le adv

theorem lookup_closed_step (behind : Behind s) (fits : Fits off s event)
    (took : step off s event = some next) (hit : s.wts.windows.lookup k = some window)
    (closed : window.closed = true) : next.wts.windows.lookup k = some window := by
  cases event with
  | insert p windowSize =>
    cases took
    exact lookup_insert_closed behind fits hit closed
  | advance now order lateOrder =>
    obtain ⟨⟨ranges, -⟩, rfl⟩ := guard_some.mp took
    refine (ranges.lookup_rangeUpdate _ k).trans ?_
    rw [hit, Option.map_some, closeBefore_of_closed closed]

/-- With one size of whole seconds, zones of whole minutes and a clock that does not go back, a
closed window stays as it is. -/
theorem closed_window_final (offset : L → Int → Int) (now : Int) {seconds : Int}
    (positive : 0 < seconds) {before after : List (Event L F)}
    (regular : ∀ event ∈ before ++ after, event.Regular offset seconds) {s final : State L F}
    (run : exec (steadyStep offset) (init now) before = some s)
    (rest : exec (steadyStep offset) s after = some final) {key : RFC3339} {window : Window L F}
    (present : s.wts.windows.lookup key = some window) (closed : window.closed = true) :
    final.wts.windows.lookup key = some window := by
  obtain ⟨run, steady⟩ := exec_of_guard run
  obtain ⟨rest, steadyRest⟩ := exec_of_guard rest
  have behind : Behind s := exec_guarded Behind (behind_init now)
    (fun _ _ _ behind steady stepped => behind_step behind steady stepped) run steady
  have fits : Along (step offset) (Fits offset) s after :=
    (fits_of_regular positive regular).rest run
  refine (exec_guarded (fun s => Behind s ∧ s.wts.windows.lookup key = some window)
    ⟨behind, present⟩ ?_ rest (steadyRest.and fits)).2
  rintro state event next ⟨behind, present⟩ ⟨steady, fits⟩ stepped
  exact ⟨behind_step behind steady stepped, lookup_closed_step behind fits stepped present closed⟩

theorem closed_window_final_late :
    ∃ s final window, exec (steadyStep utc) (init 0) [.insert (reading 0) (60 * second),
        .advance (120 * second) [⟨0, none⟩] []] = some s ∧
      exec (steadyStep utc) s [.insert (reading second) (60 * second)] = some final ∧
      s.wts.windows.lookup ⟨0, none⟩ = some window ∧ window.closed = true ∧
      final.wts.windows.lookup ⟨0, none⟩ = some window := by
  have regular : ∀ event ∈ [.insert (reading 0) (60 * second),
      .advance (120 * second) [⟨0, none⟩] []] ++ [.insert (reading second) (60 * second)],
      Event.Regular utc 60 event := by
    simp [Event.Regular, utc]
  exact ⟨_, _, _, rfl, rfl, rfl, rfl, closed_window_final utc 0 (by decide) regular rfl rfl rfl rfl⟩

/-- The texts of two windows are the same where a zone is not a whole number of minutes. -/
theorem closed_window_reopened :
    ∃ s final window window', exec (steadyStep fun loc _ => loc) (init (100 * second))
        [.insert (⟨⟨50 * second, 30⟩, 1, ∅⟩ : DataPoint Int Whole) second,
          .advance (100 * second) [⟨80, some 0⟩] []] = some s ∧
      s.wts.windows.lookup ⟨80, some 0⟩ = some window ∧ window.closed = true ∧
      exec (steadyStep fun loc _ => loc) s
        [.insert (⟨⟨79 * second, 1⟩, 1, ∅⟩ : DataPoint Int Whole) second] = some final ∧
      final.wts.windows.lookup ⟨80, some 0⟩ = some window' ∧
      window.points.length = 1 ∧ window'.points.length = 2 := by
  refine ⟨_, _, _, _, rfl, rfl, rfl, rfl, rfl, rfl, rfl⟩

end

end

/- Where inserted points end up: in a window, or among the late data, which holds one point for
each timestamp. -/
open GoMap Runs

variable {L F : Type} [DecidableEq L]

def inWindows (wts : Store L F) : Multiset (DataPoint L F) :=
  wts.windows.gather fun window => (window.points : Multiset (DataPoint L F))

def inLateData (wts : Store L F) : Multiset (DataPoint L F) :=
  wts.lateData.gather fun point => {point}

/-- The points in the windows and in the late data are those inserted. -/
def Conserved (s : State L F) : Prop :=
  inWindows s.wts + inLateData s.wts = s.inserted

/-- Nothing late is newer than the watermark was when it came. -/
def LateBehind (wts : Store L F) : Prop :=
  ∀ timestamp point, wts.lateData.lookup timestamp = some point → timestamp.nanos < wts.watermark

section

variable [Zero F] [One F] [Add F] (off : L → Int → Int) (wts : Store L F)
  (p : DataPoint L F) (size : Int)

omit [DecidableEq L] [Zero F] [One F] [Add F] in
theorem found_points :
    ((found off wts p size).points : Multiset (DataPoint L F)) =
      ((wts.windows.lookup (getWindow off p.timestamp size)).map
        fun w => (w.points : Multiset (DataPoint L F))).getD 0 := by
  unfold found
  cases wts.windows.lookup (getWindow off p.timestamp size) <;> rfl

theorem inWindows_insert :
    inWindows (insert off wts p size) =
      inWindows wts + if p.timestamp.nanos < wts.watermark then 0 else {p} := by
  have new := gather_insert (fun w => (w.points : Multiset (DataPoint L F)))
    wts.windows (getWindow off p.timestamp size)
    (if p.timestamp.nanos < wts.watermark then found off wts p size
      else (found off wts p size).add p)
  rw [← found_points off wts, ← windows_insert] at new
  have grown : (((if p.timestamp.nanos < wts.watermark then found off wts p size
      else (found off wts p size).add p).points : List (DataPoint L F)) :
        Multiset (DataPoint L F)) =
      (if p.timestamp.nanos < wts.watermark then 0 else {p}) + (found off wts p size).points := by
    split
    · exact (zero_add _).symm
    · exact add_comm ((found off wts p size).points : Multiset (DataPoint L F)) {p}
  rw [grown, ← add_assoc] at new
  exact add_right_cancel new

/-- A late point takes the place of another with its timestamp. -/
theorem inLateData_insert :
    inLateData (insert off wts p size) + (if p.timestamp.nanos < wts.watermark then
          ((wts.lateData.lookup p.timestamp).map fun old => {old}).getD 0 else 0) =
      inLateData wts + if p.timestamp.nanos < wts.watermark then {p} else 0 := by
  unfold insert inLateData
  dsimp only
  split
  · exact gather_insert _ _ _ _
  · rfl

theorem lateBehind_insert (behind : LateBehind wts) :
    LateBehind (insert off wts p size) := by
  intro ts late hit
  rw [watermark_insert]
  unfold insert at hit
  dsimp only at hit
  split at hit
  next old =>
    rcases lookup_insert_cases hit with ⟨rfl, -⟩ | ⟨-, stored⟩
    · exact old
    · exact behind ts late stored
  · exact behind ts late hit

end

variable (wts : Store L F) {now : Int} {order : List RFC3339} {lateOrder : List (Time L)}

theorem inWindows_advance (ranges : Ranges order wts.windows) :
    inWindows (advanceWatermark wts now order lateOrder) = inWindows wts := by
  refine gather_congr fun k => ?_
  refine (congrArg _ (ranges.lookup_rangeUpdate _ k)).trans ?_
  rw [Option.map_map]
  refine congrArg (fun f => (wts.windows.lookup k).map f) (funext fun w => ?_)
  exact congrArg _ (closeBefore_points _ w)

/-- The pass deletes nothing: it looks for late data between the old watermark and the new one. -/
theorem lookup_lateData_advance (behind : LateBehind wts) (timestamp) :
    (advanceWatermark wts now order lateOrder).lateData.lookup timestamp =
      wts.lateData.lookup timestamp := by
  refine (lookup_foldl_erase_ite lateOrder _ wts.lateData timestamp).trans ?_
  split
  next deleted =>
    cases present : wts.lateData.lookup timestamp with
    | none => rfl
    | some p =>
      have old := behind timestamp p present
      omega
  · rfl

section

variable [Zero F] [One F] [Add F] {off : L → Int → Int} {s next : State L F} {event : Event L F}

/-- A late Insert does not meet late data with its timestamp. -/
def Fresh (s : State L F) : Event L F → Prop
  | .insert point _ => point.timestamp.nanos < s.wts.watermark →
      s.wts.lateData.lookup point.timestamp = none
  | .advance _ _ _ => True

theorem lateBehind_step (behind : Behind s) (late : LateBehind s.wts) (steady : Steady s event)
    (took : step off s event = some next) : LateBehind next.wts := by
  cases event with
  | insert p size =>
    cases took
    exact lateBehind_insert off s.wts p size late
  | advance now order lateOrder =>
    obtain ⟨-, rfl⟩ := guard_some.mp took
    intro ts p hit
    have adv : s.wts.watermark ≤ now - 30 * second :=
      behind.watermark.trans (Int.sub_le_sub_right steady _)
    rw [lookup_lateData_advance s.wts late] at hit
    exact (late ts p hit).trans_le adv

/-- What an Insert loses is the late point whose place it takes. -/
theorem conserved_insert_iff (off : L → Int → Int) (p : DataPoint L F) (size : Int)
    (inv : Conserved s) :
    Conserved { s with
        wts := insert off s.wts p size
        inserted := s.inserted ++ [p] } ↔
      Fresh s (.insert p size) := by
  have windows := inWindows_insert off s.wts p size
  have lates := inLateData_insert off s.wts p size
  have put : ((s.inserted ++ [p] : List (DataPoint L F)) : Multiset (DataPoint L F)) =
      inWindows s.wts + inLateData s.wts + {p} := by
    rw [inv]
    rfl
  unfold Conserved Fresh
  dsimp only
  rw [put, windows]
  by_cases late : p.timestamp.nanos < s.wts.watermark
  · rw [if_pos late, if_pos late] at lates
    rw [if_pos late, add_zero, add_assoc, add_right_inj, ← lates, left_eq_add]
    cases present : s.wts.lateData.lookup p.timestamp with
    | none => simp
    | some old => simp [late]
  · rw [if_neg late, if_neg late, add_zero, add_zero] at lates
    rw [if_neg late, lates, add_right_comm]
    simp [late]

theorem conserved_step (late : LateBehind s.wts) (inv : Conserved s) (fresh : Fresh s event)
    (took : step off s event = some next) : Conserved next := by
  cases event with
  | insert p size =>
    cases took
    exact (conserved_insert_iff off p size inv).mpr fresh
  | advance now order lateOrder =>
    obtain ⟨⟨ranges, -⟩, rfl⟩ := guard_some.mp took
    have same : inLateData (advanceWatermark s.wts now order lateOrder) = inLateData s.wts :=
      gather_congr fun ts => by rw [lookup_lateData_advance s.wts late]
    unfold Conserved
    rw [inWindows_advance s.wts ranges, same]
    exact inv

/-- With a clock that does not go back, every inserted point is in a window or in the late data
exactly when no late Insert has the timestamp of late data. -/
theorem points_conserved_iff (offset : L → Int → Int) (now : Int) (events : List (Event L F)) :
    Throughout (steadyStep offset) Conserved (init now) events ↔
      Along (steadyStep offset) Fresh (init now) events := by
  refine throughout_iff_along
    (fun s => Behind s ∧ LateBehind s.wts ∧ Conserved s) ?_ (fun _ held => held.2.2)
    (fun _ => True) ?_ ?_ (fun _ _ => trivial)
  · refine ⟨behind_init now, fun timestamp point present => ?_, rfl⟩
    cases present
  · rintro s event next ⟨behind, late, conserved⟩ - fresh stepped
    obtain ⟨steady, stepped⟩ := Option.ite_none_right_eq_some.mp stepped
    exact ⟨behind_step behind steady stepped, lateBehind_step behind late steady stepped,
      conserved_step late conserved fresh stepped⟩
  · rintro s event ⟨-, -, conserved⟩ - good
    cases event with
    | insert point windowSize =>
      exact (conserved_insert_iff offset point windowSize conserved).mp (good _ (if_pos trivial))
    | advance now order lateOrder => trivial

/-- Of two late points with one timestamp the second takes the place of the first. -/
theorem late_point_overwritten :
    ∃ s, exec (steadyStep utc) (init (100 * second))
        [.insert (⟨⟨10 * second, ()⟩, 1, ∅⟩ : DataPoint Unit Whole) (60 * second),
          .insert ⟨⟨10 * second, ()⟩, 0, ∅⟩ (60 * second)] = some s ∧
      ¬ Conserved s := by
  refine ⟨_, rfl, fun conserved => ?_⟩
  have empty : Conserved (init (100 * second) : State Unit Whole) := rfl
  have first := (conserved_insert_iff utc ⟨⟨10 * second, ()⟩, 1, ∅⟩ (60 * second) empty).mpr
    fun _ => rfl
  have fresh := (conserved_insert_iff utc _ (60 * second) first).mp conserved (by decide)
  cases fresh

end

end AsyncPractice.WindowedTimeSeries
