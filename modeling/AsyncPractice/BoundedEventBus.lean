import Mathlib.Data.List.DropRight
import Mathlib.Data.List.Sort
import AsyncPractice.GoMap
import AsyncPractice.GoSlice
import AsyncPractice.MachineInt
import AsyncPractice.Runs

/- BoundedEventBus of solution17_event_bus.go: the history of its events, kept in a ring, and the
lists of its subscribers, kept in slices. -/
namespace AsyncPractice.BoundedEventBus

open GoSlice List MachineInt Runs

variable {E : Type}

structure RingBuffer (E : Type) where
  buffer : List E
  head : Int64
  tail : Int64
  size : Int64

def newRingBuffer (zero : E) (size : Int64) : RingBuffer E :=
  ⟨List.replicate size.toNatClampNeg zero, 0, 0, size⟩

/-- An index out of range panics, which is `none`. -/
def index (buffer : List E) (i : Int64) : Option Nat :=
  if 0 ≤ i ∧ i.toNatClampNeg < buffer.length then some i.toNatClampNeg else none

def RingBuffer.add (rb : RingBuffer E) (event : E) : Option (RingBuffer E) :=
  (index rb.buffer (rb.tail % rb.size)).map fun i =>
    let rb := { rb with buffer := rb.buffer.set i event, tail := rb.tail + 1 }
    if rb.tail - rb.head > rb.size then { rb with head := rb.tail - rb.size } else rb

/-- A negative length panics as well. -/
def RingBuffer.getRecent (rb : RingBuffer E) (n : Int64) : Option (List E) :=
  let count := rb.tail - rb.head
  let n := if n > count then count else n
  if n < 0 then none
  else (List.range n.toNatClampNeg).mapM fun i =>
    (index rb.buffer ((rb.tail - n + .ofNat i) % rb.size)).bind (rb.buffer[·]?)

/-- The ring after some events, which fill its `n` slots in turn. -/
structure Holds (n : Nat) (rb : RingBuffer E) (events : List E) : Prop where
  positive : 0 < n
  size : rb.size.toInt = n
  slots : rb.buffer.length = n
  tail : rb.tail.toInt = events.length
  head : rb.head.toInt = (events.length - n : Nat)
  latest : ∀ k < events.length, events.length ≤ k + n → rb.buffer[k % n]? = events[k]?

variable {n : Nat} {rb : RingBuffer E} {es : List E} {size : Int64} {H F : Type}

theorem new_holds (zero : E) (pos : 1 ≤ size) :
    Holds size.toNatClampNeg (newRingBuffer zero size) [] := by
  have bound : (1 : Int) ≤ size.toInt := Int64.le_iff_toInt_le.mp pos
  have clamped := size.toNat_toInt
  refine ⟨by omega, ?_, length_replicate, rfl, ?_, by simp⟩
  · show size.toInt = size.toNatClampNeg
    omega
  · simp [newRingBuffer]

theorem Holds.index (holds : Holds n rb es) {pos : Int64} {k : Nat} (position : pos.toInt = k) :
    index rb.buffer (pos % rb.size) = some (k % n) := by
  obtain ⟨low, slot⟩ := mod_position position holds.size
  unfold BoundedEventBus.index
  rw [slot, holds.slots, if_pos ⟨low, Nat.mod_lt k holds.positive⟩]

theorem Holds.add (holds : Holds n rb es) (few : es.length + 1 < 2 ^ 63) (e) :
    ∃ next, rb.add e = some next ∧ Holds n next (es ++ [e]) := by
  obtain ⟨pos, size, slots, tail, head, latest⟩ := holds
  have moved : (rb.tail + 1).toInt = es.length + 1 := by
    rw [toInt_add_one (by omega), tail]
  have behind : (rb.tail + 1 - rb.head).toInt = (es.length + 1 - (es.length - n : Nat) : Int) := by
    rw [toInt_sub_of_nonneg (by omega) (by omega), moved, head]
  have start : (rb.tail + 1 - rb.size).toInt = (es.length + 1 - n : Int) := by
    rw [toInt_sub_of_nonneg (by omega) (by omega), moved, size]
  have stored : ∀ k < (es ++ [e]).length, (es ++ [e]).length ≤ k + n →
      (rb.buffer.set (es.length % n) e)[k % n]? = (es ++ [e])[k]? := by
    intro k lt near
    rw [length_append, length_singleton] at lt near
    by_cases old : k < es.length
    · rw [getElem?_set_ne (slot_ne old (by omega)).symm, getElem?_append_left old]
      exact latest k old (by omega)
    · obtain rfl : k = es.length := by omega
      have slot := Nat.mod_lt es.length pos
      rw [getElem?_set_self (by omega)]
      simp
  unfold RingBuffer.add
  rw [Holds.index ⟨pos, size, slots, tail, head, latest⟩ tail]
  refine ⟨_, rfl, ?_⟩
  dsimp only
  split
  next full =>
    rw [gt_iff_lt, Int64.lt_iff_toInt_lt, behind, size] at full
    refine ⟨pos, size, (length_set ..).trans slots, ?_, ?_, stored⟩
    · rw [length_append, length_singleton]
      exact moved
    · dsimp only
      rw [start, length_append, length_singleton]
      omega
  next free =>
    rw [gt_iff_lt, Int64.lt_iff_toInt_lt, behind, size] at free
    refine ⟨pos, size, (length_set ..).trans slots, ?_, ?_, stored⟩
    · rw [length_append, length_singleton]
      exact moved
    · dsimp only
      rw [head, length_append, length_singleton]
      omega

theorem run_holds (zero : E) (pos : 1 ≤ size) (few : es.length < 2 ^ 63) :
    ∃ rb, exec RingBuffer.add (newRingBuffer zero size) es = some rb ∧
      Holds size.toNatClampNeg rb es := by
  induction es using reverseRecOn with
  | nil => exact ⟨_, rfl, new_holds zero pos⟩
  | append_singleton es e ih =>
    rw [length_append, length_singleton] at few
    obtain ⟨rb, run, holds⟩ := ih (by omega)
    obtain ⟨t, added, still⟩ := holds.add few e
    exact ⟨t, exec_snoc_some.mpr ⟨rb, run, added⟩, still⟩

theorem mapM_getElem? {entries : List E} {read : Nat → Option E}
    (hit : ∀ i < entries.length, read i = entries[i]?) :
    (List.range entries.length).mapM read = some entries := by
  induction entries using reverseRecOn with
  | nil => rfl
  | append_singleton entries last ih =>
    have pre : ∀ i < entries.length, read i = entries[i]? := by
      intro i lt
      rw [hit i (by simp; omega), getElem?_append_left lt]
    have newest : read entries.length = some last := by
      rw [hit entries.length (by simp)]
      simp
    rw [length_append, length_singleton, range_succ, mapM_append, ih pre]
    simp [newest]

theorem Holds.getRecent (holds : Holds n rb es) {wanted : Int64} (natural : 0 ≤ wanted) :
    rb.getRecent wanted = some (es.rtake (min wanted.toNatClampNeg (min n es.length))) := by
  have tail := holds.tail
  have head := holds.head
  have count : (rb.tail - rb.head).toInt = (min n es.length : Nat) := by
    rw [toInt_sub_of_nonneg (by omega) (by omega), tail, head]
    omega
  have asked : (0 : Int) ≤ wanted.toInt := Int64.le_iff_toInt_le.mp natural
  have clamped := wanted.toNat_toInt
  unfold RingBuffer.getRecent
  dsimp only
  generalize given : min wanted.toNatClampNeg (min n es.length) = r
  generalize chosen : (if wanted > rb.tail - rb.head then rb.tail - rb.head else wanted) = m
  have number : m.toInt = r := by
    rw [← chosen]
    split <;> rename_i order <;> rw [gt_iff_lt, Int64.lt_iff_toInt_lt, count] at order <;> omega
  have length : (es.rtake r).length = m.toNatClampNeg := by
    rw [← Int64.toNat_toInt, number, rtake, length_drop]
    omega
  have natural : ¬ m < 0 := by
    rw [Int64.lt_iff_toInt_lt, number]
    exact Int.not_lt.mpr (Int.natCast_nonneg r)
  rw [if_neg natural, ← length]
  apply mapM_getElem?
  intro i lt
  rw [rtake, length_drop] at lt
  have position : (rb.tail - m + .ofNat i).toInt = (es.length - r + i : Nat) := by
    obtain ⟨turns, whole⟩ := toInt_add_ofNat (rb.tail - m) i
    rw [toInt_sub_of_nonneg (by omega) (by omega), tail, number] at whole
    have low := (rb.tail - m + .ofNat i).le_toInt
    have high := (rb.tail - m + .ofNat i).toInt_lt
    have small := rb.tail.toInt_lt
    omega
  rw [holds.index position, rtake, getElem?_drop]
  exact holds.latest _ (by omega) (by omega)

/-- What a history is for: as long as fewer than 2^63 events are added, `GetRecent` gives the
latest of them, as many as are wanted, kept and there. -/
theorem getRecent_latest (zero : E) {size : Int64} (positive : 1 ≤ size) {events : List E}
    (few : events.length < 2 ^ 63) {wanted : Int64} (natural : 0 ≤ wanted) :
    ∃ rb, exec RingBuffer.add (newRingBuffer zero size) events = some rb ∧
      rb.getRecent wanted = some
        (events.rtake (min wanted.toNatClampNeg (min size.toNatClampNeg events.length))) := by
  obtain ⟨rb, run, holds⟩ := run_holds zero positive few
  exact ⟨rb, run, holds.getRecent natural⟩

theorem getRecent_of_five :
    ∃ rb, exec RingBuffer.add (newRingBuffer 0 3) [1, 2, 3, 4, 5] = some rb ∧
      rb.getRecent 2 = some [4, 5] :=
  getRecent_latest 0 (by decide) (by decide) (by decide)

/-- The position of the 2^63th event is negative, and so is its index. -/
theorem add_panics :
    exec RingBuffer.add (newRingBuffer 0 3) (List.replicate (2 ^ 63 + 1) 0) = none := by
  have few : (replicate (2 ^ 63 - 1) 0).length < 2 ^ 63 := by
    rw [length_replicate]
    omega
  obtain ⟨rb, run, holds⟩ := run_holds 0 (by decide : (1 : Int64) ≤ 3) few
  have last : rb.tail = Int64.maxValue := by
    rw [← Int64.toInt_inj, holds.tail, length_replicate]
    rfl
  have three : rb.size = 3 := by
    rw [← Int64.toInt_inj, holds.size]
    rfl
  obtain ⟨next, added, tail, size⟩ :
      ∃ next, rb.add 0 = some next ∧ next.tail = Int64.minValue ∧ next.size = 3 := by
    unfold RingBuffer.add
    rw [holds.index holds.tail]
    refine ⟨_, rfl, ?_⟩
    dsimp only
    split <;> exact ⟨by rw [last]; rfl, three⟩
  have panics : next.add 0 = none := by
    unfold RingBuffer.add BoundedEventBus.index
    rw [tail, size, if_neg fun inside => absurd inside.1 (by decide)]
    rfl
  rw [show 2 ^ 63 + 1 = 2 ^ 63 - 1 + 1 + 1 by norm_num, replicate_succ', replicate_succ',
    exec_append, exec_snoc_some.mpr ⟨rb, run, added⟩]
  simp [exec, panics]

/-- `H` are the handlers and `F` the filters, which Subscribe only passes on. -/
structure EventSubscriber (H F : Type) where
  id : String
  handler : H
  priority : Int64
  filter : F
  deriving Inhabited

/-- The lists of the event types, as slices into arrays. -/
structure Bus (H F : Type) where
  memory : Memory (EventSubscriber H F)
  subscribers : GoMap String Slice

def newBus [Inhabited H] [Inhabited F] : Bus H F := ⟨.blank, ∅⟩

/-- A call of Subscribe, with the spare room that the runtime gives to the arrays it allocates. -/
structure Registration (H F : Type) where
  eventType : String
  subscriber : EventSubscriber H F
  spare : Nat
  spare' : Nat

def splice (m : Memory (EventSubscriber H F)) (subscribers : Slice) (call : Registration H F) :
    Memory (EventSubscriber H F) × Slice :=
  match (m.contents subscribers).findIdx?
      fun existing => call.subscriber.priority > existing.priority with
  | some i =>
    let (m, single) := m.allocate [call.subscriber] 0
    let (m, rest) := m.append single (m.contents (subscribers.drop i)) call.spare
    m.append (subscribers.take i) (m.contents rest) call.spare'
  | none => m.append subscribers [call.subscriber] call.spare

/-- The slice of a type without subscribers is nil: there is nothing to loop over, and the append
allocates an array. -/
def subscribe (eb : Bus H F) (call : Registration H F) : Bus H F :=
  let (memory, subscribers) := match eb.subscribers.lookup call.eventType with
    | none => eb.memory.allocate [call.subscriber] call.spare
    | some subscribers => splice eb.memory subscribers call
  ⟨memory, eb.subscribers.insert call.eventType subscribers⟩

def Bus.list (eb : Bus H F) (eventType : String) : List (EventSubscriber H F) :=
  ((eb.subscribers.lookup eventType).map eb.memory.contents).getD []

/-- Before the first subscriber of lower priority. -/
def place (subscribers : List (EventSubscriber H F)) (subscriber : EventSubscriber H F) :
    List (EventSubscriber H F) :=
  subscribers.orderedInsert (fun a b => b.priority < a.priority) subscriber

variable {subscribers : List (EventSubscriber H F)} {subscriber : EventSubscriber H F}

theorem place_eq (subscribers) (subscriber : EventSubscriber H F) :
    place subscribers subscriber =
      match subscribers.findIdx? fun old => subscriber.priority > old.priority with
      | some i => subscribers.take i ++ subscriber :: subscribers.drop i
      | none => subscribers ++ [subscriber] := by
  unfold place
  induction subscribers with
  | nil => rfl
  | cons x subscribers ih =>
    rw [orderedInsert, findIdx?_cons, ih]
    by_cases lower : x.priority < subscriber.priority
    · simp [lower]
    · cases subscribers.findIdx? fun old => subscriber.priority > old.priority <;> simp [lower]

def Ordered (subscribers : List (EventSubscriber H F)) : Prop :=
  subscribers.Pairwise fun a b => b.priority ≤ a.priority

theorem Ordered.place (ord : Ordered subscribers) (subscriber) :
    Ordered (place subscribers subscriber) := by
  unfold BoundedEventBus.place
  induction ord with
  | nil => exact pairwise_singleton _ _
  | @cons x subscribers pre ord ih =>
    rw [orderedInsert]
    split
    next lower =>
      have below := Int64.le_of_lt lower
      have rest := fun other mem => Int64.le_trans (pre other mem) below
      exact .cons (forall_mem_cons.mpr ⟨below, rest⟩) (.cons pre ord)
    next notLower =>
      refine .cons (fun other mem => ?_) ih
      rcases (mem_orderedInsert _).mp mem with rfl | mem
      · exact Int64.not_lt.mp notLower
      · exact pre other mem

/-- The subscribers of each priority keep their order, and the new one comes last of its own. -/
theorem filter_place (ord : Ordered subscribers) (priority) :
    (place subscribers subscriber).filter (·.priority = priority) =
      (subscribers ++ [subscriber]).filter (·.priority = priority) := by
  unfold place
  induction ord with
  | nil => rfl
  | @cons x subscribers pre ord ih =>
    rw [orderedInsert]
    split
    next lower =>
      by_cases own : subscriber.priority = priority
      · have none : (x :: subscribers).filter (·.priority = priority) = [] := by
          rw [filter_eq_nil_iff]
          intro other mem eq
          have le : other.priority ≤ x.priority := by
            rcases mem_cons.mp mem with rfl | later
            · exact Int64.le_refl _
            · exact pre other later
          rw [of_decide_eq_true eq, ← own] at le
          exact Int64.not_lt.mpr le lower
        rw [filter_append, filter_cons, none]
        simp [own]
      · rw [filter_append, filter_cons]
        simp [own]
    · rw [cons_append, filter_cons, filter_cons, ih]

structure Spliced {α : Type} (m : Memory α) (s : Slice) (list : List α) (m' : Memory α)
    (s' : Slice) : Prop where
  contents : m'.contents s' = list
  array : s'.array = s.array ∨ m.next ≤ s'.array
  allocated : s'.array < m'.next
  next : m.next ≤ m'.next
  others : ∀ t : Slice, t.array < m.next → t.array ≠ s.array → m'.contents t = m.contents t

variable {s : Slice}

theorem Spliced.append {α : Type} {m} (allocated : s.array < m.next) (vs : List α) (spare) :
    Spliced m s (m.contents s ++ vs) (m.append s vs spare).1 (m.append s vs spare).2 where
  contents := contents_append m s vs spare
  array := (append_cases m s vs spare).imp (·.1) fun new => new.1.ge
  allocated := allocated_append allocated vs spare
  next := next_le_append m s vs spare
  others _ known ne := contents_append_other ⟨known, fun shared => absurd shared ne⟩

variable {m : Memory (EventSubscriber H F)}

theorem splice_spliced (allocated : s.array < m.next) (c) :
    Spliced m s (place (m.contents s) c.subscriber) (splice m s c).1 (splice m s c).2 := by
  rw [place_eq]
  unfold splice
  cases found : (m.contents s).findIdx? fun existing =>
      c.subscriber.priority > existing.priority with
  | none => exact .append allocated _ _
  | some i =>
    dsimp only
    have one := contents_allocate m [c.subscriber] 0
    have old : ∀ t : Slice, t.array < m.next →
        (m.allocate [c.subscriber] 0).1.contents t = m.contents t :=
      fun t known => contents_allocate_other known
    have number : (m.allocate [c.subscriber] 0).2.array = m.next := rfl
    have later : (m.allocate [c.subscriber] 0).1.next = m.next + 1 := rfl
    generalize m.allocate [c.subscriber] 0 = new at one old number later ⊢
    have rest := Spliced.append (by omega : new.2.array < new.1.next)
      (new.1.contents (s.drop i)) c.spare
    rw [one, old (s.drop i) allocated, contents_drop] at rest
    rw [old (s.drop i) allocated, contents_drop]
    generalize new.1.append new.2 ((m.contents s).drop i) c.spare = tail at rest ⊢
    have grown := rest.next
    have kept : ∀ t : Slice, t.array < m.next → tail.1.contents t = m.contents t := by
      intro t known
      rw [rest.others t (by omega) (by omega), old t known]
    have within : i ≤ s.len := by
      rw [← length_contents m s]
      exact (findIdx?_eq_some_iff_findIdx_eq.mp found).1.le
    have final := Spliced.append (by show s.array < _; omega : (s.take i).array < tail.1.next)
      (tail.1.contents tail.2) c.spare'
    refine ⟨?_, final.array.imp_right fun new => by omega, final.allocated, ?_, ?_⟩
    · rw [final.contents, kept (s.take i) allocated, contents_take m s within, rest.contents]
      rfl
    · have more := final.next
      omega
    · intro t known ne
      rw [final.others t (by omega) ne, kept t known]

structure Separate (eb : Bus H F) : Prop where
  allocated : ∀ eventType s, eb.subscribers.lookup eventType = some s → s.array < eb.memory.next
  apart : ∀ first second s t, first ≠ second → eb.subscribers.lookup first = some s →
    eb.subscribers.lookup second = some t → s.array ≠ t.array

theorem newBus_separate [Inhabited H] [Inhabited F] : Separate (newBus : Bus H F) := by
  constructor <;> simp [newBus]

variable {eb : Bus H F}

theorem Separate.replace (separate : Separate eb) {eventType : String} {list}
    (contents : m.contents s = list) (new : s.array < m.next) (next : eb.memory.next ≤ m.next)
    (others : ∀ other t, other ≠ eventType → eb.subscribers.lookup other = some t →
      s.array ≠ t.array ∧ m.contents t = eb.memory.contents t) :
    Separate ⟨m, eb.subscribers.insert eventType s⟩ ∧
      ∀ other, (Bus.mk m (eb.subscribers.insert eventType s)).list other =
        if other = eventType then list else eb.list other := by
  refine ⟨⟨?_, ?_⟩, ?_⟩
  · intro other t hit
    rcases GoMap.lookup_insert_cases hit with ⟨-, rfl⟩ | ⟨-, old⟩
    · exact new
    · exact (separate.allocated other t old).trans_le next
  · intro x y a b different left right
    rcases GoMap.lookup_insert_cases left with ⟨rfl, rfl⟩ | ⟨ne, pre⟩
    · rcases GoMap.lookup_insert_cases right with ⟨rfl, -⟩ | ⟨ne, pre⟩
      · exact absurd rfl different
      · exact (others y b ne pre).1
    · rcases GoMap.lookup_insert_cases right with ⟨rfl, rfl⟩ | ⟨-, other⟩
      · exact (others x a ne pre).1.symm
      · exact separate.apart x y a b different pre other
  · intro other
    unfold Bus.list
    dsimp only
    rw [GoMap.lookup_insert_ite]
    split
    · exact contents
    next ne =>
      cases hit : eb.subscribers.lookup other with
      | none => rfl
      | some t => exact (others other t ne hit).2

theorem subscribe_spec (separate : Separate eb) (c) :
    Separate (subscribe eb c) ∧ ∀ eventType, (subscribe eb c).list eventType =
        if eventType = c.eventType then place (eb.list c.eventType) c.subscriber
        else eb.list eventType := by
  unfold subscribe
  cases known : eb.subscribers.lookup c.eventType with
  | none =>
    have empty : place (eb.list c.eventType) c.subscriber = [c.subscriber] := by
      rw [Bus.list, known]
      rfl
    rw [empty]
    apply separate.replace (contents_allocate eb.memory [c.subscriber] c.spare)
      (Nat.lt_succ_self _) (Nat.le_succ _)
    intro other t _ hit
    have new := separate.allocated other t hit
    exact ⟨new.ne', contents_allocate_other new⟩
  | some s =>
    have spliced := splice_spliced (separate.allocated _ s known) c
    have old : eb.list c.eventType = eb.memory.contents s := by
      rw [Bus.list, known]
      rfl
    rw [old]
    apply separate.replace spliced.contents spliced.allocated spliced.next
    intro other t ne hit
    have new := separate.allocated other t hit
    have different := separate.apart other c.eventType t s ne hit known
    refine ⟨?_, spliced.others t new different⟩
    rcases spliced.array with same | fresh
    · exact fun shared => different (shared.symm.trans same)
    · omega

theorem run_separate [Inhabited H] [Inhabited F] (cs : List (Registration H F)) :
    Separate (cs.foldl subscribe newBus) :=
  foldlRecOn cs subscribe newBus_separate fun _ held c _ => (subscribe_spec held c).1

/-- Each list of subscribers is what was registered for its type, by falling priority and among
equals in the order of the registrations. -/
theorem subscribers_stably_sorted [Inhabited H] [Inhabited F] (calls : List (Registration H F))
    (eventType : String) :
    let list := (calls.foldl subscribe newBus).list eventType
    let registered := (calls.filter (·.eventType = eventType)).map (·.subscriber)
    list ~ registered ∧ list.Pairwise (fun a b => b.priority ≤ a.priority) ∧
      ∀ priority : Int64, list.filter (·.priority = priority) =
        registered.filter (·.priority = priority) := by
  induction calls using reverseRecOn with
  | nil => exact ⟨.refl _, .nil, fun _ => rfl⟩
  | append_singleton calls call ih =>
    obtain ⟨perm, ordered, stable⟩ := ih
    dsimp only
    rw [foldl_concat, (subscribe_spec (run_separate calls) call).2,
      filter_append, map_append, filter_singleton]
    by_cases here : eventType = call.eventType
    · subst here
      rw [if_pos rfl, decide_eq_true rfl]
      refine ⟨?_, Ordered.place ordered _, fun priority => ?_⟩
      · exact (perm_orderedInsert _ _ _).trans
          ((perm.cons _).trans (perm_append_singleton _ _).symm)
      · rw [filter_place ordered, filter_append, filter_append, stable priority]
        rfl
    · have other : ¬ call.eventType = eventType := fun same => here same.symm
      rw [if_neg here, decide_eq_false other]
      simpa using ⟨perm, ordered, stable⟩

end AsyncPractice.BoundedEventBus
